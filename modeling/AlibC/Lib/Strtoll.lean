import AlibC.Lib.SizeT

/-! `strtoll` in base ten, on the characters of a string. -/
namespace CLang

/-- `isspace` in the C locale. -/
def isSpace (c : UInt8) : Bool := c == 32 || (9 ≤ c && c ≤ 13)

def isDecimal (c : UInt8) : Bool := 48 ≤ c && c ≤ 57

/-- The sign is a minus, and what follows the sign. -/
def afterSign : List UInt8 → Bool × List UInt8
  | 45 :: s => (true, s)
  | 43 :: s => (false, s)
  | s => (false, s)

/-- The digits of the number that the string begins with. -/
def numeral (s : List UInt8) : List UInt8 := (afterSign (s.dropWhile isSpace)).2.takeWhile isDecimal

def decimal (ds : List UInt8) : Nat := ds.foldl (fun n d => 10 * n + (d.toNat - 48)) 0

/-- A number beyond a `long long` becomes the nearest one, and no number is zero. -/
def strtoll (s : List UInt8) : Int :=
  if (afterSign (s.dropWhile isSpace)).1 then max (-2 ^ 63) (-(decimal (numeral s) : Int))
  else min (2 ^ 63 - 1) (decimal (numeral s) : Int)

theorem strtoll_lt (s : List UInt8) : strtoll s < 2 ^ 63 := by
  unfold strtoll
  split <;> omega

theorem le_strtoll (s : List UInt8) : -2 ^ 63 ≤ strtoll s := by
  unfold strtoll
  split <;> omega

theorem strtoll_no_numeral {s : List UInt8} (h : numeral s = []) : strtoll s = 0 := by
  unfold strtoll
  rw [h]
  split <;> decide

/-- A blank and a sign stand before the digits, something else behind them. -/
example : strtoll [32, 45, 49, 50, 46, 116] = -12 ∧ strtoll [120, 49] = 0 := by decide

end CLang
