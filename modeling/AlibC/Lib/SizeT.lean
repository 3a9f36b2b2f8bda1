import Mathlib.Algebra.Group.Int.Defs
import Mathlib.Algebra.Group.Nat.Defs
import Mathlib.Tactic.Common

/-! Integer conversions of a 64-bit C implementation. A `size_t` is a natural number
below `2 ^ 64`; the operations below are the ones that may wrap. -/
namespace CLang

/-- The largest `size_t`, and the largest `unsigned long`. -/
abbrev ULONG_MAX : Nat := 18446744073709551615

/-- The largest `int32_t`, and the largest `int`. -/
abbrev INT32_MAX : Nat := 2147483647

/-- The largest `long`. -/
abbrev LONG_MAX : Nat := 9223372036854775807

/-- No C object is larger than this many bytes. -/
abbrev PTRDIFF_MAX : Nat := 9223372036854775807

abbrev SizeT := Fin (ULONG_MAX + 1)

theorem lt_of_le_max {n : Nat} (h : n ≤ ULONG_MAX) : n < 2 ^ 64 := Nat.lt_succ_of_le h

theorem SizeT.lt (n : SizeT) : n.val < 2 ^ 64 := n.isLt

def sizeAdd (a b : Nat) : Nat := (a + b) % 2 ^ 64

def sizeSub (a b : Nat) : Nat := (a + (2 ^ 64 - b)) % 2 ^ 64

def sizeMul (a b : Nat) : Nat := (a * b) % 2 ^ 64

/-- A `size_t` read as a signed `long`. -/
def toLong (n : Nat) : Int := if n < 2 ^ 63 then (n : Int) else (n : Int) - 2 ^ 64

/-- The value stored when an integer is assigned to an `int` or `int32_t`. -/
def toInt32 (n : Int) : Int := (n + 2 ^ 31) % 2 ^ 32 - 2 ^ 31

/-- The value stored in a `char`, which is signed. -/
def toInt8 (n : Int) : Int := (n + 2 ^ 7) % 2 ^ 8 - 2 ^ 7

/-- A signed integer converted to `size_t`. -/
def toSize (n : Int) : Nat := (n % 2 ^ 64).toNat

/-- An integer converted to `unsigned int`, which has 32 bits. -/
def toUInt (n : Int) : Nat := (n % 2 ^ 32).toNat

def uintAdd (a b : Nat) : Nat := (a + b) % 2 ^ 32

def uintSub (a b : Nat) : Nat := (a + (2 ^ 32 - b)) % 2 ^ 32

def uintMul (a b : Nat) : Nat := (a * b) % 2 ^ 32

theorem sizeAdd_eq {a b : Nat} (h : a + b < 2 ^ 64) : sizeAdd a b = a + b :=
  Nat.mod_eq_of_lt h

theorem sizeSub_eq {a b : Nat} (ha : a < 2 ^ 64) (h : b ≤ a) : sizeSub a b = a - b := by
  unfold sizeSub
  omega

/-- No sum exceeds the largest number of its type. -/
theorem sizeAdd_le (m n : Nat) : ¬sizeAdd m n > ULONG_MAX :=
  Nat.not_lt.mpr (Nat.le_of_lt_succ (Nat.mod_lt _ (Nat.two_pow_pos 64)))

/-- Subtracting more than there is wraps around. -/
theorem sizeSub_wrap {a b : Nat} (hb : b < 2 ^ 64) (h : a < b) :
    sizeSub a b = a + 2 ^ 64 - b := by
  unfold sizeSub
  omega

/-- Both operations wrap as one. -/
theorem sizeSub_sizeAdd {a b c : Nat} (hle : c ≤ a + b) (hc : c < 2 ^ 64) :
    sizeSub (sizeAdd a b) c = (a + b - c) % 2 ^ 64 := by
  unfold sizeSub sizeAdd
  omega

theorem sizeMul_eq {a b : Nat} (h : a * b < 2 ^ 64) : sizeMul a b = a * b :=
  Nat.mod_eq_of_lt h

/-- Two numbers in order. -/
theorem ordered_eq (m n : Nat) : (if m > n then (n, m) else (m, n)) = (min m n, max m n) := by
  split
  · rw [Nat.min_eq_right (by omega), Nat.max_eq_left (by omega)]
  · rw [Nat.min_eq_left (by omega), Nat.max_eq_right (by omega)]

theorem toLong_eq {n : Nat} (h : n < 2 ^ 63) : toLong n = n := if_pos h

theorem toLong_neg {n : Nat} (h : 2 ^ 63 ≤ n) : toLong n = (n : Int) - 2 ^ 64 :=
  if_neg (by omega)

/-- A difference of sizes that is below zero as a `long`. -/
theorem toLong_sub {a b : Nat} (h : a ≤ b) (hb : b < 2 ^ 63) :
    toLong (sizeSub a b) = -(b - a : Nat) := by
  by_cases he : a = b
  · rw [he, sizeSub_eq (by omega) (Nat.le_refl _), Nat.sub_self]
    rfl
  · have hlt : a < b := by omega
    rw [sizeSub_wrap (by omega) hlt, toLong_neg (by omega)]
    omega

theorem toInt32_eq {n : Int} (hl : -2 ^ 31 ≤ n) (hu : n < 2 ^ 31) : toInt32 n = n := by
  unfold toInt32
  omega

theorem toInt8_eq {n : Int} (hl : -2 ^ 7 ≤ n) (hu : n < 2 ^ 7) : toInt8 n = n := by
  unfold toInt8
  omega

theorem toSize_nat {n : Nat} (h : n < 2 ^ 64) : toSize n = n := by
  unfold toSize
  omega

theorem toUInt_nat {n : Nat} (h : n < 2 ^ 32) : toUInt n = n := by
  unfold toUInt
  omega

/-- The way through an `int` changes nothing. -/
theorem toUInt_toInt32 (n : Int) : toUInt (toInt32 n) = toUInt n := by
  unfold toUInt toInt32
  omega

theorem toUInt_toInt32_pred {n : Nat} (h : n + 1 < 2 ^ 32) :
    toUInt (toInt32 (toInt32 (n + 1 : Nat) - 1)) = n := by
  unfold toUInt toInt32
  omega

theorem uintAdd_eq {a b : Nat} (h : a + b < 2 ^ 32) : uintAdd a b = a + b :=
  Nat.mod_eq_of_lt h

theorem uintSub_eq {a b : Nat} (ha : a < 2 ^ 32) (h : b ≤ a) : uintSub a b = a - b := by
  unfold uintSub
  omega

theorem uintMul_eq {a b : Nat} (h : a * b < 2 ^ 32) : uintMul a b = a * b :=
  Nat.mod_eq_of_lt h

end CLang
