import AlibC.AlibStringScan

/-! What type the text of a string stands for. A string is given by the memory from its pointer
on. -/
namespace AlibC

open CLang

inductive StringType where
  | int | double | bool | string
deriving DecidableEq, Repr

/-- `TRUE_STRING` and `FALSE_STRING`. -/
def trueString : Block := [116, 114, 117, 101]

def falseString : Block := [102, 97, 108, 115, 101]

def isDigit (c : UInt8) : Bool := 48 ≤ c && c ≤ 57

/-- The second loop of `is_int`. -/
def isIntLoop : Block → Bool → Outcome Bool
  | [], _ => .error .outOfBounds
  | c :: str, rVal =>
    if c ≠ 0 ∧ isWhitespace c = false then
      if c < 48 ∨ c > 57 then .ok false else isIntLoop str true
    else .ok rVal

def isInt (str : Block) : Outcome Bool := do
  let k ← skipWhile isWhitespace str
  isIntLoop (str.drop k) false

/-- The first loop of the functions that are given a length. -/
def skipWhitespaceN : Block → Nat → Outcome (Block × Nat)
  | str, 0 => .ok (str, 0)
  | [], _ + 1 => .error .outOfBounds
  | c :: str, len + 1 =>
    if isWhitespace c then skipWhitespaceN str len else .ok (c :: str, len + 1)

/-- The second loop of `is_int_n` does not look for a terminator. -/
def isIntNLoop : Block → Nat → Bool → Outcome Bool
  | _, 0, rVal => .ok rVal
  | [], _ + 1, _ => .error .outOfBounds
  | c :: str, len + 1, rVal =>
    if isWhitespace c then .ok rVal
    else if c < 48 ∨ c > 57 then .ok false
    else isIntNLoop str len true

def isIntN (str : Block) (len : Int) : Outcome Bool := do
  let (str, len) ← skipWhitespaceN str len.toNat
  isIntNLoop str len false

/-- A dot is noted and then refused like any other character that is no digit. -/
def isDoubleLoop : Block → Bool → Bool → Outcome Bool
  | [], _, _ => .error .outOfBounds
  | c :: str, rVal, dotFound =>
    if c ≠ 0 ∧ isWhitespace c = false then
      let dotFound := dotFound || c = 46
      if c < 48 ∨ c > 57 then .ok false else isDoubleLoop str true dotFound
    else .ok rVal

def isDouble (str : Block) : Outcome Bool := do
  let k ← skipWhile isWhitespace str
  isDoubleLoop (str.drop k) false false

def isDoubleNLoop : Block → Nat → Bool → Bool → Outcome Bool
  | _, 0, rVal, _ => .ok rVal
  | [], _ + 1, _, _ => .error .outOfBounds
  | c :: str, len + 1, rVal, dotFound =>
    if c ≠ 0 ∧ isWhitespace c = false then
      let dotFound := dotFound || c = 46
      if c < 48 ∨ c > 57 then .ok false else isDoubleNLoop str len true dotFound
    else .ok rVal

def isDoubleN (str : Block) (len : Nat) : Outcome Bool := do
  let (str, len) ← skipWhitespaceN str len
  isDoubleNLoop str len false false

/-- `strncasecmp(str, keyword, keyword_len) == 0 && is_whitespace(str[str_len])`. -/
def keywordEnds (str keyword : Block) (strLen : Nat) : Outcome Bool := do
  let order ← strncasecmp keyword.length str keyword
  if order = 0 then
    let c ← load (some str) strLen 1
    return c.all isWhitespace
  else return false

/-- The whitespace in front is passed over, but `str_len` still counts it. -/
def isBoolN (str : Block) (strLen : Nat) : Outcome Bool := do
  let k ← skipWhile isWhitespace str
  if strLen < trueString.length then return false
  else
    let isTrue ← keywordEnds (str.drop k) trueString strLen
    if isTrue then return true else keywordEnds (str.drop k) falseString strLen

def isBool (str : Block) : Outcome Bool := do
  let n ← strlen (some str)
  isBoolN str n

/-- The three tests in the order of `get_string_type`. -/
def firstType (int double bool : Outcome Bool) : Outcome StringType := do
  if ← int then return .int
  else if ← double then return .double
  else if ← bool then return .bool
  else return .string

def getStringType (str : Block) : Outcome StringType :=
  firstType (isInt str) (isDouble str) (isBool str)

def getStringTypeN (str : Block) (len : Int) : Outcome StringType :=
  firstType (isIntN str len) (isDoubleN str (toSize len)) (isBoolN str (toSize len))

/-- The token of a text: what lies between the whitespace in front and the next one. -/
def token (text : Block) : Block :=
  (text.dropWhile isWhitespace).takeWhile fun c => !isWhitespace c

/-- One or more digits. -/
def digits (t : Block) : Bool := !t.isEmpty && t.all isDigit

variable {s text rest : Block}

theorem not_digit_iff (c : UInt8) : (c < 48 ∨ c > 57) ↔ isDigit c = false := by
  rw [isDigit, Bool.and_eq_false_iff, decide_eq_false_iff_not, decide_eq_false_iff_not,
    UInt8.not_le, UInt8.not_le]

/-- The first of the characters of a token decides whether the loops go on. -/
theorem digits_step {c : UInt8} {t : Block} {rVal : Bool} {next : Outcome Bool}
    (h : next = .ok (t.all isDigit && (true || !t.isEmpty))) :
    (if c < 48 ∨ c > 57 then .ok false else next) =
      .ok ((c :: t).all isDigit && (rVal || !(c :: t).isEmpty)) := by
  rw [List.all_cons, List.isEmpty_cons, Bool.not_false, Bool.or_true, Bool.and_true]
  cases hc : isDigit c with
  | false => rw [if_pos ((not_digit_iff c).mpr hc), Bool.false_and]
  | true =>
    rw [if_neg (fun hno => by rw [(not_digit_iff c).mp hno] at hc; cases hc), h, Bool.true_or,
      Bool.and_true, Bool.true_and]

theorem isIntLoop_eq (h0 : 0 ∉ text) (rVal : Bool) :
    isIntLoop (text ++ 0 :: rest) rVal =
      .ok ((text.takeWhile fun c => !isWhitespace c).all isDigit &&
        (rVal || !(text.takeWhile fun c => !isWhitespace c).isEmpty)) := by
  induction text generalizing rVal with
  | nil => simp [isIntLoop]
  | cons c text ih =>
    rw [List.mem_cons, not_or] at h0
    rw [List.cons_append, isIntLoop]
    cases hc : isWhitespace c with
    | true =>
      rw [if_neg (fun h => Bool.noConfusion h.2), List.takeWhile_cons_of_neg (by simp [hc])]
      simp
    | false =>
      rw [if_pos ⟨Ne.symm h0.1, rfl⟩, List.takeWhile_cons_of_pos (by simp [hc])]
      exact digits_step (ih h0.2 true)

theorem isDoubleLoop_eq (str : Block) (rVal dotFound : Bool) :
    isDoubleLoop str rVal dotFound = isIntLoop str rVal := by
  induction str generalizing rVal dotFound with
  | nil => rfl
  | cons c str ih =>
    rw [isDoubleLoop, isIntLoop]
    simp only [ih]

theorem skipWhile_of_exists {skip : UInt8 → Bool} (h : ∃ c ∈ s, skip c = false) :
    skipWhile skip (s ++ rest) = .ok (s.takeWhile skip).length := by
  induction s with
  | nil =>
    obtain ⟨c, hc, -⟩ := h
    cases hc
  | cons b s ih =>
    rw [List.cons_append, skipWhile]
    cases hb : skip b with
    | false =>
      rw [List.takeWhile_cons_of_neg (by simp [hb])]
      rfl
    | true =>
      have hs : ∃ c ∈ s, skip c = false := by
        obtain ⟨c, hc, hskip⟩ := h
        cases hc with
        | head => rw [hb] at hskip; cases hskip
        | tail _ hc => exact ⟨c, hc, hskip⟩
      rw [if_pos rfl, ih hs, List.takeWhile_cons_of_pos hb]
      rfl

theorem drop_takeWhile (skip : UInt8 → Bool) (s rest : Block) :
    (s ++ rest).drop (s.takeWhile skip).length = s.dropWhile skip ++ rest := by
  conv => lhs; rw [← @List.takeWhile_append_dropWhile _ skip s, List.append_assoc]
  rw [List.takeWhile_append_dropWhile, List.drop_left]

/-- Whitespace in front of a text is passed over up to its terminator at most. -/
theorem skipWhile_text (text rest : Block) :
    skipWhile isWhitespace (text ++ 0 :: rest) = .ok (text.takeWhile isWhitespace).length := by
  have hskip := @skipWhile_of_exists (text ++ [0]) rest isWhitespace ⟨0, by simp, rfl⟩
  rw [List.append_assoc, List.singleton_append] at hskip
  rw [hskip, List.takeWhile_append, List.takeWhile_cons_of_neg (by decide), List.append_nil]
  split
  · rw [‹(text.takeWhile isWhitespace).length = text.length›]
  · rfl

theorem isInt_eq (h0 : 0 ∉ text) (rest : Block) :
    isInt (text ++ 0 :: rest) = .ok (digits (token text)) := by
  have htail : 0 ∉ text.dropWhile isWhitespace := fun h => h0 (List.dropWhile_suffix _ |>.mem h)
  rw [isInt, skipWhile_text, ok_bind, drop_takeWhile, isIntLoop_eq htail, digits, token,
    Bool.false_or, Bool.and_comm]

theorem isDouble_eq (str : Block) : isDouble str = isInt str := by
  rw [isDouble, isInt]
  simp only [isDoubleLoop_eq]

theorem skipWhitespaceN_eq (s rest : Block) :
    skipWhitespaceN (s ++ rest) s.length =
      .ok (s.dropWhile isWhitespace ++ rest, (s.dropWhile isWhitespace).length) := by
  induction s with
  | nil => cases rest <;> rfl
  | cons c s ih =>
    rw [List.cons_append, List.length_cons, skipWhitespaceN]
    cases hc : isWhitespace c with
    | false =>
      rw [List.dropWhile_cons_of_neg (by simp [hc])]
      rfl
    | true =>
      rw [if_pos rfl, ih, List.dropWhile_cons_of_pos hc]

theorem isIntNLoop_eq (s rest : Block) (rVal : Bool) :
    isIntNLoop (s ++ rest) s.length rVal =
      .ok ((s.takeWhile fun c => !isWhitespace c).all isDigit &&
        (rVal || !(s.takeWhile fun c => !isWhitespace c).isEmpty)) := by
  induction s generalizing rVal with
  | nil => cases rest <;> simp [isIntNLoop]
  | cons c s ih =>
    rw [List.cons_append, List.length_cons, isIntNLoop]
    cases hc : isWhitespace c with
    | true =>
      rw [if_pos rfl, List.takeWhile_cons_of_neg (by simp [hc])]
      simp
    | false =>
      rw [if_neg Bool.false_ne_true, List.takeWhile_cons_of_pos (by simp [hc])]
      exact digits_step (ih true)

theorem isDoubleNLoop_eq (s rest : Block) (rVal dotFound : Bool) :
    isDoubleNLoop (s ++ rest) s.length rVal dotFound =
      .ok ((cstr (s.takeWhile fun c => !isWhitespace c)).all isDigit &&
        (rVal || !(cstr (s.takeWhile fun c => !isWhitespace c)).isEmpty)) := by
  induction s generalizing rVal dotFound with
  | nil => cases rest <;> simp [isDoubleNLoop, cstr]
  | cons c s ih =>
    rw [List.cons_append, List.length_cons, isDoubleNLoop]
    by_cases hc : c ≠ 0 ∧ isWhitespace c = false
    · rw [if_pos hc, List.takeWhile_cons_of_pos (by simp [hc.2]), cstr,
        List.takeWhile_cons_of_pos (by simp [hc.1])]
      exact digits_step (ih true _)
    · have hnil : cstr ((c :: s).takeWhile fun c => !isWhitespace c) = [] := by
        cases hw : isWhitespace c with
        | true => rw [List.takeWhile_cons_of_neg (by simp [hw])]; rfl
        | false =>
          have h0 : c = 0 := by simpa [hw] using hc
          rw [List.takeWhile_cons_of_pos (by simp [hw]), cstr,
            List.takeWhile_cons_of_neg (by simp [h0])]
      rw [if_neg hc, hnil]
      simp

/-- `is_int_n` looks at the bytes of its length, and finds a token of digits. -/
theorem isIntN_eq (s rest : Block) :
    isIntN (s ++ rest) s.length = .ok (digits (token s)) := by
  rw [isIntN, Int.toNat_natCast, skipWhitespaceN_eq, ok_bind]
  dsimp only
  rw [isIntNLoop_eq, digits, token, Bool.false_or, Bool.and_comm]

/-- `is_double_n` does the same, but a terminator ends its token. -/
theorem isDoubleN_eq (s rest : Block) :
    isDoubleN (s ++ rest) s.length = .ok (digits (cstr (token s))) := by
  rw [isDoubleN, skipWhitespaceN_eq, ok_bind]
  dsimp only
  rw [isDoubleNLoop_eq, digits, token, Bool.false_or, Bool.and_comm]

theorem cstr_of_not_mem {t : Block} (h : 0 ∉ t) : cstr t = t := by
  have h' := @cstr_append t [] h
  rw [List.append_nil] at h'
  exact h'.trans (List.append_nil t)

theorem zero_not_mem_token (h0 : 0 ∉ text) : 0 ∉ token text := fun h =>
  h0 ((List.dropWhile_suffix _).mem ((List.takeWhile_prefix _).mem h))

/-- The recognisers that are given the length of a text agree with those that look for its
terminator, whatever follows that. -/
theorem counted_agree (h0 : 0 ∉ text) (hlen : text.length ≤ INT32_MAX) (rest : Block) :
    getStringTypeN (text ++ 0 :: rest) text.length = getStringType (text ++ 0 :: rest) ∧
    isIntN (text ++ 0 :: rest) text.length = isInt (text ++ 0 :: rest) ∧
    isDoubleN (text ++ 0 :: rest) text.length = isDouble (text ++ 0 :: rest) := by
  have hint : isIntN (text ++ 0 :: rest) text.length = isInt (text ++ 0 :: rest) := by
    rw [isIntN_eq, isInt_eq h0]
  have hdouble : isDoubleN (text ++ 0 :: rest) text.length = isDouble (text ++ 0 :: rest) := by
    rw [isDoubleN_eq, isDouble_eq, isInt_eq h0, cstr_of_not_mem (zero_not_mem_token h0)]
  have hbool : isBool (text ++ 0 :: rest) = isBoolN (text ++ 0 :: rest) text.length := by
    rw [isBool, strlen_eq h0, ok_bind]
  have hsize : toSize (text.length : Int) = text.length :=
    toSize_nat (Nat.lt_of_le_of_lt hlen (by decide))
  refine ⟨?_, hint, hdouble⟩
  rw [getStringTypeN, getStringType, hsize, hint, hdouble, hbool]

theorem counted_agree_word : 0 ∉ [32, 116] ∧
    getStringTypeN ([32, 116] ++ 0 :: [9]) 2 = getStringType ([32, 116] ++ 0 :: [9]) ∧
    isIntN ([32, 116] ++ 0 :: [9]) 2 = isInt ([32, 116] ++ 0 :: [9]) ∧
    isDoubleN ([32, 116] ++ 0 :: [9]) 2 = isDouble ([32, 116] ++ 0 :: [9]) :=
  ⟨by decide, @counted_agree [32, 116] (by decide) (by decide) [9]⟩

end AlibC
