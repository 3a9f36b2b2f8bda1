import AlibC.AlibString
import AlibC.Lib.CString

/-! Looking for whitespace in a string. -/
namespace AlibC

open CLang

/-- A space, a tab, a line feed or a carriage return. -/
def isWhitespace (c : UInt8) : Bool := c == 32 || c == 9 || c == 10 || c == 13

/-- The pointer at position `i` of a block is moved on while `skip` holds, and is the result if it
is not at a terminator then. -/
def findNext (skip : UInt8 → Bool) (str : Option Block) (i : Nat) : Outcome (Option Nat) :=
  match str with
  | none => .ok none
  | some blk => do
    let k ← skipWhile skip (blk.drop i)
    let c ← load (some blk) (i + k) 1
    if c = [0] then return none else return some (i + k)

def findNextWhitespace (str : Option Block) (i : Nat) : Outcome (Option Nat) :=
  findNext (fun c => !isWhitespace c && c != 0) str i

/-- Here a terminator is passed over like whitespace. -/
def findNextNonWhitespace (str : Option Block) (i : Nat) : Outcome (Option Nat) :=
  findNext (fun c => isWhitespace c || c == 0) str i

/-- The first byte of a text, from position `i` on, that `p` holds of. -/
def firstFrom (p : UInt8 → Bool) (text : Block) (i : Nat) : Option Nat :=
  ((text.drop i).findIdx? p).map (i + ·)

variable {skip : UInt8 → Bool} {text rest : Block} {i : Nat}

/-- What the pointer stops at decides the result. -/
theorem findNext_append {blk pre : Block} {c : UInt8} (hblk : blk.drop i = pre ++ c :: rest)
    (hpre : ∀ b ∈ pre, skip b = true) (hc : skip c = false) :
    findNext skip (some blk) i = .ok (if c = 0 then none else some (i + pre.length)) := by
  have hcell : (blk.drop (i + pre.length)).take 1 = [c] := by
    rw [← List.drop_drop, hblk, List.drop_left]
    rfl
  have hin : i + pre.length + 1 ≤ blk.length := by
    have hlen := congrArg List.length hblk
    simp only [List.length_drop, List.length_append, List.length_cons] at hlen
    omega
  simp only [findNext, hblk, skipWhile_append hpre hc, ok_bind, load_some hin, hcell,
    List.cons.injEq, and_true]
  split <;> rfl

/-- A result is where a byte lies that is not skipped. -/
theorem findNext_inv {blk : Block} {r : Option Nat} (h : findNext skip (some blk) i = .ok r) :
    ∃ pre c post, blk.drop i = pre ++ c :: post ∧ skip c = false ∧ (∀ b ∈ pre, skip b = true) ∧
      r = if c = 0 then none else some (i + pre.length) := by
  obtain ⟨k, hk, -⟩ := bind_eq_ok.mp h
  obtain ⟨pre, c, post, hblk, -, hc, hpre⟩ := skipWhile_inv hk
  rw [findNext_append hblk hpre hc] at h
  cases h
  exact ⟨pre, c, post, hblk, hc, hpre, rfl⟩

/-- The memory from a position of a string on. -/
theorem drop_string (hi : i ≤ text.length) (rest : Block) :
    (text ++ 0 :: rest).drop i = text.drop i ++ 0 :: rest := List.drop_append_of_le_length hi

theorem ne_zero_of_mem_drop (h : 0 ∉ text) : ∀ b ∈ text.drop i, b ≠ 0 :=
  fun _ hb h0 => h (h0 ▸ List.mem_of_mem_drop hb)

/-- Whitespace is found where it is, and the search ends at the terminator. -/
theorem findNextWhitespace_eq (h : 0 ∉ text) (hi : i ≤ text.length) (rest : Block) :
    findNextWhitespace (some (text ++ 0 :: rest)) i = .ok (firstFrom isWhitespace text i) := by
  have hdrop := drop_string hi rest
  have hne := ne_zero_of_mem_drop (i := i) h
  have hskip : ∀ b ∈ text.drop i, isWhitespace b = false →
      (!isWhitespace b && b != 0) = true := by
    intro b hb hw
    rw [hw]
    simpa using hne b hb
  rcases findIdx?_cases isWhitespace (text.drop i) with
    ⟨hnone, hall⟩ | ⟨pre, c, post, htext, hsome, hc, hpre⟩
  · rw [findNextWhitespace, findNext_append hdrop (fun b hb => hskip b hb (hall b hb)) rfl,
      firstFrom, hnone]
    rfl
  · have hmem : c ∈ text.drop i := htext ▸ List.mem_append_right pre List.mem_cons_self
    have hpre' : ∀ b ∈ pre, (!isWhitespace b && b != 0) = true := fun b hb =>
      hskip b (htext ▸ List.mem_append_left _ hb) (hpre b hb)
    rw [htext, List.append_assoc] at hdrop
    rw [findNextWhitespace, findNext_append hdrop hpre' (by rw [hc]; rfl), firstFrom, hsome,
      if_neg (hne c hmem)]
    rfl

/-- What is no whitespace is found where it is. -/
theorem findNextNonWhitespace_eq (h : 0 ∉ text) (hi : i ≤ text.length)
    (hc : ∃ c ∈ text.drop i, isWhitespace c = false) (rest : Block) :
    findNextNonWhitespace (some (text ++ 0 :: rest)) i =
      .ok (firstFrom (fun c => !isWhitespace c) text i) := by
  have hdrop := drop_string hi rest
  have hne := ne_zero_of_mem_drop (i := i) h
  rcases findIdx?_cases (fun c => !isWhitespace c) (text.drop i) with
    ⟨-, hall⟩ | ⟨pre, c, post, htext, hsome, hc, hpre⟩
  · obtain ⟨c, hmem, hc⟩ := hc
    have hno := hall c hmem
    rw [hc] at hno
    cases hno
  · have hmem : c ∈ text.drop i := htext ▸ List.mem_append_right pre List.mem_cons_self
    have hpre' : ∀ b ∈ pre, (isWhitespace b || b == 0) = true := by
      intro b hb
      have hw := hpre b hb
      rw [Bool.not_eq_false'] at hw
      rw [hw]
      rfl
    have hc' : (isWhitespace c || c == 0) = false := by
      rw [Bool.not_eq_true'] at hc
      rw [hc]
      simpa using hne c hmem
    rw [htext, List.append_assoc] at hdrop
    rw [findNextNonWhitespace, findNext_append hdrop hpre' hc', firstFrom, hsome,
      if_neg (hne c hmem)]
    rfl

/-- Behind nothing but whitespace there is no answer: what is found lies behind the terminator. -/
theorem findNextNonWhitespace_beyond (hi : i ≤ text.length)
    (hall : ∀ c ∈ text.drop i, isWhitespace c = true) {r : Option Nat}
    (hr : findNextNonWhitespace (some (text ++ 0 :: rest)) i = .ok r) :
    ∃ j, r = some j ∧ text.length < j := by
  obtain ⟨pre, c, post, hblk, hc, hpre, rfl⟩ := findNext_inv hr
  rw [Bool.or_eq_false_iff] at hc
  have hc0 : c ≠ 0 := by simpa using hc.2
  refine ⟨i + pre.length, if_neg hc0, Nat.lt_of_not_le fun hle => ?_⟩
  -- a pointer that stops in the string stops at its whitespace or at its terminator
  have hget : (text.drop i ++ 0 :: rest)[pre.length]? = some c := by
    rw [← drop_string hi, hblk, List.getElem?_append_right (Nat.le_refl _), Nat.sub_self]
    rfl
  rcases Nat.lt_or_eq_of_le hle with hlt | heq
  · rw [List.getElem?_append_left (by rw [List.length_drop]; omega)] at hget
    have hw := hall c (List.mem_of_getElem? hget)
    rw [hc.1] at hw
    cases hw
  · have hlen : (text.drop i).length = pre.length := by rw [List.length_drop]; omega
    rw [List.getElem?_append_right (Nat.le_of_eq hlen), hlen, Nat.sub_self] at hget
    cases hget
    exact hc0 rfl

/-- What the two searches have to give, whatever lies behind the string, also when nothing does. -/
def ScansWithin (text : Block) (i : Nat) : Prop := ∀ rest : Block,
  findNextWhitespace (some (text ++ 0 :: rest)) i = .ok (firstFrom isWhitespace text i) ∧
    findNextNonWhitespace (some (text ++ 0 :: rest)) i =
      .ok (firstFrom (fun c => !isWhitespace c) text i)

/-- Both searches are right, and stay in the string, exactly where something else than whitespace
is ahead. -/
theorem scansWithin_iff (h : 0 ∉ text) (hi : i ≤ text.length) :
    ScansWithin text i ↔ ∃ c ∈ text.drop i, isWhitespace c = false := by
  constructor
  · intro hscan
    by_contra hno
    have hall : ∀ c ∈ text.drop i, isWhitespace c = true := fun c hc => by
      by_contra hw
      exact hno ⟨c, hc, Bool.eq_false_iff.mpr hw⟩
    -- with nothing behind the string there is no byte the search could end at
    have hr := (hscan []).2
    obtain ⟨j, hj, hlt⟩ := findNextNonWhitespace_beyond hi hall hr
    obtain ⟨k, hk, rfl⟩ := Option.map_eq_some_iff.mp hj
    obtain ⟨hk, -⟩ := List.findIdx?_eq_some_iff_getElem.mp hk
    rw [List.length_drop] at hk
    omega
  · intro hc rest
    exact ⟨findNextWhitespace_eq h hi rest, findNextNonWhitespace_eq h hi hc rest⟩

theorem scansWithin_word : 0 ∉ [32, 97] ∧ 0 ≤ [32, 97].length ∧
    (ScansWithin [32, 97] 0 ↔ ∃ c ∈ ([32, 97] : Block).drop 0, isWhitespace c = false) :=
  ⟨by decide, by decide, scansWithin_iff (by decide) (by decide)⟩

/-- Behind a single space the terminator is passed over and a byte behind the string is found. -/
theorem not_scansWithin_space :
    findNextNonWhitespace (some ([32] ++ 0 :: [65])) 0 = .ok (some 2) ∧
    findNextNonWhitespace (some ([32] ++ 0 :: [])) 0 = .error .outOfBounds ∧
    ¬ScansWithin [32] 0 := by
  refine ⟨by decide, by decide, fun hscan => ?_⟩
  have hr := (hscan [65]).2
  revert hr
  decide

end AlibC
