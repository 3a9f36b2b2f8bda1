import AlibC.AlibString
import AlibC.Error
import AlibC.Lib.CString
import Mathlib.Data.List.DropRight

/-! `StrParser`: a range of a string and an iterator in it, and trimming the range. -/
namespace AlibC

open CLang

/-- The pointers `str.begin`, `str.end`, `it.begin` and `it.end` are positions in the memory of the
string. Only `it.begin` may be `NULL`. -/
structure StrParser where
  strBegin : Nat
  strEnd : Nat
  itBegin : Option Nat
  itEnd : Nat
deriving DecidableEq, Repr

namespace StrParser

def reset (parser : StrParser) : StrParser :=
  { parser with itBegin := none, itEnd := parser.strBegin }

def init (parser : StrParser) (str strEnd : Option Nat) : AlibError × StrParser :=
  match str, strEnd with
  | some str, some strEnd =>
    if str > strEnd then (.badArg, parser)
    else (.ok, reset { parser with strBegin := str, strEnd := strEnd })
  | _, _ => (.badArg, parser)

/-- The loop over the characters to trim for the byte `b`, with `n` of them to go: whether it comes
to their end. The characters are compared before the end is tested. -/
def notInSet : Block → Nat → UInt8 → Outcome Bool
  | [], _, _ => .error .outOfBounds
  | c :: chars, n, b => if c ≠ b ∧ n ≠ 0 then notInSet chars (n - 1) b else .ok (n = 0)

/-- The first loop of `StrParser_trim`, with so many bytes of the string to go. -/
def trimBegin (mem chars : Block) (n : Nat) : Nat → Nat → Outcome Nat
  | strIt, 0 => .ok strIt
  | strIt, left + 1 => do
    let b ← load (some mem) strIt 1
    let stop ← notInSet chars n (b.headD 0)
    if stop then return strIt else trimBegin mem chars n (strIt + 1) left

/-- The second loop, from the byte in front of a position down. The result is the new end. -/
def trimEnd (mem chars : Block) (n strBegin : Nat) : Nat → Outcome Nat
  | 0 => .ok 0
  | strIt + 1 =>
    if strIt > strBegin then do
      let b ← load (some mem) strIt 1
      let stop ← notInSet chars n (b.headD 0)
      if stop then return strIt + 1 else trimEnd mem chars n strBegin strIt
    else .ok (strIt + 1)

/-- The iterator is kept within the string. `NULL` is below every pointer. -/
def keepIt (parser : StrParser) : StrParser :=
  let parser := if parser.itBegin.all (· < parser.strBegin) then reset parser else parser
  if parser.itEnd > parser.strEnd then { parser with itEnd := parser.strEnd } else parser

/-- How far `citEnd` lies behind `chars`: with the count 0 the characters are counted to the
terminator. -/
def setLength (chars : Block) (count : Nat) : Outcome Nat :=
  if count = 0 then strlen (some chars) else .ok count

def trim (mem : Block) (parser : StrParser) (chars : Block) (count : Nat) : Outcome StrParser := do
  let n ← setLength chars count
  let strBegin ← trimBegin mem chars n parser.strBegin (parser.strEnd - parser.strBegin)
  let strEnd ← trimEnd mem chars n strBegin parser.strEnd
  return keepIt { parser with strBegin, strEnd }

/-- `behind` is what lies behind the array of the four characters. -/
def trimWhitespaces (mem : Block) (parser : StrParser) (behind : Block) : Outcome StrParser :=
  trim mem parser ([32, 9, 13, 10] ++ behind) 4

/-- The bytes of the string. -/
def str (mem : Block) (parser : StrParser) : Block :=
  (mem.drop parser.strBegin).take (parser.strEnd - parser.strBegin)

/-- The string lies in the memory. -/
structure InRange (mem : Block) (parser : StrParser) : Prop where
  begin_le : parser.strBegin ≤ parser.strEnd
  end_le : parser.strEnd ≤ mem.length

/-- The characters of a set are given by their number, with whatever behind them, or by a
terminator. -/
inductive GivenBy (set : Block) : Block → Nat → Prop where
  | count (b : UInt8) (rest : Block) : set ≠ [] → GivenBy set (set ++ b :: rest) set.length
  | terminator (rest : Block) : 0 ∉ set → GivenBy set (set ++ 0 :: rest) 0

variable {mem chars set pre post : Block} {parser : StrParser} {n count : Nat}

/-- What `StrParser_init` accepts is a range. -/
theorem init_begin_le {a b : Option Nat} (h : (init parser a b).1 = .ok) :
    (init parser a b).2.strBegin ≤ (init parser a b).2.strEnd := by
  cases a with
  | none => cases h
  | some a =>
    cases b with
    | none => cases h
    | some b =>
      simp only [init] at h ⊢
      by_cases hab : a > b
      · rw [if_pos hab] at h
        cases h
      · rw [if_neg hab]
        exact Nat.le_of_not_lt hab

/-- The byte behind the set is looked at, but does not matter. -/
theorem notInSet_eq (b x : UInt8) (set rest : Block) :
    notInSet (set ++ x :: rest) set.length b = .ok (decide (b ∉ set)) := by
  induction set with
  | nil => simp [notInSet]
  | cons c set ih =>
    rw [List.cons_append, notInSet]
    by_cases hc : c = b
    · simp [hc]
    · rw [if_pos ⟨hc, Nat.succ_ne_zero _⟩, List.length_cons, Nat.add_sub_cancel, ih]
      simp [Ne.symm hc]

theorem load_headD {b : UInt8} (h : mem = pre ++ b :: post) :
    load (some mem) pre.length 1 = .ok [b] := by
  rw [h, load_some (by simp), List.drop_left]
  rfl

section Loops

variable (hset : ∀ b, notInSet chars n b = .ok (decide (b ∉ set)))
include hset

theorem trimBegin_eq (r : Block) : ∀ {pre : Block}, mem = pre ++ r ++ post →
    trimBegin mem chars n pre.length r.length =
      .ok (pre.length + (r.takeWhile (decide <| · ∈ set)).length) := by
  induction r with
  | nil => intro pre _; rfl
  | cons b r ih =>
    intro pre hmem
    have hload := load_headD (show mem = pre ++ b :: (r ++ post) by rw [hmem]; simp)
    rw [List.length_cons, trimBegin, hload, ok_bind, List.headD_cons, hset, ok_bind]
    by_cases hb : b ∈ set
    · have hrest := @ih (pre ++ [b]) (by rw [hmem]; simp)
      rw [List.length_append, List.length_singleton] at hrest
      rw [if_neg (by simpa using hb), hrest, List.takeWhile_cons_of_pos (by simpa using hb),
        List.length_cons]
      congr 1
      omega
    · rw [if_pos (by simpa using hb), List.takeWhile_cons_of_neg (by simpa using hb)]
      rfl

/-- The loop over a range of which the first byte stays. -/
theorem trimEnd_eq (r : Block) (hfirst : ∀ b ∈ r.head?, b ∉ set) : ∀ {post : Block},
    mem = pre ++ r ++ post → trimEnd mem chars n pre.length (pre.length + r.length) =
      .ok (pre.length + (r.rdropWhile (decide <| · ∈ set)).length) := by
  induction r using List.reverseRecOn with
  | nil =>
    intro post _
    rw [List.length_nil, Nat.add_zero, List.rdropWhile_nil, List.length_nil, Nat.add_zero]
    cases hp : pre.length with
    | zero => rfl
    | succ k => rw [trimEnd, if_neg (by omega)]
  | append_singleton r b ih =>
    intro post hmem
    rw [List.length_append, List.length_singleton, ← Nat.add_assoc, trimEnd]
    by_cases hr : r = []
    · subst hr
      have hb : b ∉ set := hfirst b rfl
      rw [if_neg (by simp), List.nil_append, List.rdropWhile_singleton, if_neg (by simpa using hb)]
      rfl
    · have hpos := List.length_pos_of_ne_nil hr
      have hload := load_headD (show mem = (pre ++ r) ++ b :: post by rw [hmem]; simp)
      rw [List.length_append] at hload
      have hfirst' : ∀ b ∈ r.head?, b ∉ set := by
        rwa [List.head?_append_of_ne_nil _ hr] at hfirst
      rw [if_pos (by omega), hload, ok_bind, List.headD_cons, hset, ok_bind]
      by_cases hb : b ∈ set
      · rw [if_neg (by simpa using hb), List.rdropWhile_concat_pos _ _ _ (by simpa using hb)]
        exact @ih hfirst' (b :: post) (by rw [hmem]; simp)
      · rw [if_pos (by simpa using hb), List.rdropWhile_concat_neg _ _ _ (by simpa using hb),
          List.length_append, List.length_singleton, ← Nat.add_assoc]
        rfl

end Loops

theorem GivenBy.counted (h : GivenBy set chars count) :
    ∃ x rest, chars = set ++ x :: rest ∧ setLength chars count = .ok set.length := by
  cases h with
  | count x rest hne =>
    have hpos := List.length_pos_of_ne_nil hne
    exact ⟨x, rest, rfl, if_neg (by omega)⟩
  | terminator rest h0 => exact ⟨0, rest, rfl, by rw [setLength, if_pos rfl, strlen_eq h0]⟩

/-- What is left of a string without the longest run of bytes of the set at each end. -/
def trimmed (set s : Block) : Block :=
  (s.dropWhile (decide <| · ∈ set)).rdropWhile (decide <| · ∈ set)

theorem head_dropWhile (set s : Block) :
    ∀ b ∈ (s.dropWhile (decide <| · ∈ set)).head?, b ∉ set := by
  intro b hb
  have hnot := @List.head?_dropWhile_not _ (fun x => decide (x ∈ set)) s
  rw [Option.mem_def.mp hb] at hnot
  simpa using hnot

/-- A trimmed string has nothing to trim at its ends. -/
theorem trimmed_ends (set s : Block) :
    (trimmed set s).takeWhile (decide <| · ∈ set) = [] ∧
      (trimmed set s).dropWhile (decide <| · ∈ set) = trimmed set s ∧
      (trimmed set s).rdropWhile (decide <| · ∈ set) = trimmed set s := by
  have hhead : ∀ b ∈ (trimmed set s).head?, b ∉ set := by
    intro b hb
    obtain ⟨t, ht⟩ := List.rdropWhile_prefix (fun x => decide (x ∈ set))
      (s.dropWhile (decide <| · ∈ set))
    refine head_dropWhile set s b ?_
    rw [← ht]
    cases hc : trimmed set s with
    | nil => rw [hc] at hb; cases hb
    | cons c u =>
      rw [hc] at hb
      rw [trimmed] at hc
      rw [hc]
      exact hb
  refine ⟨?_, ?_, List.rdropWhile_idempotent _ _⟩
  · cases hc : trimmed set s with
    | nil => rfl
    | cons c u =>
      exact List.takeWhile_cons_of_neg (by simpa using hhead c (by rw [hc]; rfl))
  · cases hc : trimmed set s with
    | nil => rfl
    | cons c u =>
      exact List.dropWhile_cons_of_neg (by simpa using hhead c (by rw [hc]; rfl))

theorem keepIt_keepIt (parser : StrParser) : keepIt (keepIt parser) = keepIt parser := by
  unfold keepIt
  by_cases hreset : parser.itBegin.all (· < parser.strBegin)
  · simp only [if_pos hreset, reset]
    by_cases hclip : parser.strBegin > parser.strEnd
    · simp [hclip]
    · simp [hclip]
  · simp only [if_neg hreset]
    by_cases hclip : parser.itEnd > parser.strEnd
    · simp [hclip, hreset]
    · simp [hclip, hreset]

theorem keepIt_str (parser : StrParser) :
    (keepIt parser).strBegin = parser.strBegin ∧ (keepIt parser).strEnd = parser.strEnd := by
  unfold keepIt
  dsimp only
  split <;> split <;> exact ⟨rfl, rfl⟩

/-- Where the range lies in the memory. -/
theorem InRange.split (h : InRange mem parser) :
    ∃ pre post, mem = pre ++ str mem parser ++ post ∧ pre.length = parser.strBegin ∧
      (str mem parser).length = parser.strEnd - parser.strBegin := by
  have hb := h.begin_le
  have he := h.end_le
  refine ⟨mem.take parser.strBegin, mem.drop parser.strEnd, ?_, ?_, ?_⟩
  · have hdrop : mem.drop parser.strEnd =
        (mem.drop parser.strBegin).drop (parser.strEnd - parser.strBegin) := by
      rw [List.drop_drop]
      congr 1
      omega
    rw [hdrop, str, List.append_assoc, List.take_append_drop, List.take_append_drop]
  · exact List.length_take_of_le (by omega)
  · exact List.length_take_of_le (by rw [List.length_drop]; omega)

/-- The range without the bytes of the set at its ends, with the iterator kept in it. -/
def afterTrim (mem set : Block) (parser : StrParser) : StrParser :=
  let front := (str mem parser).takeWhile (decide <| · ∈ set)
  keepIt { parser with
    strBegin := parser.strBegin + front.length,
    strEnd := parser.strBegin + front.length + (trimmed set (str mem parser)).length }

/-- Each way in which the set is given leads there, whatever lies behind it. -/
theorem trim_eq (h : InRange mem parser) (hgiven : GivenBy set chars count) :
    trim mem parser chars count = .ok (afterTrim mem set parser) := by
  obtain ⟨x, rest, rfl, hn⟩ := hgiven.counted
  obtain ⟨pre, post, hmem, hpre, hlen⟩ := h.split
  have hscan : ∀ b, notInSet (set ++ x :: rest) set.length b = .ok (decide (b ∉ set)) :=
    fun b => notInSet_eq b x set rest
  have hle := h.begin_le
  rw [afterTrim]
  generalize str mem parser = s at *
  have hsplit := @List.takeWhile_append_dropWhile _ (fun b => decide (b ∈ set)) s
  have hbegin := trimBegin_eq hscan s hmem
  have hend := @trimEnd_eq mem (set ++ x :: rest) set
    (pre ++ s.takeWhile (decide <| · ∈ set)) set.length hscan
    (s.dropWhile (decide <| · ∈ set)) (head_dropWhile set s) post
    (by rw [List.append_assoc pre, hsplit, ← hmem])
  have hsum : (pre ++ s.takeWhile (decide <| · ∈ set)).length +
      (s.dropWhile (decide <| · ∈ set)).length = parser.strEnd := by
    rw [List.length_append, Nat.add_assoc, ← List.length_append, hsplit, hlen, hpre]
    omega
  rw [hsum, List.length_append, hpre] at hend
  rw [hpre, hlen] at hbegin
  rw [trim, hn, ok_bind, hbegin, ok_bind, hend, ok_bind]
  rfl

theorem afterTrim_begin (mem set : Block) (parser : StrParser) :
    (afterTrim mem set parser).strBegin =
      parser.strBegin + ((str mem parser).takeWhile (decide <| · ∈ set)).length :=
  (keepIt_str _).1

theorem afterTrim_end (mem set : Block) (parser : StrParser) :
    (afterTrim mem set parser).strEnd =
      (afterTrim mem set parser).strBegin + (trimmed set (str mem parser)).length := by
  rw [afterTrim_begin]
  exact (keepIt_str _).2

/-- The new range is cut out of the old one. -/
theorem InRange.afterTrim (h : InRange mem parser) (set : Block) :
    str mem (afterTrim mem set parser) = trimmed set (str mem parser) ∧
      (afterTrim mem set parser).strEnd ≤ parser.strEnd := by
  have hle := h.begin_le
  obtain ⟨pre, post, hmem, hpre, hlen⟩ := h.split
  rw [str, afterTrim_end, Nat.add_sub_cancel_left, afterTrim_begin]
  generalize str mem parser = s at *
  obtain ⟨t, ht⟩ : trimmed set s <+: s.dropWhile (decide <| · ∈ set) := List.rdropWhile_prefix _ _
  have hsplit : s.takeWhile (decide <| · ∈ set) ++ (trimmed set s ++ t) = s := by
    rw [ht]
    exact List.takeWhile_append_dropWhile
  generalize s.takeWhile (decide <| · ∈ set) = front at *
  have hsum := congrArg List.length hsplit
  rw [List.length_append, List.length_append, hlen] at hsum
  have hcut : mem = (pre ++ front) ++ (trimmed set s ++ (t ++ post)) := by
    rw [hmem]
    conv => lhs; rw [← hsplit]
    simp only [List.append_assoc]
  refine ⟨?_, by omega⟩
  rw [hcut, ← hpre, ← List.length_append, List.drop_left, List.take_left]

/-- Trimming leaves the string without its longest runs of bytes of the set at both ends, in the
range it was, and nothing for a second time. What lies behind the set does not matter. -/
theorem trim_trims (h : InRange mem parser) (set : Block) :
    ∃ parser', (∀ chars count, GivenBy set chars count →
        trim mem parser chars count = .ok parser' ∧ trim mem parser' chars count = .ok parser') ∧
      str mem parser' = trimmed set (str mem parser) ∧
      parser'.strBegin =
        parser.strBegin + ((str mem parser).takeWhile (decide <| · ∈ set)).length ∧
      parser.strBegin ≤ parser'.strBegin ∧ parser'.strBegin ≤ parser'.strEnd ∧
      parser'.strEnd ≤ parser.strEnd := by
  have hb := afterTrim_begin mem set parser
  have he := afterTrim_end mem set parser
  obtain ⟨hstr, hend⟩ := h.afterTrim set
  have hrange : InRange mem (afterTrim mem set parser) := ⟨by omega, Nat.le_trans hend h.end_le⟩
  refine ⟨afterTrim mem set parser, fun chars count hgiven => ⟨trim_eq h hgiven, ?_⟩, hstr, hb,
    by omega, by omega, hend⟩
  obtain ⟨htake, hdrop, hrdrop⟩ := trimmed_ends set (str mem parser)
  have hagain : trimmed set (trimmed set (str mem parser)) = trimmed set (str mem parser) := by
    conv => lhs; rw [trimmed, hdrop, hrdrop]
  rw [trim_eq hrange hgiven, afterTrim, hstr, htake, hagain, List.length_nil, Nat.add_zero, ← he]
  exact congrArg _ (keepIt_keepIt _)

theorem trim_trims_space :
    let mem : Block := [32, 97, 32]
    let parser : StrParser := ⟨0, 3, none, 0⟩
    ∃ parser', (∀ chars count, GivenBy [32] chars count →
        trim mem parser chars count = .ok parser' ∧ trim mem parser' chars count = .ok parser') ∧
      str mem parser' = trimmed [32] (str mem parser) ∧
      parser'.strBegin =
        parser.strBegin + ((str mem parser).takeWhile (decide <| · ∈ ([32] : Block))).length ∧
      parser.strBegin ≤ parser'.strBegin ∧ parser'.strBegin ≤ parser'.strEnd ∧
      parser'.strEnd ≤ parser.strEnd :=
  trim_trims ⟨by decide, by decide⟩ [32]

/-- With nothing behind the set a byte that stays makes the comparison leave it. -/
theorem notInSet_fault {b : UInt8} (h : b ∉ set) :
    notInSet set set.length b = .error .outOfBounds := by
  induction set with
  | nil => rfl
  | cons c set ih =>
    rw [List.mem_cons, not_or] at h
    rw [notInSet, if_pos ⟨Ne.symm h.1, Nat.succ_ne_zero _⟩]
    exact ih h.2

/-- The whitespace is trimmed when there is a byte behind the array of the four characters. -/
theorem trimWhitespaces_eq (h : InRange mem parser) (x : UInt8) (rest : Block) :
    trimWhitespaces mem parser (x :: rest) = .ok (afterTrim mem [32, 9, 13, 10] parser) :=
  trim_eq h (.count x rest (List.cons_ne_nil _ _))

end StrParser

end AlibC
