import AlibC.AlibString
import AlibC.Lib.CString

/-! Copying a string to another block, and how many bytes are said to be copied. -/
namespace AlibC

open CLang

/-- The loop of `strncpy_fast`, which reads from another block than it writes to: that block and
the count that is left. -/
def strncpyFastLoop (from_ : Option Block) (to_ : Option Block) (t f : Nat) :
    Nat → Outcome (Option Block × Nat × Nat × Nat)
  | 0 => do
    let _ ← load from_ f 1
    return (to_, t, f, 0)
  | count + 1 => do
    let c ← load from_ f 1
    if c ≠ [0] then
      let to_ ← store to_ t c
      strncpyFastLoop from_ to_ (t + 1) (f + 1) count
    else return (to_, t, f, count + 1)

/-- `strncpy_fast` to the position `t` of a block from the position `f` of another one.
`coppiedCount` is what the caller's pointer points to, if it is not `NULL`. -/
def strncpyFast (to_ : Option Block) (t : Nat) (from_ : Option Block) (f count : Nat)
    (coppiedCount : Option Nat) : Outcome (Option Block × Option Nat) := do
  let coppiedCount := coppiedCount.map fun _ => count
  let (to_, t, f, left) ← strncpyFastLoop from_ to_ t f count
  if left ≠ 0 then
    let c ← load from_ f 1
    let to_ ← store to_ t c
    -- the pointer is moved back by what is left, and not the number it points to
    return (to_, coppiedCount)
  else return (to_, coppiedCount)

variable {blk src dst text rest : Block} {t f count : Nat}

/-- The byte at the beginning of a part of a block. -/
theorem load_head {c : UInt8} (h : src.drop f = c :: rest) : load (some src) f 1 = .ok [c] := by
  have hin : f + 1 ≤ src.length := by
    have hlen := congrArg List.length h
    rw [List.length_drop, List.length_cons] at hlen
    omega
  rw [load_some hin, h]
  rfl

/-- What is behind the beginning of a part of a block. -/
theorem drop_tail {c : UInt8} (h : src.drop f = c :: rest) : src.drop (f + 1) = rest := by
  rw [← List.drop_drop, h]
  rfl

theorem strncpyFastLoop_eq (h : 0 ∉ text) (hsrc : src.drop f = text ++ 0 :: rest)
    (hroom : t + min count text.length ≤ dst.length) :
    strncpyFastLoop (some src) (some dst) t f count =
      .ok (some (overwrite dst t (text.take count)), t + min count text.length,
        f + min count text.length, count - text.length) := by
  induction count generalizing dst text t f with
  | zero =>
    obtain ⟨c, post, hc⟩ : ∃ c post, src.drop f = c :: post := by
      cases text with
      | nil => exact ⟨0, rest, hsrc⟩
      | cons b text => exact ⟨b, _, hsrc⟩
    rw [strncpyFastLoop, load_head hc, ok_bind, List.take_zero, overwrite_nil, Nat.zero_min,
      Nat.zero_sub]
    rfl
  | succ count ih =>
    cases text with
    | nil =>
      rw [strncpyFastLoop, load_head hsrc, ok_bind, if_neg (fun hne => hne rfl), List.take_nil,
        overwrite_nil, List.length_nil, Nat.min_zero]
      rfl
    | cons b text =>
      rw [List.mem_cons, not_or] at h
      have hne : [b] ≠ [0] := fun he => h.1 (List.cons.inj he).1.symm
      rw [List.length_cons] at hroom
      have hone : t + [b].length ≤ dst.length := by
        rw [List.length_singleton]
        omega
      have hlen : (overwrite dst t [b]).length = dst.length := length_overwrite hone
      have htail : strncpyFastLoop (some src) (some (overwrite dst t [b])) (t + 1) (f + 1) count =
          _ := ih h.2 (drop_tail hsrc) (by omega)
      have hjoin : overwrite (overwrite dst t [b]) (t + 1) (text.take count) =
          overwrite dst t ((b :: text).take (count + 1)) := overwrite_append hone
      have hsteps : min (count + 1) (text.length + 1) = min count text.length + 1 := by omega
      rw [strncpyFastLoop, load_head hsrc, ok_bind, if_pos hne, store_some hone, ok_bind, htail,
        hjoin, List.length_cons, hsteps, Nat.add_sub_add_right]
      congr 3
      · omega
      · congr 1
        omega

/-- The text is written as far as the count allows, with its terminator if that still fits. The
number reported is the count. -/
theorem strncpyFast_eq (h : 0 ∉ text) (hsrc : src.drop f = text ++ 0 :: rest)
    (hroom : t + count ≤ dst.length) (coppiedCount : Option Nat) :
    strncpyFast (some dst) t (some src) f count coppiedCount =
      .ok (some (overwrite dst t ((text ++ [0]).take count)), coppiedCount.map fun _ => count) := by
  have hfit : t + min count text.length ≤ dst.length := by omega
  have hloop := strncpyFastLoop_eq h hsrc hfit
  rw [strncpyFast, hloop, ok_bind]
  dsimp only
  by_cases hleft : count ≤ text.length
  · rw [if_neg (by omega), List.take_append_of_le_length hleft]
    rfl
  · have hmin : min count text.length = text.length := by omega
    have hend : src.drop (f + text.length) = 0 :: rest := by
      rw [← List.drop_drop, hsrc, List.drop_left]
    have hall : text.take count = text := List.take_of_length_le (by omega)
    have htext : t + text.length + [(0 : UInt8)].length ≤ (overwrite dst t text).length := by
      rw [length_overwrite (by omega), List.length_singleton]
      omega
    rw [if_pos (by omega), hmin, load_head hend, ok_bind, hall, store_some htext, ok_bind,
      overwrite_append (by omega), List.take_of_length_le (by simp; omega)]
    rfl

theorem length_take_string (text : Block) (count : Nat) :
    ((text ++ [0]).take count).length = min count (text.length + 1) := by
  rw [List.length_take, List.length_append, List.length_singleton]

/-- The beginning of the string is copied, and the number reported is that of the bytes written. -/
def CopiesFast (dst : Block) (t : Nat) (src : Block) (f : Nat) (text : Block) (count : Nat)
    (coppiedCount : Option Nat) : Prop :=
  ∃ dst', strncpyFast (some dst) t (some src) f count coppiedCount =
      .ok (some dst', coppiedCount.map fun _ => min count (text.length + 1)) ∧
    Copied dst dst' t (min count (text.length + 1)) ((text ++ [0]).take count)

/-- The number is right when nobody asks for it, and when no byte of the count is left. -/
theorem strncpyFast_copies_iff (h : 0 ∉ text) (hsrc : src.drop f = text ++ 0 :: rest)
    (hroom : t + count ≤ dst.length) (coppiedCount : Option Nat) :
    CopiesFast dst t src f text count coppiedCount ↔
      coppiedCount = none ∨ count ≤ text.length + 1 := by
  have hr := strncpyFast_eq h hsrc hroom coppiedCount
  have hlen := length_take_string text count
  constructor
  · rintro ⟨dst', hr', -⟩
    rw [hr] at hr'
    cases coppiedCount with
    | none => exact .inl rfl
    | some c =>
      simp only [Option.map_some, Except.ok.injEq, Prod.mk.injEq, Option.some.injEq] at hr'
      exact .inr (by omega)
  · intro hok
    refine ⟨_, ?_, copied_overwrite (by omega) (Nat.le_of_eq hlen)⟩
    rw [hr]
    rcases hok with rfl | hle
    · rfl
    · rw [Nat.min_eq_left hle]

/-- A byte and its terminator, with a count of two. -/
theorem strncpyFast_copies_two : CopiesFast [7, 7, 7] 1 [97, 0] 0 [97] 2 (some 5) := by
  have hsrc : ([97, 0] : Block).drop 0 = [97] ++ 0 :: [] := rfl
  exact (strncpyFast_copies_iff (by decide) hsrc (by decide) (some 5)).mpr (.inr (by decide))

/-- With a count of four two bytes are written, and four reported. -/
theorem strncpyFast_overcounts :
    strncpyFast (some [7, 7, 7, 7]) 0 (some [97, 0]) 0 4 (some 0) =
      .ok (some [97, 0, 7, 7], some 4) ∧
    ¬CopiesFast [7, 7, 7, 7] 0 [97, 0] 0 [97] 4 (some 0) := by
  have hr : strncpyFast (some [7, 7, 7, 7]) 0 (some [97, 0]) 0 4 (some 0) =
      .ok (some [97, 0, 7, 7], some 4) := by decide
  refine ⟨hr, fun ⟨dst', hr', _⟩ => ?_⟩
  rw [hr] at hr'
  revert hr'
  simp

end AlibC
