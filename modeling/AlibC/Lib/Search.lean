import Mathlib.Data.List.Infix
import Mathlib.Tactic.Common

/-! Searching a list for another one from the left: the first place where it begins, the places of
a search that goes on behind each match, and the list with every match replaced. -/
namespace Search

variable {α : Type} [DecidableEq α] {p s t pre : List α} {i j : Nat}

/-- The first place where `p` begins. -/
def firstAt (p : List α) : List α → Option Nat
  | [] => if p = [] then some 0 else none
  | a :: s => if p <+: a :: s then some 0 else (firstAt p s).map (· + 1)

/-- The place is one where `p` begins, and there is none before it. -/
theorem firstAt_eq_some (h : firstAt p s = some i) :
    i ≤ s.length ∧ p <+: s.drop i ∧ ∀ j < i, ¬p <+: s.drop j := by
  induction s generalizing i with
  | nil =>
    rw [firstAt] at h
    split at h
    case isTrue hp =>
      cases h
      exact ⟨Nat.le_refl 0, hp ▸ List.nil_prefix, fun j hj => absurd hj (Nat.not_lt_zero j)⟩
    case isFalse => cases h
  | cons a s ih =>
    rw [firstAt] at h
    split at h
    case isTrue hp =>
      cases h
      exact ⟨Nat.zero_le _, hp, fun j hj => absurd hj (Nat.not_lt_zero j)⟩
    case isFalse hp =>
      obtain ⟨i, hi, rfl⟩ := Option.map_eq_some_iff.mp h
      obtain ⟨hle, hpre, hfirst⟩ := ih hi
      refine ⟨Nat.succ_le_succ hle, hpre, fun j hj => ?_⟩
      cases j with
      | zero => exact hp
      | succ j => exact hfirst j (Nat.lt_of_succ_lt_succ hj)

theorem firstAt_eq_none (h : firstAt p s = none) (j : Nat) : ¬p <+: s.drop j := by
  induction s generalizing j with
  | nil =>
    rw [firstAt] at h
    split at h
    case isTrue => cases h
    case isFalse hp =>
      rw [List.drop_nil]
      exact fun hpre => hp (List.prefix_nil.mp hpre)
  | cons a s ih =>
    rw [firstAt] at h
    split at h
    case isTrue => cases h
    case isFalse hp =>
      cases j with
      | zero => exact hp
      | succ j => exact ih (Option.map_eq_none_iff.mp h) j

/-- What begins in one of the first `i` places is found there. -/
theorem firstAt_of_prefix (h : p <+: s.drop i) : ∃ j ≤ i, firstAt p s = some j := by
  cases hf : firstAt p s with
  | none => exact absurd h (firstAt_eq_none hf i)
  | some j =>
    refine ⟨j, Nat.le_of_not_lt fun hij => ?_, rfl⟩
    exact (firstAt_eq_some hf).2.2 i hij h

theorem firstAt_of_first (h : p <+: s.drop i) (hfirst : ∀ j < i, ¬p <+: s.drop j) :
    firstAt p s = some i := by
  obtain ⟨j, hj, hf⟩ := firstAt_of_prefix h
  rcases Nat.lt_or_eq_of_le hj with hlt | rfl
  · exact absurd (firstAt_eq_some hf).2.1 (hfirst j hlt)
  · exact hf

/-- What is found in the beginning is found in the whole. -/
theorem firstAt_append_right (h : firstAt p s = some i) (t : List α) :
    ∃ j ≤ i, firstAt p (s ++ t) = some j := by
  obtain ⟨hle, hpre, -⟩ := firstAt_eq_some h
  refine firstAt_of_prefix ?_
  rw [List.drop_append_of_le_length hle]
  exact hpre.trans (List.prefix_append _ _)

theorem firstAt_add_length_le (h : firstAt p s = some i) : i + p.length ≤ s.length := by
  obtain ⟨hle, hpre, -⟩ := firstAt_eq_some h
  have hlen := hpre.length_le
  rw [List.length_drop] at hlen
  omega

/-- In what is too short nothing begins. -/
theorem firstAt_eq_none_of_length (h : s.length < p.length) : firstAt p s = none := by
  cases hf : firstAt p s with
  | none => rfl
  | some i =>
    have hle := firstAt_add_length_le hf
    omega

/-- In front of which nothing begins, the search goes on behind it. -/
theorem firstAt_append (h : ∀ j < pre.length, ¬p <+: (pre ++ s).drop j) :
    firstAt p (pre ++ s) = (firstAt p s).map (pre.length + ·) := by
  induction pre with
  | nil => simp
  | cons a pre ih =>
    have htail : ∀ j < pre.length, ¬p <+: (pre ++ s).drop j := fun j hj =>
      h (j + 1) (Nat.succ_lt_succ hj)
    have hhead : ¬p <+: a :: (pre ++ s) := h 0 (Nat.zero_lt_succ _)
    rw [List.cons_append, firstAt, if_neg hhead, ih htail, Option.map_map]
    congr 1
    funext k
    simp only [Function.comp_apply, List.length_cons]
    omega

theorem drop_length_lt (h : firstAt p s = some i) (hp : p ≠ []) :
    (s.drop (i + p.length)).length < s.length := by
  have hle := firstAt_add_length_le h
  have hpos := List.length_pos_iff.mpr hp
  rw [List.length_drop]
  omega

/-- What holds of a list in which nothing is found, and of one when it holds of what is behind the
first place, holds of every list. -/
theorem search_induction {motive : List α → Prop} (hp : p ≠ [])
    (none : ∀ s, firstAt p s = .none → motive s)
    (some : ∀ s i, firstAt p s = .some i → motive (s.drop (i + p.length)) → motive s)
    (s : List α) : motive s := by
  cases h : firstAt p s with
  | none => exact none s h
  | some i => exact some s i h (search_induction hp none some _)
termination_by s.length
decreasing_by exact drop_length_lt h hp

/-- The places where `p` is found from left to right, each behind the one before. -/
def occurrences (p s : List α) : List Nat :=
  if _hp : p = [] then []
  else
    match _h : firstAt p s with
    | none => []
    | some i => i :: (occurrences p (s.drop (i + p.length))).map (i + p.length + ·)
termination_by s.length
decreasing_by exact drop_length_lt _h _hp

/-- The list with `t` in all these places. -/
def replaceAll (p t s : List α) : List α :=
  if _hp : p = [] then s
  else
    match _h : firstAt p s with
    | none => s
    | some i => s.take i ++ t ++ replaceAll p t (s.drop (i + p.length))
termination_by s.length
decreasing_by exact drop_length_lt _h _hp

theorem occurrences_none (h : firstAt p s = none) : occurrences p s = [] := by
  rw [occurrences]
  split
  · rfl
  · split
    · rfl
    · rw [h] at *
      contradiction

theorem occurrences_some (hp : p ≠ []) (h : firstAt p s = some i) : occurrences p s =
    i :: (occurrences p (s.drop (i + p.length))).map (i + p.length + ·) := by
  rw [occurrences, dif_neg hp]
  split
  · rw [h] at *
    contradiction
  · rename_i j hj
    rw [h] at hj
    cases hj
    rfl

theorem replaceAll_none (h : firstAt p s = none) : replaceAll p t s = s := by
  rw [replaceAll]
  split
  · rfl
  · split
    · rfl
    · rw [h] at *
      contradiction

theorem replaceAll_some (hp : p ≠ []) (h : firstAt p s = some i) :
    replaceAll p t s = s.take i ++ t ++ replaceAll p t (s.drop (i + p.length)) := by
  rw [replaceAll, dif_neg hp]
  split
  · rw [h] at *
    contradiction
  · rename_i j hj
    rw [h] at hj
    cases hj
    rfl

/-- The places are where `p` begins. -/
theorem occurrences_begin (hp : p ≠ []) (s : List α) : ∀ o ∈ occurrences p s, p <+: s.drop o := by
  induction s using search_induction hp with
  | none s h =>
    rw [occurrences_none h]
    exact fun o ho => absurd ho List.not_mem_nil
  | some s i h ih =>
    rw [occurrences_some hp h]
    intro o ho
    rcases List.mem_cons.mp ho with rfl | ho
    · exact (firstAt_eq_some h).2.1
    · obtain ⟨k, hk, rfl⟩ := List.mem_map.mp ho
      rw [← List.drop_drop]
      exact ih k hk

/-- Each place is behind the match before it. -/
theorem occurrences_pairwise (hp : p ≠ []) (s : List α) :
    (occurrences p s).Pairwise fun a b => a + p.length ≤ b := by
  induction s using search_induction hp with
  | none s h =>
    rw [occurrences_none h]
    exact List.Pairwise.nil
  | some s i h ih =>
    rw [occurrences_some hp h]
    refine List.Pairwise.cons (fun o ho => ?_) (ih.map _ fun a b hab => by omega)
    obtain ⟨o, -, rfl⟩ := List.mem_map.mp ho
    omega

theorem occurrences_length_le (hp : p ≠ []) (s : List α) :
    (occurrences p s).length ≤ s.length := by
  induction s using search_induction hp with
  | none s h =>
    rw [occurrences_none h]
    exact Nat.zero_le _
  | some s i h ih =>
    have hlt := drop_length_lt h hp
    rw [occurrences_some hp h, List.length_cons, List.length_map]
    omega

/-- Each match makes place for a `t`. -/
theorem length_replaceAll (hp : p ≠ []) (t s : List α) :
    (replaceAll p t s).length + (occurrences p s).length * p.length =
      s.length + (occurrences p s).length * t.length := by
  induction s using search_induction hp with
  | none s h =>
    rw [occurrences_none h, replaceAll_none h]
    simp
  | some s i h ih =>
    have hle := firstAt_add_length_le h
    have htake : (s.take i).length = i := List.length_take_of_le (by omega)
    rw [List.length_drop] at ih
    rw [occurrences_some hp h, replaceAll_some hp h, List.length_cons, List.length_map,
      Nat.succ_mul, Nat.succ_mul, List.length_append, List.length_append, htake]
    omega

theorem replaceAll_ne_nil (hp : p ≠ []) (ht : t ≠ []) (hs : s ≠ []) : replaceAll p t s ≠ [] := by
  cases h : firstAt p s with
  | none => rwa [replaceAll_none h]
  | some i =>
    rw [replaceAll_some hp h]
    exact fun hnil => ht (List.append_eq_nil_iff.mp (List.append_eq_nil_iff.mp hnil).1).2

/-- A `t` that is no longer than `p` makes nothing longer. -/
theorem length_replaceAll_le (hp : p ≠ []) (ht : t.length ≤ p.length) (s : List α) :
    (replaceAll p t s).length ≤ s.length := by
  have hlen := length_replaceAll hp t s
  have hle := Nat.mul_le_mul_left (occurrences p s).length ht
  omega

end Search
