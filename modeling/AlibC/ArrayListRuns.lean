import AlibC.ArrayListSift
import AlibC.Lib.Machine

/-! Runs of an `ArrayList` from `newArrayList_ex` on. -/
namespace AlibC.ArrayList

open CLang Machine
variable {α : Type}

inductive Op (α : Type) where
  | add (item : Option α)
  | remove (item : Option α)
  | removeNoFree (item : Option α)
  | clear
  | resize (newcap : Nat)
  | shrink
  | expand
  | sift
  | extractArray
  | setMaxCap (maxCap : Nat)
deriving DecidableEq, Repr

/-- One call on a list and the maximum that is in force. The output is the items the delete
callback is called with. -/
def step [DecidableEq α] (s : ArrayList α × Nat) :
    Op α → Outcome (List α × (ArrayList α × Nat))
  | .add item => do
    let (_, l) ← s.1.add item
    return ([], l, s.2)
  | .remove item => do
    let (dropped, l) ← s.1.remove item
    return (dropped, l, s.2)
  | .removeNoFree item => do return ([], ← s.1.removeNoFree item, s.2)
  | .clear => do
    let (dropped, l) ← s.1.clear
    return (dropped, l, s.2)
  | .resize newcap => do
    let (dropped, l) ← s.1.resize newcap
    return (dropped, l, s.2)
  | .shrink => do
    let (dropped, l) ← s.1.shrink
    return (dropped, l, s.2)
  | .expand => do return ([], ← s.1.expand, s.2)
  | .sift => do
    let (_, l) ← s.1.sift
    return ([], l, s.2)
  | .extractArray => .ok ([], (s.1.extractArray).2, s.2)
  | .setMaxCap maxCap =>
    .ok ([], s.1.setMaxCap maxCap, if maxCap = 0 then ULONG_MAX else maxCap)

/-- So many slots are allowed and can be addressed. -/
def Allowed (max n : Nat) : Prop := n ≤ max ∧ 8 * n < 2 ^ 64

/-- The capacity that a resize really asks for: only the first one is cut off. -/
def askedCap (l : ArrayList α) (newcap : Nat) : Nat :=
  if l.list = none then min newcap l.maxCap else newcap

/-- Growth stays within the maximum in force and the address space, and a new maximum is
the capacity there is. -/
def Op.Fits (s : ArrayList α × Nat) : Op α → Prop
  | .add item =>
    item = none ∨ s.1.count < s.1.capacity ∨ s.1.capacity = s.1.maxCap ∨ Allowed s.2 s.1.nextCap
  | .resize newcap =>
    s.1.askedCap newcap ≤ s.1.capacity ∨ Allowed s.2 (s.1.askedCap newcap)
  | .expand => s.1.capacity = s.1.maxCap ∨ Allowed s.2 s.1.nextCap
  | .setMaxCap maxCap => (if maxCap = 0 then ULONG_MAX else maxCap) = s.1.capacity
  | _ => True

/-- Slots, count, capacity and the maximum in force agree. -/
def InBounds (s : ArrayList α × Nat) : Prop :=
  s.1.count = (s.1.list.getD []).countP (·.isSome) ∧ (s.1.list.getD []).length = s.1.capacity ∧
    (s.1.list = none ↔ s.1.capacity = 0) ∧ s.1.capacity ≤ s.2

structure Inv (s : ArrayList α × Nat) : Prop where
  wf : s.1.WF
  capacity_le : s.1.capacity ≤ s.2
  max_le : s.2 ≤ s.1.maxCap
  max_pos : 0 < s.2

theorem countP_isSome (cells : List (Option α)) :
    cells.countP (·.isSome) = cells.reduceOption.length := by
  induction cells with
  | nil => rfl
  | cons c cells ih =>
    cases c with
    | none => simpa using ih
    | some a => simpa using ih

theorem Inv.inBounds {s : ArrayList α × Nat} (h : Inv s) : InBounds s := by
  refine ⟨?_, h.wf.length_eq, h.wf.null_iff, h.capacity_le⟩
  rw [countP_isSome, h.wf.count_eq, entries]

theorem maximum_pos (max : Nat) : 0 < if max = 0 then ULONG_MAX else max := by
  split
  · exact Nat.sub_pos_of_lt (Nat.one_lt_two_pow (by decide : 64 ≠ 0))
  · exact Nat.pos_of_ne_zero ‹_›

theorem newEx_inv {freeItem : Bool} {start max : Nat} {l : ArrayList α}
    (h : newEx freeItem start max = some l) :
    Inv (l, if max = 0 then ULONG_MAX else max) := by
  have hpos := maximum_pos max
  rw [newEx] at h
  generalize (if max = 0 then ULONG_MAX else max) = maxCap at h hpos ⊢
  split at h
  · cases h
  · rename_i hle
    split at h
    · cases h
      exact ⟨.mk_null, Nat.zero_le _, Nat.le_refl _, hpos⟩
    · rename_i hstart
      obtain ⟨cells, hcalloc, hl⟩ := Option.map_eq_some_iff.mp h
      rw [calloc] at hcalloc
      split at hcalloc
      · rename_i hfit
        cases hcalloc
        cases hl
        refine ⟨.mk_some List.length_replicate (Nat.pos_of_ne_zero hstart) ?_ hfit,
          Nat.le_of_not_lt hle, Nat.le_refl _, hpos⟩
        rw [List.reduceOption_replicate_none]
        rfl
      · cases hcalloc

variable {l : ArrayList α} {max : Nat}

/-- What is left of the invariant after a call that leaves the maximum alone. -/
theorem Inv.keep (h : Inv (l, max)) {l' : ArrayList α} (hwf : l'.WF) (hcap : l'.capacity ≤ max)
    (hmax : l'.maxCap = l.maxCap) : Inv (l', max) :=
  ⟨hwf, hcap, Nat.le_trans h.max_le (Nat.le_of_eq hmax.symm), h.max_pos⟩

/-- A slot array that is at its own maximum, or may still grow. -/
theorem Inv.lt_maxCap (h : Inv (l, max)) (hne : l.capacity ≠ l.maxCap) :
    l.capacity < l.maxCap := by
  have hcap := h.capacity_le
  have hmax := h.max_le
  dsimp only at hcap hmax
  omega

theorem add_inv (h : Inv (l, max)) {item : Option α} (hok : (Op.add item).Fits (l, max)) :
    ∃ stored l', l.add item = .ok (stored, l') ∧ Inv (l', max) := by
  cases item with
  | none => exact ⟨false, l, rfl, h⟩
  | some a =>
    by_cases hroom : l.count < l.capacity
    · obtain ⟨l', pre, post, hr, hwf, -, -, hm, -, hcap⟩ := add_room h.wf a hroom
      exact ⟨true, l', hr, h.keep hwf (hcap ▸ h.capacity_le) hm⟩
    · by_cases hmax : l.capacity = l.maxCap
      · exact ⟨false, l, by rw [add, if_neg hroom, if_pos hmax], h⟩
      · have hfull : l.count = l.capacity := Nat.le_antisymm h.wf.count_le (Nat.le_of_not_lt hroom)
        have hfit : Allowed max l.nextCap := by
          rcases hok with hnone | hlt | heq | hfit
          · cases hnone
          · exact absurd hlt hroom
          · exact absurd heq hmax
          · exact hfit
        obtain ⟨l', hr, hwf, -, hm, -, hcap⟩ := add_full h.wf a hfull (h.lt_maxCap hmax) hfit.2
        exact ⟨true, l', hr, h.keep hwf (hcap ▸ hfit.1) hm⟩

/-- An item is not stored only if the list is full and must not grow. -/
theorem add_item (h : l.WF) (hmax : l.capacity ≤ l.maxCap) (hfit : 8 * l.nextCap < 2 ^ 64) (a : α) :
    (l.capacity ≤ l.count ∧ l.capacity = l.maxCap) ∧ l.add (some a) = .ok (false, l) ∨
      ¬(l.capacity ≤ l.count ∧ l.capacity = l.maxCap) ∧ ∃ l' pre post, l.add (some a) = .ok (true, l') ∧
        l'.WF ∧ l'.capacity ≤ l'.maxCap ∧ l'.freeItem = l.freeItem ∧ l.entries = pre ++ post ∧
        l'.entries = pre ++ a :: post := by
  by_cases hroom : l.count < l.capacity
  · obtain ⟨l', pre, post, hr, hwf, hentries, hentries', hm, hfree, hcap⟩ := add_room h a hroom
    exact .inr ⟨fun hfull => absurd hroom (Nat.not_lt.mpr hfull.1), l', pre, post, hr, hwf,
      by rw [hcap, hm]; exact hmax, hfree, hentries, hentries'⟩
  · have hcount : l.count = l.capacity := Nat.le_antisymm h.count_le (Nat.le_of_not_lt hroom)
    by_cases hfull : l.capacity = l.maxCap
    · exact .inl ⟨⟨Nat.le_of_eq hcount.symm, hfull⟩, by rw [add, if_neg hroom, if_pos hfull]⟩
    · have hlt : l.capacity < l.maxCap := Nat.lt_of_le_of_ne hmax hfull
      obtain ⟨l', hr, hwf, hentries, hm, hfree, hcap⟩ := add_full h a hcount hlt hfit
      exact .inr ⟨fun hnot => hfull hnot.2, l', l.entries, [], hr, hwf,
        by rw [hcap, hm]; exact (nextCap_bounds hlt).2, hfree, by simp, hentries⟩

/-- A list whose only bound is that of the addresses always takes an item in. -/
theorem add_unbounded (h : l.WF) (hcap : l.capacity ≤ l.maxCap) (hmax : l.maxCap = ULONG_MAX)
    (hfit : 8 * l.nextCap < 2 ^ 64) (a : α) :
    ∃ l', l.add (some a) = .ok (true, l') ∧ l'.WF ∧ l'.capacity ≤ l'.maxCap ∧ l'.maxCap = ULONG_MAX ∧
      l'.freeItem = l.freeItem ∧ l'.entries.Perm (a :: l.entries) := by
  by_cases hroom : l.count < l.capacity
  · obtain ⟨l', pre, post, hr, hwf, hentries, hentries', hm, hfree, hc⟩ := add_room h a hroom
    refine ⟨l', hr, hwf, by omega, hm.trans hmax, hfree, ?_⟩
    rw [hentries, hentries']
    exact List.perm_middle
  · have hlt : l.capacity < l.maxCap := by
      have hbytes := h.bytes_lt
      rw [hmax, ULONG_MAX]
      omega
    obtain ⟨l', hr, hwf, hentries, hm, hfree, hc⟩ :=
      add_full h a (Nat.le_antisymm h.count_le (Nat.le_of_not_lt hroom)) hlt hfit
    have hle := (nextCap_bounds hlt).2
    refine ⟨l', hr, hwf, by omega, hm.trans hmax, hfree, ?_⟩
    rw [hentries]
    exact (List.perm_append_comm : (l.entries ++ [a]).Perm ([a] ++ l.entries))

/-- Whether or not there is room for another item, those in the list stay in it. -/
theorem add_keeps (h : l.WF) (hmax : l.capacity ≤ l.maxCap) (hfit : 8 * l.nextCap < 2 ^ 64) (a : α) :
    ∃ stored l', l.add (some a) = .ok (stored, l') ∧ l'.WF ∧ l'.capacity ≤ l'.maxCap ∧
      l'.freeItem = l.freeItem ∧ ∀ b ∈ l.entries, b ∈ l'.entries := by
  rcases add_item h hmax hfit a with
    ⟨-, hr⟩ | ⟨-, l', pre, post, hr, hwf, hcap, hfree, hentries, hentries'⟩
  · exact ⟨false, l, hr, h, hmax, rfl, fun _ hb => hb⟩
  · refine ⟨true, l', hr, hwf, hcap, hfree, fun b hb => ?_⟩
    rw [hentries, List.mem_append] at hb
    rw [hentries']
    exact hb.elim (List.mem_append_left _) fun hpost => List.mem_append_right _ (List.mem_cons_of_mem a hpost)

theorem expand_inv (h : Inv (l, max)) (hok : (Op.expand : Op α).Fits (l, max)) :
    ∃ l', l.expand = .ok l' ∧ Inv (l', max) := by
  by_cases hmax : l.capacity = l.maxCap
  · have hpos := h.max_pos
    have hle := h.max_le
    dsimp only at hpos hle
    exact ⟨l, by rw [expand, if_neg (by omega), if_neg (by omega)], h⟩
  · have hfit : Allowed max l.nextCap := hok.resolve_left hmax
    have hlt := h.lt_maxCap hmax
    have hb := nextCap_bounds hlt
    refine ⟨_, expand_eq h.wf.length_eq hlt hfit.2, h.keep (.mk_some ?_ ?_ ?_ hfit.2) hfit.1 rfl⟩
    · have hb := hb.1
      rw [List.length_append, List.length_replicate, h.wf.length_eq]
      exact Nat.add_sub_cancel' (Nat.le_of_lt hb)
    · exact Nat.lt_of_le_of_lt (Nat.zero_le _) hb.1
    · rw [List.reduceOption_append, List.reduceOption_replicate_none, List.append_nil]
      exact h.wf.count_eq

theorem resize_inv (h : Inv (l, max)) {newcap : Nat}
    (hok : (Op.resize newcap : Op α).Fits (l, max)) :
    ∃ dropped l', l.resize newcap = .ok (dropped, l') ∧ Inv (l', max) := by
  have hl : l.WF := h.wf
  have hcap := h.capacity_le
  have hpos := h.max_pos
  have hle := h.max_le
  dsimp only at hcap hpos hle
  have hok : l.askedCap newcap ≤ l.capacity ∨ Allowed max (l.askedCap newcap) := hok
  rw [Allowed, askedCap] at hok
  by_cases hsame : newcap = l.capacity
  · exact ⟨[], l, by rw [hsame, resize_same], h⟩
  · cases hs : l.list with
    | none =>
      have h0 := hl.null_iff.mp hs
      rw [if_pos hs] at hok
      obtain ⟨l', hr, hwf, hl'⟩ := resize_null hl h0 (show 0 < newcap by omega) (by omega)
        (by omega)
      refine ⟨[], l', hr, h.keep hwf ?_ (by rw [hl'])⟩
      rw [hl']
      show min newcap l.maxCap ≤ max
      omega
    | some cells =>
      have hpos' := (hl.of_some hs).2.1
      rw [if_neg (by rw [hs]; exact Option.some_ne_none _)] at hok
      rcases Nat.lt_or_gt_of_ne hsame with hlt | hgt
      · rcases Nat.eq_zero_or_pos newcap with h0 | hn
        · exact ⟨[], _, by rw [h0, resize_zero hl hpos'], h.keep .mk_null (Nat.zero_le _) rfl⟩
        · obtain ⟨l', hr, hwf, -, hc, hm, -⟩ := resize_shrink hl hn hlt
          exact ⟨_, l', hr, h.keep hwf (by omega) hm⟩
      · have hfit := hok.resolve_left (Nat.not_le_of_lt hgt)
        obtain ⟨cells', l', -, hr, hwf, hl'⟩ := resize_grow hl hpos' hgt hfit.2
        refine ⟨[], l', hr, h.keep hwf ?_ (by rw [hl'])⟩
        rw [hl']
        exact hfit.1

theorem shrink_inv (h : Inv (l, max)) :
    ∃ dropped l', l.shrink = .ok (dropped, l') ∧ Inv (l', max) := by
  have hcount := WF.count_le (show l.WF from h.wf)
  apply resize_inv h
  left
  show l.askedCap l.count ≤ l.capacity
  rw [askedCap]
  split <;> omega

theorem step_inv [DecidableEq α] {s : ArrayList α × Nat} {op : Op α} (h : Inv s)
    (hok : op.Fits s) : ∃ out s', step s op = .ok (out, s') ∧ Inv s' := by
  obtain ⟨l, max⟩ := s
  cases op with
  | add item =>
    obtain ⟨stored, l', hr, h'⟩ := add_inv h hok
    exact ⟨[], _, by rw [step, hr]; rfl, h'⟩
  | remove item =>
    obtain ⟨dropped, l', hr, hwf, hcap, hm⟩ := remove_eq h.wf item
    exact ⟨dropped, _, by rw [step, hr]; rfl, h.keep hwf (hcap ▸ h.capacity_le) hm⟩
  | removeNoFree item =>
    obtain ⟨l', hr, hwf, hcap, hm⟩ := removeNoFree_eq h.wf item
    exact ⟨[], _, by rw [step, hr]; rfl, h.keep hwf (hcap ▸ h.capacity_le) hm⟩
  | clear =>
    obtain ⟨dropped, l', hr, hwf, hcap, hm⟩ := clear_eq h.wf
    exact ⟨dropped, _, by rw [step, hr]; rfl, h.keep hwf (hcap ▸ h.capacity_le) hm⟩
  | resize newcap =>
    obtain ⟨dropped, l', hr, h'⟩ := resize_inv h hok
    exact ⟨dropped, _, by rw [step, hr]; rfl, h'⟩
  | shrink =>
    obtain ⟨dropped, l', hr, h'⟩ := shrink_inv h
    exact ⟨dropped, _, by rw [step, hr]; rfl, h'⟩
  | expand =>
    obtain ⟨l', hr, h'⟩ := expand_inv h hok
    exact ⟨[], _, by rw [step, hr]; rfl, h'⟩
  | sift =>
    obtain ⟨l', hr, hwf, hcap, hm⟩ := sift_eq h.wf
    exact ⟨[], _, by rw [step, hr]; rfl, h.keep hwf (hcap ▸ h.capacity_le) hm⟩
  | extractArray => exact ⟨[], _, rfl, h.keep .mk_null (Nat.zero_le _) rfl⟩
  | setMaxCap maxCap =>
    have hcap : (if maxCap = 0 then ULONG_MAX else maxCap) = l.capacity := hok
    exact ⟨[], (l, l.capacity), by rw [step, setMaxCap, hcap], h.wf, Nat.le_refl _,
      Nat.le_trans h.capacity_le h.max_le, hcap ▸ maximum_pos maxCap⟩

/-- Every call of such a run keeps within the slots there are, and so does the state. -/
theorem run_in_bounds [DecidableEq α] {freeItem : Bool} {start max : Nat} {l : ArrayList α}
    {ops : List (Op α)} (hnew : newEx freeItem start max = some l)
    (hok : AllSteps step (fun s op => op.Fits s) (l, if max = 0 then ULONG_MAX else max) ops) :
    ∃ outs s', run step (l, if max = 0 then ULONG_MAX else max) ops = .ok (outs, s') ∧
      InBounds s' := by
  obtain ⟨outs, s', hr, h⟩ := run_invariant (fun _ _ h hok => step_inv h hok) ops _
    (newEx_inv hnew) hok
  exact ⟨outs, s', hr, h.inBounds⟩

theorem run_in_bounds_three :
    ∃ outs s', run step (⟨some [none], 0, 1, 4, true⟩, 4)
      [.add (some 5), .add (some 6), .remove (some 5), .resize 3, .sift, .setMaxCap 3] =
        .ok (outs, s') ∧ InBounds s' := by
  apply @run_in_bounds Nat _ true 1 4 _ _ rfl
  refine AllSteps.cons (.inr (.inl Nat.one_pos))
    (show step _ _ = .ok ([], ⟨some [some 5], 1, 1, 4, true⟩, 4) from rfl) ?_
  refine AllSteps.cons (.inr (.inr (.inr ⟨by decide, by decide⟩)))
    (show step _ _ = .ok ([], ⟨some [some 5, some 6], 2, 2, 4, true⟩, 4) from rfl) ?_
  refine AllSteps.cons trivial
    (show step _ _ = .ok ([5], ⟨some [none, some 6], 1, 2, 4, true⟩, 4) from rfl) ?_
  refine AllSteps.cons (.inr ⟨by decide, by decide⟩)
    (show step _ _ = .ok ([], ⟨some [none, some 6, none], 1, 3, 4, true⟩, 4) from rfl) ?_
  refine AllSteps.cons trivial
    (show step _ _ = .ok ([], ⟨some [some 6, none, none], 1, 3, 4, true⟩, 4) from rfl) ?_
  exact AllSteps.cons rfl
    (show step _ _ = .ok ([], ⟨some [some 6, none, none], 1, 3, 4, true⟩, 3) from rfl) trivial

/-- With a new maximum the list takes itself to have more slots than it has. -/
theorem setMaxCap_add_outside :
    newEx false 1 0 = some ⟨some [(none : Option Nat)], 0, 1, ULONG_MAX, false⟩ ∧
      run step (⟨some [none], 0, 1, ULONG_MAX, false⟩, ULONG_MAX)
        [.setMaxCap 4, .add (some 5), .add (some 6)] = .error .outOfBounds := by
  refine ⟨rfl, rfl⟩

end AlibC.ArrayList
