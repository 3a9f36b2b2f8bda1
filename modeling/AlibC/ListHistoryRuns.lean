import AlibC.ListHistoryChain
import AlibC.Lib.Machine

/-! Removing and moving items of a `ListHistory`, and its runs. -/
namespace AlibC.ListHistory

open CLang Function Linked Machine ListHistoryItem

variable {α R : Type} {hist : ListHistory α R} {as : List Nat}

/-- The items from the oldest to the newest, by following `next`. -/
def chain (hist : ListHistory α R) : List Nat :=
  walk hist.items (hist.items.cells.length + 1) hist.listRoot

theorem Holds.chain_eq (h : hist.Holds as) : hist.chain = as :=
  walk_eq h.seg (Nat.lt_succ_of_le (Heap.length_le h.seg))

/-- `remove` of an item that is in the history, or not, goes well: either the newest item is
equal to `item` and is the first one behind the oldest that is equal to itself, or what is
removed is not the newest item. -/
def RemoveSafe (hist : ListHistory α R) (item : α) : Prop :=
  ∃ l x, hist.listEnd = some l ∧ hist.items.cell l = some x ∧
    if compares hist.items item l l then
      ∃ p, oneBefore hist.items x.listItem hist.chain = some p ∧
        hist.chain.dropLast.getLast? = some p
    else
      ∀ p, oneBefore hist.items item hist.chain = some p →
        hist.chain.dropLast.getLast? ≠ some p

/-- `move_to_bottom` has nothing to do: no item but the newest is equal to `item`. -/
def MoveSafe (hist : ListHistory α R) (item : α) : Prop :=
  hist.chain ≠ [] ∧ (∀ a ∈ hist.chain.dropLast, compares hist.items item a a = false) ∧
    laterBefore hist.items item hist.chain = none

theorem cleanup_eq (hroot : hist.listRoot ≠ none) (hend : hist.listEnd ≠ none) :
    hist.cleanup = hist := by
  rw [cleanup, if_neg hend, if_neg hroot]

theorem dropLast_getLast {pre : List Nat} {a b : Nat} :
    (pre ++ [a, b]).dropLast.getLast? = some a := by
  have h : pre ++ [a, b] = (pre ++ [a]) ++ [b] := by simp
  rw [h, List.dropLast_concat, List.getLast?_concat]

/-- A deletion behind `p`, where something is left behind it or `p` becomes the end. -/
theorem itemRemove_next (h : hist.Holds as) {item : α} {pre : List Nat} {p l : Nat}
    (has : as = pre ++ [p, l]) (heq : compares hist.items item l l = true) :
    ∃ hist', hist.itemRemove (.next p) item = .ok (true, hist') ∧
      Seg (links hist'.items) hist'.listRoot (pre ++ [p]) none ∧ hist'.count = hist.count := by
  have hs := h.seg
  rw [has] at hs
  obtain ⟨hist', hdel, hs', -, -, hcount⟩ := delItem_next hs
  obtain ⟨r, -, hr⟩ := seg_append.mp hs
  obtain ⟨-, x, hx, hr⟩ := seg_cons_iff.mp hr
  obtain ⟨hxn, y, hy, -⟩ := seg_cons_iff.mp hr
  rw [compares_eq hy hy, decide_eq_true_iff] at heq
  refine ⟨hist', ?_, hs', hcount⟩
  rw [itemRemove, read, Heap.get_eq hx, ok_bind, pure_ok, ok_bind, hxn]
  dsimp only
  rw [Heap.get_eq hy, ok_bind, if_pos heq, hdel]
  rfl

/-- A deletion from the oldest item on, where the newest one is not met. -/
theorem itemRemove_root {a l : Nat} (h : hist.Holds (a :: as)) {item : α}
    (hl : (a :: as).getLast? = some l) (hne : compares hist.items item l l = false)
    (hsafe : ∀ p, oneBefore hist.items item (a :: as) = some p →
      (a :: as).dropLast.getLast? ≠ some p) :
    ∃ deleted hist' as', hist.itemRemove .root item = .ok (deleted, hist') ∧
      Seg (links hist'.items) hist'.listRoot as' none ∧ hist'.listEnd = as'.getLast? ∧ as' ≠ [] ∧
      hist'.count = if deleted then as'.length + 1 else as'.length := by
  have hend := h.end_eq
  have hcount := h.count_eq
  obtain ⟨hroot, y, hy, -⟩ := seg_cons_iff.mp h.seg
  rw [itemRemove, read, hroot, ok_bind]
  dsimp only
  rw [Heap.get_eq hy, ok_bind]
  rw [oneBefore] at hsafe
  by_cases hc : compares hist.items item a a = true
  · have hcmp := hc
    rw [compares_eq hy hy, decide_eq_true_iff] at hcmp
    rw [if_pos hcmp]
    cases as with
    | nil =>
      cases hl
      exact absurd (hc.symm.trans hne) (by simp)
    | cons b as =>
      obtain ⟨hist', hdel, hs', hend', hcount'⟩ := delItem_root h.seg
      refine ⟨true, hist', b :: as, by rw [hdel]; rfl, hs', ?_, by simp, ?_⟩
      · rw [hend', hend, List.getLast?_cons_cons]
      · rw [hcount', hcount]
        rfl
  · have hcmp := hc
    rw [compares_eq hy hy, decide_eq_true_iff] at hcmp
    rw [if_neg hc] at hsafe
    rw [if_neg hcmp, findOneBeforeLoop_eq (hroot ▸ h.seg)
      (Nat.lt_of_succ_lt (Nat.lt_succ_of_le (Heap.length_le h.seg))), ok_bind]
    cases hb : laterBefore hist.items item (a :: as) with
    | none => exact ⟨false, hist, a :: as, rfl, h.seg, hend, by simp, hcount⟩
    | some p =>
      obtain ⟨pre, b, post, has⟩ := laterBefore_eq_some hb
      have hpost : post ≠ [] := by
        rintro rfl
        exact hsafe p hb (by rw [has]; exact dropLast_getLast)
      have hs := h.seg
      rw [has] at hs hend hcount
      obtain ⟨hist', hdel, hs', -, hend', hcount'⟩ := delItem_next hs
      refine ⟨true, hist', pre ++ p :: post, ?_, hs', ?_, by simp, ?_⟩
      · dsimp only
        rw [hdel]
        rfl
      · rw [hend', hend, List.getLast?_append_of_ne_nil _ (by simp),
          List.getLast?_append_of_ne_nil _ (by simp), List.getLast?_cons_cons,
          List.getLast?_cons_of_ne_nil hpost, List.getLast?_cons_of_ne_nil hpost]
      · rw [hcount', hcount]
        simp
        omega

/-- `remove` leaves a chain in which at most one item is missing. -/
theorem removeFrom_holds (h : hist.Holds as) {item : α} (hsafe : hist.RemoveSafe item) :
    ∃ deleted hist' as', hist.removeFrom item = .ok (deleted, hist') ∧
      Seg (links hist'.items) hist'.listRoot as' none ∧ hist'.listEnd = as'.getLast? ∧ as' ≠ [] ∧
      hist'.count = if deleted then as'.length + 1 else as'.length := by
  obtain ⟨l, x, hl, hx, hsafe⟩ := hsafe
  rw [h.chain_eq] at hsafe
  have hlast := h.end_eq.symm.trans hl
  rw [removeFrom, hl, Heap.get_eq hx, ok_bind]
  by_cases hc : compares hist.items item l l = true
  · rw [if_pos hc] at hsafe
    obtain ⟨p, hbefore, hp⟩ := hsafe
    -- the chain ends with the item found and the newest one
    have hsplit : ∃ pre, as = pre ++ [p, l] := by
      obtain ⟨init, hinit⟩ := List.getLast?_eq_some_iff.mp hlast
      rw [hinit, List.dropLast_concat] at hp
      obtain ⟨pre, hpre⟩ := List.getLast?_eq_some_iff.mp hp
      exact ⟨pre, by rw [hinit, hpre]; simp⟩
    obtain ⟨pre, has⟩ := hsplit
    obtain ⟨hist', hrm, hs', hcount⟩ := itemRemove_next h has hc
    have hcmp := hc
    rw [compares_eq hx hx, decide_eq_true_iff] at hcmp
    refine ⟨true, { hist' with listEnd := some p }, pre ++ [p], ?_, hs', ?_, by simp, ?_⟩
    · rw [if_pos hcmp, findOneBefore_eq h.seg, hbefore, ok_bind]
      dsimp only
      rw [hrm]
      rfl
    · rw [List.getLast?_concat]
    · show hist'.count = _
      rw [hcount, h.count_eq, has]
      simp
  · rw [if_neg hc] at hsafe
    have hcmp := hc
    rw [compares_eq hx hx, decide_eq_true_iff] at hcmp
    rw [if_neg hcmp]
    cases as with
    | nil => cases hlast
    | cons a as =>
      obtain ⟨hroot, y, hy, -⟩ := seg_cons_iff.mp h.seg
      have hget : hist.items.get hist.listRoot = .ok y := by rw [hroot, Heap.get_eq hy]
      rw [hget, ok_bind]
      exact itemRemove_root h hlast (by simpa using hc) hsafe

theorem remove_holds (h : hist.Holds as) {item : α} (hsafe : hist.RemoveSafe item) :
    ∃ hist' as', hist.remove (some item) = .ok (.ok, hist') ∧ hist'.Holds as' := by
  obtain ⟨deleted, hist', as', hrm, hs, hend, hne, hcount⟩ := removeFrom_holds h hsafe
  have hroot : hist'.listRoot ≠ none ∧ hist'.listEnd ≠ none := by
    rw [hs.head_eq, hend]
    cases as' with
    | nil => exact absurd rfl hne
    | cons a as' => simp
  cases deleted with
  | true =>
    rw [if_pos rfl] at hcount
    refine ⟨{ hist' with count := hist'.count - 1 }, as', ?_, hs, hend, by simp [hcount]⟩
    rw [remove, hrm, ok_bind]
    dsimp only
    rw [if_pos rfl, dropCount_eq (by omega), ok_bind, cleanup_eq]
    · rfl
    · exact hroot.1
    · exact hroot.2
  | false =>
    refine ⟨hist', as', ?_, hs, hend, hcount⟩
    rw [remove, hrm, ok_bind]
    dsimp only
    rw [if_neg (by simp), pure_ok, ok_bind, cleanup_eq hroot.1 hroot.2]
    rfl

theorem moveTopToBottom_holds {a : Nat} (h : hist.Holds (a :: as)) :
    ∃ hist', hist.moveTopToBottom = .ok hist' ∧ hist'.Holds (as ++ [a]) := by
  have hcount := h.count_eq
  have hend := h.end_eq
  obtain ⟨hroot, x, hx, hs⟩ := seg_cons_iff.mp h.seg
  have hlen : hist.count = (as ++ [a]).length := by rw [hcount]; simp
  cases List.eq_nil_or_concat as with
  | inl hnil =>
    -- the only item is linked to itself and set free again
    subst hnil
    have hend : hist.listEnd = some a := hend
    have h₁ : (hist.items.put a (some { x with next := some a })).cell a =
        some { x with next := some a } := by rw [Heap.cell_put hx, update_self]
    refine ⟨⟨(hist.items.put a (some { x with next := some a })).put a
      (some { x with next := none }), some a, some a, hist.count, hist.max, hist.removed⟩, ?_, ?_,
      rfl, hlen⟩
    · rw [moveTopToBottom, hend, hroot, Heap.modify_eq hx, ok_bind, Heap.get_eq h₁, ok_bind,
        ok_bind, Heap.modify_eq h₁]
      rfl
    · refine seg_cons_iff.mpr ⟨rfl, { x with next := none }, ?_, rfl⟩
      rw [Heap.cell_put h₁, update_self]
  | inr hcons =>
    obtain ⟨init, l, has⟩ := hcons
    rw [List.concat_eq_append] at has
    subst has
    have hend : hist.listEnd = some l := by
      rw [hend, ← List.cons_append, List.getLast?_concat]
    have hne : a ≠ l := by
      intro he
      refine (List.nodup_cons.mp h.seg.nodup).1 ?_
      rw [he]
      exact List.mem_append_right _ (List.mem_singleton_self l)
    obtain ⟨y, hy⟩ := Heap.exists_cell hs (List.mem_append_right init (List.mem_singleton_self l))
    have hl : (hist.items.put l (some { y with next := some a })).cell l =
        some { y with next := some a } := by rw [Heap.cell_put hy, update_self]
    have ha : (hist.items.put l (some { y with next := some a })).cell a = some x := by
      rw [Heap.cell_put hy, update_of_ne hne, hx]
    refine ⟨⟨(hist.items.put l (some { y with next := some a })).put a
      (some { x with next := none }), x.next, some a, hist.count, hist.max, hist.removed⟩, ?_, ?_,
      ?_, hlen⟩
    · rw [moveTopToBottom, hend, hroot, Heap.modify_eq hy, ok_bind, Heap.get_eq ha, ok_bind,
        Heap.get_eq hl, ok_bind, Heap.modify_eq ha]
      rfl
    · obtain ⟨r, hr, hseg⟩ := Seg.rotate h.seg
      cases hr.symm.trans (Heap.links_eq hx)
      show Seg (links ((hist.items.put l _).put a _)) x.next _ none
      rw [links, Heap.links_put ha, Heap.links_put hy]
      exact hseg
    · rw [List.getLast?_concat]

/-- The item that is found is taken to the end. -/
def moveToEnd (p : Nat → Bool) (as : List Nat) : List Nat := as.eraseP p ++ (as.find? p).toList

theorem moveToEnd_eq {p : Nat → Bool} (h : ∀ a ∈ as.dropLast, p a = false) :
    moveToEnd p as = as := by
  cases List.eq_nil_or_concat as with
  | inl hnil =>
    subst hnil
    rfl
  | inr hcons =>
    obtain ⟨init, l, has⟩ := hcons
    rw [List.concat_eq_append] at has
    subst has
    rw [List.dropLast_concat] at h
    have hnone : ∀ a ∈ init, ¬ p a = true := fun a ha => by simp [h a ha]
    rw [moveToEnd, List.eraseP_append_right _ hnone, List.find?_append,
      List.find?_eq_none.mpr hnone]
    by_cases hl : p l = true
    · simp [hl]
    · simp [hl]

/-- With nothing to move the history stays as it is. -/
theorem moveToBottom_eq (h : hist.Holds as) {item : α} (hsafe : hist.MoveSafe item) :
    hist.moveToBottom (some item) = .ok (1, hist) := by
  obtain ⟨hne, hown, hlater⟩ := hsafe
  rw [h.chain_eq] at hne hown hlater
  cases as with
  | nil => exact absurd rfl hne
  | cons a as =>
    obtain ⟨hroot, x, hx, -⟩ := seg_cons_iff.mp h.seg
    have hget : hist.items.get hist.listRoot = .ok x := by rw [hroot, Heap.get_eq hx]
    have hbefore : oneBefore hist.items item (a :: as) = none := by
      rw [oneBefore, hlater, ite_self]
    rw [moveToBottom, hget, ok_bind, findOneBefore_eq h.seg, hbefore]
    rfl

/-- The member functions of a history. -/
inductive Op (α R : Type) where
  | pushBack (mem : Bool) (item : Option α) (removeFunc : Option R)
      (compareFunc : Option (α → α → Int))
  | popOff
  | remove (item : Option α)
  | moveTopToBottom
  | moveToBottom (item : Option α)

/-- One call and the code it returns. -/
def step [DecidableEq α] (hist : ListHistory α R) : Op α R → Outcome (Int × ListHistory α R)
  | .pushBack mem item removeFunc compareFunc => do
    let (code, hist) ← hist.pushBack mem item removeFunc compareFunc
    return (code.code, hist)
  | .popOff => do return (AlibError.ok.code, ← hist.popOff)
  | .remove item => do
    let (code, hist) ← hist.remove item
    return (code.code, hist)
  | .moveTopToBottom => do return (AlibError.ok.code, ← hist.moveTopToBottom)
  | .moveToBottom item => hist.moveToBottom item

/-- The calls that the code gets right. -/
def Safe (hist : ListHistory α R) : Op α R → Prop
  | .pushBack _ _ _ _ => hist.count + 1 < 2 ^ 32
  | .popOff => True
  | .remove item => ∀ i, item = some i → hist.RemoveSafe i
  | .moveTopToBottom => hist.chain ≠ []
  | .moveToBottom item => ∀ i, item = some i → hist.MoveSafe i

/-- A chain without a cycle leads from the root to the end and has `count` items. -/
def Sound (hist : ListHistory α R) : Prop :=
  ∃ as, Seg (links hist.items) hist.listRoot as none ∧ as.Nodup ∧ as.length = hist.count ∧
    hist.listEnd = as.getLast? ∧ (hist.listRoot = none ↔ hist.count = 0) ∧
    (hist.listEnd = none ↔ hist.count = 0)

theorem Holds.sound (h : hist.Holds as) : hist.Sound := by
  refine ⟨as, h.seg, h.seg.nodup, h.count_eq.symm, h.end_eq, ?_, ?_⟩
  · rw [h.seg.head_eq, h.count_eq]
    simp
  · rw [h.end_eq, h.count_eq]
    simp

/-- One safe call keeps the chain. -/
theorem step_holds [DecidableEq α] (hist : ListHistory α R) (op : Op α R) (h : ∃ as, hist.Holds as)
    (hsafe : hist.Safe op) :
    ∃ code hist', step hist op = .ok (code, hist') ∧ ∃ as', hist'.Holds as' := by
  obtain ⟨as, h⟩ := h
  cases op with
  | pushBack mem item removeFunc compareFunc =>
    obtain ⟨code, hist', as', he, h'⟩ := pushBack_holds h mem item removeFunc compareFunc hsafe
    exact ⟨code.code, hist', by rw [step, he]; rfl, as', h'⟩
  | popOff =>
    obtain ⟨hist', he, h'⟩ := popOff_holds h
    exact ⟨_, hist', by rw [step, he]; rfl, _, h'⟩
  | remove item =>
    cases item with
    | none => exact ⟨_, hist, rfl, as, h⟩
    | some item =>
      obtain ⟨hist', as', he, h'⟩ := remove_holds h (hsafe item rfl)
      exact ⟨_, hist', by rw [step, he]; rfl, as', h'⟩
  | moveTopToBottom =>
    have hne : hist.chain ≠ [] := hsafe
    rw [h.chain_eq] at hne
    cases as with
    | nil => exact absurd rfl hne
    | cons a as =>
      obtain ⟨hist', he, h'⟩ := moveTopToBottom_holds h
      exact ⟨_, hist', by rw [step, he]; rfl, _, h'⟩
  | moveToBottom item =>
    cases item with
    | none => exact ⟨_, hist, rfl, as, h⟩
    | some item => exact ⟨1, hist, moveToBottom_eq h (hsafe item rfl), as, h⟩

end AlibC.ListHistory
