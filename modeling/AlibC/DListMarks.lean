import AlibC.DListForeign

/-! Marking items of a `DList` for removal, and the sweep that removes them. -/
namespace AlibC.DList

open CLang Function Linked Machine DListItem

variable {α : Type} {list : DList α} {xs pre post : List Nat} {a c index count : Nat}

/-- The marking calls, those with an item for an item of the list. -/
inductive Mark where
  | lsafe (index : Nat)
  | countLsafe (index count : Nat)
  | itemLsafe (item : Nat)
  | itemCountLsafe (item count : Nat)
deriving DecidableEq, Repr

def markBy (list : DList α) : Mark → Outcome (AlibError × DList α)
  | .lsafe index => list.removeLsafe index
  | .countLsafe index count => list.removeCountLsafe index count
  | .itemLsafe item => list.removeItemLsafe (some item)
  | .itemCountLsafe item count => list.removeItemCountLsafe (some item) count

/-- An item that is given is one of the list. -/
def Mark.Own (xs : List Nat) : Mark → Prop
  | .lsafe _ | .countLsafe _ _ => True
  | .itemLsafe item | .itemCountLsafe item _ => item ∈ xs

/-- The call finds its first item. -/
def Mark.Accepted (xs : List Nat) : Mark → Prop
  | .lsafe index | .countLsafe index _ => index < xs.length
  | .itemLsafe _ => True
  | .itemCountLsafe item _ => ownIndex xs (some item) < xs.length

instance (xs : List Nat) : (m : Mark) → Decidable (m.Accepted xs)
  | .lsafe index | .countLsafe index _ => inferInstanceAs (Decidable (index < xs.length))
  | .itemLsafe _ => inferInstanceAs (Decidable True)
  | .itemCountLsafe item _ =>
    inferInstanceAs (Decidable (ownIndex xs (some item) < xs.length))

/-- The items that a call marks. -/
def Mark.named (xs : List Nat) : Mark → List Nat
  | .lsafe index => range xs index 1
  | .countLsafe index count => range xs index count
  | .itemLsafe item => [item]
  | .itemCountLsafe item count => range xs (ownIndex xs (some item)) count

theorem range_eq_nil (h : xs.length ≤ index) : range xs index count = [] := by
  rw [range, List.drop_eq_nil_of_le h, List.take_nil]

/-- A call that is refused names no item. -/
theorem Mark.named_eq_nil {m : Mark} (h : ¬m.Accepted xs) : m.named xs = [] := by
  cases m with
  | lsafe index => exact range_eq_nil (Nat.le_of_not_lt h)
  | countLsafe index count => exact range_eq_nil (Nat.le_of_not_lt h)
  | itemLsafe item => exact absurd trivial h
  | itemCountLsafe item count => exact range_eq_nil (Nat.le_of_not_lt h)

/-- Whether an item is to be removed by the next sweep. -/
def marked (items : Items α) (a : Nat) : Bool := mark items a == some true

/-- What a marking call does: the list stays what it is, and the items named are marked. -/
structure Marked (list list' : DList α) (xs named : List Nat) (accepted : Bool) : Prop where
  holds : list'.Holds xs
  self_eq : list'.self = list.self
  flag_eq : list'.itemsReadyForRemoval = (list.itemsReadyForRemoval || accepted)
  marked_eq : ∀ c ∈ xs, marked list'.items c = (marked list.items c || decide (c ∈ named))

theorem Holds.of_view (h : list.Holds xs) {items' : Items α} (hv : view items' = view list.items)
    (flag : Bool) : Holds { list with items := items', itemsReadyForRemoval := flag } xs :=
  ⟨hv.symm ▸ h.chain, h.begin_eq, h.end_eq, h.count_eq⟩

theorem marked_of_mark {items items' : Items α} {named : List Nat}
    (hm : mark items' c = if c ∈ named then some true else mark items c) :
    marked items' c = (marked items c || decide (c ∈ named)) := by
  rw [marked, hm, marked]
  by_cases hc : c ∈ named
  · rw [if_pos hc, decide_eq_true hc, Bool.or_true]
    rfl
  · rw [if_neg hc, decide_eq_false hc, Bool.or_false]

theorem removeCountLsafe_eq (h : list.Holds xs) (hlt : xs.length < 2 ^ 63) (index count : Nat) :
    ∃ code list', list.removeCountLsafe index count = .ok (code, list') ∧
      Marked list list' xs (range xs index count) (decide (index < xs.length)) := by
  by_cases hin : index < xs.length
  · have hx := List.getElem?_eq_getElem hin
    have hhead : (xs.drop index).head? = some xs[index] := by rw [List.head?_drop, hx]
    have hpath : Path (view list.items).nx (xs.drop index) none := by
      have hfwd := h.chain.dll.fwd
      rw [← List.take_append_drop index xs] at hfwd
      exact (path_append.mp hfwd).2
    obtain ⟨items', hs, hv, hm⟩ := @markLoop_spec α count list.items (xs.drop index) hpath
    refine ⟨.ok, { list with items := items', itemsReadyForRemoval := true }, ?_,
      ⟨h.of_view hv true, rfl, ?_, fun c _ => marked_of_mark (hm c)⟩⟩
    · rw [removeCountLsafe, if_neg (by rw [h.count_eq]; omega), get_eq h hlt, hx, ok_bind,
        if_neg (Option.some_ne_none _), ← hhead, hs]
      rfl
    · rw [decide_eq_true hin, Bool.or_true]
  · refine ⟨.badArg, list, if_pos (by rw [h.count_eq]; omega), ⟨h, rfl, ?_, fun c _ => ?_⟩⟩
    · rw [decide_eq_false hin, Bool.or_false]
    · rw [range_eq_nil (by omega), decide_eq_false List.not_mem_nil, Bool.or_false]

theorem removeLsafe_eq (h : list.Holds xs) (hlt : xs.length < 2 ^ 63) (index : Nat) :
    list.removeLsafe index = list.removeCountLsafe index 1 := by
  rw [removeLsafe, removeCountLsafe]
  by_cases hin : index ≥ list.count
  · rw [if_pos hin, if_pos hin]
  · rw [h.count_eq] at hin
    have hx := List.getElem?_eq_getElem (show index < xs.length by omega)
    obtain ⟨r, hr⟩ := h.chain.dll.fwd.exists_link (List.getElem_mem (show index < xs.length by omega))
    obtain ⟨items', hs, hv, -⟩ := markForRemoval_spec hr
    have hnext : member next items' (some xs[index]) = .ok r := member_eq (by rw [← hr, ← hv]; rfl)
    rw [h.count_eq, if_neg hin, if_neg hin, get_eq h hlt, hx, ok_bind, ok_bind,
      if_neg (Option.some_ne_none _), if_neg (Option.some_ne_none _), markLoop, hs, ok_bind, ok_bind,
      hnext]
    rfl

theorem removeItemLsafe_eq (h : list.Holds xs) (ha : a ∈ xs) :
    ∃ list', list.removeItemLsafe (some a) = .ok (.ok, list') ∧
      Marked list list' xs [a] true := by
  obtain ⟨r, hr⟩ := h.chain.dll.fwd.exists_link ha
  obtain ⟨items', hs, hv, hm⟩ := markForRemoval_spec hr
  refine ⟨{ list with items := items', itemsReadyForRemoval := true }, ?_,
    ⟨h.of_view hv true, rfl, (Bool.or_true _).symm, fun c _ => marked_of_mark ?_⟩⟩
  · rw [removeItemLsafe, member_eq (h.chain.par_eq a ha), ok_bind, if_neg (fun hne => hne rfl), hs]
    rfl
  · rw [hm]
    by_cases hca : c = a
    · rw [hca, update_self, if_pos (List.mem_singleton_self a)]
    · rw [update_of_ne hca, if_neg (fun hc => hca (List.mem_singleton.mp hc))]

/-- Each marking call leaves the list in order and marks the items it names. -/
theorem markBy_eq (h : list.Holds xs) (hlt : xs.length < 2 ^ 63) {m : Mark} (hown : m.Own xs) :
    ∃ code list', list.markBy m = .ok (code, list') ∧
      Marked list list' xs (m.named xs) (decide (m.Accepted xs)) := by
  cases m with
  | lsafe index =>
    rw [markBy, removeLsafe_eq h hlt]
    exact removeCountLsafe_eq h hlt index 1
  | countLsafe index count => exact removeCountLsafe_eq h hlt index count
  | itemLsafe item =>
    obtain ⟨list', hr, hm⟩ := removeItemLsafe_eq h hown
    exact ⟨.ok, list', hr, hm⟩
  | itemCountLsafe item count =>
    rw [markBy, (h.counted_eq hown count).2]
    exact removeCountLsafe_eq h hlt _ count

/-- After any marking calls exactly the items named are marked in addition. -/
theorem run_markBy : ∀ {ms : List Mark} {list : DList α}, list.Holds xs → xs.length < 2 ^ 63 →
    (∀ m ∈ ms, m.Own xs) → ∃ codes list', run markBy list ms = .ok (codes, list') ∧
      Marked list list' xs (ms.flatMap fun m => m.named xs)
        (ms.any fun m => decide (m.Accepted xs)) := by
  intro ms
  induction ms with
  | nil =>
    intro list h _ _
    refine ⟨[], list, rfl, ⟨h, rfl, (Bool.or_false _).symm, fun c _ => ?_⟩⟩
    rw [List.flatMap_nil, decide_eq_false List.not_mem_nil, Bool.or_false]
  | cons m ms ih =>
    intro list h hlt hown
    have hown := List.forall_mem_cons.mp hown
    obtain ⟨code, list₁, hr₁, h₁⟩ := markBy_eq h hlt hown.1
    obtain ⟨codes, list₂, hr₂, h₂⟩ := ih h₁.holds hlt hown.2
    refine ⟨code :: codes, list₂, run_cons hr₁ hr₂, ⟨h₂.holds, h₂.self_eq.trans h₁.self_eq, ?_,
      fun c hc => ?_⟩⟩
    · rw [h₂.flag_eq, h₁.flag_eq, List.any_cons, Bool.or_assoc]
    · rw [h₂.marked_eq c hc, h₁.marked_eq c hc, List.flatMap_cons, Bool.or_assoc]
      congr 1
      simp only [List.mem_append, Bool.decide_or]

section Sweep

/-- The items that are not marked. -/
def unmarked (items : Items α) (xs : List Nat) : List Nat := xs.filter fun a => !marked items a

theorem unmarked_cons_marked {items : Items α} {a : Nat} (h : marked items a = true)
    (xs : List Nat) : unmarked items (a :: xs) = unmarked items xs :=
  List.filter_cons_of_neg (by simp [h])

theorem unmarked_cons_kept {items : Items α} {a : Nat} (h : marked items a = false)
    (xs : List Nat) : unmarked items (a :: xs) = a :: unmarked items xs :=
  List.filter_cons_of_pos (by simp [h])

/-- The item ahead of another one is found from that one and removed; the marks of the others
stay. -/
theorem remove_ahead {list : DList α} {pre post : List Nat} {a b : Nat}
    (h : list.Holds (pre ++ a :: b :: post)) (hlt : (pre ++ a :: b :: post).length < 2 ^ 63) :
    member prev list.items (some b) = .ok (some a) ∧
      ∃ list', list.removeItem (some a) = .ok (.ok, list') ∧ list'.Holds (pre ++ b :: post) ∧
        list'.self = list.self ∧ list'.itemsReadyForRemoval = list.itemsReadyForRemoval ∧
        ∀ c ∈ b :: post, marked list'.items c = marked list.items c := by
  have hb := h.chain.dll
  rw [← List.singleton_append, ← List.append_assoc] at hb
  have hprev : (view list.items).pv b = some (some a) := by
    rw [hb.link_eq.2, List.getLast?_concat]
  have hnot := h.chain.dll.not_mem
  obtain ⟨list', hr, h', hself, hdel, hflag⟩ := removeItem_eq h hlt
    (List.mem_append_right pre List.mem_cons_self)
  rw [List.erase_append_right _ fun hp => hnot (List.mem_append_left _ hp),
    List.erase_cons_head] at h'
  refine ⟨member_eq hprev, list', hr, h', hself, hflag, fun c hc => ?_⟩
  have hca : c ≠ a := fun he => hnot (List.mem_append_right _ (he ▸ hc))
  rw [marked, hdel.mark_eq c hca, marked]

/-- The sweep from an item on. It deletes an item once it is past it, and past the last item there
is nothing to go back from. -/
theorem markedLoop_eq : ∀ {post : List Nat} {list : DList α} {pre : List Nat} {n : Nat},
    list.Holds (pre ++ post) → (pre ++ post).length < 2 ^ 63 → post.length < n →
    if ∃ e, post.getLast? = some e ∧ marked list.items e then
      markedLoop n list post.head? = .error .nullDeref
    else ∃ list', markedLoop n list post.head? = .ok list' ∧
      list'.Holds (pre ++ unmarked list.items post) ∧ list'.self = list.self ∧
      list'.itemsReadyForRemoval = list.itemsReadyForRemoval := by
  intro post
  induction post with
  | nil =>
    intro list pre n h _ hn
    obtain ⟨n, rfl⟩ := Nat.exists_eq_succ_of_ne_zero (show n ≠ 0 by simp at hn; omega)
    rw [if_neg (by simp)]
    exact ⟨list, rfl, h, rfl, rfl⟩
  | cons a post ih =>
    intro list pre n h hlt hn
    rw [List.length_cons] at hn
    obtain ⟨n, rfl⟩ := Nat.exists_eq_succ_of_ne_zero (show n ≠ 0 by omega)
    have hlink := h.chain.dll.link_eq
    obtain ⟨x, hx⟩ := exists_cell_of_link hlink.1
    have hnext : x.next = post.head? := by
      have hn := hlink.1
      simp only [view, Heap.links_eq hx, Option.some.injEq] at hn
      exact hn
    have hmarked : marked list.items a = x.removed := by
      rw [marked, mark, hx, Option.map_some]
      cases x.removed <;> rfl
    rw [List.head?_cons, markedLoop, Heap.get_eq hx, ok_bind, hnext]
    cases hremoved : x.removed with
    | false =>
      -- the item stays
      rw [hremoved] at hmarked
      have hpre : pre ++ a :: post = (pre ++ [a]) ++ post := by simp
      have hloop := @ih list (pre ++ [a]) n (hpre ▸ h) (hpre ▸ hlt) (by omega)
      have hlast : (∃ e, (a :: post).getLast? = some e ∧ marked list.items e) ↔
          ∃ e, post.getLast? = some e ∧ marked list.items e := by
        cases post with
        | nil => simp [hmarked]
        | cons b post => rw [List.getLast?_cons_cons]
      rw [List.append_assoc, List.singleton_append, ← unmarked_cons_kept hmarked] at hloop
      rw [if_neg Bool.false_ne_true]
      simp only [hlast]
      exact hloop
    | true =>
      rw [hremoved] at hmarked
      rw [if_pos rfl]
      cases post with
      | nil =>
        rw [if_pos ⟨a, rfl, hmarked⟩]
        rfl
      | cons b post =>
        obtain ⟨hprev, list₁, hr, h₁, hself, hflag, hsame⟩ := remove_ahead h hlt
        have hloop := @ih list₁ pre n h₁ (by simp at hlt ⊢; omega) (by omega)
        have hlast : (∃ e, (b :: post).getLast? = some e ∧ marked list₁.items e) ↔
            ∃ e, (b :: post).getLast? = some e ∧ marked list.items e :=
          exists_congr fun e => and_congr_right fun he => by
            rw [hsame e (List.mem_of_getLast? he)]
        have hrest : unmarked list₁.items (b :: post) = unmarked list.items (b :: post) :=
          List.filter_congr fun c hc => by rw [hsame c hc]
        simp only [hlast, hrest, hself, hflag] at hloop
        rw [List.head?_cons, hprev, ok_bind, hr, ok_bind, List.getLast?_cons_cons,
          unmarked_cons_marked hmarked]
        exact hloop

/-- The sweep removes the marked items exactly when the last item is not one of them. -/
theorem removeMarkedItems_iff (h : list.Holds xs) (hlt : xs.length < 2 ^ 63)
    (hflag : list.itemsReadyForRemoval = true) :
    (∃ list', list.removeMarkedItems = .ok list' ∧ list'.Holds (unmarked list.items xs) ∧
      list'.self = list.self ∧ list'.itemsReadyForRemoval = true) ↔
    ∀ e, xs.getLast? = some e → marked list.items e = false := by
  have hloop := @markedLoop_eq α xs list [] (fuel list.items) h hlt (length_lt_fuel h.chain.dll.fwd)
  have hsweep : list.removeMarkedItems = markedLoop (fuel list.items) list xs.head? := by
    rw [removeMarkedItems, if_pos hflag, h.begin_eq]
  rw [hsweep]
  by_cases hlast : ∃ e, xs.getLast? = some e ∧ marked list.items e
  · rw [if_pos hlast] at hloop
    obtain ⟨e, he, hm⟩ := hlast
    refine ⟨fun ⟨list', hr, _⟩ => ?_, fun hno => ?_⟩
    · rw [hloop] at hr
      cases hr
    · rw [hno e he] at hm
      cases hm
  · rw [if_neg hlast, hflag] at hloop
    refine ⟨fun _ e he => ?_, fun _ => hloop⟩
    by_contra hm
    exact hlast ⟨e, he, eq_true_of_ne_false hm⟩

/-- The sweep takes out the marked items and nothing is pending afterwards. -/
def SweepsExactly (list : DList α) (xs : List Nat) : Prop :=
  ∃ list', list.removeMarkedItems = .ok list' ∧ list'.Holds (unmarked list.items xs) ∧
    list'.self = list.self ∧ list'.itemsReadyForRemoval = false

theorem sweepsExactly_iff (h : list.Holds xs) (hlt : xs.length < 2 ^ 63) :
    list.SweepsExactly xs ↔
      list.itemsReadyForRemoval = false ∧ ∀ a ∈ xs, marked list.items a = false := by
  cases hflag : list.itemsReadyForRemoval with
  | true =>
    -- the flag is never lowered
    refine ⟨fun ⟨list', hr, h', hself, hlow⟩ => ?_, fun hc => by cases hc.1⟩
    have hloop := @markedLoop_eq α xs list [] (fuel list.items) h hlt
      (length_lt_fuel h.chain.dll.fwd)
    rw [removeMarkedItems, if_pos hflag, h.begin_eq] at hr
    split at hloop
    · rw [hloop] at hr
      cases hr
    · obtain ⟨list'', hr'', -, -, hup⟩ := hloop
      rw [hr] at hr''
      cases hr''
      rw [hlow, hflag] at hup
      cases hup
  | false =>
    have hr : list.removeMarkedItems = .ok list := by
      rw [removeMarkedItems, if_neg (by simp [hflag])]
    refine ⟨fun ⟨list', hr', h', hself, _⟩ => ⟨rfl, ?_⟩, fun hc => ⟨list, hr, ?_, rfl, hflag⟩⟩
    · rw [hr] at hr'
      cases hr'
      have hall := h.unique h'
      intro a ha
      rw [hall, unmarked, List.mem_filter] at ha
      simpa using ha.2
    · rw [unmarked, List.filter_eq_self.mpr fun a ha => by rw [hc.2 a ha]; rfl]
      exact h

end Sweep

end AlibC.DList
