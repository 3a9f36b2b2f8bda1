import AlibC.DListItemEnds
import AlibC.DListInsert
import AlibC.Lib.Machine

/-! A `DList` as a deque: joining chains to either end and taking items out. -/
namespace AlibC.DList

open CLang Function Linked Machine Reorder DListItem

variable {α β : Type} {list : DList α} {xs ys pre post u w : List Nat} {a item index : Nat}

section Take

variable {op : Items α → Option Nat → Outcome (β × Option Nat × Items α)} {result : β}
  {items' : Items α}

/-- The list without an item that was taken out of it. -/
def left (list : DList α) (items' : Items α) (xs : List Nat) : DList α :=
  { list with items := items', beginItem := xs.head?, endItem := xs.getLast? }

theorem takeBegin_eq (h : list.Holds (ys ++ post)) (hne : ys ≠ [])
    (hop : op list.items ys.head? = .ok (result, post.head?, items')) :
    list.takeBegin op = .ok (result, list.left items' post) := by
  have hb : list.beginItem = ys.head? := by rw [h.begin_eq, List.head?_append_of_ne_nil _ hne]
  have he : (if post.head? = none then none else list.endItem) = post.getLast? := by
    rw [h.end_eq]
    cases post with
    | nil => rfl
    | cons b post => rw [if_neg (by simp), List.getLast?_append_of_ne_nil _ (by simp)]
  rw [takeBegin, hb, hop, ok_bind]
  dsimp only
  rw [he]
  rfl

theorem takeEnd_eq (h : list.Holds (pre ++ [a])) (hpre : pre ≠ [])
    (hop : op list.items (some a) = .ok (result, pre.getLast?, items')) :
    list.takeEnd op = .ok (result, list.left items' pre) := by
  have he : list.endItem = some a := by rw [h.end_eq, List.getLast?_concat]
  have hb : list.beginItem = pre.head? := by
    rw [h.begin_eq, List.head?_append_of_ne_nil _ hpre]
  rw [takeEnd, he, hop, ok_bind, left, ← hb]
  rfl

theorem takeItem_eq (h : list.Holds (pre ++ ys ++ post)) (hpre : pre ≠ []) (hpost : post ≠ [])
    {i p : Option Nat} (hop : op list.items i = .ok (result, p, items')) :
    list.takeItem op i = .ok (result, list.left items' (pre ++ post)) := by
  have hb : list.beginItem = (pre ++ post).head? := by
    rw [h.begin_eq, List.append_assoc, List.head?_append_of_ne_nil _ hpre,
      List.head?_append_of_ne_nil _ hpre]
  have he : list.endItem = (pre ++ post).getLast? := by
    rw [h.end_eq, List.getLast?_append_of_ne_nil _ hpost,
      List.getLast?_append_of_ne_nil _ hpost]
  rw [takeItem, hop, ok_bind, left, ← hb, ← he]
  rfl

/-- On each of the routes the item at the index is taken out. -/
theorem takeAt_eq (h : list.Holds (pre ++ a :: post)) (hlt : (pre ++ a :: post).length < 2 ^ 63)
    (hop : op list.items (some a) = .ok (result, pre.getLast?.or post.head?, items')) :
    list.takeAt op pre.length = .ok (result, list.left items' (pre ++ post)) := by
  have hcount := h.count_eq
  have hlen : (pre ++ a :: post).length = pre.length + (post.length + 1) := by simp
  have hone : sizeSub list.count 1 = pre.length + post.length := by
    rw [hcount, hlen, sizeSub_eq (by omega) (by omega)]
    omega
  cases hpre : pre with
  | nil =>
    subst hpre
    exact @takeBegin_eq α β list [a] post _ _ _ h (List.cons_ne_nil a []) hop
  | cons b pre' =>
    have hne : pre ≠ [] := by simp [hpre]
    have h0 : pre.length ≠ 0 := by simp [hpre]
    rw [← hpre, takeAt, if_neg h0, hone]
    cases hpost : post with
    | nil =>
      subst hpost
      obtain ⟨-, l, -, hl⟩ := exists_ends hne
      rw [hl] at hop
      rw [if_pos (by simp), List.append_nil]
      exact takeEnd_eq h hne (hl ▸ hop)
    | cons c post' =>
      rw [← hpost, if_neg (by simp [hpost])]
      have hseek := @Holds.seek_of_lt α list _ pre.length h hlt (by omega)
      rw [List.getElem?_append_right (Nat.le_refl _), Nat.sub_self,
        List.getElem?_cons_zero] at hseek
      have hx : pre ++ a :: post = pre ++ [a] ++ post := by simp
      rw [hseek, ok_bind]
      exact takeItem_eq (hx ▸ h) hne (by simp [hpost]) hop

theorem takeGiven_eq (h : list.Holds (pre ++ a :: post))
    (hop : op list.items (some a) = .ok (result, pre.getLast?.or post.head?, items')) :
    list.takeGiven op (some a) = .ok (result, list.left items' (pre ++ post)) := by
  have hnd := h.chain.dll.nodup
  rw [List.nodup_append, List.nodup_cons] at hnd
  obtain ⟨-, ⟨hpost, -⟩, hpre⟩ := hnd
  rw [takeGiven]
  cases hpre' : pre with
  | nil =>
    subst hpre'
    rw [if_pos (show some a = list.beginItem from h.begin_eq.symm)]
    exact @takeBegin_eq α β list [a] post _ _ _ h (List.cons_ne_nil a []) hop
  | cons b pre' =>
    have hne : pre ≠ [] := by simp [hpre']
    have hb : some a ≠ list.beginItem := by
      rw [h.begin_eq, List.head?_append_of_ne_nil _ hne]
      intro hc
      exact hpre a (List.mem_of_head? hc.symm) a List.mem_cons_self rfl
    rw [← hpre', if_neg hb]
    cases hpost' : post with
    | nil =>
      subst hpost'
      obtain ⟨-, l, -, hl⟩ := exists_ends hne
      rw [hl] at hop
      rw [if_pos (by rw [h.end_eq, List.getLast?_concat]), List.append_nil]
      exact takeEnd_eq h hne (hl ▸ hop)
    | cons c post' =>
      have hne' : post ≠ [] := by simp [hpost']
      have he : some a ≠ list.endItem := by
        rw [h.end_eq, List.getLast?_append_of_ne_nil _ (List.cons_ne_nil a post),
          List.getLast?_cons_of_ne_nil hne']
        intro hc
        exact hpost (List.mem_of_getLast? hc.symm)
      have hx : pre ++ a :: post = pre ++ [a] ++ post := by simp
      rw [← hpost', if_neg he]
      exact takeItem_eq (hx ▸ h) hne hne' hop

theorem left_holds (h : list.Holds (pre ++ a :: post)) (hlt : (pre ++ a :: post).length < 2 ^ 63)
    (hchain : Chain (view items') (some list.self) (pre ++ post)) (dropped : List α) :
    Holds { list.left items' (pre ++ post) with
      count := sizeSub list.count 1, dropped } (pre ++ post) := by
  refine ⟨hchain, rfl, rfl, ?_⟩
  have hlen : (pre ++ a :: post).length = (pre ++ post).length + 1 := by
    simp only [List.length_append, List.length_cons]
    omega
  show sizeSub list.count 1 = _
  rw [h.count_eq, sizeSub_eq (by omega) (by omega)]
  omega

end Take

section Push

theorem adoptBegin_none (hy : Chain (view list.items) none (u ++ item :: w))
    (hb : list.beginItem = (u ++ item :: w).head?) :
    ∃ items', list.adoptBegin = .ok { list with items := items' } ∧
      Chain (view items') (some list.self) (u ++ item :: w) := by
  have hne : u ++ item :: w ≠ [] := by simp
  obtain ⟨y, -, hhead, -⟩ := exists_ends hne
  obtain ⟨items', hadopt, hv⟩ := adopt_spec hy hne (some list.self)
  refine ⟨items', ?_, ?_⟩
  · rw [hhead] at hadopt hb
    rw [adoptBegin, hb, member_eq (hy.par_eq y (List.mem_of_head? hhead)), ok_bind, if_pos rfl,
      hadopt]
    rfl
  · rw [hv]
    exact ⟨hy.dll, fun a ha => if_pos ha⟩

/-- An empty list takes over a chain. -/
theorem adoptBegin_alone (h : list.Holds []) (hy : Chain (view list.items) none (u ++ item :: w))
    (hlt : (u ++ item :: w).length < 2 ^ 64) :
    getLastItem list.items (u ++ item :: w).head? = .ok (u ++ item :: w).getLast? ∧
    ∃ list', adoptBegin { list with
        beginItem := (u ++ item :: w).head?, endItem := (u ++ item :: w).getLast?,
        count := sizeAdd list.count (u ++ item :: w).length } = .ok list' ∧
      list'.Holds (u ++ item :: w) ∧ list'.self = list.self := by
  obtain ⟨items', hadopt, hchain⟩ := @adoptBegin_none α { list with
    beginItem := (u ++ item :: w).head?, endItem := (u ++ item :: w).getLast?,
    count := sizeAdd list.count (u ++ item :: w).length } u w item hy rfl
  have hsum : sizeAdd list.count (u ++ item :: w).length = (u ++ item :: w).length := by
    rw [h.count_eq, sizeAdd_eq (by rw [List.length_nil]; omega), List.length_nil, Nat.zero_add]
  refine ⟨?_, _, hadopt, ⟨hchain, rfl, rfl, hsum⟩, rfl⟩
  obtain ⟨y, -, hhead, -⟩ := exists_ends (List.append_ne_nil_of_right_ne_nil u
    (List.cons_ne_nil item w))
  obtain ⟨ys, hys⟩ := List.head?_eq_some_iff.mp hhead
  rw [hhead, hys]
  exact @getLastItem_eq α list.items y [] ys (hys ▸ hy.dll)

/-- A chain, entered at any of its items, comes behind the others. -/
theorem pushBack_eq (h : list.Holds xs) (hy : Chain (view list.items) none (u ++ item :: w))
    (hlt : xs.length + (u ++ item :: w).length < 2 ^ 64) :
    ∃ list', list.pushBack (some item) = .ok (.ok, list') ∧ list'.Holds (xs ++ (u ++ item :: w)) ∧
      list'.self = list.self := by
  have hparent := hy.par_eq item (List.mem_append_right _ List.mem_cons_self)
  have hcount := count_eq hy.dll (by omega)
  have hyne : u ++ item :: w ≠ [] := by simp
  obtain ⟨y, -, hhead, -⟩ := exists_ends hyne
  obtain ⟨ys, hys⟩ := List.head?_eq_some_iff.mp hhead
  cases List.eq_nil_or_concat xs with
  | inl hnil =>
    subst hnil
    have hb : list.beginItem = none := h.begin_eq
    have he : list.endItem = none := h.end_eq
    obtain ⟨hlast, list', hadopt, h', hself⟩ := adoptBegin_alone h hy (by simpa using hlt)
    refine ⟨list', ?_, h', hself⟩
    rw [pushBack, member_eq hparent, ok_bind, if_neg (by simp), hcount, ok_bind, he,
      DListItem.pushBack, getFirstItem_eq hy.dll, ok_bind, pure_ok, ok_bind]
    dsimp only
    rw [if_pos hb, hlast, ok_bind, hadopt]
    rfl
  | inr hcons =>
    obtain ⟨init, c, hx⟩ := hcons
    rw [List.concat_eq_append] at hx
    subst hx
    have hxs : init ++ [c] ++ (u ++ item :: w) = init ++ [c] ++ (u ++ item :: w) ++ [] := by simp
    have hnd := nodup_insert h.chain (List.append_nil _).symm hy (by simp)
    obtain ⟨items', hpush, hv⟩ := pushBack_spec h.chain hy (by simpa using hnd)
    have hchain : Chain (view items') (some list.self) (init ++ [c] ++ (u ++ item :: w)) := by
      rw [hv, hxs]
      exact Chain.spliced (by simpa using h.chain) hy hyne hnd
    have hb : list.beginItem = (init ++ [c] ++ (u ++ item :: w)).head? := by
      rw [h.begin_eq]
      exact (List.head?_append_of_ne_nil _ (by simp)).symm
    have he : list.endItem = some c := by rw [h.end_eq, List.getLast?_concat]
    have hlast : getLastItem items' (some y) =
        .ok (init ++ [c] ++ (u ++ item :: w)).getLast? := by
      rw [hys] at hchain ⊢
      exact getLastItem_eq hchain.dll
    have hnew : ({ list with
        items := items', endItem := (init ++ [c] ++ (u ++ item :: w)).getLast?,
        count := sizeAdd list.count (u ++ item :: w).length } : DList α).Holds
        (init ++ [c] ++ (u ++ item :: w)) := by
      refine ⟨hchain, hb, rfl, ?_⟩
      show sizeAdd list.count _ = _
      rw [h.count_eq, sizeAdd_eq (by omega), ← List.length_append]
    refine ⟨_, ?_, hnew, rfl⟩
    rw [pushBack, member_eq hparent, ok_bind, if_neg (by simp), hcount, ok_bind, he, hpush, ok_bind]
    dsimp only
    rw [if_neg (h.begin_ne_none (by simp)), hhead, hlast, ok_bind, hnew.adopt_eq (by simp)]
    rfl

/-- It comes before the others. -/
theorem pushForward_eq (h : list.Holds xs) (hy : Chain (view list.items) none (u ++ item :: w))
    (hlt : xs.length + (u ++ item :: w).length < 2 ^ 64) :
    ∃ list', list.pushForward (some item) = .ok (.ok, list') ∧
      list'.Holds (u ++ item :: w ++ xs) ∧ list'.self = list.self := by
  have hparent := hy.par_eq item (List.mem_append_right _ List.mem_cons_self)
  have hcount := count_eq hy.dll (by omega)
  have hyne : u ++ item :: w ≠ [] := by simp
  obtain ⟨y, -, hhead, -⟩ := exists_ends hyne
  obtain ⟨ys, hys⟩ := List.head?_eq_some_iff.mp hhead
  cases hx : xs with
  | nil =>
    subst hx
    have hb : list.beginItem = none := h.begin_eq
    have he : list.endItem = none := h.end_eq
    obtain ⟨hlast, list', hadopt, h', hself⟩ := adoptBegin_alone h hy (by simpa using hlt)
    refine ⟨list', ?_, by rwa [List.append_nil], hself⟩
    rw [pushForward, member_eq hparent, ok_bind, if_neg (by simp), hcount, ok_bind, hb,
      DListItem.pushForward, getFirstItem_eq hy.dll, ok_bind, pure_ok, ok_bind]
    dsimp only
    rw [endIfNone, if_pos he]
    dsimp only
    rw [hlast, ok_bind, pure_ok, ok_bind, hadopt]
    rfl
  | cons c post =>
    subst hx
    have hnd := nodup_insert h.chain (List.nil_append _).symm hy (by simp)
    obtain ⟨items', hpush, hv⟩ := @pushForward_spec α list.items item c [] post u w
      (some list.self) h.chain hy (by simpa using hnd)
    have hchain : Chain (view items') (some list.self) (u ++ item :: w ++ c :: post) := by
      rw [hv]
      exact @Chain.spliced _ [] (c :: post) _ none _ h.chain hy hyne hnd
    have he : list.endItem ≠ none := by
      obtain ⟨-, l, -, hl⟩ := exists_ends (List.cons_ne_nil c post)
      rw [h.end_eq, hl]
      exact Option.some_ne_none l
    have hb : list.beginItem = some c := h.begin_eq
    have hb' : (u ++ item :: w ++ c :: post).head? = (u ++ item :: w).head? :=
      List.head?_append_of_ne_nil _ hyne
    have hnew : ({ list with
        items := items', beginItem := (u ++ item :: w).head?,
        count := sizeAdd list.count (u ++ item :: w).length } : DList α).Holds
        (u ++ item :: w ++ c :: post) := by
      refine ⟨hchain, hb'.symm, ?_, ?_⟩
      · show list.endItem = _
        rw [h.end_eq, List.getLast?_append_of_ne_nil _ (List.cons_ne_nil c post)]
      · show sizeAdd list.count _ = _
        rw [h.count_eq, sizeAdd_eq (by omega), Nat.add_comm, ← List.length_append]
    refine ⟨_, ?_, hnew, rfl⟩
    rw [pushForward, member_eq hparent, ok_bind, if_neg (by simp), hcount, ok_bind, hb, hpush, ok_bind]
    dsimp only
    rw [endIfNone, if_neg he, ok_bind, hnew.adopt_eq (by simp)]
    rfl

end Push

section Index

/-- The item at the index is gone, and its value is given up. -/
theorem remove_eq (h : list.Holds xs) (hlt : xs.length < 2 ^ 63) (hi : index < xs.length) :
    ∃ list', list.remove index = .ok (.ok, list') ∧ list'.Holds (xs.eraseIdx index) ∧
      list'.self = list.self := by
  obtain ⟨pre, a, post, rfl, rfl, -, herase⟩ := exists_item hi
  obtain ⟨x, hx⟩ := Heap.exists_cell (seg_iff_path.mpr ⟨rfl, h.chain.dll.fwd⟩)
    (List.mem_append_right pre (List.mem_cons_self (a := a) (l := post)))
  obtain ⟨items', hdel, hchain, -⟩ := del_spec h.chain hx
  rw [herase]
  refine ⟨_, ?_, left_holds h hlt hchain (list.dropped ++ x.val.toList), rfl⟩
  rw [remove, if_neg (by rw [h.count_eq]; omega), takeAt_eq h hlt hdel]
  rfl

theorem removeItem_eq (h : list.Holds xs) (hlt : xs.length < 2 ^ 63) (ha : a ∈ xs) :
    ∃ list', list.removeItem (some a) = .ok (.ok, list') ∧ list'.Holds (xs.erase a) ∧
      list'.self = list.self ∧ Deleted list.items list'.items xs a ∧
      list'.itemsReadyForRemoval = list.itemsReadyForRemoval := by
  have hnd := h.chain.dll.nodup
  obtain ⟨pre, post, rfl⟩ := List.append_of_mem ha
  have herase : (pre ++ a :: post).erase a = pre ++ post := by
    rw [List.erase_append_right _ fun hp => ?_, List.erase_cons_head]
    exact (List.nodup_append.mp hnd).2.2 a hp a List.mem_cons_self rfl
  obtain ⟨x, hx⟩ := Heap.exists_cell (seg_iff_path.mpr ⟨rfl, h.chain.dll.fwd⟩) ha
  obtain ⟨items', hdel, hchain, hgone⟩ := del_spec h.chain hx
  rw [herase]
  refine ⟨_, ?_, left_holds h hlt hchain (list.dropped ++ x.val.toList), rfl, hgone, rfl⟩
  rw [removeItem, member_eq (h.chain.par_eq a ha), ok_bind, if_neg (fun hc => hc rfl),
    takeGiven_eq h hdel]
  rfl

/-- The item pulled is the one at the index, and it is detached. -/
theorem pullOut_eq (h : list.Holds xs) (hlt : xs.length < 2 ^ 63) (hi : index < xs.length) :
    ∃ a list', xs[index]? = some a ∧ list.pullOut index = .ok (some a, list') ∧
      list'.Holds (xs.eraseIdx index) ∧ list'.self = list.self ∧
      Chain (view list'.items) none [a] := by
  obtain ⟨pre, a, post, rfl, rfl, hget, herase⟩ := exists_item hi
  obtain ⟨items', hpull, hv⟩ := pullOut_spec h.chain
  have hxs : pre ++ a :: post = pre ++ [a] ++ post := by simp
  have hcut := (hxs ▸ h.chain).cut
  rw [← hv] at hcut
  rw [herase]
  refine ⟨a, _, hget, ?_, left_holds h hlt hcut.1 list.dropped, rfl, hcut.2⟩
  rw [pullOut, if_neg (by rw [h.count_eq]; omega), takeAt_eq h hlt hpull]
  rfl

theorem get_eq (h : list.Holds xs) (hlt : xs.length < 2 ^ 63) (index : Nat) :
    list.get index = .ok xs[index]? := by
  rw [get, h.count_eq]
  by_cases hi : index < xs.length
  · rw [if_neg (by omega)]
    by_cases h0 : index = 0
    · rw [if_pos h0, h.begin_eq, h0, List.head?_eq_getElem?]
    · rw [if_neg h0, h.seek_of_lt hlt hi]
  · rw [if_pos (by omega), List.getElem?_eq_none (by omega)]

end Index

end AlibC.DList
