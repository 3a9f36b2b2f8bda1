import AlibC.DList
import AlibC.DListItemChain
import AlibC.Lib.Reorder

/-! The well-formed lists, and where `DList_insert` puts a chain of items. -/
namespace AlibC.DList

open CLang Function Linked DListItem

variable {α : Type} {list : DList α} {xs ys : List Nat} {index : Nat}

/-- The list consists of the items `xs`, which all belong to it. -/
structure Holds (list : DList α) (xs : List Nat) : Prop where
  chain : Chain (view list.items) (some list.self) xs
  begin_eq : list.beginItem = xs.head?
  end_eq : list.endItem = xs.getLast?
  count_eq : list.count = xs.length

theorem Holds.unique (h : list.Holds xs) (h' : list.Holds ys) : xs = ys := by
  have hx : Seg (view list.items).nx list.beginItem xs none :=
    seg_iff_path.mpr ⟨by rw [h.begin_eq, Option.or_none], h.chain.dll.fwd⟩
  have hy : Seg (view list.items).nx list.beginItem ys none :=
    seg_iff_path.mpr ⟨by rw [h'.begin_eq, Option.or_none], h'.chain.dll.fwd⟩
  exact hx.unique hy

/-- There are no more items than there are addresses. -/
def Fits (items : Items α) : Prop := items.cells.length ≤ PTRDIFF_MAX

theorem length_le_cells (h : Path (view list.items).nx xs none) :
    xs.length ≤ list.items.cells.length :=
  Heap.length_le (seg_iff_path.mpr ⟨rfl, h⟩)

theorem stepLoop_in_range {m : DListItem α → Option Nat} {items : Items α} {a n : Nat}
    {as : List Nat} (h : Path (Heap.links m items) (a :: as) none) (hn : n ≤ as.length) :
    ∃ b, (a :: as)[n]? = some b ∧ stepLoop m items a n = .ok (b, 0) := by
  obtain ⟨b, hb, hs⟩ := stepLoop_eq (n := n) h
  rw [Nat.min_eq_left hn] at hb
  rw [Nat.sub_eq_zero_of_le hn] at hs
  exact ⟨b, hb, hs⟩

theorem getByRelativeIndex_begin {items : Items α} (h : Dll (view items).nx (view items).pv xs)
    (hi : index < xs.length) (hlt : index < 2 ^ 63) :
    getByRelativeIndex items xs.head? (toLong index) = .ok (xs[index]?, 0) := by
  rw [toLong_eq hlt]
  cases xs with
  | nil => cases hi
  | cons a as =>
    rw [List.head?_cons, getByRelativeIndex]
    by_cases h0 : index = 0
    · subst h0
      rfl
    · obtain ⟨b, hb, hs⟩ := stepLoop_in_range h.fwd (Nat.le_of_lt_succ hi)
      rw [if_pos (by omega), Int.toNat_natCast, hs, hb]
      rfl

theorem getByRelativeIndex_end {items : Items α} (h : Dll (view items).nx (view items).pv xs)
    (hi : index < xs.length) (hlt : xs.length < 2 ^ 63) :
    getByRelativeIndex items xs.getLast? (toLong (sizeSub index (sizeSub xs.length 1))) =
      .ok (xs[index]?, 0) := by
  have hb := h.bwd
  have hback : xs.length - 1 - (xs.length - 1 - index) = index := by omega
  have hget : xs.reverse[xs.length - 1 - index]? = xs[index]? := by
    rw [List.getElem?_reverse (by omega), hback]
  -- the relative index is not positive
  have hone : sizeSub xs.length 1 = xs.length - 1 := sizeSub_eq (by omega) (by omega)
  have hrel : toLong (sizeSub index (sizeSub xs.length 1)) = -(xs.length - 1 - index : Nat) := by
    rw [hone]
    exact toLong_sub (by omega) (by omega)
  rw [hrel, ← List.head?_reverse, ← hget]
  have hlen : xs.reverse.length = xs.length := List.length_reverse
  generalize xs.reverse = rs at *
  cases rs with
  | nil =>
    rw [← hlen] at hi
    cases hi
  | cons a as =>
    rw [List.length_cons] at hlen
    obtain ⟨b, hb, hs⟩ := stepLoop_in_range hb (show xs.length - 1 - index ≤ as.length by omega)
    rw [List.head?_cons, getByRelativeIndex, if_neg (by omega), Int.neg_neg,
      Int.toNat_natCast, hs, hb]
    rfl

theorem Holds.length_lt (h : list.Holds xs) (hmem : Fits list.items) : xs.length < 2 ^ 63 :=
  Nat.lt_of_le_of_lt (Nat.le_trans (length_le_cells h.chain.dll.fwd) hmem) (by decide)

/-- From either end the walk leads to the item at the index. -/
theorem Holds.seek_of_lt (h : list.Holds xs) (hlt : xs.length < 2 ^ 63) (hi : index < xs.length) :
    list.seek index = .ok xs[index]? := by
  have hwalk : list.walk index = .ok (xs[index]?, 0) := by
    unfold walk
    split
    · rw [h.begin_eq, getByRelativeIndex_begin h.chain.dll hi (Nat.lt_trans hi hlt)]
    · rw [h.end_eq, h.count_eq, getByRelativeIndex_end h.chain.dll hi hlt]
  rw [seek, hwalk]
  rfl

theorem Holds.seek_eq (h : list.Holds xs) (hmem : Fits list.items) (hi : index < xs.length) :
    list.seek index = .ok xs[index]? :=
  h.seek_of_lt (h.length_lt hmem) hi

theorem adoptBegin_eq (h : Chain (view list.items) (some list.self) xs) (hne : xs ≠ [])
    (hb : list.beginItem = xs.head?) : list.adoptBegin = .ok list := by
  cases xs with
  | nil => exact absurd rfl hne
  | cons x xs =>
    have hx : list.beginItem = some x := hb
    rw [adoptBegin, hx, member_eq (h.par_eq x List.mem_cons_self), ok_bind, if_neg (by simp)]
    rfl

/-- A first item that has its list stays. -/
theorem Holds.adopt_eq (h : list.Holds xs) (hne : xs ≠ []) : list.adoptBegin = .ok list :=
  adoptBegin_eq h.chain hne h.begin_eq

/-- A list takes its place among the items of another one. -/
theorem nodup_insert {pre post : List Nat} {v : View} {q r : Option Nat} (h : Chain v q xs)
    (hxs : xs = pre ++ post) (hy : Chain v r ys) (hqr : q ≠ r) : (pre ++ ys ++ post).Nodup := by
  subst hxs
  exact Reorder.nodup_between h.dll.nodup hy.dll.nodup (h.disjoint hy hqr)

/-- The item is accepted and the list consists of the items `zs` afterwards. -/
def Inserts (list : DList α) (index item : Nat) (zs : List Nat) : Prop :=
  ∃ list', list.insert index (some item) = .ok (.ok, list') ∧ list'.Holds zs ∧
    list'.self = list.self

theorem insert_refused (list : DList α) {item p : Nat} (hp : (view list.items).par item = some (some p))
    (index : Nat) : list.insert index (some item) = .ok (.badArg, list) := by
  rw [insert, member_eq hp, ok_bind, if_pos (by simp)]
  rfl

section Routes

variable {item : Nat} {u w : List Nat}

theorem lengths_lt (h : list.Holds xs) {r : Option Nat} (hy : Chain (view list.items) r ys)
    (hmem : Fits list.items) : xs.length + ys.length < 2 ^ 64 := by
  have hx := length_le_cells h.chain.dll.fwd
  have hy := length_le_cells hy.dll.fwd
  unfold Fits PTRDIFF_MAX at hmem
  omega

/-- What is left to do once the items are linked. -/
theorem insert_of_link (h : list.Holds xs) (hy : Chain (view list.items) none (u ++ item :: w))
    (hmem : Fits list.items) {zs : List Nat} (list₁ list₂ : DList α)
    (hlink : list.link index (some item) = .ok list₁) (hadopt : list₁.adoptBegin = .ok list₂)
    (hchain : Chain (view list₂.items) (some list₂.self) zs) (hb : list₂.beginItem = zs.head?)
    (he : list₂.endItem = zs.getLast?) (hc : list₂.count = list.count)
    (hlen : zs.length = xs.length + (u ++ item :: w).length) (hself : list₂.self = list.self) :
    list.Inserts index item zs := by
  have hparent := hy.par_eq item (List.mem_append_right _ List.mem_cons_self)
  have hfit := lengths_lt h hy hmem
  have hcount := count_eq hy.dll (Nat.lt_of_le_of_lt (Nat.le_add_left _ _) hfit)
  refine ⟨{ list₂ with count := sizeAdd list₂.count (u ++ item :: w).length }, ?_,
    ⟨hchain, hb, he, ?_⟩, hself⟩
  · rw [insert, member_eq hparent, ok_bind, if_neg (by simp), hcount, ok_bind, hlink, ok_bind,
      hadopt]
    rfl
  · show sizeAdd list₂.count _ = _
    rw [hc, h.count_eq, sizeAdd_eq hfit, hlen]

theorem insert_empty (h : list.Holds []) (hy : Chain (view list.items) none (u ++ item :: w))
    (hmem : Fits list.items) (index : Nat) : list.Inserts index item (u ++ item :: w) := by
  have hfirst := getFirstItem_eq hy.dll
  have hlast := getLastItem_eq hy.dll
  have hne : u ++ item :: w ≠ [] := by simp
  have hbegin : list.beginItem = none := h.begin_eq
  obtain ⟨y, l, hhead, -⟩ := exists_ends hne
  have hpar := hy.par_eq y (List.mem_of_head? hhead)
  obtain ⟨items', hadopt, hv⟩ := adopt_spec hy hne (some list.self)
  have hchain : Chain (view items') (some list.self) (u ++ item :: w) := by
    rw [hv]
    exact ⟨hy.dll, fun a ha => if_pos ha⟩
  refine insert_of_link h hy hmem
    { list with beginItem := (u ++ item :: w).head?, endItem := (u ++ item :: w).getLast? }
    { list with
      items := items', beginItem := (u ++ item :: w).head?, endItem := (u ++ item :: w).getLast? }
    ?_ ?_ hchain rfl rfl rfl (by simp) rfl
  · rw [link, if_pos hbegin, hfirst, ok_bind, hlast]
    rfl
  · rw [hhead] at hadopt ⊢
    rw [adoptBegin, member_eq hpar, ok_bind, if_pos rfl, hadopt]
    rfl

theorem Holds.begin_ne_none (h : list.Holds xs) (hne : xs ≠ []) : list.beginItem ≠ none := by
  rw [h.begin_eq]
  cases xs with
  | nil => exact absurd rfl hne
  | cons x xs => simp

/-- Past the end the items follow the last one. -/
theorem insert_end {init : List Nat} {c : Nat} (h : list.Holds (init ++ [c]))
    (hy : Chain (view list.items) none (u ++ item :: w)) (hmem : Fits list.items)
    (hi : (init ++ [c]).length ≤ index) :
    list.Inserts index item (init ++ [c] ++ (u ++ item :: w)) := by
  have hxs : init ++ [c] = (init ++ [c]) ++ [] := by simp
  have hnd : (init ++ [c] ++ (u ++ item :: w) ++ []).Nodup :=
    nodup_insert h.chain hxs hy (by simp)
  obtain ⟨items', hins, hv⟩ := insertAfter_spec h.chain hy hnd
  have hchain : Chain (view items') (some list.self) (init ++ [c] ++ (u ++ item :: w) ++ []) := by
    rw [hv]
    exact Chain.spliced (hxs ▸ h.chain) hy (by simp) hnd
  rw [List.append_nil] at hchain
  have hend : list.endItem = some c := by rw [h.end_eq, List.getLast?_concat]
  have hlast : getLastItem items' (some c) = .ok (init ++ c :: (u ++ item :: w)).getLast? :=
    getLastItem_eq (by simpa using hchain.dll)
  have hbegin : list.beginItem = (init ++ [c] ++ (u ++ item :: w)).head? := by
    rw [h.begin_eq]
    exact (List.head?_append_of_ne_nil (init ++ [c]) (by simp)).symm
  have hadopt := @adoptBegin_eq α { list with
    items := items', endItem := (init ++ [c] ++ (u ++ item :: w)).getLast? } _ hchain (by simp)
    hbegin
  refine insert_of_link h hy hmem _ _ ?_ hadopt hchain ?_ rfl rfl (by simp; omega) rfl
  · rw [link, if_neg (h.begin_ne_none (by simp)), if_pos (by rw [h.count_eq]; exact hi), hend,
      hins, ok_bind]
    dsimp only
    rw [hlast, ← List.singleton_append, ← List.append_assoc]
    rfl
  · exact hbegin

/-- In between the items come before the one at the index. -/
theorem insert_inner {pre post : List Nat} {c : Nat} (h : list.Holds (pre ++ c :: post))
    (hy : Chain (view list.items) none (u ++ item :: w)) (hmem : Fits list.items)
    (hpre : pre ≠ []) :
    list.Inserts pre.length item (pre ++ (u ++ item :: w) ++ c :: post) := by
  have hnd := nodup_insert h.chain rfl hy (by simp)
  obtain ⟨items', hins, hv⟩ := insertBefore_spec h.chain hy hnd hpre
  have hchain := h.chain.spliced hy (by simp) hnd
  rw [← hv] at hchain
  have hseek := @Holds.seek_eq α list _ pre.length h hmem (by simp)
  rw [List.getElem?_append_right (Nat.le_refl _), Nat.sub_self, List.getElem?_cons_zero] at hseek
  have hbegin : list.beginItem = (pre ++ (u ++ item :: w) ++ c :: post).head? := by
    rw [h.begin_eq, List.append_assoc, List.head?_append_of_ne_nil _ hpre,
      List.head?_append_of_ne_nil _ hpre]
  have hadopt := @adoptBegin_eq α { list with items := items' } _ hchain (by simp) hbegin
  refine insert_of_link h hy hmem _ _ ?_ hadopt hchain hbegin ?_ rfl ?_ rfl
  · rw [link, if_neg (h.begin_ne_none (by simp)), if_neg (by rw [h.count_eq]; simp), hseek, ok_bind,
      hins]
    rfl
  · show list.endItem = _
    rw [h.end_eq, List.getLast?_append_of_ne_nil _ (by simp),
      List.getLast?_append_of_ne_nil _ (by simp)]
  · simp
    omega

/-- At the front of a list that is not empty the insertion faults. -/
theorem insert_front {c : Nat} {post : List Nat} (h : list.Holds (c :: post))
    (hy : Chain (view list.items) none (u ++ item :: w)) (hmem : Fits list.items) :
    list.insert 0 (some item) = .error .nullDeref := by
  have hparent := hy.par_eq item (List.mem_append_right _ List.mem_cons_self)
  have hfit := lengths_lt h hy hmem
  have hcount := count_eq hy.dll (Nat.lt_of_le_of_lt (Nat.le_add_left _ _) hfit)
  have hnd : ([] ++ (u ++ item :: w) ++ c :: post).Nodup :=
    nodup_insert h.chain rfl hy (by simp)
  have hfault := insertBefore_fault h.chain hy hnd
  have hseek := @Holds.seek_eq α list _ 0 h hmem (by simp)
  rw [List.getElem?_cons_zero] at hseek
  rw [insert, member_eq hparent, ok_bind, if_neg (by simp), hcount, ok_bind, link,
    if_neg (h.begin_ne_none (by simp)), if_neg (by rw [h.count_eq]; simp), hseek, ok_bind, hfault]
  rfl

theorem insert_placed (h : list.Holds xs) (hmem : Fits list.items)
    (hy : Chain (view list.items) none (u ++ item :: w)) (hcond : xs = [] ∨ index ≠ 0) :
    list.Inserts index item (xs.take index ++ (u ++ item :: w) ++ xs.drop index) := by
  cases List.eq_nil_or_concat xs with
  | inl hnil =>
    subst hnil
    rw [List.take_nil, List.drop_nil, List.nil_append, List.append_nil]
    exact insert_empty h hy hmem index
  | inr hcons =>
    obtain ⟨init, c, hx⟩ := hcons
    rw [List.concat_eq_append] at hx
    have hne : index ≠ 0 := hcond.resolve_left (by simp [hx])
    by_cases hi : xs.length ≤ index
    · rw [List.take_of_length_le hi, List.drop_eq_nil_of_le hi, List.append_nil]
      subst hx
      exact insert_end h hy hmem hi
    · obtain ⟨pre, a, post, rfl, rfl, -⟩ := Reorder.exists_item (Nat.lt_of_not_le hi)
      rw [List.take_left, List.drop_left]
      exact insert_inner h hy hmem (List.ne_nil_of_length_pos (Nat.pos_of_ne_zero hne))

end Routes

/-- A chain, entered at any of its items, is put before the item at the index, or at the end,
exactly when the list is empty or the index is not 0. An item that has a parent is refused. -/
theorem insert_splices_iff (h : list.Holds xs) (hmem : Fits list.items) (index : Nat) :
    (∀ item p, (view list.items).par item = some (some p) →
      list.insert index (some item) = .ok (.badArg, list)) ∧
    ∀ ys item, Chain (view list.items) none ys → item ∈ ys →
      (list.Inserts index item (xs.take index ++ ys ++ xs.drop index) ↔ xs = [] ∨ index ≠ 0) := by
  refine ⟨fun item p hp => insert_refused list hp index, fun ys item hy hitem => ?_⟩
  obtain ⟨u, w, rfl⟩ := List.append_of_mem hitem
  refine ⟨fun hins => ?_, insert_placed h hmem hy⟩
  obtain ⟨list', hins, -⟩ := hins
  cases xs with
  | nil => exact .inl rfl
  | cons c post =>
    refine .inr ?_
    rintro rfl
    rw [insert_front h hy hmem] at hins
    cases hins

/-- A list with one item; two more items are linked to each other. -/
def oneAndTwo : DList Nat where
  items := ⟨[some ⟨none, some 9, false, none, none⟩, some ⟨none, none, false, some 2, none⟩,
    some ⟨none, none, false, none, some 1⟩]⟩
  self := 9
  beginItem := some 0
  endItem := some 0
  count := 1
  itemsReadyForRemoval := false
  dropped := []

theorem oneAndTwo_holds : oneAndTwo.Holds [0] := by
  refine ⟨⟨⟨⟨rfl, trivial⟩, ⟨rfl, trivial⟩⟩, fun a ha => ?_⟩, rfl, rfl, rfl⟩
  cases List.mem_singleton.mp ha
  rfl

theorem oneAndTwo_chain : Chain (view oneAndTwo.items) none [1, 2] := by
  refine ⟨⟨⟨rfl, rfl, trivial⟩, ⟨rfl, rfl, trivial⟩⟩, fun a ha => ?_⟩
  rcases List.mem_cons.mp ha with rfl | ha
  · rfl
  · cases List.mem_singleton.mp ha
    rfl

/-- The two items are put behind the one, told by the second of them. -/
theorem insert_splices_two : oneAndTwo.insert 1 (some 0) = .ok (.badArg, oneAndTwo) ∧
    oneAndTwo.Inserts 1 2 [0, 1, 2] := by
  have h := insert_splices_iff oneAndTwo_holds (show 3 ≤ PTRDIFF_MAX by decide) 1
  exact ⟨h.1 0 9 rfl, (h.2 [1, 2] 2 oneAndTwo_chain (by simp)).mpr (.inr (by decide))⟩

/-- At the front the two items cannot be put. -/
theorem insert_front_faults : oneAndTwo.Holds [0] ∧ Chain (view oneAndTwo.items) none [1, 2] ∧
    oneAndTwo.insert 0 (some 1) = .error .nullDeref :=
  ⟨oneAndTwo_holds, oneAndTwo_chain, by decide⟩

end AlibC.DList
