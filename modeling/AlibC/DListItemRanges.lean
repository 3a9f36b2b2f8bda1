import AlibC.DListItemBlocks

/-! Moving, pulling out and deleting several items of a chain. -/
namespace AlibC.DListItem

open CLang Function Linked Reorder

variable {α : Type} {items : Items α} {a b t c count : Nat} {xs ys zs pre post rest : List Nat}
  {q : Option Nat}

section Block

/-- The last of `count` items, or of those that there are. -/
theorem getByRelativeIndex_block (h : Dll (view items).nx (view items).pv (pre ++ ys ++ rest))
    (hcount : 1 ≤ count) (hle : count ≤ 2 ^ 63)
    (hys : min count (ys ++ rest).length = ys.length) (hne : ys ≠ []) :
    getByRelativeIndex items ys.head? (toLong (sizeSub count 1)) =
      .ok (ys.getLast?, ((count - (ys ++ rest).length : Nat) : Int)) := by
  cases ys with
  | nil => exact absurd rfl hne
  | cons a ys =>
    rw [List.append_assoc, List.cons_append] at h
    have hrel := getByRelativeIndex_ahead h (show count - 1 < 2 ^ 63 by omega)
    rw [List.cons_append, List.length_cons, List.length_cons] at hys
    have hmin : min (count - 1) (ys ++ rest).length = ys.length := by omega
    have hlast : (a :: (ys ++ rest))[ys.length]? = (a :: ys).getLast? := by
      rw [List.getLast?_eq_getElem?, List.length_cons, Nat.add_sub_cancel, ← List.cons_append,
        List.getElem?_append_left (by simp)]
    have hleft : count - 1 - (ys ++ rest).length = count - (a :: (ys ++ rest)).length := by
      rw [List.length_cons]
      omega
    rw [hmin, hlast, hleft] at hrel
    rw [List.head?_cons, sizeSub_eq (by omega) hcount, hrel]
    rfl

/-- The items from `ys.head?` to the one that is `count - 1` ahead are pulled out. -/
theorem pullOutCount_spec (h : Chain (view items) q (pre ++ ys ++ rest)) (hcount : count ≠ 0)
    {n : Int} (hrel : getByRelativeIndex items ys.head? (toLong (sizeSub count 1)) =
      .ok (ys.getLast?, n)) (hne : ys ≠ []) :
    ∃ items', pullOutCount count items ys.head? =
        .ok (ys.head?, pre.getLast?.or rest.head?, items') ∧
      view items' = (view items).cut pre ys rest := by
  obtain ⟨y, e, hy, he⟩ := exists_ends hne
  have hlinks := h.dll.outer_links
  obtain ⟨items₁, hs₁, hv₁⟩ := unlink_spec h hne
  obtain ⟨ry, hry⟩ := h.apart.alive y (List.mem_of_head? hy)
  obtain ⟨re, hre⟩ := h.apart.alive e (List.mem_of_getLast? he)
  rw [← hv₁] at hry hre
  obtain ⟨items₂, hs₂, hv₂⟩ := setPrev_spec hry none
  obtain ⟨items₃, hs₃, hv₃⟩ := setNext_spec (a := e) (by rw [hv₂]; exact hre) none
  have hchain : Chain (view items₃) q ys := by
    have hcut := h.cut.2.dll
    refine ⟨?_, fun a ha => ?_⟩
    · rw [hv₃, hv₂, hv₁]
      rw [View.cut, hy, he] at hcut
      exact hcut
    · rw [hv₃, hv₂, hv₁]
      exact h.par_eq a (List.mem_append_left _ (List.mem_append_right _ ha))
  obtain ⟨items₄, hs₄, hv₄⟩ := adopt_spec hchain hne none
  refine ⟨items₄, ?_, ?_⟩
  · rw [hy, he] at hs₁
    rw [hy, he] at hrel
    rw [hy] at hs₄
    rw [hy, pullOutCount, if_neg hcount, hrel, ok_bind]
    dsimp only
    rw [member_eq (hlinks.1 y hy), ok_bind, member_eq (hlinks.2 e he), ok_bind, hs₁, ok_bind, hs₂,
      ok_bind, hs₃, ok_bind, hs₄, ok_bind]
    cases pre.getLast? with
    | none => rfl
    | some p => rfl
  · rw [hv₄, hv₃, hv₂, hv₁, View.cut, hy, he]
    rfl

theorem indexLoop_eq {list : Nat} : ∀ {pre : List Nat} {n i : Nat} {post : List Nat},
    Path (view items).nx (pre ++ list :: post) none → pre.length < n →
    indexLoop items list n (pre ++ list :: post).head? i = .ok (i + pre.length) := by
  intro pre
  induction pre with
  | nil =>
    intro n i post _ hn
    cases n with
    | zero => cases hn
    | succ n => exact if_pos rfl
  | cons a pre ih =>
    intro n i post h hn
    cases n with
    | zero => cases hn
    | succ n =>
      have hne : some a ≠ some list := by
        rintro he
        cases he
        exact (List.nodup_cons.mp h.nodup).1 (by simp)
      have hloop := @ih n (i + 1) post h.2 (Nat.lt_of_succ_lt_succ hn)
      rw [List.cons_append, List.head?_cons, indexLoop, if_neg hne, member_eq h.1, ok_bind,
        Option.or_none]
      refine hloop.trans ?_
      rw [List.length_cons]
      congr 1
      omega

theorem index_eq (h : Dll (view items).nx (view items).pv (pre ++ a :: post)) :
    index items (some a) = .ok (toInt32 pre.length) := by
  have hlen := length_lt_fuel h.fwd
  rw [List.length_append, List.length_cons] at hlen
  rw [index, getFirstItem_eq h, ok_bind, indexLoop_eq h.fwd (by omega), Nat.zero_add]
  rfl

end Block

section Move

variable {fromIndex toIndex : Nat}

/-- Forward a block comes before the item that is so far behind its last one. -/
theorem moveCount_forward (h : Chain (view items) q (pre ++ ys ++ rest)) (hne : ys ≠ [])
    (hrest : rest ≠ []) (hc : c ∈ pre ++ ys ++ rest) (hfrom : fromIndex = pre.length)
    (hcount : count = ys.length) (hle : count ≤ 2 ^ 63) (hlt : fromIndex < toIndex)
    (hto : toIndex < 2 ^ 64) (hd : toIndex - fromIndex < 2 ^ 63) :
    ∃ items' mid t post, moveCount items (some c) fromIndex toIndex count =
        .ok (toLong (pre.length + (mid.length + 1)), items') ∧
      Chain (view items') q (pre ++ mid ++ ys ++ t :: post) ∧ rest = mid ++ t :: post ∧
      min (toIndex - fromIndex) rest.length = mid.length + 1 := by
  obtain ⟨y, e, hy, he⟩ := exists_ends hne
  obtain ⟨init, hinit⟩ := List.getLast?_eq_some_iff.mp he
  obtain ⟨tail, htail⟩ := List.head?_eq_some_iff.mp hy
  have hpos : 0 < ys.length := List.length_pos_of_ne_nil hne
  have hposr : 0 < rest.length := List.length_pos_of_ne_nil hrest
  have hget := @get_at α items y c pre (tail ++ rest)
    (by rw [htail] at h; simpa using h.dll) (by rw [htail] at hc; simpa using hc)
  have hlen : count - (ys ++ rest).length = 0 := by
    rw [List.length_append]
    omega
  have hend := @getByRelativeIndex_block α items count ys pre rest h.dll (by omega) hle
    (by rw [List.length_append]; omega) hne
  rw [hy, he, hlen] at hend
  have hnext := h.dll.outer_links.2 e he
  -- the item that the block is put before
  obtain ⟨mid, t, post, hr, hmid, -⟩ := exists_item
    (show min (toIndex - fromIndex) rest.length - 1 < rest.length by omega)
  have hx : pre ++ ys ++ rest = (pre ++ init) ++ e :: rest := by rw [hinit]; simp
  have hrel := getByRelativeIndex_ahead (hx ▸ h.dll) hd
  have hidx : min (toIndex - fromIndex) rest.length = mid.length + 1 := by omega
  have hat : (e :: rest)[mid.length + 1]? = some t := by
    rw [List.getElem?_cons_succ, hr, List.getElem?_append_right (Nat.le_refl _), Nat.sub_self]
    rfl
  rw [hidx, hat] at hrel
  obtain ⟨items₁, items₂, hs₁, hs₂, hchain⟩ :=
    @relocate_before α items t ys pre rest (pre ++ mid) post q h hne (by rw [hr]; simp)
  rw [hy, he] at hs₁ hs₂
  -- the distance that was left over is taken from the index
  have hindex : sizeSub toIndex (toSize (toIndex - fromIndex - rest.length : Nat)) =
      pre.length + (mid.length + 1) := by
    rw [toSize_nat (by omega), sizeSub_eq hto (by omega)]
    omega
  refine ⟨items₂, mid, t, post, ?_, hchain, hr, hidx⟩
  · rw [moveCount, if_pos hlt]
    rw [← hfrom] at hget
    rw [hget, ok_bind]
    dsimp only
    rw [if_neg (fun hc => hc rfl), hend, ok_bind]
    dsimp only
    rw [if_neg (fun hc => hc rfl), member_eq hnext, ok_bind,
      if_neg (fun hc => hrest (List.head?_eq_none_iff.mp hc)),
      sizeSub_eq hto (Nat.le_of_lt hlt), hrel, ok_bind]
    dsimp only
    rw [hs₁, ok_bind, hs₂, hindex]
    rfl

/-- Backward it comes before the item it is moved to. -/
theorem moveCount_backward {mid : List Nat}
    (h : Chain (view items) q (pre ++ t :: (mid ++ ys ++ rest))) (hne : ys ≠ [])
    (hc : c ∈ pre ++ t :: (mid ++ ys ++ rest)) (hto : toIndex = pre.length)
    (hfrom : fromIndex = pre.length + (mid.length + 1)) (hcount : 1 ≤ count)
    (hle : count ≤ 2 ^ 63) (hys : min count (ys ++ rest).length = ys.length)
    (hlen : (pre ++ t :: (mid ++ ys ++ rest)).length < 2 ^ 63) :
    ∃ items', moveCount items (some c) fromIndex toIndex count = .ok (toLong toIndex, items') ∧
      Chain (view items') q (pre ++ ys ++ t :: (mid ++ rest)) := by
  obtain ⟨y, e, hy, he⟩ := exists_ends hne
  obtain ⟨tail, htail⟩ := List.head?_eq_some_iff.mp hy
  have hlen' : pre.length + (mid.length + (ys.length + rest.length) + 1) < 2 ^ 63 := by
    simpa using hlen
  have hpos : 0 < ys.length := List.length_pos_of_ne_nil hne
  have hget := get_at h.dll hc
  have hrel := getByRelativeIndex_ahead h.dll (show mid.length + 1 < 2 ^ 63 by omega)
  have hmin : min (mid.length + 1) (mid ++ ys ++ rest).length = mid.length + 1 := by
    simp only [List.length_append]
    omega
  have hzero : mid.length + 1 - (mid ++ ys ++ rest).length = 0 := by
    simp only [List.length_append]
    omega
  rw [hmin, hzero, List.getElem?_cons_succ, htail, List.append_assoc,
    List.getElem?_append_right (Nat.le_refl _), Nat.sub_self, List.cons_append,
    List.getElem?_cons_zero] at hrel
  have hx : pre ++ t :: (mid ++ ys ++ rest) = (pre ++ t :: mid) ++ ys ++ rest := by simp
  have hend := getByRelativeIndex_block (hx ▸ h.dll) hcount hle hys hne
  rw [hy, he] at hend
  obtain ⟨items₁, items₂, hs₁, hs₂, hchain⟩ := @relocate_before α items t ys (pre ++ t :: mid)
    rest pre (mid ++ rest) q (hx ▸ h) hne (by simp)
  rw [hy, he] at hs₁ hs₂
  have hdiff : sizeSub fromIndex toIndex = mid.length + 1 := by
    rw [hfrom, hto, sizeSub_eq (by omega) (by omega)]
    omega
  refine ⟨items₂, ?_, hchain⟩
  rw [moveCount, if_neg (by omega), hdiff]
  rw [← hto] at hget
  rw [hget, ok_bind]
  dsimp only
  rw [if_neg (fun hne => hne rfl), hrel, ok_bind]
  dsimp only
  rw [if_neg (fun hne => hne rfl), hend, ok_bind]
  dsimp only
  rw [hs₁, ok_bind, hs₂]
  rfl

theorem moveCount_refused (h : Chain (view items) q xs) (hc : c ∈ xs) (hfrom : fromIndex < 2 ^ 64)
    (hout : xs.length ≤ fromIndex ∨ toIndex < fromIndex ∧ xs.length ≤ toIndex) :
    moveCount items (some c) fromIndex toIndex count = .ok (AlibError.badIndex.code, items) := by
  by_cases hlt : fromIndex < toIndex
  · obtain ⟨b, n, hget, hn⟩ := @get_past α items c xs fromIndex h.dll hc (by omega)
    rw [moveCount, if_pos hlt, hget, ok_bind]
    exact if_pos hn
  · by_cases hto : xs.length ≤ toIndex
    · obtain ⟨b, n, hget, hn⟩ := get_past h.dll hc hto
      rw [moveCount, if_neg hlt, hget, ok_bind]
      exact if_pos hn
    · obtain ⟨t, b, n, hget, hr, hn⟩ :=
        from_out_of_range h hc hfrom (Nat.lt_of_not_le hto) (by omega)
      rw [moveCount, if_neg hlt, hget, ok_bind]
      dsimp only
      rw [if_neg (fun hc => hc rfl), hr, ok_bind]
      exact if_pos hn

/-- A block that reaches to the end of the chain stays. -/
theorem moveCount_last (h : Chain (view items) q xs) (hc : c ∈ xs) (hin : fromIndex < xs.length)
    (hlt : fromIndex < toIndex) (hcount : 1 ≤ count) (hle : count ≤ 2 ^ 63)
    (hend : xs.length ≤ fromIndex + count) :
    moveCount items (some c) fromIndex toIndex count = .ok (toLong fromIndex, items) := by
  obtain ⟨pre, a, post, rfl, rfl, -⟩ := exists_item hin
  have hget := get_at h.dll hc
  have hx : pre ++ a :: post = pre ++ (a :: post) ++ [] := by simp
  have hlen : (pre ++ a :: post).length = pre.length + (post.length + 1) := by simp
  have hrel := @getByRelativeIndex_block α items count (a :: post) pre [] (hx ▸ h.dll) hcount hle
    (by rw [List.append_nil, List.length_cons]; omega) (List.cons_ne_nil a post)
  obtain ⟨-, e, -, he⟩ := exists_ends (List.cons_ne_nil a post)
  rw [he, List.head?_cons] at hrel
  rw [moveCount, if_pos hlt, hget, ok_bind]
  dsimp only
  rw [if_neg (fun hc => hc rfl), hrel, ok_bind]
  dsimp only
  split
  · rfl
  · rw [member_eq ((hx ▸ h.dll).outer_links.2 e he)]
    rfl

end Move

section Delete

/-- The values that the items `xs` refer to. -/
def held (items : Items α) (xs : List Nat) : List α :=
  xs.filterMap fun c => ((items.cell c).map val).join

/-- The items `xs` are gone, and the others stay. -/
structure Emptied (items items' : Items α) (xs : List Nat) : Prop where
  gone : ∀ a ∈ xs, items'.cell a = none
  outside : ∀ c, c ∉ xs → items'.cell c = items.cell c

section Step

variable {items' : Items α} {x : DListItem α}

theorem Without.held_eq (h : Without items items' pre a post) {order : List Nat}
    (ha : a ∉ order) : held items' order = held items order :=
  List.filterMap_congr fun c hc =>
    congrArg Option.join (h.val_eq c fun he => ha (he ▸ hc))

theorem held_cons (hx : items.cell a = some x) (order : List Nat) :
    held items (a :: order) = x.val.toList ++ held items order := by
  rw [held, List.filterMap_cons, hx, Option.map_some, Option.join_some]
  cases x.val with
  | none => rfl
  | some v => rfl

theorem Without.emptied {items₂ : Items α} (h : Without items items' pre a post)
    (ha : a ∉ pre ++ post) (he : Emptied items' items₂ (pre ++ post)) :
    Emptied items items₂ (pre ++ a :: post) := by
  refine ⟨fun c hc => ?_, fun c hc => ?_⟩
  · by_cases hca : c = a
    · rw [hca, he.outside a ha, h.deleted.gone]
    · refine he.gone c ?_
      rw [List.mem_append, List.mem_cons] at hc
      exact List.mem_append.mpr (hc.imp_right fun hc => hc.resolve_left hca)
  · have hc' : c ∉ pre ++ post := by
      intro hcm
      rw [List.mem_append] at hcm
      exact hc (List.mem_append.mpr (hcm.imp_right (List.mem_cons_of_mem a)))
    rw [he.outside c hc', h.deleted.outside c hc]

end Step

/-- A chain is deleted to the last item, wherever it is entered, and each value is given up in
turn. -/
theorem delLoop_eq {order : List Nat} (hw : Walk xs order) :
    ∀ {items : Items α} {n : Nat} {dropped : List α}, Dll (view items).nx (view items).pv xs →
    order.length ≤ n →
    ∃ items', delLoop n items order.head? dropped = .ok (dropped ++ held items order, items') ∧
      Emptied items items' xs := by
  induction hw with
  | nil =>
    intro items n dropped _ _
    refine ⟨items, ?_, fun a ha => absurd ha List.not_mem_nil, fun _ _ => rfl⟩
    rw [List.head?_nil, delLoop.eq_def, held, List.filterMap_nil, List.append_nil]
  | @step pre post order a hhead hw ih =>
    intro items n dropped h hn
    obtain ⟨n, rfl⟩ := Nat.exists_eq_succ_of_ne_zero (Nat.ne_of_gt (Nat.zero_lt_of_lt hn))
    obtain ⟨x, hx⟩ := Heap.exists_cell (seg_iff_path.mpr ⟨rfl, h.fwd⟩)
      (List.mem_append_right pre List.mem_cons_self)
    obtain ⟨items₁, hdel, hwithout⟩ := del_without h hx
    obtain ⟨items', hr, hempty⟩ :=
      @ih items₁ n (dropped ++ x.val.toList) hwithout.dll (Nat.le_of_succ_le_succ hn)
    refine ⟨items', ?_, hwithout.emptied h.not_mem hempty⟩
    rw [List.head?_cons, delLoop, hdel, ok_bind]
    dsimp only
    rw [← hhead, hr, hwithout.held_eq (hw.not_mem h.not_mem), held_cons hx, List.append_assoc]

theorem delAll_eq (h : Chain (view items) q xs) :
    ∃ values items', delAll items xs.head? = .ok (values, items') ∧
      (∀ a ∈ xs, items'.cell a = none) ∧ ∀ c, c ∉ xs → items'.cell c = items.cell c := by
  have hw : Walk xs xs := walk_between [] xs
  obtain ⟨items', hr, hempty⟩ := @delLoop_eq α xs xs hw items (fuel items) [] h.dll
    (Nat.le_of_lt (length_lt_fuel h.dll.fwd))
  exact ⟨_, items', hr, hempty.gone, hempty.outside⟩

end Delete

section Mark

theorem mark_put {x : DListItem α} (hx : items.cell a = some x) (y : DListItem α) :
    mark (items.put a (some y)) = update (mark items) a (some y.removed) := by
  funext c
  rw [mark, Heap.cell_put hx]
  by_cases hc : c = a
  · rw [hc, update_self, update_self]
    rfl
  · rw [update_of_ne hc, update_of_ne hc, mark]

/-- Marking leaves the pointers as they are. -/
theorem markForRemoval_spec {r : Option Nat} (h : (view items).nx a = some r) :
    ∃ items', markForRemoval items (some a) = .ok items' ∧ view items' = view items ∧
      mark items' = update (mark items) a (some true) := by
  obtain ⟨x, hx⟩ := exists_cell_of_link h
  refine ⟨_, Heap.modify_eq hx _, ?_, mark_put hx _⟩
  simp only [view, Heap.links_put hx, Option.map_some]
  rw [update_links (m := next) hx, update_links (m := prev) hx, update_links (m := parent) hx]

/-- The first `count` items are marked. -/
theorem markLoop_spec : ∀ {count : Nat} {items : Items α} {xs : List Nat},
    Path (view items).nx xs none →
    ∃ items', markLoop count items xs.head? = .ok items' ∧ view items' = view items ∧
      ∀ c, mark items' c = if c ∈ xs.take count then some true else mark items c := by
  intro count
  induction count with
  | zero =>
    intro items xs _
    exact ⟨items, rfl, rfl, fun c => (if_neg (by simp)).symm⟩
  | succ count ih =>
    intro items xs h
    cases xs with
    | nil => exact ⟨items, rfl, rfl, fun c => (if_neg (by simp)).symm⟩
    | cons a xs =>
      obtain ⟨items₁, hs₁, hv₁, hm₁⟩ := markForRemoval_spec h.1
      obtain ⟨items₂, hs₂, hv₂, hm₂⟩ := @ih items₁ xs (by rw [hv₁]; exact h.2)
      refine ⟨items₂, ?_, hv₂.trans hv₁, fun c => ?_⟩
      · have hn : (view items₁).nx a = some xs.head? := by rw [hv₁, h.1, Option.or_none]
        rw [List.head?_cons, markLoop, hs₁, ok_bind, member_eq hn]
        exact hs₂
      · rw [hm₂, hm₁, List.take_succ_cons]
        by_cases hca : c = a
        · subst hca
          rw [update_self, if_pos List.mem_cons_self]
          split <;> rfl
        · rw [update_of_ne hca]
          simp only [List.mem_cons, hca, false_or]

end Mark

end AlibC.DListItem
