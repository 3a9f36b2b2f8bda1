import AlibC.DListItemChain

/-! Joining two chains of items, and taking an item out of a chain. -/
namespace AlibC.DListItem

open CLang Function Linked

variable {α : Type} {items : Items α} {a b c : Nat} {xs ys pre post u w : List Nat}
  {q r : Option Nat}

section Push

theorem pushBack_spec (h : Chain (view items) q (pre ++ c :: post))
    (hy : Chain (view items) none (u ++ b :: w))
    (hnd : (pre ++ c :: post ++ (u ++ b :: w)).Nodup) :
    ∃ items', pushBack items (some c) (some b) = .ok ((u ++ b :: w).head?, items') ∧
      view items' = (view items).spliced (pre ++ c :: post) (u ++ b :: w) [] q := by
  have hparent := hy.par_eq b (List.mem_append_right _ List.mem_cons_self)
  have hfirst := getFirstItem_eq hy.dll
  have hlast := getLastItem_eq h.dll
  have hyne : u ++ b :: w ≠ [] := by simp
  have hxne : pre ++ c :: post ≠ [] := by simp
  generalize u ++ b :: w = ys at *
  generalize pre ++ c :: post = xs at *
  obtain ⟨-, l, -, hl⟩ := exists_ends hxne
  obtain ⟨y, e, hhead, he⟩ := exists_ends hyne
  have hlm := List.mem_of_getLast? hl
  have hym := List.mem_of_head? hhead
  have hly : ys.getLast? ≠ some l := fun hc =>
    (List.nodup_append.mp hnd).2.2 l hlm l (List.mem_of_getLast? hc) rfl
  obtain ⟨items₁, hs₁, hv₁⟩ := adopt_spec hy hyne q
  obtain ⟨rl, hrl⟩ := h.dll.fwd.exists_link hlm
  obtain ⟨items₂, hs₂, hv₂⟩ := setNext_spec (a := l) (by rw [hv₁]; exact hrl) (some y)
  obtain ⟨ry, hry⟩ : ∃ ry, (view items₂).nx y = some ry := by
    obtain ⟨ry, hry⟩ := hy.dll.fwd.exists_link hym
    refine ⟨ry, ?_⟩
    rw [hv₂, hv₁]
    exact (update_of_ne (fun hc => (List.nodup_append.mp hnd).2.2 l hlm y hym hc.symm) _ _).trans
      hry
  obtain ⟨items₃, hs₃, hv₃⟩ := setPrev_spec hry (some l)
  refine ⟨items₃, ?_, ?_⟩
  · rw [hhead] at hs₁ ⊢
    rw [pushBack, member_eq hparent, ok_bind, if_neg (by simp), hlast, ok_bind, hfirst, ok_bind,
      hl, member_eq (h.par_eq l hlm), ok_bind, hhead, hs₁, ok_bind, hs₂, ok_bind, hs₃]
    rfl
  · -- the last new item already ends its chain
    have hend : ∀ a, ys.getLast? = some a →
        redirect (view items).nx (some l) (some y) a = some none := by
      intro a ha
      obtain ⟨init, hinit⟩ := List.getLast?_eq_some_iff.mp ha
      rw [redirect_of_ne _ fun hc => hly (ha.trans (by cases hc; rfl))]
      exact (Dll.link_eq (hinit ▸ hy.dll)).1
    rw [hv₃, hv₂, hv₁, View.spliced, hl, hhead, List.head?_nil, redirect_none, redirect_self hend]
    rfl

theorem pushForward_spec (h : Chain (view items) q (pre ++ c :: post))
    (hy : Chain (view items) none (u ++ b :: w))
    (hnd : (u ++ b :: w ++ (pre ++ c :: post)).Nodup) :
    ∃ items', pushForward items (some c) (some b) = .ok ((u ++ b :: w).head?, items') ∧
      view items' = (view items).spliced [] (u ++ b :: w) (pre ++ c :: post) q := by
  have hparent := hy.par_eq b (List.mem_append_right _ List.mem_cons_self)
  have hpar := h.par_eq c (List.mem_append_right _ List.mem_cons_self)
  have hlast := getLastItem_eq hy.dll
  have hfirst := getFirstItem_eq hy.dll
  have hyne : u ++ b :: w ≠ [] := by simp
  have hxne : pre ++ c :: post ≠ [] := by simp
  obtain ⟨x, -, hx, -⟩ := exists_ends hxne
  obtain ⟨y, e, hhead, he⟩ := exists_ends hyne
  obtain ⟨items₁, hs₁, hv₁⟩ := adopt_spec hy hyne q
  have hfirst₁ : getFirstItem items₁ (some c) = .ok (pre ++ c :: post).head? :=
    getFirstItem_eq (by rw [hv₁]; exact h.dll)
  generalize u ++ b :: w = ys at *
  generalize pre ++ c :: post = xs at *
  have hxm := List.mem_of_head? hx
  have hem := List.mem_of_getLast? he
  have hyx : ys.head? ≠ some x := fun hc =>
    (List.nodup_append.mp hnd).2.2 x (List.mem_of_head? hc) x hxm rfl
  obtain ⟨rx, hrx⟩ := h.dll.fwd.exists_link hxm
  obtain ⟨items₂, hs₂, hv₂⟩ := setPrev_spec (a := x) (by rw [hv₁]; exact hrx) (some e)
  obtain ⟨re, hre⟩ := hy.dll.fwd.exists_link hem
  obtain ⟨items₃, hs₃, hv₃⟩ := setNext_spec (a := e) (by rw [hv₂, hv₁]; exact hre) (some x)
  refine ⟨items₃, ?_, ?_⟩
  · rw [hhead] at hs₁ ⊢
    rw [pushForward, member_eq hparent, ok_bind, if_neg (by simp), hlast, ok_bind, hfirst,
      ok_bind, member_eq hpar, ok_bind, hhead, hs₁, ok_bind, hfirst₁, ok_bind, hx, he, hs₂,
      ok_bind, hs₃]
    rfl
  · -- the first new item already begins its chain
    have hstart : ∀ a, ys.head? = some a →
        redirect (view items).pv (some x) (some e) a = some none := by
      intro a ha
      obtain ⟨tail, htail⟩ := List.head?_eq_some_iff.mp ha
      rw [redirect_of_ne _ fun hc => hyx (ha.trans (by cases hc; rfl))]
      exact (@Dll.link_eq Nat _ _ a [] tail (htail ▸ hy.dll)).2
    rw [hv₃, hv₂, hv₁, View.spliced, hx, he, List.getLast?_nil, redirect_none,
      redirect_self hstart]
    rfl

end Push

section Take

/-- The pointers after the items `ys` between `pre` and `post` were taken out. -/
def View.cut (v : View) (pre ys post : List Nat) : View where
  nx := redirect (redirect v.nx pre.getLast? post.head?) ys.getLast? none
  pv := redirect (redirect v.pv post.head? pre.getLast?) ys.head? none
  par := adopt v.par ys none

theorem Chain.congr {v v' : View} (h : Chain v q xs)
    (hc : ∀ a ∈ xs, v'.nx a = v.nx a ∧ v'.pv a = v.pv a ∧ v'.par a = v.par a) : Chain v' q xs := by
  refine ⟨h.dll.congr (fun a ha => (hc a ha).1) fun a ha => (hc a ha).2.1, fun a ha => ?_⟩
  rw [(hc a ha).2.2]
  exact h.par_eq a ha

/-- Both what is left and what was taken out are well-formed. -/
theorem Chain.cut {v : View} (h : Chain v q (pre ++ ys ++ post)) :
    Chain (v.cut pre ys post) q (pre ++ post) ∧ Chain (v.cut pre ys post) none ys := by
  have hd := h.dll.cut
  refine ⟨⟨hd.1, fun a ha => ?_⟩, hd.2, fun a ha => if_pos ha⟩
  refine (if_neg (h.dll.disjoint ha)).trans (h.par_eq a ?_)
  rw [List.append_assoc, List.mem_append, List.mem_append]
  exact (List.mem_append.mp ha).imp_right .inr

theorem adjacent_eq (h : Dll (view items).nx (view items).pv (pre ++ a :: post)) :
    adjacent items a = .ok (pre.getLast?.or post.head?) := by
  have hl := h.link_eq
  rw [adjacent, member_eq hl.2, ok_bind]
  cases pre.getLast? with
  | none =>
    rw [if_neg (fun hc => hc rfl), member_eq hl.1]
    rfl
  | some p =>
    rw [if_pos (Option.some_ne_none p)]
    rfl

/-- The item pulled out is a chain of its own. -/
theorem pullOut_spec (h : Chain (view items) q (pre ++ a :: post)) :
    ∃ items', pullOut items (some a) = .ok (some a, pre.getLast?.or post.head?, items') ∧
      view items' = (view items).cut pre [a] post := by
  have hl := h.dll.link_eq
  obtain ⟨hp, hs⟩ := h.dll.neighbours
  have hpa : pre.getLast? ≠ some a := fun hc => (hp a hc).1 rfl
  have hsa : post.head? ≠ some a := fun hc => (hs a hc).1 rfl
  obtain ⟨items₁, hs₁, hv₁⟩ := setPrevIf_spec (fun s hc => (hs s hc).2) pre.getLast?
  have hn₁ : (view items₁).nx a = some post.head? := by rw [hv₁]; exact hl.1
  have hp₁ : (view items₁).pv a = some pre.getLast? := by
    rw [hv₁]
    exact (redirect_of_ne _ hsa).trans hl.2
  obtain ⟨items₂, hs₂, hv₂⟩ := @setNextIf_spec α items₁ pre.getLast?
    (fun p hc => by rw [hv₁]; exact (hp p hc).2) post.head?
  have hn₂ : (view items₂).nx a = some post.head? := by
    rw [hv₂]
    exact (redirect_of_ne _ hpa).trans hn₁
  obtain ⟨items₃, hs₃, hv₃⟩ := setNext_spec hn₂ none
  have hn₃ : (view items₃).nx a = some none := by
    rw [hv₃]
    exact update_self _ _ _
  obtain ⟨items₄, hs₄, hv₄⟩ := setPrev_spec hn₃ none
  have hchain : Chain (view items₄) q [a] := by
    refine ⟨⟨⟨by rw [hv₄]; exact hn₃, trivial⟩, ⟨?_, trivial⟩⟩, fun b hb => ?_⟩
    · rw [hv₄]
      exact update_self _ _ _
    · cases List.mem_singleton.mp hb
      rw [hv₄, hv₃, hv₂, hv₁]
      exact h.par_eq a (List.mem_append_right _ List.mem_cons_self)
  obtain ⟨items₅, hs₅, hv₅⟩ := @setListParent_spec α items₄ a [] [] q hchain none
  refine ⟨items₅, ?_, ?_⟩
  · rw [pullOut, adjacent_eq h.dll, ok_bind, member_eq hl.1, ok_bind, member_eq hl.2, ok_bind, hs₁,
      ok_bind, member_eq hp₁, ok_bind, member_eq hn₁, ok_bind, hs₂, ok_bind, hs₃, ok_bind, hs₄,
      ok_bind, hs₅]
    rfl
  · rw [hv₅, hv₄, hv₃, hv₂, hv₁]
    rfl

theorem setNextIf_cell {items' : Items α} {p r : Option Nat} (hr : setNextIf items p r = .ok items')
    (ha : p ≠ some a) : items'.cell a = items.cell a := by
  rw [setNextIf] at hr
  split at hr
  · cases hr
    rfl
  · exact Heap.cell_modify hr ha

theorem setPrevIf_cell {items' : Items α} {p r : Option Nat} (hr : setPrevIf items p r = .ok items')
    (ha : p ≠ some a) : items'.cell a = items.cell a := by
  rw [setPrevIf] at hr
  split at hr
  · cases hr
    rfl
  · exact Heap.cell_modify hr ha

theorem setNextIf_map {β : Type} {g : DListItem α → β} {items' : Items α} {p r : Option Nat}
    (hg : ∀ x q, g { x with next := q } = g x) (hr : setNextIf items p r = .ok items') (c : Nat) :
    (items'.cell c).map g = (items.cell c).map g := by
  rw [setNextIf] at hr
  split at hr
  · cases hr
    rfl
  · exact Heap.map_cell_modify hr (fun x => hg x r) c

theorem setPrevIf_map {β : Type} {g : DListItem α → β} {items' : Items α} {p r : Option Nat}
    (hg : ∀ x q, g { x with prev := q } = g x) (hr : setPrevIf items p r = .ok items') (c : Nat) :
    (items'.cell c).map g = (items.cell c).map g := by
  rw [setPrevIf] at hr
  split at hr
  · cases hr
    rfl
  · exact Heap.map_cell_modify hr (fun x => hg x r) c

/-- What is left when the neighbours of some items between `pre` and `post` were linked to each
other: only their pointers to those items have changed. -/
structure Skipped (items items' : Items α) (pre post : List Nat) : Prop where
  nx_eq : (view items').nx = redirect (view items).nx pre.getLast? post.head?
  pv_eq : (view items').pv = redirect (view items).pv post.head? pre.getLast?
  cell_eq : ∀ c, pre.getLast? ≠ some c → post.head? ≠ some c → items'.cell c = items.cell c
  map_eq : ∀ {β : Type} (g : DListItem α → β), (∀ x q, g { x with next := q } = g x) →
    (∀ x q, g { x with prev := q } = g x) → ∀ c, (items'.cell c).map g = (items.cell c).map g

theorem unlink_skipped (h : Dll (view items).nx (view items).pv (pre ++ ys ++ post))
    (hne : ys ≠ []) :
    ∃ items', unlink items ys.head? ys.getLast? = .ok items' ∧ Skipped items items' pre post := by
  obtain ⟨y, e, hy, he⟩ := exists_ends hne
  have hlinks := h.outer_links
  have hpv := hlinks.1 y hy
  have hnx := hlinks.2 e he
  have hpe : pre.getLast? ≠ some e := fun hc =>
    h.disjoint (List.mem_append_left _ (List.mem_of_getLast? hc)) (List.mem_of_getLast? he)
  obtain ⟨items₁, hs₁, hv₁⟩ := @setNextIf_spec α items pre.getLast?
    (fun p hp => h.fwd.exists_link
      (List.mem_append_left _ (List.mem_append_left _ (List.mem_of_getLast? hp)))) post.head?
  have hn₁ : (view items₁).nx e = some post.head? := by
    rw [hv₁]
    exact (redirect_of_ne _ hpe).trans hnx
  have hp₁ : (view items₁).pv y = some pre.getLast? := by rw [hv₁]; exact hpv
  obtain ⟨items₂, hs₂, hv₂⟩ := @setPrevIf_spec α items₁ post.head?
    (fun s hs => by
      rw [hv₁]
      by_cases hps : pre.getLast? = some s
      · exact ⟨_, by rw [hps]; exact update_self _ _ _⟩
      · obtain ⟨r, hr⟩ := h.fwd.exists_link
          (List.mem_append_right (pre ++ ys) (List.mem_of_head? hs))
        exact ⟨r, (redirect_of_ne _ hps).trans hr⟩) pre.getLast?
  refine ⟨items₂, ?_, ?_, ?_, fun c hpc hsc => ?_, fun g hn hp c => ?_⟩
  · rw [hy, he, unlink, member_eq hpv, ok_bind, member_eq hnx, ok_bind, hs₁, ok_bind,
      member_eq hn₁, ok_bind, member_eq hp₁, ok_bind, hs₂]
  · rw [hv₂, hv₁]
  · rw [hv₂, hv₁]
  · rw [setPrevIf_cell hs₂ hsc, setNextIf_cell hs₁ hpc]
  · rw [setPrevIf_map hp hs₂, setNextIf_map hn hs₁]

/-- Whether an item is marked for removal. -/
def mark (items : Items α) (a : Nat) : Option Bool := (items.cell a).map removed

/-- What the items are after `a` was deleted: the ones outside the chain are the same, and no
other item is marked or unmarked. -/
structure Deleted (items items' : Items α) (xs : List Nat) (a : Nat) : Prop where
  gone : items'.cell a = none
  outside : ∀ c, c ∉ xs → items'.cell c = items.cell c
  mark_eq : ∀ c, c ≠ a → mark items' c = mark items c

section Skip

variable {items' : Items α} {x : DListItem α}

theorem Skipped.cell_self (hs : Skipped items items' pre post)
    (h : Dll (view items).nx (view items).pv (pre ++ a :: post)) : items'.cell a = items.cell a :=
  hs.cell_eq a (fun hc => (h.neighbours.1 a hc).1 rfl) fun hc => (h.neighbours.2 a hc).1 rfl

/-- The item skipped is freed, and nothing but the links to it has changed elsewhere. -/
theorem Skipped.map_put (hs : Skipped items items' pre post) (hx : items'.cell a = some x)
    {β : Type} (g : DListItem α → β) (hn : ∀ x q, g { x with next := q } = g x)
    (hp : ∀ x q, g { x with prev := q } = g x) (c : Nat) (hca : c ≠ a) :
    ((items'.put a none).cell c).map g = (items.cell c).map g := by
  rw [Heap.cell_put hx, update_of_ne hca]
  exact hs.map_eq g hn hp c

theorem Skipped.deleted (hs : Skipped items items' pre post) (hx : items'.cell a = some x) :
    Deleted items (items'.put a none) (pre ++ a :: post) a := by
  refine ⟨?_, fun c hc => ?_, hs.map_put hx removed (fun _ _ => rfl) fun _ _ => rfl⟩
  · rw [Heap.cell_put hx, update_self]
  · have hca : c ≠ a := by
      rintro rfl
      exact hc (List.mem_append_right _ List.mem_cons_self)
    rw [Heap.cell_put hx, update_of_ne hca]
    refine hs.cell_eq c (fun hpc => hc ?_) fun hsc => hc ?_
    · exact List.mem_append_left _ (List.mem_of_getLast? hpc)
    · exact List.mem_append_right _ (List.mem_cons_of_mem a (List.mem_of_head? hsc))

/-- The other items are well-formed without the one that is freed. -/
theorem Skipped.dll (hs : Skipped items items' pre post) (hx : items'.cell a = some x)
    (h : Dll (view items).nx (view items).pv (pre ++ a :: post)) :
    Dll (view (items'.put a none)).nx (view (items'.put a none)).pv (pre ++ post) := by
  have hother : ∀ c ∈ pre ++ post, some a ≠ some c := by
    rintro c hc he
    cases he
    exact h.not_mem hc
  have hxs : pre ++ a :: post = pre ++ [a] ++ post := by simp
  rw [hxs] at h
  refine h.cut.1.congr (fun c hc => ?_) fun c hc => ?_
  · have hca : c ≠ a := fun he => hother c hc (by rw [he])
    rw [List.getLast?_singleton, redirect_of_ne _ (hother c hc), ← hs.nx_eq]
    simp only [view, Heap.links_put hx, update_of_ne hca]
  · have hca : c ≠ a := fun he => hother c hc (by rw [he])
    rw [List.head?_cons, redirect_of_ne _ (hother c hc), ← hs.pv_eq]
    simp only [view, Heap.links_put hx, update_of_ne hca]

end Skip

theorem del_eq_unlink (items : Items α) (a : Nat) : del items (some a) = do
    let listItem ← adjacent items a
    let items ← unlink items (some a) (some a)
    let it ← items.get (some a)
    return (it.val.toList, listItem, items.put a none) := by
  simp only [del, unlink, bind_assoc]

/-- What is left without the item `a` between `pre` and `post`. -/
structure Without (items items' : Items α) (pre : List Nat) (a : Nat) (post : List Nat) :
    Prop where
  dll : Dll (view items').nx (view items').pv (pre ++ post)
  deleted : Deleted items items' (pre ++ a :: post) a
  parent_eq : ∀ c, c ≠ a → (items'.cell c).map parent = (items.cell c).map parent
  val_eq : ∀ c, c ≠ a → (items'.cell c).map val = (items.cell c).map val

/-- The item deleted is gone, and the value it referred to is given up. -/
theorem del_without (h : Dll (view items).nx (view items).pv (pre ++ a :: post))
    {x : DListItem α} (hx : items.cell a = some x) :
    ∃ items', del items (some a) = .ok (x.val.toList, pre.getLast?.or post.head?, items') ∧
      Without items items' pre a post := by
  have hxs : pre ++ a :: post = pre ++ [a] ++ post := by simp
  obtain ⟨items₁, hs₁, hskip⟩ := unlink_skipped (hxs ▸ h) (List.cons_ne_nil a [])
  have hx₁ : items₁.cell a = some x := (hskip.cell_self h).trans hx
  refine ⟨items₁.put a none, ?_, hskip.dll hx₁ h, hskip.deleted hx₁,
    hskip.map_put hx₁ parent (fun _ _ => rfl) fun _ _ => rfl,
    hskip.map_put hx₁ val (fun _ _ => rfl) fun _ _ => rfl⟩
  rw [List.head?_cons, List.getLast?_singleton] at hs₁
  rw [del_eq_unlink, adjacent_eq h, ok_bind, hs₁, ok_bind, Heap.get_eq hx₁]
  rfl

theorem del_spec (h : Chain (view items) q (pre ++ a :: post)) {x : DListItem α}
    (hx : items.cell a = some x) :
    ∃ items', del items (some a) = .ok (x.val.toList, pre.getLast?.or post.head?, items') ∧
      Chain (view items') q (pre ++ post) ∧ Deleted items items' (pre ++ a :: post) a := by
  obtain ⟨items', hdel, hwithout⟩ := del_without h.dll hx
  refine ⟨items', hdel, ⟨hwithout.dll, fun c hc => ?_⟩, hwithout.deleted⟩
  have hca : c ≠ a := by
    rintro rfl
    exact h.dll.not_mem hc
  have hcx : c ∈ pre ++ a :: post := by
    rw [List.mem_append] at hc ⊢
    exact hc.imp_right (List.mem_cons_of_mem a)
  exact (hwithout.parent_eq c hca).trans (h.par_eq c hcx)

end Take

end AlibC.DListItem
