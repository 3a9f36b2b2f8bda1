import AlibC.DListItem

/-! What the functions on a `DListItem` do to the pointers of the items. -/
namespace AlibC.DListItem

open CLang Function Linked

/-- The pointers of all items that are alive. -/
structure View where
  nx : Nat → Option (Option Nat)
  pv : Nat → Option (Option Nat)
  par : Nat → Option (Option Nat)

variable {α : Type}

def view (items : Items α) : View :=
  ⟨Heap.links next items, Heap.links prev items, Heap.links parent items⟩

variable {items : Items α} {a : Nat} {as ys pre post : List Nat} {p q r : Option Nat}

/-- A well-formed list of items that all have the same parent. -/
structure Chain (v : View) (par : Option Nat) (ys : List Nat) : Prop where
  dll : Dll v.nx v.pv ys
  par_eq : ∀ a ∈ ys, v.par a = some par

theorem exists_cell_of_link (h : (view items).nx a = some r) : ∃ x, items.cell a = some x := by
  obtain ⟨x, hx, -⟩ := Option.map_eq_some_iff.mp h
  exact ⟨x, hx⟩

theorem member_eq {m : DListItem α → Option Nat} (h : Heap.links m items a = some r) :
    member m items (some a) = .ok r := by
  obtain ⟨x, hx, rfl⟩ := Option.map_eq_some_iff.mp h
  rw [member, Heap.get_eq hx]
  rfl

theorem update_links {m : DListItem α → Option Nat} {x : DListItem α}
    (hx : items.cell a = some x) : update (Heap.links m items) a (some (m x)) =
      Heap.links m items := by
  rw [← Heap.links_eq hx, update_eq_self]

theorem setNext_spec (h : (view items).nx a = some r) (q : Option Nat) :
    ∃ items', setNext items (some a) q = .ok items' ∧
      view items' = { view items with nx := update (view items).nx a (some q) } := by
  obtain ⟨x, hx⟩ := exists_cell_of_link h
  refine ⟨_, Heap.modify_eq hx _, ?_⟩
  simp only [view, Heap.links_put hx, Option.map_some]
  rw [update_links (m := prev) hx, update_links (m := parent) hx]

theorem setPrev_spec (h : (view items).nx a = some r) (q : Option Nat) :
    ∃ items', setPrev items (some a) q = .ok items' ∧
      view items' = { view items with pv := update (view items).pv a (some q) } := by
  obtain ⟨x, hx⟩ := exists_cell_of_link h
  refine ⟨_, Heap.modify_eq hx _, ?_⟩
  simp only [view, Heap.links_put hx, Option.map_some]
  rw [update_links (m := next) hx, update_links (m := parent) hx]

theorem setParent_spec (h : (view items).nx a = some r) (q : Option Nat) :
    ∃ items', setParent items (some a) q = .ok items' ∧
      view items' = { view items with par := update (view items).par a (some q) } := by
  obtain ⟨x, hx⟩ := exists_cell_of_link h
  refine ⟨_, Heap.modify_eq hx _, ?_⟩
  simp only [view, Heap.links_put hx, Option.map_some]
  rw [update_links (m := next) hx, update_links (m := prev) hx]

theorem setNextIf_spec (h : ∀ a, p = some a → ∃ r, (view items).nx a = some r) (q : Option Nat) :
    ∃ items', setNextIf items p q = .ok items' ∧
      view items' = { view items with nx := redirect (view items).nx p q } := by
  cases p with
  | none => exact ⟨items, rfl, rfl⟩
  | some a =>
    obtain ⟨r, hr⟩ := h a rfl
    exact setNext_spec hr q

theorem setPrevIf_spec (h : ∀ a, p = some a → ∃ r, (view items).nx a = some r) (q : Option Nat) :
    ∃ items', setPrevIf items p q = .ok items' ∧
      view items' = { view items with pv := redirect (view items).pv p q } := by
  cases p with
  | none => exact ⟨items, rfl, rfl⟩
  | some a =>
    obtain ⟨r, hr⟩ := h a rfl
    exact setPrev_spec hr q

theorem length_lt_fuel {m : DListItem α → Option Nat} (h : Path (Heap.links m items) as none) :
    as.length < fuel items :=
  Nat.lt_succ_of_le (Heap.length_le (seg_iff_path.mpr ⟨rfl, h⟩))

theorem lastLoop_eq {m : DListItem α → Option Nat} : ∀ {a l n : Nat},
    Path (Heap.links m items) (a :: as) none → (a :: as).getLast? = some l → as.length < n →
    lastLoop m items n a = .ok l := by
  induction as with
  | nil =>
    intro a l n h hl hn
    cases hl
    cases n with
    | zero => cases hn
    | succ n =>
      rw [lastLoop, member_eq h.1]
      rfl
  | cons b as ih =>
    intro a l n h hl hn
    rw [List.getLast?_cons_cons] at hl
    cases n with
    | zero => cases hn
    | succ n =>
      rw [lastLoop, member_eq h.1]
      exact ih h.2 hl (Nat.lt_of_succ_lt_succ hn)

theorem getLastItem_eq (h : Dll (view items).nx (view items).pv (pre ++ a :: post)) :
    getLastItem items (some a) = .ok (pre ++ a :: post).getLast? := by
  obtain ⟨l, hl⟩ := Option.isSome_iff_exists.mp
    (List.getLast?_isSome.mpr (List.cons_ne_nil a post))
  have hs := h.split.1
  rw [getLastItem, lastLoop_eq hs hl (Nat.lt_of_succ_lt (length_lt_fuel hs)),
    List.getLast?_append_of_ne_nil _ (List.cons_ne_nil a post), hl]
  rfl

theorem getFirstItem_eq (h : Dll (view items).nx (view items).pv (pre ++ a :: post)) :
    getFirstItem items (some a) = .ok (pre ++ a :: post).head? := by
  obtain ⟨l, hl⟩ := Option.isSome_iff_exists.mp
    (List.getLast?_isSome.mpr (List.cons_ne_nil a pre.reverse))
  have hs := h.split.2
  have hhead : (pre ++ a :: post).head? = some l := by
    rw [← hl]
    cases pre with
    | nil => rfl
    | cons b pre =>
      rw [List.reverse_cons, ← List.cons_append, List.getLast?_concat]
      rfl
  rw [getFirstItem, lastLoop_eq hs hl (Nat.lt_of_succ_lt (length_lt_fuel hs)), hhead]
  rfl

theorem countLoop_eq {m : DListItem α → Option Nat} : ∀ {n c : Nat},
    Path (Heap.links m items) as none → as.length < n → c + as.length < 2 ^ 64 →
    countLoop m items n as.head? c = .ok (c + as.length) := by
  induction as with
  | nil =>
    intro n c _ hn _
    cases n with
    | zero => cases hn
    | succ n => rfl
  | cons a as ih =>
    intro n c h hn hc
    rw [List.length_cons] at hc
    cases n with
    | zero => cases hn
    | succ n =>
      rw [List.head?_cons, countLoop, member_eq h.1, ok_bind, Option.or_none,
        sizeAdd_eq (by omega), ih h.2 (Nat.lt_of_succ_lt_succ hn) (by omega), List.length_cons]
      congr 1
      omega

theorem count_eq (h : Dll (view items).nx (view items).pv (pre ++ a :: post))
    (hlen : (pre ++ a :: post).length < 2 ^ 64) :
    count items (some a) = .ok (pre ++ a :: post).length := by
  have hs := h.split
  rw [List.length_append, List.length_cons] at hlen
  have hback := @countLoop_eq _ items _ prev (fuel items) 0 hs.2.2
    (Nat.lt_of_succ_lt (length_lt_fuel hs.2)) (by rw [List.length_reverse]; omega)
  have hahead := @countLoop_eq _ items _ next (fuel items) pre.length hs.1
    (length_lt_fuel hs.1) (by rw [List.length_cons]; omega)
  rw [count, member_eq hs.2.1, ok_bind, Option.or_none, hback, ok_bind, Nat.zero_add,
    List.length_reverse]
  rw [List.head?_cons] at hahead
  rw [hahead, List.length_append]

/-- The parents after those of the items `as` were set. -/
def adopt (par : Nat → Option (Option Nat)) (as : List Nat) (q : Option Nat) :
    Nat → Option (Option Nat) :=
  fun a => if a ∈ as then some q else par a

theorem adopt_cons (par : Nat → Option (Option Nat)) (q : Option Nat) :
    adopt (update par a (some q)) as q = adopt par (a :: as) q := by
  funext b
  by_cases hb : b = a
  · subst hb
    simp [adopt]
  · simp [adopt, hb]

theorem adopt_same {par : Nat → Option (Option Nat)} (h : ∀ a ∈ as, par a = some q) :
    adopt par as q = par := by
  funext b
  by_cases hb : b ∈ as
  · rw [adopt, if_pos hb, h b hb]
  · rw [adopt, if_neg hb]

theorem setParentLoop_spec (q : Option Nat) : ∀ {as : List Nat} {items : Items α} {n : Nat},
    Path (view items).nx as none → as.length < n →
    ∃ items', setParentLoop q n items as.head? = .ok items' ∧
      view items' = { view items with par := adopt (view items).par as q } := by
  intro as
  induction as with
  | nil =>
    intro items n _ hn
    cases n with
    | zero => cases hn
    | succ n => exact ⟨items, rfl, rfl⟩
  | cons a as ih =>
    intro items n h hn
    cases n with
    | zero => cases hn
    | succ n =>
      obtain ⟨items₁, hset, hv₁⟩ := setParent_spec h.1 q
      have h₁ : Path (view items₁).nx as none := by rw [hv₁]; exact h.2
      have hnext : (view items₁).nx a = some as.head? := by
        rw [hv₁, h.1, Option.or_none]
      obtain ⟨items₂, hloop, hv₂⟩ := ih h₁ (Nat.lt_of_succ_lt_succ hn)
      refine ⟨items₂, ?_, ?_⟩
      · rw [List.head?_cons, setParentLoop, hset, ok_bind, member_eq hnext]
        exact hloop
      · rw [hv₂, hv₁, adopt_cons]

/-- All items of the list get the parent, wherever the list is entered. -/
theorem setListParent_spec {old : Option Nat} (h : Chain (view items) old (pre ++ a :: post))
    (q : Option Nat) : ∃ items', setListParent items (some a) q = .ok items' ∧
      view items' = { view items with par := adopt (view items).par (pre ++ a :: post) q } := by
  have hold := h.par_eq a (List.mem_append_right _ List.mem_cons_self)
  rw [setListParent, member_eq hold, ok_bind]
  by_cases he : old = q
  · subst he
    exact ⟨items, if_pos rfl, by rw [adopt_same h.par_eq]⟩
  · rw [if_neg he, getFirstItem_eq h.dll, ok_bind]
    exact setParentLoop_spec q h.dll.fwd (length_lt_fuel h.dll.fwd)

/-- Going `n` items on, or to the end. -/
theorem stepLoop_eq {m : DListItem α → Option Nat} : ∀ {n a : Nat},
    Path (Heap.links m items) (a :: as) none →
    ∃ b, (a :: as)[min n as.length]? = some b ∧
      stepLoop m items a n = .ok (b, n - as.length) := by
  induction as with
  | nil =>
    intro n a h
    refine ⟨a, by simp, ?_⟩
    cases n with
    | zero => rfl
    | succ n =>
      rw [stepLoop, member_eq h.1]
      rfl
  | cons c as ih =>
    intro n a h
    cases n with
    | zero => exact ⟨a, by simp, by simp [stepLoop]⟩
    | succ n =>
      obtain ⟨b, hb, hs⟩ := ih (n := n) h.2
      refine ⟨b, ?_, ?_⟩
      · rw [List.length_cons, Nat.add_min_add_right, List.getElem?_cons_succ, hb]
      · rw [stepLoop, member_eq h.1, List.length_cons, Nat.add_sub_add_right]
        exact hs

/-- The pointers after the list `ys` was put between `pre` and `post`. -/
def View.spliced (v : View) (pre ys post : List Nat) (q : Option Nat) : View where
  nx := redirect (redirect v.nx pre.getLast? ys.head?) ys.getLast? post.head?
  pv := redirect (redirect v.pv post.head? ys.getLast?) ys.head? pre.getLast?
  par := adopt v.par ys q

theorem Chain.spliced {v : View} (h : Chain v q (pre ++ post)) (hy : Chain v r ys)
    (hne : ys ≠ []) (hnd : (pre ++ ys ++ post).Nodup) :
    Chain (v.spliced pre ys post q) q (pre ++ ys ++ post) := by
  refine ⟨h.dll.splice hy.dll hne hnd, fun a ha => ?_⟩
  show adopt v.par ys q a = some q
  by_cases hay : a ∈ ys
  · rw [adopt, if_pos hay]
  · rw [adopt, if_neg hay]
    refine h.par_eq a ?_
    simp only [List.mem_append, hay, or_false] at ha ⊢
    exact ha

/-- Items with different parents differ. -/
theorem Chain.disjoint {v : View} (h : Chain v q as) (hy : Chain v r ys) (hqr : q ≠ r) :
    ∀ a ∈ as, a ∉ ys := by
  intro a ha hay
  have he := (h.par_eq a ha).symm.trans (hy.par_eq a hay)
  exact hqr (Option.some.inj he)

theorem exists_ends (hne : ys ≠ []) : ∃ y l, ys.head? = some y ∧ ys.getLast? = some l := by
  obtain ⟨l, hl⟩ := Option.isSome_iff_exists.mp (List.getLast?_isSome.mpr hne)
  cases ys with
  | nil => exact absurd rfl hne
  | cons y ys => exact ⟨y, l, rfl, hl⟩

/-- The ends of a list, as they are found from any of its items. -/
theorem Chain.exists_found {a : Nat} (h : Chain (view items) q (pre ++ a :: post)) :
    ∃ y l, (pre ++ a :: post).head? = some y ∧ (pre ++ a :: post).getLast? = some l ∧
      y ∈ pre ++ a :: post ∧ l ∈ pre ++ a :: post ∧ getFirstItem items (some a) = .ok (some y) ∧
      getLastItem items (some a) = .ok (some l) ∧ (∃ r, (view items).nx y = some r) ∧
      ∃ r, (view items).nx l = some r := by
  have hne : pre ++ a :: post ≠ [] := List.append_ne_nil_of_right_ne_nil pre (List.cons_ne_nil a post)
  obtain ⟨y, l, hhead, hlast⟩ := exists_ends hne
  have hym := List.mem_of_head? hhead
  have hlm := List.mem_of_getLast? hlast
  exact ⟨y, l, hhead, hlast, hym, hlm, by rw [getFirstItem_eq h.dll, hhead],
    by rw [getLastItem_eq h.dll, hlast], h.dll.fwd.exists_link hym, h.dll.fwd.exists_link hlm⟩

/-- A list is adopted when it is entered at its first item. -/
theorem adopt_spec (hy : Chain (view items) r ys) (hne : ys ≠ []) (q : Option Nat) :
    ∃ items', setListParent items ys.head? q = .ok items' ∧
      view items' = { view items with par := adopt (view items).par ys q } := by
  cases ys with
  | nil => exact absurd rfl hne
  | cons y ys => exact @setListParent_spec α items y [] ys r hy q

section Insert

variable {c b : Nat} {u w : List Nat}

/-- All of `DListItem_insert_before` but its last assignment. -/
theorem insertBefore_eq (h : Chain (view items) q (pre ++ c :: post))
    (hy : Chain (view items) none (u ++ b :: w))
    (hnd : (pre ++ (u ++ b :: w) ++ c :: post).Nodup) :
    ∃ items', view items' =
        { nx := redirect (view items).nx (u ++ b :: w).getLast? (some c)
          pv := redirect (redirect (view items).pv (some c) (u ++ b :: w).getLast?)
            (u ++ b :: w).head? pre.getLast?
          par := adopt (view items).par (u ++ b :: w) q } ∧
      insertBefore items (some c) (some b) = do
        let items'' ← setNext items' pre.getLast? (u ++ b :: w).head?
        return ((u ++ b :: w).head?, items'') := by
  have hparent := hy.par_eq b (List.mem_append_right _ List.mem_cons_self)
  obtain ⟨y, l, hhead, hlastl, hym, hlm, hfirst, hlast, ⟨ry, hry⟩, rl, hrl⟩ := hy.exists_found
  have hyne : u ++ b :: w ≠ [] := by simp
  generalize u ++ b :: w = ys at *
  have hcy : ∀ a ∈ ys, a ≠ c := by
    rintro a ha rfl
    rw [List.nodup_append] at hnd
    exact hnd.2.2 a (List.mem_append_right _ ha) a List.mem_cons_self rfl
  have hc := h.dll.link_eq
  obtain ⟨items₁, hs₁, hv₁⟩ := adopt_spec hy hyne q
  obtain ⟨items₂, hs₂, hv₂⟩ := setNext_spec (a := l) (by rw [hv₁]; exact hrl) (some c)
  have hprev : (view items₂).pv c = some pre.getLast? := by rw [hv₂, hv₁]; exact hc.2
  obtain ⟨ry', hry'⟩ : ∃ ry', (view items₂).nx y = some ry' := by
    rw [hv₂, hv₁]
    by_cases hyl : y = l
    · exact ⟨some c, by rw [hyl]; exact update_self _ _ _⟩
    · exact ⟨ry, (update_of_ne hyl _ _).trans hry⟩
  obtain ⟨items₃, hs₃, hv₃⟩ := setPrev_spec hry' pre.getLast?
  have hnext : (view items₃).nx l = some (some c) := by
    rw [hv₃, hv₂]
    exact update_self _ _ _
  have hcn : (view items₃).nx c = some post.head? := by
    rw [hv₃, hv₂, hv₁]
    exact (update_of_ne (hcy l hlm).symm _ _).trans hc.1
  obtain ⟨items₄, hs₄, hv₄⟩ := setPrevIf_spec (p := some c)
    (fun a ha => ⟨_, by cases ha; exact hcn⟩) (some l)
  have hyp : (view items₄).pv y = some pre.getLast? := by
    rw [hv₄, hv₃]
    exact (update_of_ne (hcy y hym) _ _).trans (update_self _ _ _)
  refine ⟨items₄, ?_, ?_⟩
  · rw [hv₄, hv₃, hv₂, hv₁, hhead, hlastl]
    simp only [redirect_some]
    rw [update_comm (hcy y hym)]
  · rw [hhead] at hs₁ ⊢
    rw [insertBefore, member_eq hparent, ok_bind, if_neg (by simp), hlast, ok_bind, hfirst,
      ok_bind, member_eq (h.par_eq c (List.mem_append_right _ List.mem_cons_self)), ok_bind,
      hs₁, ok_bind, hs₂, ok_bind, member_eq hprev, ok_bind, hs₃, ok_bind,
      member_eq hnext, ok_bind, hs₄, ok_bind, member_eq hyp, ok_bind]

theorem insertBefore_spec (h : Chain (view items) q (pre ++ c :: post))
    (hy : Chain (view items) none (u ++ b :: w))
    (hnd : (pre ++ (u ++ b :: w) ++ c :: post).Nodup) (hpre : pre ≠ []) :
    ∃ items', insertBefore items (some c) (some b) = .ok ((u ++ b :: w).head?, items') ∧
      view items' = (view items).spliced pre (u ++ b :: w) (c :: post) q := by
  obtain ⟨items₄, hv₄, hi⟩ := insertBefore_eq h hy hnd
  generalize u ++ b :: w = ys at *
  obtain ⟨-, p, -, hp⟩ := exists_ends hpre
  have hpm : p ∈ pre := List.mem_of_getLast? hp
  have hpy : ys.getLast? ≠ some p := by
    intro he
    rw [List.append_assoc, List.nodup_append] at hnd
    exact hnd.2.2 p hpm p (List.mem_append_left _ (List.mem_of_getLast? he)) rfl
  obtain ⟨rp, hrp⟩ := h.dll.fwd.exists_link (List.mem_append_left _ hpm)
  obtain ⟨items', hs, hv⟩ := @setNext_spec α items₄ p _
    (by rw [hv₄]; exact (redirect_of_ne _ hpy).trans hrp) ys.head?
  refine ⟨items', ?_, ?_⟩
  · rw [hi, hp, hs]
    rfl
  · rw [hv, hv₄, View.spliced, hp]
    simp only [List.head?_cons]
    congr 1
    exact redirect_comm _ _ (.inl hpy)

/-- Before the first item of a list nothing can be inserted. -/
theorem insertBefore_fault (h : Chain (view items) q (c :: post))
    (hy : Chain (view items) none (u ++ b :: w))
    (hnd : ((u ++ b :: w) ++ c :: post).Nodup) :
    insertBefore items (some c) (some b) = .error .nullDeref := by
  obtain ⟨items₄, -, hi⟩ := @insertBefore_eq α items [] post q c b u w h hy hnd
  rw [hi]
  rfl

theorem insertAfter_spec (h : Chain (view items) q (pre ++ c :: post))
    (hy : Chain (view items) none (u ++ b :: w))
    (hnd : (pre ++ [c] ++ (u ++ b :: w) ++ post).Nodup) :
    ∃ items', insertAfter items (some c) (some b) = .ok ((u ++ b :: w).head?, items') ∧
      view items' = (view items).spliced (pre ++ [c]) (u ++ b :: w) post q := by
  have hparent := hy.par_eq b (List.mem_append_right _ List.mem_cons_self)
  obtain ⟨y, l, hhead, hlastl, hym, hlm, hfirst, hlast, ⟨ry, hry⟩, rl, hrl⟩ := hy.exists_found
  have hyne : u ++ b :: w ≠ [] := by simp
  generalize u ++ b :: w = ys at *
  rw [List.append_assoc] at hnd
  obtain ⟨-, hnd, hdis⟩ := List.nodup_append.mp hnd
  obtain ⟨-, -, hyp⟩ := List.nodup_append.mp hnd
  have hcy : ∀ a ∈ ys, c ≠ a := fun a ha =>
    hdis c (List.mem_append_right _ (List.mem_singleton_self c)) a (List.mem_append_left _ ha)
  have hc := h.dll.link_eq
  obtain ⟨items₁, hs₁, hv₁⟩ := adopt_spec hy hyne q
  have hn₁ : (view items₁).nx c = some post.head? := by rw [hv₁]; exact hc.1
  obtain ⟨items₂, hs₂, hv₂⟩ := setNext_spec (a := l) (by rw [hv₁]; exact hrl) post.head?
  have hn₂ : (view items₂).nx l = some post.head? := by
    rw [hv₂]
    exact update_self _ _ _
  obtain ⟨items₃, hs₃, hv₃⟩ := @setPrevIf_spec α items₂ post.head?
    (fun a ha => by
      have hap : a ∈ post := List.mem_of_head? ha
      obtain ⟨r, hr⟩ := h.dll.fwd.exists_link
        (List.mem_append_right pre (List.mem_cons_of_mem c hap))
      refine ⟨r, ?_⟩
      rw [hv₂, hv₁]
      exact (update_of_ne (hyp l hlm a hap).symm _ _).trans hr) (some l)
  obtain ⟨ry', hry'⟩ : ∃ ry', (view items₃).nx y = some ry' := by
    rw [hv₃, hv₂, hv₁]
    by_cases hyl : y = l
    · exact ⟨post.head?, by rw [hyl]; exact update_self _ _ _⟩
    · exact ⟨ry, (update_of_ne hyl _ _).trans hry⟩
  obtain ⟨items₄, hs₄, hv₄⟩ := setPrev_spec hry' (some c)
  have hn₄ : (view items₄).nx c = some post.head? := by
    rw [hv₄, hv₃, hv₂, hv₁]
    exact (update_of_ne (hcy l hlm) _ _).trans hc.1
  obtain ⟨items₅, hs₅, hv₅⟩ := setNext_spec hn₄ (some y)
  refine ⟨items₅, ?_, ?_⟩
  · rw [hhead] at hs₁ ⊢
    rw [insertAfter, member_eq hparent, ok_bind, if_neg (by simp), hlast, ok_bind, hfirst,
      ok_bind, member_eq (h.par_eq c (List.mem_append_right _ List.mem_cons_self)), ok_bind,
      hs₁, ok_bind, member_eq hn₁, ok_bind, hs₂, ok_bind, member_eq hn₂, ok_bind,
      hs₃, ok_bind, hs₄, ok_bind, hs₅]
    rfl
  · rw [hv₅, hv₄, hv₃, hv₂, hv₁, View.spliced, hhead, hlastl, List.getLast?_concat]
    simp only [redirect_some]
    congr 1
    exact update_comm (hcy l hlm).symm _ _ _

end Insert

end AlibC.DListItem
