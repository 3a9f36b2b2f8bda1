import AlibC.DListItemEnds
import AlibC.Lib.Reorder

/-! Taking a block of items out of a chain, and placing it elsewhere in the chain. -/
namespace AlibC.DListItem

open CLang Function Linked Reorder

variable {α : Type} {items : Items α} {a b t c : Nat} {xs ys zs pre post pre' post' : List Nat}
  {q : Option Nat}

section Place

/-- The pointers after the block `ys` between `pre` and `post` was skipped by its neighbours. -/
def View.skipped (v : View) (pre post : List Nat) : View where
  nx := redirect v.nx pre.getLast? post.head?
  pv := redirect v.pv post.head? pre.getLast?
  par := v.par

/-- The pointers after the block was put between `pre'` and `post'`. -/
def View.placed (v : View) (pre' ys post' : List Nat) : View where
  nx := redirect (redirect v.nx pre'.getLast? ys.head?) ys.getLast? post'.head?
  pv := redirect (redirect v.pv post'.head? ys.getLast?) ys.head? pre'.getLast?
  par := v.par

theorem Chain.moved {v : View} (h : Chain v q (pre ++ ys ++ post)) (hne : ys ≠ [])
    (hrest : pre ++ post = pre' ++ post') :
    Chain ((v.skipped pre post).placed pre' ys post') q (pre' ++ ys ++ post') := by
  refine ⟨h.dll.move hne hrest, fun a ha => h.par_eq a ?_⟩
  have hmem : a ∈ pre ++ post ↔ a ∈ pre' ++ post' := by rw [hrest]
  simp only [List.mem_append] at ha hmem ⊢
  tauto

theorem unlink_spec (h : Chain (view items) q (pre ++ ys ++ post)) (hne : ys ≠ []) :
    ∃ items', unlink items ys.head? ys.getLast? = .ok items' ∧
      view items' = (view items).skipped pre post := by
  obtain ⟨items', hs, hskip⟩ := unlink_skipped h.dll hne
  have hpar : (view items').par = (view items).par :=
    funext (hskip.map_eq parent (fun _ _ => rfl) fun _ _ => rfl)
  refine ⟨items', hs, ?_⟩
  rw [View.skipped, ← hskip.nx_eq, ← hskip.pv_eq, ← hpar]

/-- What is known of the pointers of a block and of the chain it is to be placed in. -/
structure Apart (v : View) (xs ys : List Nat) : Prop where
  dll : Dll v.nx v.pv xs
  alive : ∀ a ∈ ys, ∃ r, v.nx a = some r
  disjoint : ∀ a ∈ xs, a ∉ ys

theorem Chain.apart {v : View} (h : Chain v q (pre ++ ys ++ post)) :
    Apart (v.skipped pre post) (pre ++ post) ys := by
  have hdis : ∀ a ∈ pre ++ post, a ∉ ys := fun a ha => h.dll.disjoint ha
  refine ⟨h.dll.cut.1.congr (fun a ha => ?_) (fun a ha => ?_), fun a ha => ?_, hdis⟩
  · exact (redirect_of_ne none fun hc => hdis a ha (List.mem_of_getLast? hc)).symm
  · exact (redirect_of_ne none fun hc => hdis a ha (List.mem_of_head? hc)).symm
  · obtain ⟨r, hr⟩ := h.dll.fwd.exists_link (List.mem_append_left _ (List.mem_append_right _ ha))
    refine ⟨r, (redirect_of_ne _ fun hc => ?_).trans hr⟩
    exact hdis a (List.mem_append_left _ (List.mem_of_getLast? hc)) ha

theorem placeBefore_spec (h : Apart (view items) (pre' ++ t :: post') ys) (hne : ys ≠ []) :
    ∃ items', placeBefore items ys.head? ys.getLast? (some t) = .ok items' ∧
      view items' = (view items).placed pre' ys (t :: post') := by
  obtain ⟨y, e, hy, he⟩ := exists_ends hne
  have hym := List.mem_of_head? hy
  have hem := List.mem_of_getLast? he
  have hpv := h.dll.link_eq.2
  have hty : ∀ a ∈ ys, t ≠ a := by
    rintro a ha rfl
    exact h.disjoint t (List.mem_append_right _ List.mem_cons_self) ha
  obtain ⟨ry, hry⟩ := h.alive y hym
  obtain ⟨re, hre⟩ := h.alive e hem
  obtain ⟨rt, hrt⟩ := h.dll.fwd.exists_link (List.mem_append_right pre' List.mem_cons_self)
  obtain ⟨items₁, hs₁, hv₁⟩ := setPrev_spec hry pre'.getLast?
  obtain ⟨items₂, hs₂, hv₂⟩ := setNext_spec (a := e) (by rw [hv₁]; exact hre) (some t)
  obtain ⟨items₃, hs₃, hv₃⟩ := @setPrev_spec α items₂ t rt (by
    rw [hv₂, hv₁]
    exact (update_of_ne (hty e hem) _ _).trans hrt) (some e)
  have hp₃ : (view items₃).pv y = some pre'.getLast? := by
    rw [hv₃, hv₂, hv₁]
    exact (update_of_ne (hty y hym).symm _ _).trans (update_self _ _ _)
  have hpe : pre'.getLast? ≠ some e := fun hc =>
    h.disjoint e (List.mem_append_left _ (List.mem_of_getLast? hc)) hem
  obtain ⟨items₄, hs₄, hv₄⟩ := @setNextIf_spec α items₃ pre'.getLast?
    (fun p hp => by
      obtain ⟨r, hr⟩ := h.dll.fwd.exists_link (List.mem_append_left _ (List.mem_of_getLast? hp))
      have hpe' : p ≠ e := fun hc => hpe (hc ▸ hp)
      refine ⟨r, ?_⟩
      rw [hv₃, hv₂, hv₁]
      exact (update_of_ne hpe' _ _).trans hr) (some y)
  refine ⟨items₄, ?_, ?_⟩
  · rw [hy, he, placeBefore, member_eq hpv, ok_bind, hs₁, ok_bind, hs₂, ok_bind, hs₃, ok_bind,
      member_eq hp₃, ok_bind, hs₄]
  · rw [hv₄, hv₃, hv₂, hv₁, View.placed, hy, he]
    simp only [List.head?_cons, redirect_some]
    congr 1
    · exact (redirect_comm (o := some e) _ _ (.inl hpe.symm))
    · exact update_comm (hty y hym).symm _ _ _

theorem placeAfter_spec (h : Apart (view items) (pre' ++ t :: post') [a]) :
    ∃ items', placeAfter items (some a) (some t) = .ok items' ∧
      view items' = (view items).placed (pre' ++ [t]) [a] post' := by
  have hnx := h.dll.link_eq.1
  have hta : t ≠ a := by
    rintro rfl
    exact h.disjoint t (List.mem_append_right _ List.mem_cons_self) (List.mem_singleton_self t)
  obtain ⟨ra, hra⟩ := h.alive a (List.mem_singleton_self a)
  obtain ⟨items₁, hs₁, hv₁⟩ := setPrev_spec hra (some t)
  have hn₁ : (view items₁).nx t = some post'.head? := by rw [hv₁]; exact hnx
  obtain ⟨items₂, hs₂, hv₂⟩ := setNext_spec (a := a) (by rw [hv₁]; exact hra) post'.head?
  obtain ⟨items₃, hs₃, hv₃⟩ := @setNext_spec α items₂ t post'.head? (by
    rw [hv₂]
    exact (update_of_ne hta _ _).trans hn₁) (some a)
  have hn₃ : (view items₃).nx a = some post'.head? := by
    rw [hv₃, hv₂]
    exact (update_of_ne hta.symm _ _).trans (update_self _ _ _)
  have hpa : post'.head? ≠ some a := fun hc =>
    h.disjoint a (List.mem_append_right _ (List.mem_cons_of_mem t (List.mem_of_head? hc)))
      (List.mem_singleton_self a)
  obtain ⟨items₄, hs₄, hv₄⟩ := @setPrevIf_spec α items₃ post'.head?
    (fun s hs => by
      obtain ⟨r, hr⟩ := h.dll.fwd.exists_link
        (List.mem_append_right pre' (List.mem_cons_of_mem t (List.mem_of_head? hs)))
      have hsa : s ≠ a := fun hc => hpa (hc ▸ hs)
      rw [hv₃, hv₂, hv₁]
      by_cases hst : s = t
      · exact ⟨some a, by rw [hst]; exact update_self _ _ _⟩
      · exact ⟨r, (update_of_ne hst _ _).trans ((update_of_ne hsa _ _).trans hr)⟩) (some a)
  refine ⟨items₄, ?_, ?_⟩
  · rw [placeAfter, hs₁, ok_bind, member_eq hn₁, ok_bind, hs₂, ok_bind, hs₃, ok_bind,
      member_eq hn₃, ok_bind, hs₄]
  · rw [hv₄, hv₃, hv₂, hv₁, View.placed, List.getLast?_concat]
    simp only [List.head?_cons, List.getLast?_singleton, redirect_some]
    congr 1
    · exact update_comm hta.symm _ _ _
    · exact redirect_comm (o := some a) _ _ (.inl hpa.symm)

end Place

section Walk

/-- Wherever it is called, the walk begins at the first item. -/
theorem get_walk (h : Dll (view items).nx (view items).pv xs) (hc : c ∈ xs) (n : Nat) :
    ∃ x tail b, xs = x :: tail ∧ xs[min n tail.length]? = some b ∧
      get items (some c) n = .ok (some b, n - tail.length) := by
  obtain ⟨u, w, hx⟩ := List.append_of_mem hc
  have hfirst := getFirstItem_eq (hx ▸ h)
  rw [← hx] at hfirst
  obtain ⟨x, -, hhead, -⟩ := exists_ends (List.ne_nil_of_mem hc)
  obtain ⟨tail, rfl⟩ := List.head?_eq_some_iff.mp hhead
  obtain ⟨b, hb, hstep⟩ := stepLoop_eq (n := n) h.fwd
  rw [hhead, getFirstItem] at hfirst
  obtain ⟨f, hf, hfx⟩ := bind_eq_ok.mp hfirst
  cases hfx
  refine ⟨x, tail, b, rfl, hb, ?_⟩
  rw [get, hf, ok_bind, hstep]
  rfl

theorem get_at (h : Dll (view items).nx (view items).pv (pre ++ a :: post))
    (hc : c ∈ pre ++ a :: post) : get items (some c) pre.length = .ok (some a, 0) := by
  obtain ⟨x, tail, b, htail, hb, hget⟩ := get_walk h hc pre.length
  have hlen := congrArg List.length htail
  simp only [List.length_append, List.length_cons] at hlen
  rw [Nat.min_eq_left (by omega), List.getElem?_append_right (Nat.le_refl _), Nat.sub_self,
    List.getElem?_cons_zero] at hb
  cases hb
  rw [hget, Nat.sub_eq_zero_of_le (by omega)]

theorem get_past {index : Nat} (h : Dll (view items).nx (view items).pv xs) (hc : c ∈ xs)
    (hi : xs.length ≤ index) : ∃ b n, get items (some c) index = .ok (b, n) ∧ n ≠ 0 := by
  obtain ⟨x, tail, b, rfl, -, hget⟩ := get_walk h hc index
  rw [List.length_cons] at hi
  exact ⟨some b, _, hget, by omega⟩

/-- Going ahead leads to the item so far behind `a`, or to the last one. -/
theorem getByRelativeIndex_ahead (h : Dll (view items).nx (view items).pv (pre ++ a :: post))
    {d : Nat} (hd : d < 2 ^ 63) : getByRelativeIndex items (some a) (toLong d) =
      .ok ((a :: post)[min d post.length]?, ((d - post.length : Nat) : Int)) := by
  rw [toLong_eq hd, getByRelativeIndex]
  by_cases h0 : d = 0
  · subst h0
    simp [stepLoop]
  · obtain ⟨b, hb, hs⟩ := stepLoop_eq (n := d) h.split.1
    rw [if_pos (by omega), Int.toNat_natCast, hs, hb]
    rfl

/-- A distance beyond the largest `long` leads back. -/
theorem getByRelativeIndex_back (h : Dll (view items).nx (view items).pv (pre ++ a :: post))
    {d : Nat} (hd : 2 ^ 63 ≤ d) (hlt : d < 2 ^ 64) : getByRelativeIndex items (some a) (toLong d) =
      .ok ((a :: pre.reverse)[min (2 ^ 64 - d) pre.length]?,
        -((2 ^ 64 - d - pre.length : Nat) : Int)) := by
  obtain ⟨b, hb, hs⟩ := stepLoop_eq (n := 2 ^ 64 - d) h.split.2
  rw [List.length_reverse] at hb hs
  have hlong : toLong d = -((2 ^ 64 - d : Nat) : Int) := by
    rw [toLong, if_neg (by omega)]
    omega
  rw [hlong, getByRelativeIndex, if_neg (by omega), Int.neg_neg, Int.toNat_natCast, hs, hb]
  rfl

end Walk

section Move

variable {fromIndex toIndex : Nat}

theorem relocate_before (h : Chain (view items) q (pre ++ ys ++ post)) (hne : ys ≠ [])
    (hrest : pre ++ post = pre' ++ t :: post') :
    ∃ items₁ items₂, unlink items ys.head? ys.getLast? = .ok items₁ ∧
      placeBefore items₁ ys.head? ys.getLast? (some t) = .ok items₂ ∧
      Chain (view items₂) q (pre' ++ ys ++ t :: post') := by
  obtain ⟨items₁, hs₁, hv₁⟩ := unlink_spec h hne
  have ha := h.apart
  rw [hrest, ← hv₁] at ha
  obtain ⟨items₂, hs₂, hv₂⟩ := placeBefore_spec ha hne
  refine ⟨items₁, items₂, hs₁, hs₂, ?_⟩
  rw [hv₂, hv₁]
  exact h.moved hne hrest

theorem relocate_after (h : Chain (view items) q (pre ++ a :: post))
    (hrest : pre ++ post = pre' ++ t :: post') :
    ∃ items₁ items₂, unlink items (some a) (some a) = .ok items₁ ∧
      placeAfter items₁ (some a) (some t) = .ok items₂ ∧
      Chain (view items₂) q (pre' ++ t :: a :: post') := by
  have hx : pre ++ a :: post = pre ++ [a] ++ post := by simp
  rw [hx] at h
  obtain ⟨items₁, hs₁, hv₁⟩ := unlink_spec h (List.cons_ne_nil a [])
  have ha := h.apart
  rw [hrest, ← hv₁] at ha
  obtain ⟨items₂, hs₂, hv₂⟩ := placeAfter_spec ha
  refine ⟨items₁, items₂, hs₁, hs₂, ?_⟩
  have hrest' : pre ++ post = (pre' ++ [t]) ++ post' := by simp [hrest]
  have hm := h.moved (List.cons_ne_nil a []) hrest'
  rw [hv₂, hv₁]
  simpa using hm

/-- Forward an item comes behind the one that is so far ahead, or behind the last one. -/
theorem move_forward {mid : List Nat} (h : Chain (view items) q (pre ++ a :: (mid ++ post)))
    (hmid : mid ≠ []) (hc : c ∈ pre ++ a :: (mid ++ post)) (hfrom : fromIndex = pre.length)
    (hlt : fromIndex < toIndex) (hd : toIndex - fromIndex < 2 ^ 63) (hto : toIndex < 2 ^ 64)
    (hmin : min (toIndex - fromIndex) (mid ++ post).length = mid.length) :
    ∃ items', move items (some c) fromIndex toIndex =
        .ok (toLong (pre.length + mid.length), items') ∧
      Chain (view items') q (pre ++ mid ++ a :: post) := by
  obtain ⟨-, t, -, ht⟩ := exists_ends hmid
  obtain ⟨init, rfl⟩ := List.getLast?_eq_some_iff.mp ht
  have hget := get_at h.dll hc
  have hrel := getByRelativeIndex_ahead h.dll hd
  have hidx : (a :: (init ++ [t] ++ post))[(init ++ [t]).length]? = some t := by
    rw [List.length_append, List.length_singleton, List.getElem?_cons_succ, List.append_assoc,
      List.getElem?_append_right (Nat.le_refl _), Nat.sub_self]
    rfl
  rw [hmin, hidx] at hrel
  have hat : a ≠ t := by
    rintro rfl
    exact h.dll.not_mem (by simp)
  obtain ⟨items₁, items₂, hs₁, hs₂, hchain⟩ := @relocate_after α items a t pre
    (init ++ [t] ++ post) (pre ++ init) post q h (by simp)
  have hdiff : sizeSub toIndex fromIndex = toIndex - fromIndex :=
    sizeSub_eq hto (Nat.le_of_lt hlt)
  -- the distance that was left over is taken from the index
  have hindex : sizeSub toIndex (toSize (toIndex - fromIndex - (init ++ [t] ++ post).length : Nat)) =
      pre.length + (init ++ [t]).length := by
    rw [toSize_nat (by omega), sizeSub_eq hto (by omega)]
    omega
  refine ⟨items₂, ?_, ?_⟩
  · rw [move, if_neg (Nat.ne_of_lt hlt), if_pos hlt, hdiff]
    rw [← hfrom] at hget
    rw [hget, ok_bind]
    dsimp only
    rw [if_neg (fun hne => hne rfl), hrel, ok_bind]
    dsimp only
    rw [if_pos (fun he => hat (Option.some.inj he)), hs₁, ok_bind, hs₂, hindex]
    rfl
  · simpa using hchain

/-- Backward an item comes before the one it is moved to. -/
theorem move_backward {mid : List Nat} (h : Chain (view items) q (pre ++ t :: (mid ++ a :: post)))
    (hc : c ∈ pre ++ t :: (mid ++ a :: post)) (hto : toIndex = pre.length)
    (hfrom : fromIndex = pre.length + (mid.length + 1)) (hlt : fromIndex < 2 ^ 63) :
    ∃ items', move items (some c) fromIndex toIndex = .ok (toLong toIndex, items') ∧
      Chain (view items') q (pre ++ a :: t :: (mid ++ post)) := by
  have hget := get_at h.dll hc
  have hrel := getByRelativeIndex_ahead h.dll (show mid.length + 1 < 2 ^ 63 by omega)
  have hmin : min (mid.length + 1) (mid ++ a :: post).length = mid.length + 1 := by
    simp only [List.length_append, List.length_cons]
    omega
  have hzero : mid.length + 1 - (mid ++ a :: post).length = 0 := by
    simp only [List.length_append, List.length_cons]
    omega
  rw [hmin, hzero, List.getElem?_cons_succ, List.getElem?_append_right (Nat.le_refl _),
    Nat.sub_self, List.getElem?_cons_zero] at hrel
  have hat : a ≠ t := by
    rintro rfl
    exact h.dll.not_mem (by simp)
  have hx : pre ++ t :: (mid ++ a :: post) = (pre ++ t :: mid) ++ [a] ++ post := by simp
  obtain ⟨items₁, items₂, hs₁, hs₂, hchain⟩ := @relocate_before α items t [a] (pre ++ t :: mid)
    post pre (mid ++ post) q (hx ▸ h) (List.cons_ne_nil a []) (by simp)
  have hdiff : sizeSub fromIndex toIndex = mid.length + 1 := by
    rw [hfrom, hto, sizeSub_eq (by omega) (by omega)]
    omega
  refine ⟨items₂, ?_, by simpa using hchain⟩
  rw [move, if_neg (by omega), if_neg (by omega), hdiff]
  rw [← hto] at hget
  rw [hget, ok_bind]
  dsimp only
  rw [if_neg (fun hne => hne rfl), hrel, ok_bind]
  dsimp only
  rw [if_neg (fun hne => hne rfl), if_pos (fun he => hat (Option.some.inj he))]
  rw [List.head?_cons, List.getLast?_singleton] at hs₁ hs₂
  rw [hs₁, ok_bind, hs₂]
  rfl

/-- From an item in range no item out of range is reached. -/
theorem from_out_of_range (h : Chain (view items) q xs) (hc : c ∈ xs) (hfrom : fromIndex < 2 ^ 64)
    (hto : toIndex < xs.length) (hout : xs.length ≤ fromIndex) :
    ∃ t b n, get items (some c) toIndex = .ok (some t, 0) ∧
      getByRelativeIndex items (some t) (toLong (sizeSub fromIndex toIndex)) = .ok (b, n) ∧
      n ≠ 0 := by
  obtain ⟨pre, t, post, rfl, rfl, -⟩ := exists_item hto
  have hlen : (pre ++ t :: post).length = pre.length + (post.length + 1) := by simp
  rw [sizeSub_eq hfrom (by omega)]
  by_cases hd : fromIndex - pre.length < 2 ^ 63
  · exact ⟨t, _, _, get_at h.dll hc, getByRelativeIndex_ahead h.dll hd, by omega⟩
  · exact ⟨t, _, _, get_at h.dll hc,
      getByRelativeIndex_back h.dll (Nat.le_of_not_lt hd) (by omega), by omega⟩

/-- An index that is out of range is refused. -/
theorem move_refused (h : Chain (view items) q xs) (hc : c ∈ xs) (hfrom : fromIndex < 2 ^ 64)
    (hne : fromIndex ≠ toIndex)
    (hout : xs.length ≤ fromIndex ∨ toIndex < fromIndex ∧ xs.length ≤ toIndex) :
    move items (some c) fromIndex toIndex = .ok (AlibError.badIndex.code, items) := by
  by_cases hlt : fromIndex < toIndex
  · obtain ⟨b, n, hget, hn⟩ := @get_past α items c xs fromIndex h.dll hc (by omega)
    rw [move, if_neg hne, if_pos hlt, hget, ok_bind]
    exact if_pos hn
  · by_cases hto : xs.length ≤ toIndex
    · obtain ⟨b, n, hget, hn⟩ := get_past h.dll hc hto
      rw [move, if_neg hne, if_neg hlt, hget, ok_bind]
      exact if_pos hn
    · obtain ⟨t, b, n, hget, hr, hn⟩ :=
        from_out_of_range h hc hfrom (Nat.lt_of_not_le hto) (by omega)
      rw [move, if_neg hne, if_neg hlt, hget, ok_bind]
      dsimp only
      rw [if_neg (fun hc => hc rfl), hr, ok_bind]
      exact if_pos hn

/-- The last item is not moved forward. -/
theorem move_last (h : Chain (view items) q (pre ++ [a])) (hc : c ∈ pre ++ [a])
    (hlt : pre.length < toIndex) (hd : toIndex - pre.length < 2 ^ 63) (hto : toIndex < 2 ^ 64) :
    move items (some c) pre.length toIndex = .ok (toLong pre.length, items) := by
  have hget := get_at h.dll hc
  have hrel := getByRelativeIndex_ahead h.dll hd
  rw [List.length_nil, Nat.min_zero, List.getElem?_cons_zero] at hrel
  rw [move, if_neg (Nat.ne_of_lt hlt), if_pos hlt, hget, ok_bind]
  dsimp only
  rw [if_neg (fun hne => hne rfl), sizeSub_eq hto (Nat.le_of_lt hlt), hrel, ok_bind]
  exact if_neg (fun hne => hne rfl)

/-- An item of the chain is taken out and put in where it is moved to, or at the end. -/
theorem move_in_range (h : Chain (view items) q xs) (hc : c ∈ xs) (hfrom : fromIndex ≤ LONG_MAX)
    (hto : toIndex ≤ LONG_MAX) (ha : xs[fromIndex]? = some a) :
    ∃ items', move items (some c) fromIndex toIndex =
        .ok ((min toIndex (xs.length - 1) : Nat), items') ∧
      Chain (view items') q ((xs.eraseIdx fromIndex).insertIdx (min toIndex (xs.length - 1)) a) := by
  unfold LONG_MAX at hfrom hto
  obtain ⟨hin, -⟩ := List.getElem?_eq_some_iff.mp ha
  rcases move_cases (j := toIndex) hin with (heq | ⟨pre, b, rfl, rfl, hlt⟩) |
    ⟨pre, b, mid, post, rfl, rfl, hlt, hmid, hmin⟩ | ⟨pre, t, mid, b, post, rfl, rfl, rfl⟩
  · have hindex : min toIndex (xs.length - 1) = fromIndex := by omega
    have hmove : move items (some c) fromIndex toIndex = .ok (fromIndex, items) := by
      obtain ⟨x, xs, rfl⟩ := List.exists_cons_of_ne_nil (List.ne_nil_of_mem hc)
      rw [move, if_pos heq, toLong_eq (by omega)]
    rw [hindex, moved_same ha rfl]
    exact ⟨items, hmove, h⟩
  · have hindex : min toIndex ((pre ++ [b]).length - 1) = pre.length := by
      rw [List.length_append, List.length_singleton]
      omega
    have hmove := move_last h hc hlt (by omega) (by omega)
    rw [toLong_eq (by omega)] at hmove
    rw [hindex, moved_same ha rfl]
    exact ⟨items, hmove, h⟩
  · have hindex : min toIndex ((pre ++ b :: (mid ++ post)).length - 1) =
        pre.length + mid.length := by
      rw [List.length_append, List.length_cons]
      omega
    rw [List.getElem?_append_right (Nat.le_refl _), Nat.sub_self, List.getElem?_cons_zero] at ha
    cases ha
    obtain ⟨items', hmove, hchain⟩ :=
      move_forward h hmid hc rfl hlt (by omega) (by omega) hmin
    rw [toLong_eq (by omega)] at hmove
    rw [hindex, moved_ahead]
    exact ⟨items', hmove, hchain⟩
  · have hindex : min pre.length ((pre ++ t :: (mid ++ b :: post)).length - 1) = pre.length := by
      rw [List.length_append, List.length_cons]
      omega
    have hx : pre ++ t :: (mid ++ b :: post) = (pre ++ t :: mid) ++ b :: post := by simp
    have hlen : (pre ++ t :: mid).length = pre.length + (mid.length + 1) := by simp
    rw [hx, ← hlen, List.getElem?_append_right (Nat.le_refl _), Nat.sub_self,
      List.getElem?_cons_zero] at ha
    cases ha
    obtain ⟨items', hmove, hchain⟩ := move_backward h hc rfl rfl (by omega)
    rw [toLong_eq (by omega)] at hmove
    rw [hindex, moved_back]
    exact ⟨items', hmove, hchain⟩

/-- An item in range comes to its new index and the others keep their order; an index that is out
of range is refused. -/
theorem move_reorders (h : Chain (view items) q xs) (hc : c ∈ xs) (hfrom : fromIndex ≤ LONG_MAX)
    (hto : toIndex ≤ LONG_MAX) :
    (∀ a, xs[fromIndex]? = some a → ∃ items', move items (some c) fromIndex toIndex =
        .ok ((min toIndex (xs.length - 1) : Nat), items') ∧
      Chain (view items') q ((xs.eraseIdx fromIndex).insertIdx (min toIndex (xs.length - 1)) a)) ∧
    (xs.length ≤ fromIndex → fromIndex ≠ toIndex →
      move items (some c) fromIndex toIndex = .ok (AlibError.badIndex.code, items)) := by
  refine ⟨fun a ha => move_in_range h hc hfrom hto ha, fun hge hne => ?_⟩
  unfold LONG_MAX at hfrom
  exact move_refused h hc (by omega) hne (.inl hge)

/-- Three items in a row. -/
def three : Items Nat :=
  ⟨[some ⟨none, none, false, some 1, none⟩, some ⟨none, none, false, some 2, some 0⟩,
    some ⟨none, none, false, none, some 1⟩]⟩

theorem three_chain : Chain (view three) none [0, 1, 2] := by
  refine ⟨⟨⟨rfl, rfl, rfl, trivial⟩, ⟨rfl, rfl, rfl, trivial⟩⟩, fun a ha => ?_⟩
  simp only [List.mem_cons, List.not_mem_nil, or_false] at ha
  rcases ha with rfl | rfl | rfl <;> rfl

/-- The first of them is moved far ahead, and no fourth one is found. -/
theorem move_reorders_three :
    (∃ items', move three (some 1) 0 5 = .ok (2, items') ∧ Chain (view items') none [1, 2, 0]) ∧
    move three (some 1) 3 0 = .ok (AlibError.badIndex.code, three) :=
  ⟨(move_reorders three_chain (by simp) (by decide) (show 5 ≤ LONG_MAX by decide)).1 0 rfl,
    (move_reorders three_chain (by simp) (show 3 ≤ LONG_MAX by decide) (by decide)).2 (by decide)
      (by decide)⟩

end Move

end AlibC.DListItem
