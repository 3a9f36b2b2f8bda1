import AlibC.DListItemRanges

/-! Pulling out more items than a `long` can count: the walk to the last of them goes backward. -/
namespace AlibC.DListItem

open CLang Function Linked

variable {α : Type} {items : Items α} {a b e s count : Nat} {xs ys pre post u w : List Nat}
  {q : Option Nat}

/-- From an item always some item is found. -/
theorem getByRelativeIndex_found {i n : Int} {p : Option Nat}
    (hr : getByRelativeIndex items (some a) i = .ok (p, n)) : ∃ b, p = some b := by
  rw [getByRelativeIndex] at hr
  split at hr
  · obtain ⟨⟨b, left⟩, -, hb⟩ := bind_eq_ok.mp hr
    cases hb
    exact ⟨b, rfl⟩
  · obtain ⟨⟨b, left⟩, -, hb⟩ := bind_eq_ok.mp hr
    cases hb
    exact ⟨b, rfl⟩

/-- What is pulled out begins with the item that was asked for. -/
theorem pullOutCount_head {r p : Option Nat} {items' : Items α} (hcount : count ≠ 0)
    (hr : pullOutCount count items (some a) = .ok (r, p, items')) : r = some a := by
  rw [pullOutCount, if_neg hcount] at hr
  obtain ⟨⟨pulledEnd, left⟩, -, hr⟩ := bind_eq_ok.mp hr
  obtain ⟨before, -, hr⟩ := bind_eq_ok.mp hr
  obtain ⟨behind, -, hr⟩ := bind_eq_ok.mp hr
  obtain ⟨items₁, -, hr⟩ := bind_eq_ok.mp hr
  obtain ⟨items₂, -, hr⟩ := bind_eq_ok.mp hr
  obtain ⟨items₃, -, hr⟩ := bind_eq_ok.mp hr
  obtain ⟨items₄, -, hr⟩ := bind_eq_ok.mp hr
  cases hr
  rfl

/-- The last item `a`, which lies behind `l`, is pulled out when the walk has ended at `e`, which lies
in front of `s`: `l` and `s` are linked, and `a` and `e` are cut off. -/
theorem pullOutCount_walked {l : Nat} {n : Int} (hcount : count ≠ 0)
    (hrel : getByRelativeIndex items (some a) (toLong (sizeSub count 1)) = .ok (some e, n))
    (hna : (view items).nx a = some none) (hpa : (view items).pv a = some (some l))
    (hpar : (view items).par a = some q) (hne : (view items).nx e = some (some s))
    (hl : ∃ r, (view items).nx l = some r) (hs : ∃ r, (view items).nx s = some r)
    (hal : a ≠ l) (hae : a ≠ e) :
    ∃ items', pullOutCount count items (some a) = .ok (some a, some l, items') ∧
      view items' = ⟨update (update (view items).nx l (some (some s))) e (some none),
        update (update (view items).pv s (some (some l))) a (some none),
        adopt (view items).par [a] none⟩ ∧ Chain (view items') none [a] := by
  obtain ⟨rl, hrl⟩ := hl
  obtain ⟨rs, hrs⟩ := hs
  obtain ⟨items₁, hs₁, hv₁⟩ := setNext_spec hrl (some s)
  have hlinked : ∀ c r, (view items).nx c = some r → ∃ r', (view items₁).nx c = some r' := by
    intro c r hc
    rw [hv₁]
    by_cases hcl : c = l
    · exact ⟨some s, by rw [hcl]; exact update_self _ _ _⟩
    · exact ⟨r, (update_of_ne hcl _ _).trans hc⟩
  have hn₁ : (view items₁).nx e = some (some s) := by
    rw [hv₁]
    by_cases hel : e = l
    · rw [hel]
      exact update_self _ _ _
    · exact (update_of_ne hel _ _).trans hne
  have hp₁ : (view items₁).pv a = some (some l) := by rw [hv₁]; exact hpa
  have hna₁ : (view items₁).nx a = some none := by
    rw [hv₁]
    exact (update_of_ne hal _ _).trans hna
  obtain ⟨r₁, hr₁⟩ := hlinked s rs hrs
  obtain ⟨items₂, hs₂, hv₂⟩ := setPrev_spec hr₁ (some l)
  obtain ⟨items₃, hs₃, hv₃⟩ := @setPrev_spec α items₂ a none (by rw [hv₂]; exact hna₁) none
  obtain ⟨items₄, hs₄, hv₄⟩ := @setNext_spec α items₃ e (some s)
    (by rw [hv₃, hv₂]; exact hn₁) none
  have ha : Chain (view items₄) q [a] := by
    refine ⟨⟨⟨?_, trivial⟩, ⟨?_, trivial⟩⟩, fun b hb => ?_⟩
    · rw [hv₄, hv₃, hv₂]
      exact (update_of_ne hae _ _).trans hna₁
    · rw [hv₄, hv₃]
      exact update_self _ _ _
    · cases List.mem_singleton.mp hb
      rw [hv₄, hv₃, hv₂, hv₁]
      exact hpar
  obtain ⟨items₅, hs₅, hv₅⟩ := adopt_spec ha (List.cons_ne_nil a []) none
  refine ⟨items₅, ?_, ?_, ?_⟩
  · rw [List.head?_cons] at hs₅
    rw [pullOutCount, if_neg hcount, hrel, ok_bind]
    dsimp only
    rw [member_eq hpa, ok_bind, member_eq hne, ok_bind, unlink, member_eq hpa, ok_bind,
      member_eq hne, ok_bind, setNextIf, if_neg (Option.some_ne_none l), hs₁, ok_bind,
      member_eq hn₁, ok_bind, member_eq hp₁, ok_bind, setPrevIf,
      if_neg (Option.some_ne_none s), hs₂, ok_bind, hs₃, ok_bind, hs₄, ok_bind, hs₅]
    rfl
  · rw [hv₅, hv₄, hv₃, hv₂, hv₁]
  · rw [hv₅]
    exact ⟨ha.dll, fun b hb => if_pos hb⟩

/-- The last item is pulled out rightly when the walk ends at the item before it. -/
theorem pullOutCount_next (h : Chain (view items) q (u ++ [e] ++ [a])) (hcount : count ≠ 0) {n : Int}
    (hrel : getByRelativeIndex items (some a) (toLong (sizeSub count 1)) = .ok (some e, n)) :
    ∃ items', pullOutCount count items (some a) = .ok (some a, some e, items') ∧
      view items' = (view items).cut (u ++ [e]) [a] [] := by
  have hla := h.dll.link_eq
  rw [List.getLast?_concat, List.head?_nil] at hla
  have hx : u ++ [e] ++ [a] = u ++ e :: [a] := by simp
  have hle := (hx ▸ h.dll).link_eq
  rw [List.head?_cons] at hle
  have hae : a ≠ e := by
    rintro rfl
    exact h.dll.not_mem (by simp)
  obtain ⟨items', hr, hv, -⟩ := pullOutCount_walked hcount hrel hla.1 hla.2 (h.par_eq a (by simp))
    hle.1 ⟨_, hle.1⟩ ⟨_, hla.1⟩ hae hae
  -- two of the links are set to what they are
  have hnx : update (view items).nx e (some (some a)) = (view items).nx := by
    rw [← hle.1, update_eq_self]
  have hpv : update (view items).pv a (some (some e)) = (view items).pv := by
    rw [← hla.2, update_eq_self]
  have hcut : redirect (redirect (view items).nx (some e) none) (some a) none =
      redirect (view items).nx (some e) none := by
    refine redirect_self fun c hc => ?_
    cases hc
    exact (update_of_ne hae _ _).trans hla.1
  refine ⟨items', hr, ?_⟩
  rw [hv, hnx, hpv, View.cut, List.getLast?_concat, List.getLast?_singleton, List.head?_nil, hcut]
  rfl

/-- When it ends further ahead, the items from there on are cut off. -/
theorem pullOutCount_behind (h : Chain (view items) q (u ++ e :: s :: w ++ [a]))
    (hcount : count ≠ 0) {n : Int}
    (hrel : getByRelativeIndex items (some a) (toLong (sizeSub count 1)) = .ok (some e, n)) :
    ∃ p items', pullOutCount count items (some a) = .ok (some a, p, items') ∧
      (view items').nx e = some none ∧ Chain (view items') none [a] := by
  have hla := h.dll.link_eq
  have hx : u ++ e :: s :: w ++ [a] = u ++ e :: (s :: w ++ [a]) := by simp
  have hle := (hx ▸ h.dll).link_eq.1
  rw [List.cons_append, List.head?_cons] at hle
  obtain ⟨-, l, -, hl⟩ := exists_ends (List.cons_ne_nil s w)
  have hlast : (u ++ e :: s :: w).getLast? = some l := by
    rw [List.getLast?_append_of_ne_nil _ (List.cons_ne_nil e _), List.getLast?_cons_cons, hl]
  rw [hlast, List.head?_nil] at hla
  have hlm := List.mem_of_getLast? hl
  have hbefore : ∀ c ∈ u ++ e :: s :: w, a ≠ c := fun c hc hac =>
    (List.nodup_append.mp h.dll.nodup).2.2 c hc a (List.mem_singleton_self a) hac.symm
  have hmem : l ∈ u ++ e :: s :: w := List.mem_append_right u (List.mem_cons_of_mem e hlm)
  obtain ⟨items', hr, hv, hchain⟩ := pullOutCount_walked hcount hrel hla.1 hla.2
    (h.par_eq a (by simp)) hle (h.dll.fwd.exists_link (List.mem_append_left _ hmem))
    (h.dll.fwd.exists_link (by simp)) (hbefore l hmem) (hbefore e (by simp))
  refine ⟨some l, items', hr, ?_, hchain⟩
  rw [hv]
  exact update_self _ _ _

end AlibC.DListItem
