import AlibC.DListItemWrap
import AlibC.DListMove

/-! Pulling a range of items out of a `DList`, and removing it. -/
namespace AlibC.DList

open CLang Function Linked Reorder DListItem

variable {α : Type} {list : DList α} {xs ys pre post rest : List Nat} {a index count : Nat}

/-- The items from `index` on, `count` of them if there are so many. -/
def range (xs : List Nat) (index count : Nat) : List Nat := (xs.drop index).take count

/-- The others. -/
def rangeLeft (xs : List Nat) (index count : Nat) : List Nat :=
  xs.take index ++ xs.drop (index + count)

theorem range_split (hys : min count (ys ++ rest).length = ys.length) :
    range (pre ++ ys ++ rest) pre.length count = ys ∧
      rangeLeft (pre ++ ys ++ rest) pre.length count = pre ++ rest := by
  rw [List.length_append] at hys
  have htake : (ys ++ rest).take count = ys := by
    by_cases hle : count ≤ ys.length
    · exact List.take_left' (by omega)
    · have hrest : rest = [] := List.eq_nil_of_length_eq_zero (by omega)
      rw [hrest, List.append_nil, List.take_of_length_le (by omega)]
  have hdrop : (ys ++ rest).drop count = rest := by
    by_cases hle : count ≤ ys.length
    · exact List.drop_left' (by omega)
    · have hrest : rest = [] := List.eq_nil_of_length_eq_zero (by omega)
      rw [hrest, List.append_nil, List.drop_eq_nil_of_le (by omega)]
  rw [range, rangeLeft, List.append_assoc, List.drop_left, List.take_left, ← List.drop_drop,
    List.drop_left]
  exact ⟨htake, by rw [hdrop]⟩

theorem exists_range (hin : index < xs.length) (hcount : 1 ≤ count) :
    ∃ pre ys rest, xs = pre ++ ys ++ rest ∧ index = pre.length ∧ ys ≠ [] ∧
      min count (ys ++ rest).length = ys.length ∧ range xs index count = ys ∧
      rangeLeft xs index count = pre ++ rest ∧ xs[index]? = ys.head? := by
  obtain ⟨pre, ys, rest, rfl, rfl, hne, hys⟩ := exists_block hin hcount
  obtain ⟨hrange, hleft⟩ := @range_split ys pre rest count hys
  refine ⟨pre, ys, rest, rfl, rfl, hne, hys, hrange, hleft, ?_⟩
  rw [List.append_assoc, List.getElem?_append_right (Nat.le_refl _), Nat.sub_self,
    ← List.head?_eq_getElem?, List.head?_append_of_ne_nil _ hne]

section Take

variable {items' : Items α}

/-- On each route the block is taken out and the ends are right, if the end is cut exactly when the
block reaches to it. -/
theorem takeCount_eq (h : list.Holds (pre ++ ys ++ rest))
    (hlt : (pre ++ ys ++ rest).length < 2 ^ 63) (hne : ys ≠ [])
    (hop : DListItem.pullOutCount count list.items ys.head? =
      .ok (ys.head?, pre.getLast?.or rest.head?, items'))
    (hroute : pre = [] ∨ ys.length + rest.length = 1 ∨
      (sizeAdd pre.length count = list.count ↔ rest = [])) :
    list.takeCount pre.length count = .ok (ys.head?, list.left items' (pre ++ rest)) := by
  have hcount := h.count_eq
  have hlen : (pre ++ ys ++ rest).length = pre.length + (ys.length + rest.length) := by simp
  have hpos := List.length_pos_of_ne_nil hne
  by_cases hpre : pre = []
  · subst hpre
    rw [takeCount, if_pos (by rfl)]
    exact takeBegin_eq h hne hop
  · have hprepos := List.length_pos_of_ne_nil hpre
    have hall : pre ++ ys ++ rest ≠ [] := List.ne_nil_of_length_pos (by omega)
    rw [takeCount, if_neg (by omega), h.last_index hlt hall, hlen]
    by_cases hone : ys.length + rest.length = 1
    · have hrest : rest = [] := List.eq_nil_of_length_eq_zero (by omega)
      obtain ⟨a, rfl⟩ := List.length_eq_one_iff.mp (show ys.length = 1 by omega)
      subst hrest
      rw [List.append_nil] at h ⊢
      rw [if_pos (by omega)]
      refine takeEnd_eq h hpre (hop.trans ?_)
      rw [List.head?_nil, Option.or_none, List.head?_cons]
    · rw [if_neg (by omega)]
      have hiff := (hroute.resolve_left hpre).resolve_left hone
      have hseek := @Holds.seek_of_lt α list _ pre.length h hlt (by omega)
      rw [List.append_assoc, List.getElem?_append_right (Nat.le_refl _), Nat.sub_self,
        ← List.head?_eq_getElem?, List.head?_append_of_ne_nil _ hne] at hseek
      rw [hseek, ok_bind, cutEnd]
      by_cases hrest : rest = []
      · -- the item before the block becomes the end
        subst hrest
        obtain ⟨y, -, hy, -⟩ := exists_ends hne
        have hprev := h.chain.dll.outer_links.1 y hy
        have hb : list.beginItem = pre.head? := by
          rw [h.begin_eq, List.append_nil, List.head?_append_of_ne_nil _ hpre]
        rw [if_pos (hiff.mpr rfl), hy, member_eq hprev, ok_bind, pure_ok, ok_bind, takeItem,
          ← hy]
        dsimp only
        rw [hop, ok_bind, left, List.append_nil, ← hb]
        rfl
      · rw [if_neg (fun hc => hrest (hiff.mp hc)), ok_bind]
        exact takeItem_eq h hpre hrest hop

/-- What is left of the list is well-formed, and what was pulled out is a chain of its own. -/
theorem pullOutCount_of_take (h : list.Holds (pre ++ ys ++ rest))
    (hlt : (pre ++ ys ++ rest).length < 2 ^ 63) (hne : ys ≠ [])
    (htake : list.takeCount index count = .ok (ys.head?, list.left items' (pre ++ rest)))
    (hv : view items' = (view list.items).cut pre ys rest) :
    ∃ list', list.pullOutCount index count = .ok (ys.head?, list') ∧ list'.Holds (pre ++ rest) ∧
      list'.self = list.self ∧ Chain (view list'.items) none ys := by
  have hlen : (pre ++ ys ++ rest).length = pre.length + (ys.length + rest.length) := by simp
  have hcut := h.chain.cut
  rw [← hv] at hcut
  obtain ⟨y, -, hy, -⟩ := exists_ends hne
  obtain ⟨tail, rfl⟩ := List.head?_eq_some_iff.mp hy
  have hcount : DListItem.count items' (some y) = .ok (y :: tail).length :=
    @count_eq α items' y [] tail hcut.2.dll (by rw [List.nil_append]; omega)
  refine ⟨{ list.left items' (pre ++ rest) with
    count := sizeSub list.count (y :: tail).length }, ?_, ⟨hcut.1, rfl, rfl, ?_⟩, rfl, hcut.2⟩
  · rw [pullOutCount, htake, ok_bind]
    dsimp only
    rw [left, List.head?_cons, hcount]
    rfl
  · show sizeSub list.count (y :: tail).length = _
    rw [h.count_eq, sizeSub_eq (by omega) (by omega), hlen, List.length_append]
    omega

/-- A range that a `long` can count is pulled out, if it does not go past the end of the list. -/
theorem pullOutCount_block (h : list.Holds (pre ++ ys ++ rest))
    (hlt : (pre ++ ys ++ rest).length < 2 ^ 63) (hne : ys ≠ []) (hcount : 1 ≤ count)
    (hle : count ≤ 2 ^ 63) (hys : min count (ys ++ rest).length = ys.length)
    (hroute : pre = [] ∨ ys.length + rest.length = 1 ∨
      pre.length + count ≤ (pre ++ ys ++ rest).length) :
    ∃ list', list.pullOutCount pre.length count = .ok (ys.head?, list') ∧
      list'.Holds (pre ++ rest) ∧ list'.self = list.self ∧ Chain (view list'.items) none ys := by
  have hlen : (pre ++ ys ++ rest).length = pre.length + (ys.length + rest.length) := by simp
  obtain ⟨items', hop, hv⟩ := pullOutCount_spec h.chain (by omega)
    (getByRelativeIndex_block h.chain.dll hcount hle hys hne) hne
  rw [List.length_append] at hys
  refine pullOutCount_of_take h hlt hne (takeCount_eq h hlt hne hop ?_) hv
  refine hroute.imp_right (Or.imp_right fun hfit => ?_)
  rw [h.count_eq, sizeAdd_eq (by omega), hlen, ← List.length_eq_zero_iff]
  omega

/-- A count beyond the largest `long` pulls out only the first item. -/
theorem pullOutCount_first (h : list.Holds (a :: post)) (hlt : (a :: post).length < 2 ^ 63)
    (hbig : 2 ^ 63 < count) (hmax : count < 2 ^ 64) :
    ∃ list', list.pullOutCount 0 count = .ok (some a, list') ∧ list'.Holds post ∧
      list'.self = list.self ∧ Chain (view list'.items) none [a] := by
  have hrel := @getByRelativeIndex_back α list.items a [] post h.chain.dll (count - 1) (by omega)
    (by omega)
  rw [List.length_nil, Nat.min_zero, List.getElem?_cons_zero, ← sizeSub_eq hmax (by omega)] at hrel
  obtain ⟨items', hop, hv⟩ := @pullOutCount_spec α list.items count [a] [] post
    (some list.self) h.chain (by omega) _ hrel (List.cons_ne_nil a [])
  exact @pullOutCount_of_take α list [a] [] post 0 count items' h hlt (List.cons_ne_nil a [])
    (@takeCount_eq α list [a] [] post count items' h hlt (List.cons_ne_nil a []) hop (.inl rfl)) hv

/-- Of two items it pulls out the second rightly. -/
theorem pullOutCount_second {e : Nat} (h : list.Holds [e, a]) (hbig : 2 ^ 63 < count)
    (hmax : count < 2 ^ 64) :
    ∃ list', list.pullOutCount 1 count = .ok (some a, list') ∧ list'.Holds [e] ∧
      list'.self = list.self ∧ Chain (view list'.items) none [a] := by
  have hrel := @getByRelativeIndex_back α list.items a [e] [] h.chain.dll (count - 1) (by omega)
    (by omega)
  have hmin : min (2 ^ 64 - (count - 1)) [e].length = 1 := by
    rw [List.length_singleton]
    omega
  rw [hmin, ← sizeSub_eq hmax (by omega)] at hrel
  obtain ⟨items', hop, hv⟩ := @pullOutCount_next α list.items a e count [] (some list.self)
    h.chain (by omega) _ hrel
  have hlt : [e, a].length < 2 ^ 63 := show 2 < 2 ^ 63 by decide
  exact @pullOutCount_of_take α list [a] [e] [] 1 count items' h hlt (List.cons_ne_nil a [])
    (@takeCount_eq α list [a] [e] [] count items' h hlt (List.cons_ne_nil a []) hop
      (.inr (.inl rfl))) hv

end Take

section Range

/-- The range leaves the list and is returned as a chain of its own; out of range nothing is. -/
def PullsRange (list : DList α) (xs : List Nat) (index count : Nat) : Prop :=
  (index < xs.length → ∃ list', list.pullOutCount index count = .ok (xs[index]?, list') ∧
    list'.Holds (rangeLeft xs index count) ∧ list'.self = list.self ∧
    Chain (view list'.items) none (range xs index count)) ∧
  (xs.length ≤ index → list.pullOutCount index count = .ok (none, list))

/-- The range leaves the list and its items are deleted; out of range an error is returned. -/
def RemovesRange (list : DList α) (xs : List Nat) (index count : Nat) : Prop :=
  (index < xs.length → ∃ list', list.removeCount index count = .ok (.ok, list') ∧
    list'.Holds (rangeLeft xs index count) ∧ list'.self = list.self ∧
    ∀ a ∈ range xs index count, list'.items.cell a = none) ∧
  (xs.length ≤ index → ∃ code, code ≠ .ok ∧ list.removeCount index count = .ok (code, list))

/-- The ranges that are pulled out rightly of a list of `n` items: those that do not go past the end
unless they begin with the first or the last item, and unless a `long` cannot count them. -/
def RangeFits (n index count : Nat) : Prop :=
  index + count ≤ n ∨ index + 1 = n ∧ (n ≤ 2 ∨ count ≤ 2 ^ 63) ∨ index = 0 ∧ count ≤ 2 ^ 63

theorem range_all (hle : xs.length ≤ index + count) :
    range xs index count = xs.drop index ∧ rangeLeft xs index count = xs.take index := by
  rw [range, rangeLeft, List.drop_eq_nil_of_le hle, List.append_nil]
  exact ⟨List.take_of_length_le (by rw [List.length_drop]; omega), rfl⟩

theorem pulls_of_fits (h : list.Holds xs) (hlt : xs.length < 2 ^ 63) (hin : index < xs.length)
    (hcount : 1 ≤ count) (hmax : count < 2 ^ 64) (hfit : RangeFits xs.length index count) :
    ∃ list', list.pullOutCount index count = .ok (xs[index]?, list') ∧
      list'.Holds (rangeLeft xs index count) ∧ list'.self = list.self ∧
      Chain (view list'.items) none (range xs index count) := by
  rw [RangeFits] at hfit
  by_cases hle : count ≤ 2 ^ 63
  · obtain ⟨pre, ys, rest, rfl, rfl, hne, hys, hrange, hleft, hget⟩ := exists_range hin hcount
    have hlen : (pre ++ ys ++ rest).length = pre.length + (ys.length + rest.length) := by simp
    rw [hrange, hleft, hget]
    refine pullOutCount_block h hlt hne hcount hle hys ?_
    rw [← List.length_eq_zero_iff]
    omega
  · have hone : index + 1 = xs.length ∧ xs.length ≤ 2 := by omega
    obtain ⟨hrange, hleft⟩ := @range_all xs index count (by omega)
    rw [hrange, hleft]
    by_cases hzero : index = 0
    · subst hzero
      obtain ⟨a, rfl⟩ := List.length_eq_one_iff.mp hone.1.symm
      exact pullOutCount_first h hlt (by omega) hmax
    · obtain ⟨e, a, rfl⟩ := List.length_eq_two.mp (show xs.length = 2 by omega)
      obtain rfl : index = 1 := by
        rw [List.length_cons, List.length_singleton] at hone
        omega
      exact pullOutCount_second h (by omega) hmax

/-- In the middle of the list the end stays what it is. -/
theorem takeCount_end {r : Option Nat} {list₁ : DList α}
    (hr : list.takeCount index count = .ok (r, list₁)) (hzero : index ≠ 0)
    (hlast : index ≠ sizeSub list.count 1) (hcut : sizeAdd index count ≠ list.count) :
    list₁.endItem = list.endItem := by
  rw [takeCount, if_neg hzero, if_neg hlast] at hr
  obtain ⟨item, -, hr⟩ := bind_eq_ok.mp hr
  rw [cutEnd, if_neg hcut, ok_bind, takeItem] at hr
  obtain ⟨⟨pulled, p, items'⟩, -, hr⟩ := bind_eq_ok.mp hr
  cases hr
  rfl

/-- An end that was pulled out is not the end of what is left. -/
theorem not_holds_of_end (h : list.Holds xs) {list' : DList α}
    (hin : index < xs.length) (hend : list'.endItem = list.endItem) :
    ¬list'.Holds (xs.take index) := by
  intro h'
  have hlast := h'.end_eq
  rw [hend, h.end_eq] at hlast
  have hdrop : xs.drop index ≠ [] := by
    rw [ne_eq, List.drop_eq_nil_iff]
    omega
  obtain ⟨-, e, -, he⟩ := exists_ends hdrop
  have hall : xs.getLast? = some e := by
    conv => lhs; rw [← List.take_append_drop index xs]
    rw [List.getLast?_append_of_ne_nil _ hdrop, he]
  rw [hall] at hlast
  have hnd := h.chain.dll.nodup
  rw [← List.take_append_drop index xs, List.nodup_append] at hnd
  exact hnd.2.2 e (List.mem_of_getLast? hlast.symm) e (List.mem_of_getLast? he) rfl

/-- Of three items or more it pulls out the last one and cuts the list where the walk ended. -/
theorem pullOutCount_last (h : list.Holds (pre ++ [a])) (hlt : (pre ++ [a]).length < 2 ^ 63)
    (hlen : 2 ≤ pre.length) (hbig : 2 ^ 63 < count) (hmax : count < 2 ^ 64) :
    ∃ e list', list.pullOutCount pre.length count = .ok (some a, list') ∧
      Chain (view list'.items) none [a] ∧ e ∈ pre ∧ (view list'.items).nx e = some none ∧
      pre.getLast? ≠ some e := by
  have hcount := h.count_eq
  have hall : (pre ++ [a]).length = pre.length + 1 := by simp
  have hrel := @getByRelativeIndex_back α list.items a pre [] h.chain.dll (count - 1) (by omega)
    (by omega)
  -- the walk goes back two items at least
  obtain ⟨m, hm⟩ : ∃ m, min (2 ^ 64 - (count - 1)) pre.length = m + 2 :=
    ⟨min (2 ^ 64 - (count - 1)) pre.length - 2, by omega⟩
  rw [hm, List.getElem?_cons_succ] at hrel
  have hmlt : m + 1 < pre.reverse.length := by
    rw [List.length_reverse]
    omega
  obtain ⟨w, e, u, hw, hwlen, -⟩ := exists_item hmlt
  have hpre : pre = u.reverse ++ e :: w.reverse := by
    rw [← List.reverse_reverse pre, hw]
    simp
  obtain ⟨s, w', hw'⟩ := List.exists_cons_of_ne_nil
    (show w.reverse ≠ [] from fun hc => by
      rw [List.reverse_eq_nil_iff] at hc
      rw [hc, List.length_nil] at hwlen
      omega)
  rw [hw'] at hpre
  rw [hw, ← hwlen, List.getElem?_append_right (Nat.le_refl _), Nat.sub_self,
    List.getElem?_cons_zero, ← sizeSub_eq hmax (by omega)] at hrel
  obtain ⟨p, items', hop, hnx, hchain⟩ := @pullOutCount_behind α list.items a e s count u.reverse w'
    (some list.self) (hpre ▸ h.chain) (by omega) _ hrel
  have hend : list.endItem = some a := by rw [h.end_eq, List.getLast?_concat]
  have hone : DListItem.count items' (some a) = .ok 1 :=
    @count_eq α items' a [] [] hchain.dll (show 1 < 2 ^ 64 by decide)
  have htake : list.takeCount pre.length count =
      .ok (some a, { list with items := items', endItem := p }) := by
    rw [takeCount, if_neg (by omega), h.last_index hlt (by simp), hall, if_pos (by omega), takeEnd,
      hend, hop]
    rfl
  refine ⟨e, { list with items := items', endItem := p, count := sizeSub list.count 1 }, ?_, hchain,
    ?_, hnx, fun hc => ?_⟩
  · rw [pullOutCount, htake, ok_bind]
    dsimp only
    rw [hone]
    rfl
  · rw [hpre]
    simp
  · have hnd := h.chain.dll.nodup
    rw [List.nodup_append, hpre, List.nodup_append, List.nodup_cons] at hnd
    rw [hpre, List.getLast?_append_of_ne_nil _ (List.cons_ne_nil e _), List.getLast?_cons_cons] at hc
    exact hnd.1.2.1.1 (List.mem_of_getLast? hc)

/-- In a well-formed list only the last item has none behind it. -/
theorem Holds.getLast?_of_next (h : list.Holds xs) (ha : a ∈ xs)
    (hnx : (view list.items).nx a = some none) : xs.getLast? = some a := by
  obtain ⟨pre, post, rfl⟩ := List.append_of_mem ha
  have hlink := h.chain.dll.link_eq.1
  rw [hnx] at hlink
  have hpost : post = [] := List.head?_eq_none_iff.mp (Option.some.inj hlink).symm
  rw [hpost, List.getLast?_concat]

theorem removeCount_inv {code : AlibError} {list' : DList α} (hin : index < list.count)
    (hr : list.removeCount index count = .ok (code, list')) :
    code = .ok ∧ ∃ r list₁ values, list.pullOutCount index count = .ok (r, list₁) ∧
      delAll list₁.items r = .ok (values, list'.items) ∧ list'.endItem = list₁.endItem ∧
      list'.count = list₁.count := by
  rw [removeCount, if_neg (by omega)] at hr
  obtain ⟨⟨r, list₁⟩, hpull, hr⟩ := bind_eq_ok.mp hr
  obtain ⟨⟨values, items'⟩, hdel, hr⟩ := bind_eq_ok.mp hr
  cases hr
  exact ⟨rfl, r, list₁, values, hpull, hdel, rfl, rfl⟩

theorem pullOutCount_inv {r : Option Nat} {list' : DList α}
    (hr : list.pullOutCount index count = .ok (r, list')) :
    ∃ list₁, list.takeCount index count = .ok (r, list₁) ∧ list'.endItem = list₁.endItem := by
  obtain ⟨⟨r', list₁⟩, htake, hr⟩ := bind_eq_ok.mp hr
  obtain ⟨n, -, hr⟩ := bind_eq_ok.mp hr
  cases hr
  exact ⟨list₁, htake, rfl⟩

/-- Neither call leaves a well-formed list of the items `zs`. -/
structure Misses (list : DList α) (index count : Nat) (zs : List Nat) : Prop where
  pull : ∀ r list', list.pullOutCount index count = .ok (r, list') → ¬list'.Holds zs
  remove : ∀ code list', list.removeCount index count = .ok (code, list') → ¬list'.Holds zs

/-- Only the first item was pulled out. -/
theorem misses_first (h : list.Holds (a :: post)) (hlt : (a :: post).length < 2 ^ 63)
    (hpost : 0 < post.length) (hbig : 2 ^ 63 < count) (hmax : count < 2 ^ 64) :
    Misses list 0 count [] := by
  have hn := h.count_eq
  obtain ⟨list₁, hpull, h₁, -⟩ := @pullOutCount_first α list post a count h hlt hbig hmax
  have h₁count := h₁.count_eq
  refine ⟨fun r list' hr h' => ?_, fun code list' hr h' => ?_⟩
  · rw [hpull] at hr
    cases hr
    have hzero : _ = 0 := h'.count_eq
    omega
  · obtain ⟨-, r, list₂, values, hr, -, -, hc⟩ := removeCount_inv (by rw [hn]; simp) hr
    rw [hpull] at hr
    cases hr
    have hzero : _ = 0 := h'.count_eq
    omega

/-- The list was cut somewhere ahead of the last item. -/
theorem misses_last (h : list.Holds (pre ++ [a])) (hlt : (pre ++ [a]).length < 2 ^ 63)
    (hlen : 2 ≤ pre.length) (hbig : 2 ^ 63 < count) (hmax : count < 2 ^ 64) :
    Misses list pre.length count pre := by
  have hn := h.count_eq
  obtain ⟨e, list₁, hpull, ha, he, hnx, hlast⟩ :=
    @pullOutCount_last α list pre a count h hlt hlen hbig hmax
  refine ⟨fun r list' hr h' => ?_, fun code list' hr h' => ?_⟩
  · rw [hpull] at hr
    cases hr
    exact hlast (h'.getLast?_of_next he hnx)
  · obtain ⟨-, r, list₂, values, hr, hdel, -, -⟩ := removeCount_inv (by rw [hn]; simp) hr
    rw [hpull] at hr
    cases hr
    obtain ⟨values', items', hdel', -, hother⟩ := delAll_eq ha
    rw [List.head?_cons, hdel] at hdel'
    cases hdel'
    have hea : e ∉ [a] := by
      rw [List.mem_singleton]
      rintro rfl
      exact h.chain.dll.not_mem (List.mem_append_left _ he)
    refine hlast (h'.getLast?_of_next he ?_)
    rw [← hnx]
    simp only [view, Heap.links, hother e hea]

/-- The end of the list was not cut. -/
theorem misses_inner (h : list.Holds xs) (hlt : xs.length < 2 ^ 63) (hin : index < xs.length)
    (hzero : index ≠ 0) (hone : index + 1 ≠ xs.length) (hcut : sizeAdd index count ≠ list.count) :
    Misses list index count (xs.take index) := by
  have hn := h.count_eq
  have hsub := h.last_index hlt (List.ne_nil_of_length_pos (Nat.lt_of_le_of_lt (Nat.zero_le _) hin))
  refine ⟨fun r list' hr => ?_, fun code list' hr => ?_⟩
  · obtain ⟨list₁, htake, hend⟩ := pullOutCount_inv hr
    exact not_holds_of_end h hin
      (hend.trans (takeCount_end htake hzero (by rw [hsub]; omega) hcut))
  · obtain ⟨-, r, list₂, values, hpull, -, hend₂, -⟩ := removeCount_inv (by omega) hr
    obtain ⟨list₁, htake, hend⟩ := pullOutCount_inv hpull
    exact not_holds_of_end h hin
      (hend₂.trans (hend.trans (takeCount_end htake hzero (by rw [hsub]; omega) hcut)))

/-- Another range leaves a list behind that is not well-formed, or not the right one. -/
theorem misses_of_not_fits (h : list.Holds xs) (hlt : xs.length < 2 ^ 63) (hin : index < xs.length)
    (hcount : 1 ≤ count) (hmax : count < 2 ^ 64) (hfit : ¬RangeFits xs.length index count) :
    Misses list index count (rangeLeft xs index count) := by
  rw [RangeFits] at hfit
  have hn := h.count_eq
  rw [(@range_all xs index count (by omega)).2]
  by_cases hzero : index = 0
  · subst hzero
    obtain ⟨a, post, rfl⟩ := List.exists_cons_of_ne_nil (List.ne_nil_of_length_pos hin)
    rw [List.length_cons] at hfit
    rw [List.take_zero]
    exact misses_first h hlt (by omega) (by omega) hmax
  · by_cases hone : index + 1 = xs.length
    · obtain ⟨pre, a, post, rfl, rfl, -⟩ := exists_item hin
      rw [List.length_append, List.length_cons] at hone
      obtain rfl : post = [] := List.eq_nil_of_length_eq_zero (by omega)
      rw [List.length_append, List.length_singleton] at hfit
      rw [List.take_left]
      exact misses_last h hlt (by omega) (by omega) hmax
    · refine misses_inner h hlt hin hzero hone ?_
      rw [sizeAdd]
      omega

/-- What was pulled out is deleted to the last item. -/
theorem removeCount_of_pull {list₁ : DList α} {zs : List Nat} (hin : index < list.count)
    (hpull : list.pullOutCount index count = .ok (ys.head?, list₁)) (h₁ : list₁.Holds zs)
    (hy : Chain (view list₁.items) none ys) :
    ∃ list', list.removeCount index count = .ok (.ok, list') ∧ list'.Holds zs ∧
      list'.self = list₁.self ∧ ∀ a ∈ ys, list'.items.cell a = none := by
  obtain ⟨values, items', hdel, hgone, hother⟩ := delAll_eq hy
  have hdis := h₁.chain.disjoint hy (Option.some_ne_none _)
  refine ⟨{ list₁ with items := items', dropped := list₁.dropped ++ values }, ?_, ⟨?_, h₁.begin_eq,
    h₁.end_eq, h₁.count_eq⟩, rfl, hgone⟩
  · rw [removeCount, if_neg (by omega), hpull, ok_bind]
    dsimp only
    rw [hdel]
    rfl
  · refine h₁.chain.congr fun a ha => ?_
    simp only [view, Heap.links, hother a (hdis a ha), and_self]

/-- The ranges that `DList_pull_out_count` gets right, also those that are out of range. -/
def PullFits (n index count : Nat) : Prop :=
  index < n ∧ RangeFits n index count ∨
    n = 0 ∧ (index = 0 ∨ index = ULONG_MAX ∨ sizeAdd index count ≠ 0)

/-- Nothing is taken from an empty list, if the end is not to be cut. -/
theorem pullOutCount_empty_iff (h : list.Holds []) (index count : Nat) :
    list.pullOutCount index count = .ok (none, list) ↔
      index = 0 ∨ index = ULONG_MAX ∨ sizeAdd index count ≠ 0 := by
  obtain ⟨items, self, b, e, n, flag, dropped⟩ := list
  obtain rfl : b = none := h.begin_eq
  obtain rfl : e = none := h.end_eq
  obtain rfl : n = 0 := h.count_eq
  have hwrap : sizeSub 0 1 = ULONG_MAX := by decide
  have hnone : sizeSub 0 0 = 0 := by decide
  -- nothing was pulled, and nothing is to be counted
  have hsame : ∀ {r : Option Nat × DList α},
      takeCount ⟨items, self, none, none, 0, flag, dropped⟩ index count = .ok r →
      r = (none, ⟨items, self, none, none, 0, flag, dropped⟩) →
      pullOutCount ⟨items, self, none, none, 0, flag, dropped⟩ index count =
        .ok (none, ⟨items, self, none, none, 0, flag, dropped⟩) := by
    rintro _ htake rfl
    rw [pullOutCount, htake, ok_bind]
    dsimp only
    rw [DListItem.count, ok_bind, hnone]
    rfl
  by_cases hzero : index = 0
  · refine ⟨fun _ => .inl hzero, fun _ => hsame ?_ rfl⟩
    rw [takeCount, if_pos hzero]
    rfl
  · by_cases hmax : index = ULONG_MAX
    · refine ⟨fun _ => .inr (.inl hmax), fun _ => hsame ?_ rfl⟩
      rw [takeCount, if_neg hzero]
      dsimp only
      rw [hwrap, if_pos hmax]
      rfl
    · have hseek : seek ⟨items, self, none, none, 0, flag, dropped⟩ index = .ok none := by
        rw [seek, walk]
        split <;> rfl
      have htake : takeCount ⟨items, self, none, none, 0, flag, dropped⟩ index count =
          (cutEnd ⟨items, self, none, none, 0, flag, dropped⟩ index count none >>= fun list =>
            list.takeItem (DListItem.pullOutCount count) none) := by
        rw [takeCount, if_neg hzero]
        dsimp only
        rw [hwrap, if_neg hmax, hseek]
        rfl
      rw [cutEnd] at htake
      by_cases hcut : sizeAdd index count = 0
      · rw [if_pos hcut] at htake
        refine ⟨fun hr => ?_, fun hcond => ?_⟩
        · rw [pullOutCount, htake] at hr
          cases hr
        · exact absurd hcut ((hcond.resolve_left hzero).resolve_left hmax)
      · rw [if_neg hcut] at htake
        exact ⟨fun _ => .inr (.inr hcut), fun _ => hsame htake rfl⟩

/-- Behind the end of a list that is not empty some item is found. -/
theorem pullOutCount_past_end (h : list.Holds xs) (hne : xs ≠ []) (hlt : xs.length < 2 ^ 63)
    (hout : xs.length ≤ index) (hcount : 1 ≤ count) :
    list.pullOutCount index count ≠ .ok (none, list) := by
  intro hr
  have hpos := List.length_pos_of_ne_nil hne
  obtain ⟨list₁, htake, -⟩ := pullOutCount_inv hr
  rw [takeCount, if_neg (by omega), h.last_index hlt hne, if_neg (by omega)] at htake
  obtain ⟨item, hseek, htake⟩ := bind_eq_ok.mp htake
  obtain ⟨list₂, -, htake⟩ := bind_eq_ok.mp htake
  obtain ⟨⟨pulled, p, items'⟩, hop, htake⟩ := bind_eq_ok.mp htake
  cases htake
  obtain ⟨e, he, -⟩ := h.end_mem hne
  obtain ⟨⟨found, n⟩, hwalk, hfound⟩ := bind_eq_ok.mp hseek
  cases hfound
  rw [walk, if_neg (by rw [h.count_eq]; omega), he] at hwalk
  obtain ⟨b, rfl⟩ := getByRelativeIndex_found hwalk
  cases pullOutCount_head (by omega) hop

/-- A range leaves the list rightly exactly when it fits, and in `DList_remove_count` also when it
is out of range. -/
theorem takes_range_iff (h : list.Holds xs) (hmem : Fits list.items) (hcount : 1 ≤ count)
    (hmax : count ≤ ULONG_MAX) (index : Nat) :
    (list.PullsRange xs index count ↔ PullFits xs.length index count) ∧
      (list.RemovesRange xs index count ↔
        xs.length ≤ index ∨ RangeFits xs.length index count) := by
  have hlt := h.length_lt hmem
  have hn := h.count_eq
  unfold ULONG_MAX at hmax
  by_cases hin : index < xs.length
  · have hfits := pulls_of_fits h hlt hin hcount (show count < 2 ^ 64 by omega)
    have hmiss := misses_of_not_fits h hlt hin hcount (show count < 2 ^ 64 by omega)
    refine ⟨⟨fun hp => .inl ⟨hin, ?_⟩, fun hcond => ?_⟩, ⟨fun hp => .inr ?_, fun hcond => ?_⟩⟩
    · by_contra hno
      obtain ⟨list', hr, h', -⟩ := hp.1 hin
      exact (hmiss hno).1 _ list' hr h'
    · refine ⟨fun _ => hfits ?_, fun hge => absurd hin (by omega)⟩
      exact hcond.elim (fun hc => hc.2) fun hc => absurd hin (by omega)
    · by_contra hno
      obtain ⟨list', hr, h', -⟩ := hp.1 hin
      exact (hmiss hno).2 _ list' hr h'
    · refine ⟨fun _ => ?_, fun hge => absurd hin (by omega)⟩
      obtain ⟨list₁, hpull, h₁, hself, hy⟩ := hfits (hcond.resolve_left (by omega))
      obtain ⟨pre, ys, rest, rfl, rfl, hne, hys, hrange, hleft, hget⟩ := exists_range hin hcount
      rw [hget] at hpull
      rw [hrange] at hy ⊢
      obtain ⟨list', hr, h', hself', hgone⟩ := removeCount_of_pull (by omega) hpull h₁ hy
      exact ⟨list', hr, h', hself'.trans hself, hgone⟩
  · have hout : xs.length ≤ index := by omega
    refine ⟨?_, fun _ => .inl hout, fun _ => ⟨fun hc => absurd hc hin, fun _ =>
      ⟨.badArg, by decide, if_pos (by omega)⟩⟩⟩
    by_cases hne : xs = []
    · subst hne
      have hempty := pullOutCount_empty_iff h index count
      refine ⟨fun hp => .inr ⟨rfl, hempty.mp (hp.2 hout)⟩, fun hcond =>
        ⟨fun hc => absurd hc hin, fun _ => hempty.mpr ?_⟩⟩
      exact hcond.elim (fun hc => absurd hc.1 hin) fun hc => hc.2
    · refine ⟨fun hp => absurd (hp.2 hout) (pullOutCount_past_end h hne hlt hout hcount),
        fun hcond => ?_⟩
      have hpos := List.length_pos_of_ne_nil hne
      exact hcond.elim (fun hc => absurd hc.1 hin) fun hc => absurd hc.1 (by omega)

/-- The second of two items is pulled out, and removed. -/
theorem takes_range_two : twoAndOne.PullsRange [0, 1] 1 1 ∧ twoAndOne.RemovesRange [0, 1] 1 1 :=
  have h := takes_range_iff twoAndOne_holds (show 3 ≤ PTRDIFF_MAX by decide) (Nat.le_refl 1)
    (by decide) 1
  ⟨h.1.mpr (.inl ⟨by decide, .inl (by decide)⟩), h.2.mpr (.inr (.inl (by decide)))⟩

/-- Three items. -/
def threeItems : DList Nat where
  items := ⟨[some ⟨none, some 9, false, some 1, none⟩, some ⟨none, some 9, false, some 2, some 0⟩,
    some ⟨none, some 9, false, none, some 1⟩]⟩
  self := 9
  beginItem := some 0
  endItem := some 2
  count := 3
  itemsReadyForRemoval := false
  dropped := []

theorem threeItems_holds : threeItems.Holds [0, 1, 2] := by
  refine ⟨⟨⟨⟨rfl, rfl, rfl, trivial⟩, ⟨rfl, rfl, rfl, trivial⟩⟩, fun a ha => ?_⟩, rfl, rfl, rfl⟩
  simp only [List.mem_cons, List.not_mem_nil, or_false] at ha
  rcases ha with rfl | rfl | rfl <;> rfl

/-- More than the last two of three items are asked for: the end is one of those pulled out. And
behind the last item it is the last one that is pulled out. -/
theorem takes_range_fails : threeItems.Holds [0, 1, 2] ∧
    ¬threeItems.PullsRange [0, 1, 2] 1 5 ∧ ¬threeItems.RemovesRange [0, 1, 2] 1 5 ∧
    ¬threeItems.PullsRange [0, 1, 2] 3 1 := by
  refine ⟨threeItems_holds, fun hp => ?_, fun hp => ?_, fun hp => ?_⟩
  · obtain ⟨list', hr, h', -⟩ := hp.1 (by decide)
    have hpull : threeItems.pullOutCount 1 5 = .ok (some 1, ⟨⟨[
        some ⟨none, some 9, false, none, none⟩, some ⟨none, none, false, some 2, none⟩,
        some ⟨none, none, false, none, some 1⟩]⟩, 9, some 0, some 2, 1, false, []⟩) := by decide
    rw [hpull] at hr
    cases hr
    exact absurd h'.end_eq (by decide)
  · obtain ⟨list', hr, h', -⟩ := hp.1 (by decide)
    have hremove : threeItems.removeCount 1 5 = .ok (.ok, ⟨⟨[
        some ⟨none, some 9, false, none, none⟩, none, none]⟩, 9, some 0, some 2, 1, false, []⟩) := by
      decide
    rw [hremove] at hr
    cases hr
    exact absurd h'.end_eq (by decide)
  · have hr := hp.2 (by decide)
    revert hr
    decide

end Range

end AlibC.DList
