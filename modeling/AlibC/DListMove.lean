import AlibC.DListBeside
import AlibC.DListItemRanges

/-! Moving items of a `DList` to other places of it. -/
namespace AlibC.DList

open CLang Function Linked DListItem Reorder

variable {α : Type} {list : DList α} {xs ys zs pre post : List Nat} {a b c index count : Nat}

section Move

variable {fromIndex toIndex : Nat}

/-- The ends of a well-formed list are where the search for them would lead. -/
theorem findEnd_same (h : list.Holds xs) (toIndex : Nat) : list.findEnd toIndex = .ok list := by
  have hends : getFirstItem list.items list.beginItem = .ok list.beginItem ∧
      getLastItem list.items list.endItem = .ok list.endItem := by
    by_cases hne : xs = []
    · subst hne
      have hb : list.beginItem = none := h.begin_eq
      have he : list.endItem = none := h.end_eq
      rw [hb, he]
      exact ⟨rfl, rfl⟩
    · obtain ⟨b, hb, hbm⟩ := h.begin_mem hne
      obtain ⟨e, he, hem⟩ := h.end_mem hne
      have hfirst := (ends_eq h.chain.dll hbm).1
      have hlast := (ends_eq h.chain.dll hem).2
      rw [← hb, ← h.begin_eq] at hfirst
      rw [← he, ← h.end_eq] at hlast
      exact ⟨hfirst, hlast⟩
  rw [findEnd, hends.1, hends.2]
  split
  · rfl
  · split <;> rfl

theorem Holds.last_index (h : list.Holds xs) (hlt : xs.length < 2 ^ 63) (hne : xs ≠ []) :
    sizeSub list.count 1 = xs.length - 1 := by
  have hpos := List.length_pos_of_ne_nil hne
  rw [h.count_eq, sizeSub_eq (by omega) (by omega)]

/-- A move that is refused on the way. -/
theorem move_out_of_range (h : list.Holds xs) (hlt : xs.length < 2 ^ 63) (hlen : 2 ≤ xs.length)
    (hfrom : fromIndex < 2 ^ 64) (hne : fromIndex ≠ toIndex)
    (hout : xs.length ≤ fromIndex ∨ toIndex < fromIndex ∧ xs.length ≤ toIndex) :
    list.move fromIndex toIndex = .ok (AlibError.badIndex.code, list) := by
  have hcount := h.count_eq
  have hnil : xs ≠ [] := List.ne_nil_of_length_pos (by omega)
  obtain ⟨b, hb, hbm⟩ := h.begin_mem hnil
  have hmove := move_refused h.chain hbm hfrom hne hout
  rw [move, if_neg (by omega), passBegin, if_neg (by omega), ok_bind, passEnd,
    h.last_index hlt hnil, if_neg (by omega), ok_bind, hb, hmove, ok_bind]
  dsimp only
  rw [← hb, findEnd_same h]
  rfl

/-- In an empty list there is nothing to move. -/
theorem move_empty (h : list.Holds []) (hne : fromIndex ≠ toIndex) (hzero : fromIndex ≠ 0)
    (hmax : fromIndex ≠ ULONG_MAX) :
    list.move fromIndex toIndex = .ok (AlibError.badArg.code, list) := by
  have hcount := h.count_eq
  have hb : list.beginItem = none := h.begin_eq
  have hwrap : sizeSub list.count 1 = ULONG_MAX := by rw [hcount]; rfl
  have hnothing : DListItem.move list.items list.beginItem fromIndex toIndex =
      .ok (AlibError.badArg.code, list.items) := by
    rw [hb]
    rfl
  rw [move, if_neg (not_or.mpr ⟨hne, by rw [hcount]; decide⟩), passBegin, if_neg hzero, ok_bind,
    passEnd, hwrap, if_neg hmax, ok_bind, hnothing, ok_bind]
  dsimp only
  rw [findEnd_same h]
  rfl

/-- The end after the item `a` was taken from there is the one it has before `t`. -/
theorem passEnd_eq {t : Nat} {mid : List Nat} (h : list.Holds (pre ++ t :: (mid ++ a :: post)))
    (hlt : (pre ++ t :: (mid ++ a :: post)).length < 2 ^ 63) :
    list.passEnd (pre.length + (mid.length + 1)) =
      .ok { list with endItem := (pre ++ a :: t :: (mid ++ post)).getLast? } := by
  have hlen : (pre ++ t :: (mid ++ a :: post)).length =
      pre.length + (mid.length + (post.length + 1) + 1) := by simp
  rw [passEnd, h.last_index hlt (by simp), hlen]
  cases post with
  | nil =>
    have hx : pre ++ t :: (mid ++ [a]) = (pre ++ t :: mid) ++ [a] := by simp
    have hlast : list.endItem = some a := by rw [h.end_eq, hx, List.getLast?_concat]
    have hprev := (Dll.link_eq (hx ▸ h.chain.dll)).2
    have hnew : (pre ++ a :: t :: (mid ++ [])).getLast? = (pre ++ t :: mid).getLast? := by
      rw [List.append_nil, List.getLast?_append_of_ne_nil _ (by simp),
        List.getLast?_append_of_ne_nil _ (by simp), List.getLast?_cons_cons]
    rw [if_pos (by simp), hlast, member_eq hprev, hnew]
    rfl
  | cons c post =>
    have hsame : list.endItem = (pre ++ a :: t :: (mid ++ c :: post)).getLast? := by
      rw [h.end_eq]
      simp [List.getLast?_append, List.getLast?_cons]
    rw [if_neg (by simp), ← hsame]

/-- The beginning after the item `a` was taken from there is an item of the list, and the one it has
behind `mid`. -/
theorem passBegin_eq {mid : List Nat} (h : list.Holds (pre ++ a :: (mid ++ post))) (hmid : mid ≠ []) :
    ∃ b, list.passBegin pre.length = .ok { list with beginItem := some b } ∧
      b ∈ pre ++ a :: (mid ++ post) ∧ (pre ++ mid ++ a :: post).head? = some b := by
  obtain ⟨m, -, hm, -⟩ := exists_ends hmid
  rw [passBegin]
  cases pre with
  | nil =>
    have ha : list.beginItem = some a := h.begin_eq
    have hnext := (@Dll.link_eq Nat _ _ a [] (mid ++ post) h.chain.dll).1
    rw [List.head?_append_of_ne_nil _ hmid, hm] at hnext
    refine ⟨m, ?_, List.mem_cons_of_mem a (List.mem_append_left _ (List.mem_of_head? hm)), ?_⟩
    · rw [if_pos (by rfl), ha, member_eq hnext]
      rfl
    · rw [List.nil_append, List.head?_append_of_ne_nil _ hmid, hm]
  | cons p pre =>
    have hp : list.beginItem = some p := by rw [h.begin_eq]; rfl
    exact ⟨p, by rw [if_neg (by simp), ← hp], List.mem_cons_self, rfl⟩

/-- Backward an item comes before the one that is at its new index. -/
theorem move_back {t : Nat} {mid : List Nat} (h : list.Holds (pre ++ t :: (mid ++ a :: post)))
    (hlt : (pre ++ t :: (mid ++ a :: post)).length < 2 ^ 63) :
    ∃ list', list.move (pre.length + (mid.length + 1)) pre.length =
        .ok (toLong pre.length, list') ∧
      list'.Holds (pre ++ a :: t :: (mid ++ post)) ∧ list'.self = list.self := by
  have hcount := h.count_eq
  have hlen : (pre ++ t :: (mid ++ a :: post)).length =
      pre.length + (mid.length + (post.length + 1) + 1) := by simp
  obtain ⟨b, hb, hbm⟩ := h.begin_mem (by simp)
  obtain ⟨items', hmove, hchain⟩ := @move_backward α list.items a t b pre post _ _ _ mid
    h.chain hbm rfl rfl (by omega)
  have hbz : b ∈ pre ++ a :: t :: (mid ++ post) :=
    ((@List.perm_middle _ a (t :: mid) post).append_left pre).mem_iff.mp hbm
  refine ⟨{ list with
    items := items'
    beginItem := (pre ++ a :: t :: (mid ++ post)).head?
    endItem := (pre ++ a :: t :: (mid ++ post)).getLast? }, ?_, ⟨hchain, rfl, rfl, ?_⟩, rfl⟩
  · rw [move, if_neg (by omega), passBegin, if_neg (by omega), ok_bind, passEnd_eq h hlt, ok_bind]
    dsimp only
    rw [hb, hmove, ok_bind]
    dsimp only
    rw [findEnd]
    dsimp only
    by_cases hpre : pre.length = 0
    · rw [if_pos hpre, (ends_eq hchain.dll hbz).1]
      rfl
    · have hne : pre ≠ [] := fun hc => hpre (by rw [hc]; rfl)
      have hsame : list.beginItem = (pre ++ a :: t :: (mid ++ post)).head? := by
        rw [h.begin_eq, List.head?_append_of_ne_nil _ hne, List.head?_append_of_ne_nil _ hne]
      rw [if_neg hpre, if_neg (by omega), ← hb, hsame]
      rfl
  · show list.count = _
    rw [hcount, hlen]
    simp only [List.length_append, List.length_cons]
    omega

/-- Forward an item comes behind the one that is at its new index, or behind the last one. The end
is looked up only when the index is past it. -/
theorem move_ahead {mid : List Nat} (h : list.Holds (pre ++ a :: (mid ++ post))) (hmid : mid ≠ [])
    (hlt : (pre ++ a :: (mid ++ post)).length < 2 ^ 63) (hto : toIndex < 2 ^ 64)
    (hfrom : pre.length < toIndex) (hd : toIndex - pre.length < 2 ^ 63)
    (hmin : min (toIndex - pre.length) (mid ++ post).length = mid.length) :
    ∃ items', list.move pre.length toIndex = .ok (toLong (pre.length + mid.length),
        { list with
          items := items'
          beginItem := (pre ++ mid ++ a :: post).head?
          endItem := if toIndex ≥ list.count then (pre ++ mid ++ a :: post).getLast?
            else list.endItem }) ∧
      Chain (view items') (some list.self) (pre ++ mid ++ a :: post) := by
  have hcount := h.count_eq
  have hpos := List.length_pos_of_ne_nil hmid
  have hlen : (pre ++ a :: (mid ++ post)).length = pre.length + (mid.length + post.length + 1) := by
    simp
  obtain ⟨b, hpass, hbm, hb⟩ := passBegin_eq h hmid
  obtain ⟨items', hmove, hchain⟩ := move_forward h.chain hmid hbm rfl hfrom hd hto hmin
  refine ⟨items', ?_, hchain⟩
  rw [move, if_neg (by omega), hpass, ok_bind, passEnd]
  dsimp only
  rw [h.last_index hlt (by simp), if_neg (by rw [List.length_append] at hmin; omega), ok_bind]
  dsimp only
  rw [hmove, ok_bind, findEnd, if_neg (by omega)]
  dsimp only
  rw [← hb]
  by_cases hge : toIndex ≥ list.count
  · obtain ⟨e, he, hem⟩ := h.end_mem (by simp)
    have hez : e ∈ pre ++ mid ++ a :: post := by
      rw [List.append_assoc]
      exact (List.perm_middle.append_left pre).mem_iff.mpr hem
    rw [if_pos hge, if_pos hge, he, (ends_eq hchain.dll hez).2]
    rfl
  · rw [if_neg hge, if_neg hge]
    rfl

/-- The end is right unless the item was moved to the last index exactly. -/
theorem move_ahead_holds {mid : List Nat} (h : list.Holds (pre ++ a :: (mid ++ post)))
    (hmid : mid ≠ []) (hlt : (pre ++ a :: (mid ++ post)).length < 2 ^ 63) (hto : toIndex < 2 ^ 64)
    (hfrom : pre.length < toIndex) (hd : toIndex - pre.length < 2 ^ 63)
    (hmin : min (toIndex - pre.length) (mid ++ post).length = mid.length) :
    ∃ list', list.move pre.length toIndex = .ok (toLong (pre.length + mid.length), list') ∧
      list'.self = list.self ∧ (list'.Holds (pre ++ mid ++ a :: post) ↔
        toIndex ≠ (pre ++ a :: (mid ++ post)).length - 1) := by
  have hcount := h.count_eq
  have hlen : (pre ++ a :: (mid ++ post)).length = pre.length + (mid.length + post.length + 1) := by
    simp
  obtain ⟨items', hmove, hchain⟩ := move_ahead h hmid hlt hto hfrom hd hmin
  rw [List.length_append] at hmin
  have hpos := List.length_pos_of_ne_nil hmid
  refine ⟨_, hmove, rfl, fun h' hto => ?_, fun hne => ⟨hchain, rfl, ?_, ?_⟩⟩
  · have hpost : post = [] := List.eq_nil_of_length_eq_zero (by omega)
    subst hpost
    have hend : (if toIndex ≥ list.count then (pre ++ mid ++ [a]).getLast? else list.endItem) =
        (pre ++ mid ++ [a]).getLast? := h'.end_eq
    rw [if_neg (by omega), List.getLast?_concat, h.end_eq, List.append_nil,
      List.getLast?_append_of_ne_nil _ (List.cons_ne_nil a mid),
      List.getLast?_cons_of_ne_nil hmid] at hend
    have hmem := List.mem_append_left [] (List.mem_of_getLast? hend)
    exact h.chain.dll.not_mem (List.mem_append_right pre hmem)
  · by_cases hge : toIndex ≥ list.count
    · exact if_pos hge
    · have hpost : post ≠ [] := by
        rintro rfl
        rw [List.length_nil] at hlen hmin
        omega
      show (if toIndex ≥ list.count then _ else list.endItem) = _
      rw [if_neg hge, h.end_eq, List.getLast?_append_of_ne_nil _ (by simp),
        List.getLast?_append_of_ne_nil _ (by simp), List.getLast?_cons_of_ne_nil hpost,
        List.getLast?_cons_of_ne_nil (by simp [hpost]), List.getLast?_append_of_ne_nil _ hpost]
  · show list.count = _
    rw [hcount, hlen]
    simp only [List.length_append, List.length_cons]
    omega

/-- The last item stays where it is. -/
theorem move_stay (h : list.Holds (pre ++ [a])) (hpre : pre ≠ [])
    (hlt : (pre ++ [a]).length < 2 ^ 63) (hto : toIndex < 2 ^ 64)
    (hge : (pre ++ [a]).length ≤ toIndex) (hd : toIndex - pre.length < 2 ^ 63) :
    list.move pre.length toIndex = .ok (toLong pre.length, list) := by
  have hcount := h.count_eq
  have hpos := List.length_pos_of_ne_nil hpre
  have hlen : (pre ++ [a]).length = pre.length + 1 := by simp
  obtain ⟨b, hb, hbm⟩ := h.begin_mem (by simp)
  obtain ⟨-, l, -, hl⟩ := exists_ends hpre
  have hend : list.endItem = some a := by rw [h.end_eq, List.getLast?_concat]
  have hprev := (Dll.link_eq h.chain.dll).2
  have hmove := move_last h.chain hbm (show pre.length < toIndex by omega) hd hto
  have hlm : l ∈ pre ++ [a] := List.mem_append_left _ (List.mem_of_getLast? hl)
  rw [move, if_neg (by omega), passBegin, if_neg (by omega), ok_bind, passEnd,
    h.last_index hlt (by simp), if_pos (by omega), hend, member_eq hprev, hl, ok_bind, pure_ok,
    ok_bind]
  dsimp only
  rw [hb, hmove, ok_bind, findEnd]
  dsimp only
  rw [if_neg (by omega), if_pos (by omega), (ends_eq h.chain.dll hlm).2, ← h.end_eq, ← hb]
  rfl

/-- An item in range comes to its new index, and the list is well-formed again; an item out of
range is refused. -/
def MovesTo (list : DList α) (xs : List Nat) (fromIndex toIndex : Nat) : Prop :=
  (∀ a, xs[fromIndex]? = some a → ∃ list', list.move fromIndex toIndex =
      .ok ((min toIndex (xs.length - 1) : Nat), list') ∧
    list'.Holds ((xs.eraseIdx fromIndex).insertIdx (min toIndex (xs.length - 1)) a) ∧
    list'.self = list.self) ∧
  (xs.length ≤ fromIndex → ∃ code : Int, code < 0 ∧
    list.move fromIndex toIndex = .ok (code, list))

/-- The indices that `DList_move` gets right in a list of `n` items. -/
def MoveFits (n fromIndex toIndex : Nat) : Prop :=
  fromIndex < n ∧ (toIndex ≤ fromIndex ∨ toIndex ≠ n - 1) ∨
    n ≤ fromIndex ∧ fromIndex ≠ toIndex ∧ n ≠ 1 ∧ (n = 0 → fromIndex ≠ 0)

theorem moves_in_range (h : list.Holds xs) (hlt : xs.length < 2 ^ 63) (hin : fromIndex < xs.length)
    (hto : toIndex < 2 ^ 63) :
    list.MovesTo xs fromIndex toIndex ↔ toIndex ≤ fromIndex ∨ toIndex ≠ xs.length - 1 := by
  have hout : ∀ P : Prop, xs.length ≤ fromIndex → P := fun P hge => absurd hin (by omega)
  rcases move_cases (j := toIndex) hin with (heq | ⟨pre, a, rfl, rfl, hft⟩) |
    ⟨pre, a, mid, post, rfl, rfl, hft, hmid, hmin⟩ | ⟨pre, t, mid, a, post, rfl, rfl, rfl⟩
  · refine ⟨fun _ => .inl (by omega), fun _ => ⟨fun a ha => ⟨list, ?_, ?_, rfl⟩, hout _⟩⟩
    · rw [move, if_pos (.inl heq), toLong_eq (by omega), Nat.min_eq_left (by omega), heq]
    · rw [moved_same ha (by omega)]
      exact h
  · have hlen : (pre ++ [a]).length = pre.length + 1 := by simp
    refine ⟨fun _ => .inr (by omega), fun hcond => ⟨fun b hb => ⟨list, ?_, ?_, rfl⟩, hout _⟩⟩
    · have hindex : min toIndex ((pre ++ [a]).length - 1) = pre.length := by omega
      rw [hindex, ← toLong_eq (show pre.length < 2 ^ 63 by omega)]
      by_cases hpre : pre = []
      · subst hpre
        rw [move, if_pos (.inr h.count_eq)]
      · exact move_stay h hpre hlt (by omega) (by omega) (by omega)
    · rw [moved_same hb (by omega)]
      exact h
  · have hlen : (pre ++ a :: (mid ++ post)).length = pre.length + ((mid ++ post).length + 1) := by
      simp
    have hindex : min toIndex ((pre ++ a :: (mid ++ post)).length - 1) =
        pre.length + mid.length := by omega
    have hget : (pre ++ a :: (mid ++ post))[pre.length]? = some a := by
      rw [List.getElem?_append_right (Nat.le_refl _), Nat.sub_self]
      rfl
    obtain ⟨list', hmove, hself, hiff⟩ :=
      move_ahead_holds h hmid hlt (by omega) hft (by omega) hmin
    rw [toLong_eq (by omega)] at hmove
    refine ⟨fun hm => ?_, fun hcond => ⟨fun b hb => ?_, hout _⟩⟩
    · obtain ⟨list'', hr, h'', -⟩ := hm.1 a hget
      rw [hmove, hindex] at hr
      cases hr
      rw [hindex, moved_ahead] at h''
      exact .inr (hiff.mp h'')
    · rw [hget] at hb
      cases hb
      rw [hindex, moved_ahead]
      exact ⟨list', hmove, hiff.mpr (hcond.resolve_left (by omega)), hself⟩
  · have hlen : (pre ++ t :: (mid ++ a :: post)).length =
        pre.length + (mid.length + (post.length + 1) + 1) := by simp
    have hindex : min pre.length ((pre ++ t :: (mid ++ a :: post)).length - 1) = pre.length := by
      omega
    have hget : (pre ++ t :: (mid ++ a :: post))[pre.length + (mid.length + 1)]? = some a := by
      have hx : pre ++ t :: (mid ++ a :: post) = (pre ++ t :: mid) ++ a :: post := by simp
      have hpos : (pre ++ t :: mid).length = pre.length + (mid.length + 1) := by simp
      rw [hx, ← hpos, List.getElem?_append_right (Nat.le_refl _), Nat.sub_self]
      rfl
    obtain ⟨list', hmove, h', hself⟩ := move_back h hlt
    rw [toLong_eq (by omega)] at hmove
    refine ⟨fun _ => .inl (by omega), fun _ => ⟨fun b hb => ?_, hout _⟩⟩
    rw [hget] at hb
    cases hb
    rw [hindex, moved_back]
    exact ⟨list', hmove, h', hself⟩

theorem moves_out_of_range (h : list.Holds xs) (hlt : xs.length < 2 ^ 63)
    (hout : xs.length ≤ fromIndex) (hfrom : fromIndex < 2 ^ 63) :
    list.MovesTo xs fromIndex toIndex ↔
      fromIndex ≠ toIndex ∧ xs.length ≠ 1 ∧ (xs.length = 0 → fromIndex ≠ 0) := by
  have hcount := h.count_eq
  have hnone : ∀ a, xs[fromIndex]? ≠ some a := by
    intro a ha
    rw [List.getElem?_eq_none hout] at ha
    cases ha
  by_cases hsame : fromIndex = toIndex ∨ list.count = 1
  · -- the index itself is returned, as if there were an item
    have hmove : list.move fromIndex toIndex = .ok ((fromIndex : Nat), list) := by
      rw [move, if_pos hsame, toLong_eq hfrom]
    refine ⟨fun hm => ?_, fun hcond => ?_⟩
    · obtain ⟨code, hneg, hr⟩ := hm.2 hout
      rw [hmove] at hr
      cases hr
      omega
    · rcases hsame with heq | hone
      · exact absurd heq hcond.1
      · exact absurd (hcount.symm.trans hone) hcond.2.1
  · rw [not_or] at hsame
    by_cases hnil : xs = []
    · subst hnil
      have hb : list.beginItem = none := h.begin_eq
      by_cases hzero : fromIndex = 0
      · have hmove : list.move fromIndex toIndex = .error .nullDeref := by
          rw [move, if_neg (not_or.mpr hsame), passBegin, if_pos hzero, hb]
          rfl
        refine ⟨fun hm => ?_, fun hcond => absurd hzero (hcond.2.2 rfl)⟩
        obtain ⟨code, -, hr⟩ := hm.2 hout
        rw [hmove] at hr
        cases hr
      · exact ⟨fun _ => ⟨hsame.1, by simp, fun _ => hzero⟩, fun _ =>
          ⟨fun a ha => absurd ha (hnone a), fun _ => ⟨AlibError.badArg.code, by decide,
            move_empty h hsame.1 hzero (by unfold ULONG_MAX; omega)⟩⟩⟩
    · have hpos := List.length_pos_of_ne_nil hnil
      refine ⟨fun _ => ⟨hsame.1, by omega, fun hz => absurd hz (by omega)⟩, fun _ =>
        ⟨fun a ha => absurd ha (hnone a), fun _ => ⟨AlibError.badIndex.code, by decide, ?_⟩⟩⟩
      exact move_out_of_range h hlt (by omega) (by omega) hsame.1 (.inl hout)

/-- Moving is deleting and inserting unless an item is moved forward to the last index exactly, and
a missing item is noticed unless the indices agree, there is one item, or there is none at 0. -/
theorem moves_iff (h : list.Holds xs) (hmem : Fits list.items) (hfrom : fromIndex ≤ LONG_MAX)
    (hto : toIndex ≤ LONG_MAX) :
    list.MovesTo xs fromIndex toIndex ↔ MoveFits xs.length fromIndex toIndex := by
  have hlt := h.length_lt hmem
  unfold LONG_MAX at hfrom hto
  rw [MoveFits]
  by_cases hin : fromIndex < xs.length
  · rw [moves_in_range h hlt hin (by omega)]
    exact ⟨fun hc => .inl ⟨hin, hc⟩, fun hc => hc.elim (fun hc => hc.2) fun hc => by omega⟩
  · rw [moves_out_of_range h hlt (by omega) (by omega)]
    exact ⟨fun hc => .inr ⟨by omega, hc⟩, fun hc => hc.elim (fun hc => by omega) fun hc => hc.2⟩

/-- The last of two items is moved to the front. -/
theorem moves_two : twoAndOne.MovesTo [0, 1] 1 0 :=
  (moves_iff twoAndOne_holds (show 3 ≤ PTRDIFF_MAX by decide) (by decide) (by decide)).mpr
    (.inl ⟨by decide, .inl (by decide)⟩)

/-- The first of two items is moved behind the other one, which stays the end of the list. -/
theorem move_leaves_end : twoAndOne.Holds [0, 1] ∧ ¬twoAndOne.MovesTo [0, 1] 0 1 := by
  refine ⟨twoAndOne_holds, fun h => ?_⟩
  obtain ⟨list', hr, h', -⟩ := h.1 0 rfl
  have hmove : twoAndOne.move 0 1 = .ok (1, ⟨⟨[some ⟨none, some 9, false, none, some 1⟩,
      some ⟨none, some 9, false, some 0, none⟩, some ⟨none, none, false, none, none⟩]⟩, 9, some 1,
      some 1, 2, false, []⟩) := by decide
  rw [hmove] at hr
  cases hr
  exact absurd h'.end_eq (by decide)

end Move

end AlibC.DList
