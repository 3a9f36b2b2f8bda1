import AlibC.DListMove

/-! Moving a block of items, in a chain and in a `DList`. -/
namespace AlibC

open CLang Function Linked Reorder

variable {α : Type} {a b c count fromIndex toIndex : Nat} {xs ys zs pre post rest : List Nat}
  {q : Option Nat}

namespace DListItem

variable {items : Items α}

/-- The new index of the first of up to `count` items from `fromIndex` on. -/
def blockTarget (n fromIndex toIndex count : Nat) : Nat :=
  min toIndex (n - min count (n - fromIndex))

/-- The order after these items were cut out and put in at their new index. -/
def blockMoved (xs : List Nat) (fromIndex toIndex count : Nat) : List Nat :=
  relocate xs fromIndex (blockTarget xs.length fromIndex toIndex count)
    (min count (xs.length - fromIndex))

/-- The moves of a block that `DListItem_move_count` gets right: backward, and forward when the
block reaches to the end and stays. -/
def BlockFits (n fromIndex toIndex count : Nat) : Prop :=
  toIndex < fromIndex ∨ fromIndex < toIndex ∧ n ≤ fromIndex + count

theorem blockMoved_self (xs : List Nat) (hin : fromIndex < xs.length)
    (hstay : fromIndex = toIndex ∨ fromIndex < toIndex ∧ xs.length ≤ fromIndex + count) :
    blockMoved xs fromIndex toIndex count = xs ∧
      blockTarget xs.length fromIndex toIndex count = fromIndex := by
  have htarget : blockTarget xs.length fromIndex toIndex count = fromIndex := by
    rw [blockTarget]
    omega
  rw [blockMoved, htarget]
  exact ⟨relocate_self xs fromIndex _, rfl⟩

/-- The block is where it should be. -/
theorem moveCount_fits (h : Chain (view items) q xs) (hc : c ∈ xs) (hlen : xs.length < 2 ^ 63)
    (hin : fromIndex < xs.length) (hto : toIndex < 2 ^ 63) (hcount : 1 ≤ count)
    (hle : count < 2 ^ 63) (hfit : BlockFits xs.length fromIndex toIndex count) :
    ∃ items', moveCount items (some c) fromIndex toIndex count =
        .ok ((blockTarget xs.length fromIndex toIndex count : Nat), items') ∧
      Chain (view items') q (blockMoved xs fromIndex toIndex count) := by
  rcases hfit with hlt | ⟨hlt, hend⟩
  · obtain ⟨pre, ys, rest, rfl, rfl, hne, hys⟩ := exists_block hin hcount
    obtain ⟨pre, t, mid, rfl, rfl, -⟩ := exists_item hlt
    have hx : pre ++ t :: mid ++ ys ++ rest = pre ++ t :: (mid ++ ys ++ rest) := by simp
    have hpre : (pre ++ t :: mid).length = pre.length + (mid.length + 1) := by simp
    have hk : min count ((pre ++ t :: mid ++ ys ++ rest).length - (pre ++ t :: mid).length) =
        ys.length := by
      rw [← hys, List.append_assoc, List.length_append, Nat.add_sub_cancel_left]
    have htarget : blockTarget (pre ++ t :: mid ++ ys ++ rest).length (pre ++ t :: mid).length
        pre.length count = pre.length := by
      rw [blockTarget, hk]
      simp only [List.length_append, List.length_cons]
      omega
    obtain ⟨items', hmove, hchain⟩ := @moveCount_backward α items t c count ys pre rest q
      _ _ mid (hx ▸ h) hne (hx ▸ hc) rfl hpre hcount (by omega) hys (hx ▸ hlen)
    rw [blockMoved, htarget, hk]
    have horder : relocate (pre ++ t :: mid ++ ys ++ rest) (pre ++ t :: mid).length pre.length
        ys.length = pre ++ ys ++ (t :: mid ++ rest) := by
      rw [List.length_append]
      exact relocate_back
    rw [horder]
    rw [toLong_eq hto] at hmove
    exact ⟨items', hmove, hchain⟩
  · have hself := blockMoved_self xs hin (.inr ⟨hlt, hend⟩)
    rw [hself.1, hself.2]
    have hmove := moveCount_last h hc hin hlt hcount (by omega) hend
    rw [toLong_eq (by omega)] at hmove
    exact ⟨items, hmove, h⟩

/-- Put before its own first item `y`, a block ends before `y`. -/
theorem placeBefore_own {y e : Nat} {r s : Option Nat} (hr : (view items).nx y = some r)
    (hs : (view items).nx e = some s) :
    ∃ items', placeBefore items (some y) (some e) (some y) = .ok items' ∧
      (view items').pv y = some (some e) := by
  obtain ⟨p, hp⟩ : ∃ p, (view items).pv y = some p := by
    obtain ⟨x, hx⟩ := exists_cell_of_link hr
    exact ⟨x.prev, Heap.links_eq hx⟩
  obtain ⟨items₂, hs₂, hv₂⟩ := setPrev_spec hr p
  obtain ⟨items₃, hs₃, hv₃⟩ := @setNext_spec α items₂ e s (by rw [hv₂]; exact hs) (some y)
  obtain ⟨t, ht⟩ : ∃ t, (view items₃).nx y = some t := by
    rw [hv₃, hv₂]
    by_cases hye : y = e
    · exact ⟨some y, by rw [hye]; exact update_self _ _ _⟩
    · exact ⟨r, (update_of_ne hye _ _).trans hr⟩
  obtain ⟨items₄, hs₄, hv₄⟩ := setPrev_spec ht (some e)
  have hp₄ : (view items₄).pv y = some (some e) := by
    rw [hv₄]
    exact update_self _ _ _
  obtain ⟨items₅, hs₅, hv₅⟩ := @setNextIf_spec α items₄ (some e) (fun b hb => by
    cases hb
    rw [hv₄, hv₃]
    exact ⟨some y, update_self _ _ _⟩) (some y)
  refine ⟨items₅, ?_, ?_⟩
  · rw [placeBefore, member_eq hp, ok_bind, hs₂, ok_bind, hs₃, ok_bind, hs₄, ok_bind,
      member_eq hp₄, ok_bind, hs₅]
  · rw [hv₅]
    exact hp₄

/-- A block that is put before its own first item is linked to itself. -/
theorem moveCount_same (h : Chain (view items) q xs) (hc : c ∈ xs) (hlen : xs.length < 2 ^ 63)
    (hin : fromIndex < xs.length) (hcount : 1 ≤ count) (hle : count < 2 ^ 63) :
    ∃ i items', moveCount items (some c) fromIndex fromIndex count = .ok (i, items') ∧
      ¬Chain (view items') q xs := by
  obtain ⟨pre, ys, rest, rfl, rfl, hne, hys⟩ := exists_block hin hcount
  obtain ⟨y, e, hy, he⟩ := exists_ends hne
  obtain ⟨tail, htail⟩ := List.head?_eq_some_iff.mp hy
  have hx : pre ++ ys ++ rest = pre ++ y :: (tail ++ rest) := by rw [htail]; simp
  have hget := get_at (hx ▸ h.dll) (hx ▸ hc)
  have hrel := getByRelativeIndex_ahead (hx ▸ h.dll) (show 0 < 2 ^ 63 by decide)
  rw [Nat.zero_min, Nat.zero_sub, List.getElem?_cons_zero] at hrel
  have hend := @getByRelativeIndex_block α items count ys pre rest h.dll hcount (by omega) hys hne
  rw [hy, he] at hend
  obtain ⟨items₁, hs₁, hv₁⟩ := unlink_spec h hne
  have hapart := h.apart
  rw [← hv₁] at hapart
  rw [hy, he] at hs₁
  obtain ⟨r, hr⟩ := hapart.alive y (List.mem_of_head? hy)
  obtain ⟨s, hs⟩ := hapart.alive e (List.mem_of_getLast? he)
  obtain ⟨items₅, hplace, hp₅⟩ := placeBefore_own hr hs
  have hdiff : sizeSub pre.length pre.length = 0 := by
    rw [sizeSub_eq (by omega) (Nat.le_refl _), Nat.sub_self]
  refine ⟨toLong pre.length, items₅, ?_, fun hchain => ?_⟩
  · rw [moveCount, if_neg (Nat.lt_irrefl _), hget, ok_bind]
    dsimp only
    rw [if_neg (fun hne => hne rfl), hdiff, hrel, ok_bind]
    dsimp only
    rw [if_neg (fun hne => hne rfl), hend, ok_bind]
    dsimp only
    rw [hs₁, ok_bind, hplace]
    rfl
  · -- the item before the block is none of its own
    have hpv := (hchain.dll.outer_links).1 y hy
    have hpe : pre.getLast? = some e := Option.some.inj (hpv.symm.trans hp₅)
    exact h.dll.disjoint (List.mem_append_left _ (List.mem_of_getLast? hpe))
      (List.mem_of_getLast? he)

/-- A block that moves forward comes one place too early. -/
theorem moveCount_early (h : Chain (view items) q xs) (hc : c ∈ xs) (hlt : fromIndex < toIndex)
    (hto : toIndex < 2 ^ 63) (hcount : 1 ≤ count) (hle : count < 2 ^ 63)
    (hend : fromIndex + count < xs.length) :
    ∃ i items', moveCount items (some c) fromIndex toIndex count = .ok (i, items') ∧
      ¬Chain (view items') q (blockMoved xs fromIndex toIndex count) := by
  have hin : fromIndex < xs.length := by omega
  obtain ⟨pre, ys, rest, rfl, rfl, hne, hys⟩ := exists_block hin hcount
  have hlen : (pre ++ ys ++ rest).length = pre.length + (ys.length + rest.length) := by simp
  rw [List.length_append] at hys
  have hrest : rest ≠ [] := List.ne_nil_of_length_pos (by omega)
  obtain ⟨items', mid, t, post, hmove, hchain, rfl, hmin⟩ :=
    moveCount_forward h hne hrest hc rfl (show count = ys.length by omega) (by omega) hlt
      (by omega) (by omega)
  refine ⟨_, items', hmove, fun hchain' => ?_⟩
  have hk : min count ((pre ++ ys ++ (mid ++ t :: post)).length - pre.length) = ys.length := by
    omega
  have htarget : blockTarget (pre ++ ys ++ (mid ++ t :: post)).length pre.length toIndex count =
      pre.length + (mid ++ [t]).length := by
    have hone : (mid ++ [t]).length = mid.length + 1 := by simp
    rw [blockTarget, hk, hone]
    omega
  have hsplit : mid ++ t :: post = (mid ++ [t]) ++ post := by simp
  have horder : blockMoved (pre ++ ys ++ (mid ++ t :: post)) pre.length toIndex count =
      pre ++ (mid ++ [t]) ++ ys ++ post := by
    rw [blockMoved, htarget, hk, hsplit]
    exact relocate_ahead
  rw [horder] at hchain'
  have hall := hchain.dll.unique_of_mem hchain'.dll (a := t) (by simp) (by simp)
  -- the item that is passed comes first in one order and the block in the other
  have hcut : ys ++ t :: post = t :: (ys ++ post) := by
    have hall' : (pre ++ mid) ++ (ys ++ t :: post) = (pre ++ mid) ++ (t :: (ys ++ post)) := by
      simpa using hall
    exact List.append_cancel_left hall'
  obtain ⟨y, tail, rfl⟩ := List.exists_cons_of_ne_nil hne
  have hyt : y = t := (List.cons.inj hcut).1
  have hnd := h.dll.nodup
  rw [hyt, List.nodup_append] at hnd
  exact hnd.2.2 t (by simp) t (by simp) rfl

theorem moveCount_misses (h : Chain (view items) q xs) (hc : c ∈ xs) (hlen : xs.length < 2 ^ 63)
    (hin : fromIndex < xs.length) (hto : toIndex < 2 ^ 63) (hcount : 1 ≤ count)
    (hle : count < 2 ^ 63) (hfit : ¬BlockFits xs.length fromIndex toIndex count) :
    ∃ i items', moveCount items (some c) fromIndex toIndex count = .ok (i, items') ∧
      ¬Chain (view items') q (blockMoved xs fromIndex toIndex count) := by
  rw [BlockFits] at hfit
  by_cases heq : fromIndex = toIndex
  · obtain ⟨i, items', hmove, hno⟩ := moveCount_same h hc hlen hin hcount hle
    rw [(blockMoved_self xs hin (.inl heq)).1]
    exact ⟨i, items', by rw [← heq]; exact hmove, hno⟩
  · exact moveCount_early h hc (by omega) hto hcount hle (by omega)

/-- The block is moved as a whole and its new index is returned; a single item is moved as
`DListItem_move` does it, and moving to the same index changes nothing. -/
def MovesBlock (items : Items α) (q : Option Nat) (xs : List Nat) (c fromIndex toIndex count : Nat) :
    Prop :=
  ∃ items', moveCount items (some c) fromIndex toIndex count =
      .ok ((blockTarget xs.length fromIndex toIndex count : Nat), items') ∧
    Chain (view items') q (blockMoved xs fromIndex toIndex count) ∧
    (fromIndex = toIndex → items' = items) ∧
    (count = 1 → ∃ items'', move items (some c) fromIndex toIndex =
        .ok ((blockTarget xs.length fromIndex toIndex count : Nat), items'') ∧
      Chain (view items'') q (blockMoved xs fromIndex toIndex count))

theorem move_single (h : Chain (view items) q xs) (hc : c ∈ xs) (hlen : xs.length < 2 ^ 63)
    (hin : fromIndex < xs.length) (hto : toIndex < 2 ^ 63) :
    ∃ items', move items (some c) fromIndex toIndex =
        .ok ((blockTarget xs.length fromIndex toIndex 1 : Nat), items') ∧
      Chain (view items') q (blockMoved xs fromIndex toIndex 1) := by
  have hget := List.getElem?_eq_getElem hin
  have hone : min 1 (xs.length - fromIndex) = 1 := by omega
  obtain ⟨items', hmove, hchain⟩ := move_in_range h hc (show fromIndex ≤ LONG_MAX by
    unfold LONG_MAX; omega) (show toIndex ≤ LONG_MAX by unfold LONG_MAX; omega) hget
  have hj : min toIndex (xs.length - 1) < xs.length := by omega
  rw [blockMoved, blockTarget, hone, relocate_one hget hj]
  exact ⟨items', hmove, hchain⟩

theorem movesBlock_iff (h : Chain (view items) q xs) (hc : c ∈ xs) (hlen : xs.length < 2 ^ 63)
    (hin : fromIndex < xs.length) (hto : toIndex < 2 ^ 63) (hcount : 1 ≤ count)
    (hle : count < 2 ^ 63) :
    MovesBlock items q xs c fromIndex toIndex count ↔
      BlockFits xs.length fromIndex toIndex count := by
  constructor
  · rintro ⟨items', hmove, hchain, -⟩
    by_contra hfit
    obtain ⟨i, items'', hmove', hno⟩ := moveCount_misses h hc hlen hin hto hcount hle hfit
    rw [hmove] at hmove'
    cases hmove'
    exact hno hchain
  · intro hfit
    obtain ⟨items', hmove, hchain⟩ := moveCount_fits h hc hlen hin hto hcount hle hfit
    refine ⟨items', hmove, hchain, fun heq => ?_, fun hone => ?_⟩
    · rw [BlockFits] at hfit
      omega
    · subst hone
      exact move_single h hc hlen hin hto

end DListItem

namespace DList

open DListItem

variable {list : DList α}

/-- The ends are found again in whatever order the chain is. -/
theorem moveCount_holds (h : list.Holds xs) (hne : xs ≠ []) {i : Int} {items' : Items α}
    (hmove : DListItem.moveCount list.items list.beginItem fromIndex toIndex count = .ok (i, items'))
    (hchain : Chain (view items') (some list.self) zs) (hperm : zs.Perm xs) :
    ∃ list', list.moveCount fromIndex toIndex count = .ok (i, list') ∧ list'.Holds zs ∧
      list'.self = list.self := by
  obtain ⟨b, hb, hbm⟩ := h.begin_mem hne
  obtain ⟨e, he, hem⟩ := h.end_mem hne
  refine ⟨{ list with items := items', beginItem := zs.head?, endItem := zs.getLast? }, ?_,
    ⟨hchain, rfl, rfl, ?_⟩, rfl⟩
  · rw [moveCount, hmove, ok_bind]
    dsimp only
    rw [hb, (ends_eq hchain.dll (hperm.mem_iff.mpr hbm)).1, ok_bind, he,
      (ends_eq hchain.dll (hperm.mem_iff.mpr hem)).2]
    rfl
  · show list.count = _
    rw [h.count_eq, hperm.length_eq]

/-- The same of a `DList`, whose ends and count are right afterwards. -/
def MovesBlock (list : DList α) (xs : List Nat) (fromIndex toIndex count : Nat) : Prop :=
  ∃ list', list.moveCount fromIndex toIndex count =
      .ok ((blockTarget xs.length fromIndex toIndex count : Nat), list') ∧
    list'.Holds (blockMoved xs fromIndex toIndex count) ∧ list'.self = list.self

theorem listMovesBlock_iff (h : list.Holds xs) (hlen : xs.length < 2 ^ 63)
    (hin : fromIndex < xs.length) (hto : toIndex < 2 ^ 63) (hcount : 1 ≤ count)
    (hle : count < 2 ^ 63) :
    list.MovesBlock xs fromIndex toIndex count ↔ BlockFits xs.length fromIndex toIndex count := by
  have hne : xs ≠ [] := List.ne_nil_of_length_pos (by omega)
  obtain ⟨b, hb, hbm⟩ := h.begin_mem hne
  constructor
  · rintro ⟨list', hmove, h', hself⟩
    by_contra hfit
    obtain ⟨i, items', hitem, hno⟩ := moveCount_misses h.chain hbm hlen hin hto hcount hle hfit
    rw [moveCount, hb, hitem, ok_bind] at hmove
    obtain ⟨begin_, -, hmove⟩ := bind_eq_ok.mp hmove
    obtain ⟨end_, -, hmove⟩ := bind_eq_ok.mp hmove
    cases hmove
    exact hno h'.chain
  · intro hfit
    obtain ⟨items', hitem, hchain⟩ := moveCount_fits h.chain hbm hlen hin hto hcount hle hfit
    rw [← hb] at hitem
    exact moveCount_holds h hne hitem hchain (perm_relocate xs _ _ _)

/-- A block comes to its new place exactly when it moves backward, or forward from the end of the
list, where it stays. -/
theorem moveCount_moves_iff (hto : toIndex ≤ LONG_MAX) (hcount : 1 ≤ count)
    (hle : count ≤ LONG_MAX) (fromIndex : Nat) :
    (∀ (items : Items α) q xs c, Chain (view items) q xs → c ∈ xs → Fits items →
      fromIndex < xs.length → (DListItem.MovesBlock items q xs c fromIndex toIndex count ↔
        BlockFits xs.length fromIndex toIndex count)) ∧
    ∀ (list : DList α) xs, list.Holds xs → Fits list.items → fromIndex < xs.length →
      (list.MovesBlock xs fromIndex toIndex count ↔
        BlockFits xs.length fromIndex toIndex count) := by
  unfold LONG_MAX at hto hle
  refine ⟨fun items q xs c h hc hmem hin => ?_, fun list xs h hmem hin => ?_⟩
  · have hcells := Heap.length_le (seg_iff_path.mpr ⟨rfl, h.dll.fwd⟩)
    unfold Fits PTRDIFF_MAX at hmem
    exact movesBlock_iff h hc (by omega) hin (by omega) hcount (by omega)
  · exact listMovesBlock_iff h (h.length_lt hmem) hin (by omega) hcount (by omega)

/-- The last two of three items come to the front. -/
theorem moveCount_moves_three : DListItem.MovesBlock three none [0, 1, 2] 0 1 0 2 :=
  ((moveCount_moves_iff (by decide) (by decide) (show 2 ≤ LONG_MAX by decide) 1).1 three none
    [0, 1, 2] 0 three_chain (by simp) (show 3 ≤ PTRDIFF_MAX by decide) (by decide)).mpr
    (.inl (by decide))

/-- The first of three items is not moved behind the second, and put to where it is, it is linked
to itself. -/
theorem moveCount_leaves_first : Chain (view three) none [0, 1, 2] ∧
    ¬DListItem.MovesBlock three none [0, 1, 2] 0 0 1 1 ∧
    ¬DListItem.MovesBlock three none [0, 1, 2] 0 0 0 1 := by
  refine ⟨three_chain, ?_, ?_⟩
  · rintro ⟨items', hmove, hchain, -⟩
    have hsame : DListItem.moveCount three (some 0) 0 1 1 = .ok (1, three) := by decide
    rw [hsame] at hmove
    cases hmove
    exact absurd hchain.dll.fwd.1 (by decide)
  · rintro ⟨items', hmove, -, hnothing, -⟩
    have hloop : DListItem.moveCount three (some 0) 0 0 1 = .ok (0, ⟨[
        some ⟨none, none, false, some 0, some 0⟩, some ⟨none, none, false, some 2, none⟩,
        some ⟨none, none, false, none, some 1⟩]⟩) := by decide
    rw [hloop] at hmove
    cases hmove
    exact absurd (hnothing rfl) (by decide)

end DList

end AlibC
