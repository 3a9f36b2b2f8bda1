import AlibC.DListDequeRuns
import AlibC.DListMarks
import AlibC.DListMoveCount

/-! Runs of all the calls of a `DList`: how long it stays well-formed. -/
namespace AlibC.DList

open CLang Function Linked Machine Reorder DListItem

variable {α β : Type} {list : DList α} {xs ys chain : List Nat}
  {a c self index item fromIndex toIndex count : Nat}

/-- The calls, each with what it is given. A chain is told by one of its items. -/
inductive Call (α : Type) where
  | pushBack (chain : List Nat) (item : Nat)
  | pushForward (chain : List Nat) (item : Nat)
  | insert (index : Nat) (chain : List Nat) (item : Nat)
  | insertAfter (curItm : Nat) (chain : List Nat) (newItm : Nat)
  | insertBefore (curItm : Nat) (chain : List Nat) (newItm : Nat)
  | move (fromIndex toIndex : Nat)
  | moveCount (fromIndex toIndex count : Nat)
  | remove (index : Nat)
  | removeCount (index count : Nat)
  | removeItem (item : Nat)
  | removeItemCount (item count : Nat)
  | mark (m : Mark)
  | removeMarkedItems
  | pullOut (index : Nat)
  | pullOutCount (index count : Nat)
  /-- What the program does to items that are not in the list. -/
  | others (items : Items α)

inductive Reply where
  | code (code : AlibError)
  | index (index : Int)
  | item (item : Option Nat)
deriving DecidableEq, Repr

def reply (f : β → Reply) (r : Outcome (β × DList α)) : Outcome (Reply × DList α) := do
  let (b, list) ← r
  return (f b, list)

def call (list : DList α) : Call α → Outcome (Reply × DList α)
  | .pushBack _ item => reply .code (list.pushBack (some item))
  | .pushForward _ item => reply .code (list.pushForward (some item))
  | .insert index _ item => reply .code (list.insert index (some item))
  | .insertAfter curItm _ newItm => reply .code (list.insertAfter (some curItm) (some newItm))
  | .insertBefore curItm _ newItm => reply .code (list.insertBefore (some curItm) (some newItm))
  | .move fromIndex toIndex => reply .index (list.move fromIndex toIndex)
  | .moveCount fromIndex toIndex count => reply .index (list.moveCount fromIndex toIndex count)
  | .remove index => reply .code (list.remove index)
  | .removeCount index count => reply .code (list.removeCount index count)
  | .removeItem item => reply .code (list.removeItem (some item))
  | .removeItemCount item count => reply .code (list.removeItemCount (some item) count)
  | .mark m => reply .code (list.markBy m)
  | .removeMarkedItems => do
    let list ← list.removeMarkedItems
    return (.code .ok, list)
  | .pullOut index => reply .item (list.pullOut index)
  | .pullOutCount index count => reply .item (list.pullOutCount index count)
  | .others items => .ok (.code .ok, { list with items })

/-- What a caller has to see to: a chain that is put in has no parent, an item of the list is given
where one is asked for, indices and counts are a `size_t`, and the rest of the program does not
write to the items of the list. There are never more items than addresses. -/
def Call.Admitted (list : DList α) (call : Call α) : Prop :=
  Fits list.items ∧
  match call with
  | .pushBack chain item | .pushForward chain item | .insert _ chain item =>
    Chain (view list.items) none chain ∧ item ∈ chain
  | .insertAfter curItm chain newItm | .insertBefore curItm chain newItm =>
    (∃ xs, list.Holds xs ∧ curItm ∈ xs) ∧ Chain (view list.items) none chain ∧ newItm ∈ chain
  | .move fromIndex toIndex => fromIndex ≤ ULONG_MAX ∧ toIndex ≤ ULONG_MAX
  | .moveCount fromIndex toIndex count =>
    fromIndex ≤ ULONG_MAX ∧ toIndex ≤ ULONG_MAX ∧ count ≤ ULONG_MAX
  | .removeCount _ count | .pullOutCount _ count => count ≤ ULONG_MAX
  | .removeItem item => ∃ xs, list.Holds xs ∧ item ∈ xs
  | .removeItemCount item count => (∃ xs, list.Holds xs ∧ item ∈ xs) ∧ count ≤ ULONG_MAX
  | .mark m => ∃ xs, list.Holds xs ∧ m.Own xs
  | .others items => ∃ xs, list.Holds xs ∧ ∀ a ∈ xs, items.cell a = list.items.cell a
  | .remove _ | .pullOut _ | .removeMarkedItems => True

/-- The moves that leave a list of `n` items well-formed. -/
def MoveKeeps (n fromIndex toIndex : Nat) : Prop :=
  fromIndex = toIndex ∨ n = 1 ∨ n = 0 ∧ fromIndex ≠ 0 ∧ fromIndex ≠ ULONG_MAX ∨
    2 ≤ n ∧ (toIndex < fromIndex ∨ n ≤ fromIndex ∨
      toIndex ≠ n - 1 ∧ toIndex - fromIndex < 2 ^ 63)

/-- The moves of a block that do. -/
def MoveCountKeeps (n fromIndex toIndex count : Nat) : Prop :=
  n ≤ fromIndex ∨ 1 ≤ count ∧ count ≤ 2 ^ 63 ∧
    (toIndex < fromIndex ∨
      fromIndex < toIndex ∧ (n ≤ fromIndex + count ∨ toIndex - fromIndex < 2 ^ 63))

/-- The ranges in it that can be taken out. -/
def RangeKeeps (n index count : Nat) : Prop :=
  index = 0 ∨ index + count ≤ n ∨ index + 1 = n ∧ (n ≤ 2 ∨ count ≤ 2 ^ 63)

/-- The calls after which the list is well-formed if it was so before. -/
def Call.Keeps (list : DList α) : Call α → Prop
  | .insert index _ _ => index ≠ 0 ∨ list.count = 0
  | .insertBefore curItm chain _ => list.beginItem ≠ some curItm ∧ chain.length = 1
  | .move fromIndex toIndex => MoveKeeps list.count fromIndex toIndex
  | .moveCount fromIndex toIndex count => MoveCountKeeps list.count fromIndex toIndex count
  | .removeCount index count => list.count ≤ index ∨ RangeKeeps list.count index count
  | .removeItemCount item count => ∀ xs, list.Holds xs →
      list.count ≤ ownIndex xs (some item) ∨ RangeKeeps list.count (ownIndex xs (some item)) count
  | .removeMarkedItems => list.itemsReadyForRemoval = true →
      ∀ e, list.endItem = some e → marked list.items e = false
  | .pullOutCount index count => index < list.count ∧ RangeKeeps list.count index count ∨
      list.count = 0 ∧ (index = 0 ∨ index = ULONG_MAX ∨ sizeAdd index count ≠ 0)
  | _ => True

/-- The call ends, and the list is well-formed. -/
def StaysWellFormed (list : DList α) (r : Outcome (β × DList α)) : Prop :=
  ∃ out list' ys, r = .ok (out, list') ∧ list'.Holds ys ∧ list'.self = list.self

theorem StaysWellFormed.reply {r : Outcome (β × DList α)} (h : list.StaysWellFormed r)
    (f : β → Reply) : list.StaysWellFormed (reply f r) := by
  obtain ⟨out, list', ys, rfl, h', hself⟩ := h
  exact ⟨f out, list', ys, rfl, h', hself⟩

theorem Holds.stays (h : list.Holds xs) {r : Outcome (β × DList α)} {out : β}
    (hr : r = .ok (out, list)) : list.StaysWellFormed r := ⟨out, list, xs, hr, h, rfl⟩

theorem move_keeps (h : list.Holds xs) (hlt : xs.length < 2 ^ 63) (hfrom : fromIndex < 2 ^ 64)
    (hto : toIndex < 2 ^ 64) (hkeeps : MoveKeeps xs.length fromIndex toIndex) :
    list.StaysWellFormed (list.move fromIndex toIndex) := by
  have hcount := h.count_eq
  by_cases hsame : fromIndex = toIndex ∨ list.count = 1
  · exact h.stays (if_pos hsame)
  · rw [not_or, hcount] at hsame
    rw [MoveKeeps] at hkeeps
    by_cases hnil : xs.length = 0
    · obtain rfl : xs = [] := List.eq_nil_of_length_eq_zero hnil
      exact h.stays (move_empty h hsame.1 (by omega) (by omega))
    · have hlen : 2 ≤ xs.length := by omega
      by_cases hout : xs.length ≤ fromIndex
      · exact h.stays (move_out_of_range h hlt hlen hfrom hsame.1 (.inl hout))
      · rcases @move_cases Nat xs fromIndex toIndex (by omega) with (heq | ⟨pre, a, rfl, rfl, hft⟩) |
          ⟨pre, a, mid, post, rfl, rfl, hft, hmid, hmin⟩ | ⟨pre, t, mid, a, post, rfl, rfl, rfl⟩
        · exact absurd heq hsame.1
        · -- the last item is moved behind itself
          rw [List.length_append, List.length_singleton] at hlen hkeeps
          exact h.stays (move_stay h (List.ne_nil_of_length_pos (by omega)) hlt hto
            (by rw [List.length_append, List.length_singleton]; omega) (by omega))
        · obtain ⟨list', hmove, hself, hiff⟩ :=
            move_ahead_holds h hmid hlt hto hft (by omega) hmin
          exact ⟨_, list', _, hmove, hiff.mpr (by omega), hself⟩
        · obtain ⟨list', hmove, h', hself⟩ := move_back h hlt
          exact ⟨_, list', _, hmove, h', hself⟩

theorem moveCount_keeps (h : list.Holds xs) (hlt : xs.length < 2 ^ 63)
    (hfrom : fromIndex < 2 ^ 64) (hto : toIndex < 2 ^ 64)
    (hkeeps : MoveCountKeeps xs.length fromIndex toIndex count) :
    list.StaysWellFormed (list.moveCount fromIndex toIndex count) := by
  by_cases hnil : xs = []
  · subst hnil
    obtain ⟨items, self, b, e, n, flag, dropped⟩ := list
    obtain rfl : b = none := h.begin_eq
    obtain rfl : e = none := h.end_eq
    exact ⟨AlibError.badArg.code, _, [], rfl, h, rfl⟩
  · have hitem : ∃ i items' zs, DListItem.moveCount list.items list.beginItem fromIndex toIndex
        count = .ok (i, items') ∧ Chain (view items') (some list.self) zs ∧ zs.Perm xs := by
      obtain ⟨b, hb, hbm⟩ := h.begin_mem hnil
      rw [hb]
      by_cases hout : xs.length ≤ fromIndex
      · exact ⟨_, _, xs, moveCount_refused h.chain hbm hfrom (.inl hout), h.chain, List.Perm.refl xs⟩
      · obtain ⟨hcount, hle, hcond⟩ := hkeeps.resolve_left hout
        obtain ⟨pre, ys, rest, rfl, rfl, hne, hys⟩ :=
          exists_block (Nat.lt_of_not_le hout) hcount
        have hlen : (pre ++ ys ++ rest).length = pre.length + (ys.length + rest.length) := by simp
        rcases hcond with hback | ⟨hahead, hcond⟩
        · obtain ⟨pre, t, mid, rfl, rfl, -⟩ := exists_item hback
          have hx : pre ++ t :: mid ++ ys ++ rest = pre ++ t :: (mid ++ ys ++ rest) := by simp
          obtain ⟨items', hmove, hchain⟩ := moveCount_backward (hx ▸ h.chain) hne (hx ▸ hbm) rfl
            (show (pre ++ t :: mid).length = _ by simp) hcount hle hys (hx ▸ hlt)
          refine ⟨_, items', _, hmove, hchain, ?_⟩
          rw [hx, List.append_assoc]
          refine List.Perm.append_left pre ?_
          rw [List.append_assoc mid]
          exact List.perm_middle.trans (List.Perm.cons t (List.perm_append_comm_assoc ys mid rest))
        · by_cases hend : (pre ++ ys ++ rest).length ≤ pre.length + count
          · exact ⟨_, _, _, moveCount_last h.chain hbm (by omega) hahead hcount hle hend, h.chain,
              List.Perm.refl _⟩
          · rw [List.length_append] at hys
            obtain ⟨items', mid, t, post, hmove, hchain, rfl, -⟩ :=
              moveCount_forward h.chain hne (List.ne_nil_of_length_pos (by omega)) hbm rfl
                (show count = ys.length by omega) hle hahead hto (by omega)
            refine ⟨_, items', _, hmove, hchain, ?_⟩
            rw [List.append_assoc, List.append_assoc, List.append_assoc]
            exact List.Perm.append_left pre (List.perm_append_comm_assoc mid ys (t :: post))
    obtain ⟨i, items', zs, hmove, hchain, hperm⟩ := hitem
    obtain ⟨list', hr, h', hself⟩ := moveCount_holds h hnil hmove hchain hperm
    exact ⟨i, list', zs, hr, h', hself⟩

/-- When no item is asked for nothing is pulled out. -/
theorem pullOutCount_zero (h : list.Holds xs) (hlt : xs.length < 2 ^ 63)
    (hin : index < xs.length) : list.pullOutCount index 0 = .ok (none, list) := by
  have hcount := h.count_eq
  have hop : ∀ p, DListItem.pullOutCount 0 list.items p = .ok (none, p, list.items) := by
    intro p
    cases p with
    | none => rfl
    | some a => rfl
  have htake : list.takeCount index 0 = .ok (none, list) := by
    obtain ⟨b, hb, -⟩ := h.begin_mem (List.ne_nil_of_length_pos (by omega))
    rw [takeCount]
    by_cases hzero : index = 0
    · rw [if_pos hzero, takeBegin, hop, ok_bind]
      dsimp only
      rw [if_neg (by rw [hb]; exact Option.some_ne_none b)]
      rfl
    · rw [if_neg hzero]
      by_cases hlast : index = sizeSub list.count 1
      · rw [if_pos hlast, takeEnd, hop]
        rfl
      · rw [if_neg hlast, h.seek_of_lt hlt hin, ok_bind, cutEnd,
          if_neg (by rw [sizeAdd_eq (by omega)]; omega), ok_bind, takeItem, hop]
        rfl
  rw [pullOutCount, htake, ok_bind]
  dsimp only
  rw [DListItem.count, ok_bind, sizeSub_eq (by omega) (Nat.zero_le _)]
  rfl

/-- What was pulled out is a chain of its own. -/
theorem pullOutCount_keeps (h : list.Holds xs) (hlt : xs.length < 2 ^ 63)
    (hin : index < xs.length) (hmax : count < 2 ^ 64) (hkeeps : RangeKeeps xs.length index count) :
    ∃ list' ys zs, list.pullOutCount index count = .ok (ys.head?, list') ∧ list'.Holds zs ∧
      list'.self = list.self ∧ Chain (view list'.items) none ys := by
  rw [RangeKeeps] at hkeeps
  by_cases hcount : count = 0
  · subst hcount
    exact ⟨list, [], xs, pullOutCount_zero h hlt hin, h, rfl, ⟨⟨trivial, trivial⟩,
      fun a ha => absurd ha List.not_mem_nil⟩⟩
  · by_cases hfit : RangeFits xs.length index count
    · obtain ⟨list', hr, h', hself, hy⟩ := pulls_of_fits h hlt hin (by omega) hmax hfit
      obtain ⟨pre, ys, rest, rfl, rfl, hne, hys, hrange, hleft, hget⟩ :=
        exists_range hin (show 1 ≤ count by omega)
      rw [hget] at hr
      rw [hrange] at hy
      exact ⟨list', ys, _, hr, h', hself, hy⟩
    · -- only the first item is pulled out
      rw [RangeFits] at hfit
      obtain rfl : index = 0 := by omega
      obtain ⟨a, post, rfl⟩ := List.exists_cons_of_ne_nil (List.ne_nil_of_length_pos hin)
      obtain ⟨list', hr, h', hself, hy⟩ := pullOutCount_first h hlt (by omega) hmax
      exact ⟨list', [a], post, hr, h', hself, hy⟩

theorem removeCount_keeps (h : list.Holds xs) (hlt : xs.length < 2 ^ 63) (hmax : count < 2 ^ 64)
    (hkeeps : xs.length ≤ index ∨ RangeKeeps xs.length index count) :
    list.StaysWellFormed (list.removeCount index count) := by
  have hcount := h.count_eq
  by_cases hin : index < xs.length
  · obtain ⟨list₁, ys, zs, hpull, h₁, hself₁, hy⟩ :=
      pullOutCount_keeps h hlt hin hmax (hkeeps.resolve_left (by omega))
    obtain ⟨list', hr, h', hself, -⟩ := removeCount_of_pull (by omega) hpull h₁ hy
    exact ⟨_, list', zs, hr, h', hself.trans hself₁⟩
  · exact h.stays (if_pos (by omega))

/-- A single item can be put in before one that is not the first. -/
theorem insertBefore_keeps (h : list.Holds xs) (hlt : xs.length < 2 ^ 63) (ha : a ∈ xs)
    (hchain : Chain (view list.items) none chain) (hc : c ∈ chain)
    (hfirst : list.beginItem ≠ some a) (hone : chain.length = 1) :
    list.StaysWellFormed (list.insertBefore (some a) (some c)) := by
  obtain ⟨b, rfl⟩ := List.length_eq_one_iff.mp hone
  obtain rfl := List.mem_singleton.mp hc
  obtain ⟨pre, post, rfl⟩ := List.append_of_mem ha
  have hpre : pre ≠ [] := by
    rintro rfl
    exact hfirst h.begin_eq
  obtain ⟨list', hr, h', hself⟩ := insertBefore_single h hpre hchain (by omega)
  exact ⟨_, list', _, hr, h', hself⟩

/-- A list in which nothing is marked is not looked through. -/
theorem removeMarkedItems_keeps (h : list.Holds xs) (hlt : xs.length < 2 ^ 63)
    (hkeeps : list.itemsReadyForRemoval = true →
      ∀ e, list.endItem = some e → marked list.items e = false) :
    ∃ list' ys, list.removeMarkedItems = .ok list' ∧ list'.Holds ys ∧ list'.self = list.self := by
  cases hflag : list.itemsReadyForRemoval with
  | false => exact ⟨list, xs, if_neg (by simp [hflag]), h, rfl⟩
  | true =>
    obtain ⟨list', hr, h', hself, -⟩ := (removeMarkedItems_iff h hlt hflag).mpr
      (fun e he => hkeeps hflag e (h.end_eq.trans he))
    exact ⟨list', _, hr, h', hself⟩

/-- Each call that keeps the list well-formed does not fault either. -/
theorem call_keeps (h : list.Holds xs) {c : Call α} (hok : c.Admitted list) (hkeeps : c.Keeps list) :
    list.StaysWellFormed (call list c) := by
  obtain ⟨hmem, hok⟩ := hok
  have hlt := h.length_lt hmem
  have hcount := h.count_eq
  cases c with
  | pushBack chain item =>
    obtain ⟨u, w, rfl⟩ := List.append_of_mem hok.2
    obtain ⟨list', hr, h', hself⟩ := pushBack_eq h hok.1 (lengths_lt h hok.1 hmem)
    exact StaysWellFormed.reply ⟨_, list', _, hr, h', hself⟩ .code
  | pushForward chain item =>
    obtain ⟨u, w, rfl⟩ := List.append_of_mem hok.2
    obtain ⟨list', hr, h', hself⟩ := pushForward_eq h hok.1 (lengths_lt h hok.1 hmem)
    exact StaysWellFormed.reply ⟨_, list', _, hr, h', hself⟩ .code
  | insert index chain item =>
    obtain ⟨u, w, rfl⟩ := List.append_of_mem hok.2
    obtain ⟨list', hr, h', hself⟩ := insert_placed h hmem hok.1
      (hkeeps.symm.imp_left fun hz => List.eq_nil_of_length_eq_zero (hcount ▸ hz))
    exact StaysWellFormed.reply ⟨_, list', _, hr, h', hself⟩ .code
  | insertAfter curItm chain newItm =>
    obtain ⟨⟨ys, hys, hcur⟩, hchain, hnew⟩ := hok
    obtain ⟨code, -, hr⟩ := insertAfter_refused (hys.chain.par_eq curItm hcur)
      (hchain.par_eq newItm hnew)
    exact (h.stays hr).reply .code
  | insertBefore curItm chain newItm =>
    obtain ⟨⟨ys, hys, hcur⟩, hchain, hnew⟩ := hok
    cases h.unique hys
    exact (insertBefore_keeps h hlt hcur hchain hnew hkeeps.1 hkeeps.2).reply .code
  | move fromIndex toIndex =>
    rw [Call.Keeps, hcount] at hkeeps
    exact (move_keeps h hlt (lt_of_le_max hok.1) (lt_of_le_max hok.2) hkeeps).reply .index
  | moveCount fromIndex toIndex count =>
    rw [Call.Keeps, hcount] at hkeeps
    exact (moveCount_keeps h hlt (lt_of_le_max hok.1) (lt_of_le_max hok.2.1) hkeeps).reply .index
  | remove index =>
    by_cases hin : index < xs.length
    · obtain ⟨list', hr, h', hself⟩ := remove_eq h hlt hin
      exact StaysWellFormed.reply ⟨_, list', _, hr, h', hself⟩ .code
    · exact (h.stays (show list.remove index = _ from if_pos (by omega))).reply .code
  | removeCount index count =>
    rw [Call.Keeps, hcount] at hkeeps
    exact (removeCount_keeps h hlt (lt_of_le_max hok) hkeeps).reply .code
  | removeItem item =>
    obtain ⟨ys, hys, hitem⟩ := hok
    cases h.unique hys
    obtain ⟨list', hr, h', hself, -⟩ := removeItem_eq h hlt hitem
    exact StaysWellFormed.reply ⟨_, list', _, hr, h', hself⟩ .code
  | removeItemCount item count =>
    obtain ⟨⟨ys, hys, hitem⟩, hmax⟩ := hok
    cases h.unique hys
    have hkeeps := hkeeps xs h
    rw [hcount] at hkeeps
    rw [call, (h.counted_eq hitem count).1]
    exact (removeCount_keeps h hlt (lt_of_le_max hmax) hkeeps).reply .code
  | mark m =>
    obtain ⟨ys, hys, hown⟩ := hok
    cases h.unique hys
    obtain ⟨code, list', hr, hmarked⟩ := markBy_eq h hlt hown
    exact StaysWellFormed.reply ⟨_, list', _, hr, hmarked.holds, hmarked.self_eq⟩ .code
  | removeMarkedItems =>
    obtain ⟨list', ys, hr, h', hself⟩ := removeMarkedItems_keeps h hlt hkeeps
    rw [call, hr]
    exact ⟨.code .ok, list', ys, rfl, h', hself⟩
  | pullOut index =>
    by_cases hin : index < xs.length
    · obtain ⟨a, list', -, hr, h', hself, -⟩ := pullOut_eq h hlt hin
      exact StaysWellFormed.reply ⟨_, list', _, hr, h', hself⟩ .item
    · exact (h.stays (show list.pullOut index = _ from if_pos (by omega))).reply .item
  | pullOutCount index count =>
    rw [Call.Keeps, hcount] at hkeeps
    rcases hkeeps with ⟨hin, hkeeps⟩ | ⟨hnil, hcond⟩
    · obtain ⟨list', ys, zs, hr, h', hself, -⟩ :=
        pullOutCount_keeps h hlt hin (lt_of_le_max hok) hkeeps
      exact StaysWellFormed.reply ⟨_, list', zs, hr, h', hself⟩ .item
    · obtain rfl := List.eq_nil_of_length_eq_zero hnil
      exact (h.stays ((pullOutCount_empty_iff h index count).mpr hcond)).reply .item
  | others items =>
    obtain ⟨ys, hys, hc⟩ := hok
    cases h.unique hys
    exact ⟨.code .ok, _, xs, rfl, others_holds h hc, rfl⟩

theorem freeItems_chain : Chain (view freeItems) none [1, 2] := by
  refine ⟨⟨⟨rfl, rfl, trivial⟩, rfl, rfl, trivial⟩, fun a ha => ?_⟩
  rcases List.mem_cons.mp ha with rfl | ha
  · rfl
  · cases List.mem_singleton.mp ha
    rfl

end AlibC.DList
