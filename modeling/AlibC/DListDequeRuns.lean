import AlibC.DListDeque

/-! Runs of a `DList` used as a deque, against a plain list of items. -/
namespace AlibC.DList

open CLang Function Linked Machine DListItem

variable {α : Type} {list : DList α} {xs : List Nat} {item self : Nat}

/-- The calls, each with what it is given. A chain is told by one of its items. -/
inductive Op (α : Type) where
  | pushBack (chain : List Nat) (item : Nat)
  | pushForward (chain : List Nat) (item : Nat)
  | remove (index : Nat)
  | pullOut (index : Nat)
  | removeItem (item : Nat)
  | get (index : Nat)
  /-- What the program does to items that are not in the list. -/
  | others (items : Items α)

inductive Out where
  | code (code : AlibError)
  | item (item : Option Nat)
deriving DecidableEq, Repr

def step (list : DList α) : Op α → Outcome (Out × DList α)
  | .pushBack _ item => do
    let (code, list) ← list.pushBack (some item)
    return (.code code, list)
  | .pushForward _ item => do
    let (code, list) ← list.pushForward (some item)
    return (.code code, list)
  | .remove index => do
    let (code, list) ← list.remove index
    return (.code code, list)
  | .pullOut index => do
    let (pulled, list) ← list.pullOut index
    return (.item pulled, list)
  | .removeItem item => do
    let (code, list) ← list.removeItem (some item)
    return (.code code, list)
  | .get index => do return (.item (← list.get index), list)
  | .others items => .ok (.code .ok, { list with items })

/-- The plain list that the items form from the first to the last. -/
def deque (xs : List Nat) : Op α → Out × List Nat
  | .pushBack chain _ => (.code .ok, xs ++ chain)
  | .pushForward chain _ => (.code .ok, chain ++ xs)
  | .remove index =>
    if index < xs.length then (.code .ok, xs.eraseIdx index) else (.code .badArg, xs)
  | .pullOut index => (.item xs[index]?, xs.eraseIdx index)
  | .removeItem item => (.code .ok, xs.erase item)
  | .get index => (.item xs[index]?, xs)
  | .others _ => (.code .ok, xs)

/-- What is pushed is a chain without a parent, what is removed by its address is in the list,
and the rest of the program does not write to the items of the list. There are never more
items than addresses. -/
def Op.Admitted (list : DList α) : Op α → Prop
  | .pushBack chain item | .pushForward chain item =>
    Chain (view list.items) none chain ∧ item ∈ chain ∧ list.count + chain.length ≤ PTRDIFF_MAX
  | .removeItem item => ∃ xs, list.Holds xs ∧ item ∈ xs
  | .others items => ∃ xs, list.Holds xs ∧ ∀ a ∈ xs, items.cell a = list.items.cell a
  | _ => True

/-- An item out of every list. -/
def Detached (items : Items α) (a : Nat) : Prop :=
  ∃ x, items.cell a = some x ∧ x.next = none ∧ x.prev = none ∧ x.parent = none

/-- What a call does besides changing the order: an index that is out of range is refused and
changes nothing, looking an item up changes nothing, and a pulled item is detached. -/
def Effect (list : DList α) (op : Op α) (out : Out) (list' : DList α) : Prop :=
  match op, out with
  | .remove index, _ => list.count ≤ index → list' = list
  | .pullOut index, .item none => list.count ≤ index ∧ list' = list
  | .pullOut _, .item (some a) => Detached list'.items a
  | .get _, _ => list' = list
  | _, _ => True

/-- The list is well-formed, and there are not more items than addresses. -/
structure Deque (list : DList α) (xs : List Nat) : Prop where
  holds : list.Holds xs
  length_le : xs.length ≤ PTRDIFF_MAX

theorem Deque.lt (h : Deque list xs) : xs.length < 2 ^ 63 :=
  Nat.lt_of_le_of_lt h.length_le (by decide)

theorem Deque.erase (h : Deque list xs) {list' : DList α} {ys : List Nat} (h' : list'.Holds ys)
    (hle : ys.length ≤ xs.length) : Deque list' ys :=
  ⟨h', Nat.le_trans hle h.length_le⟩

theorem new_deque (items : Items α) (self : Nat) (flag : Bool) : Deque (new items self flag) [] :=
  ⟨⟨⟨⟨trivial, trivial⟩, fun _ ha => absurd ha List.not_mem_nil⟩, rfl, rfl, rfl⟩, Nat.zero_le _⟩

theorem others_holds (h : list.Holds xs) {items : Items α}
    (hc : ∀ a ∈ xs, items.cell a = list.items.cell a) : Holds { list with items } xs := by
  refine ⟨h.chain.congr fun a ha => ?_, h.begin_eq, h.end_eq, h.count_eq⟩
  simp only [view, Heap.links, hc a ha, and_self]

theorem detached_of_chain {items : Items α} {a : Nat} (h : Chain (view items) none [a]) :
    Detached items a := by
  obtain ⟨x, hx⟩ := exists_cell_of_link h.dll.fwd.1
  have hn := h.dll.fwd.1
  have hp := h.dll.bwd.1
  have hpar := h.par_eq a (List.mem_singleton_self a)
  simp only [view, Heap.links_eq hx] at hn hp hpar
  exact ⟨x, hx, Option.some.inj hn, Option.some.inj hp, Option.some.inj hpar⟩

theorem step_deque (h : Deque list xs) {op : Op α} (hok : op.Admitted list) :
    ∃ list', step list op = .ok ((deque xs op).1, list') ∧ Deque list' (deque xs op).2 ∧
      Effect list op (deque xs op).1 list' := by
  have hlt := h.lt
  have hcount := h.holds.count_eq
  cases op with
  | pushBack chain item =>
    obtain ⟨hy, hitem, hfit⟩ := hok
    obtain ⟨u, w, rfl⟩ := List.append_of_mem hitem
    rw [hcount] at hfit
    obtain ⟨list', hr, h', -⟩ := pushBack_eq h.holds hy (Nat.lt_of_le_of_lt hfit (by decide))
    refine ⟨list', by rw [step, hr]; rfl, ⟨h', ?_⟩, trivial⟩
    rw [deque, List.length_append]
    exact hfit
  | pushForward chain item =>
    obtain ⟨hy, hitem, hfit⟩ := hok
    obtain ⟨u, w, rfl⟩ := List.append_of_mem hitem
    rw [hcount] at hfit
    obtain ⟨list', hr, h', -⟩ := pushForward_eq h.holds hy (Nat.lt_of_le_of_lt hfit (by decide))
    refine ⟨list', by rw [step, hr]; rfl, ⟨h', ?_⟩, trivial⟩
    rw [deque, List.length_append, Nat.add_comm]
    exact hfit
  | remove index =>
    rw [deque]
    by_cases hi : index < xs.length
    · rw [if_pos hi]
      obtain ⟨list', hr, h', -⟩ := remove_eq h.holds hlt hi
      exact ⟨list', by rw [step, hr]; rfl, h.erase h' (List.length_eraseIdx_le xs index),
        fun hc => absurd hi (by omega)⟩
    · rw [if_neg hi]
      refine ⟨list, ?_, h, fun _ => rfl⟩
      rw [step, remove, if_pos (by omega)]
      rfl
  | pullOut index =>
    by_cases hi : index < xs.length
    · obtain ⟨a, list', hget, hr, h', -, hd⟩ := pullOut_eq h.holds hlt hi
      rw [deque, hget]
      exact ⟨list', by rw [step, hr]; rfl, h.erase h' (List.length_eraseIdx_le xs index),
        detached_of_chain hd⟩
    · have hge := Nat.le_of_not_lt hi
      rw [deque, List.getElem?_eq_none hge, List.eraseIdx_of_length_le hge]
      refine ⟨list, ?_, h, hcount ▸ hge, rfl⟩
      rw [step, pullOut, if_pos (by omega)]
      rfl
  | removeItem item =>
    obtain ⟨ys, hys, hitem⟩ := hok
    cases h.holds.unique hys
    obtain ⟨list', hr, h', -⟩ := removeItem_eq h.holds hlt hitem
    exact ⟨list', by rw [step, hr]; rfl, h.erase h' (List.length_erase_le), trivial⟩
  | get index => exact ⟨list, by rw [step, get_eq h.holds hlt]; rfl, h, rfl⟩
  | others items =>
    obtain ⟨ys, hys, hc⟩ := hok
    cases h.holds.unique hys
    exact ⟨_, rfl, ⟨others_holds h.holds hc, h.length_le⟩, trivial⟩

/-- From a new list on, the calls return what the plain list returns, and the items are in its
order, now and after any further call. -/
theorem run_refines_deque {items : Items α} {flag : Bool} {ops : List (Op α)}
    (hok : AllSteps step (fun list op => op.Admitted list) (new items self flag) ops) :
    ∃ list, run step (new items self flag) ops = .ok ((trace deque [] ops).1, list) ∧
      list.Holds (trace deque [] ops).2 ∧
      ∀ op : Op α, op.Admitted list →
        ∃ list', step list op = .ok ((deque (trace deque [] ops).2 op).1, list') ∧
          list'.Holds (deque (trace deque [] ops).2 op).2 ∧
          Effect list op (deque (trace deque [] ops).2 op).1 list' := by
  obtain ⟨list, hr, h⟩ := run_simulates_steps (R := Deque) (fun list xs op h hok => by
    obtain ⟨list', hs, h', -⟩ := step_deque h hok
    exact ⟨list', hs, h'⟩) ops _ [] (new_deque items self flag) hok
  refine ⟨list, hr, h.holds, fun op hop => ?_⟩
  obtain ⟨list', hs, h', heff⟩ := step_deque h hop
  exact ⟨list', hs, h'.holds, heff⟩

/-- An item and a chain of two. -/
def freeItems : Items Nat :=
  ⟨[some ⟨some 5, none, false, none, none⟩, some ⟨some 6, none, false, some 2, none⟩,
    some ⟨some 7, none, false, none, some 1⟩]⟩

theorem run_refines_deque_three :
    ∃ list, run step (new freeItems 9 false)
        [.pushBack [0] 0, .pushForward [1, 2] 2, .pullOut 1, .remove 7, .removeItem 0] =
        .ok ([.code .ok, .code .ok, .item (some 2), .code .badArg, .code .ok], list) ∧
      list.Holds [1] ∧ ∀ op : Op Nat, op.Admitted list → ∃ list',
        step list op = .ok ((deque [1] op).1, list') ∧ list'.Holds (deque [1] op).2 ∧
          Effect list op (deque [1] op).1 list' := by
  refine @run_refines_deque Nat 9 freeItems false
    [.pushBack [0] 0, .pushForward [1, 2] 2, .pullOut 1, .remove 7, .removeItem 0] ?_
  refine AllSteps.cons ⟨⟨⟨⟨rfl, trivial⟩, ⟨rfl, trivial⟩⟩, ?_⟩, by simp, by decide⟩
    (show step _ _ = .ok (.code .ok, ⟨⟨[some ⟨some 5, some 9, false, none, none⟩,
      some ⟨some 6, none, false, some 2, none⟩, some ⟨some 7, none, false, none, some 1⟩]⟩,
      9, some 0, some 0, 1, false, []⟩) from rfl) ?_
  · intro a ha
    cases List.mem_singleton.mp ha
    rfl
  refine AllSteps.cons ⟨⟨⟨⟨rfl, rfl, trivial⟩, ⟨rfl, rfl, trivial⟩⟩, ?_⟩, by simp, by decide⟩
    (show step _ _ = .ok (.code .ok, ⟨⟨[some ⟨some 5, some 9, false, none, some 2⟩,
      some ⟨some 6, some 9, false, some 2, none⟩, some ⟨some 7, some 9, false, some 0, some 1⟩]⟩,
      9, some 1, some 0, 3, false, []⟩) from rfl) ?_
  · intro a ha
    rcases List.mem_cons.mp ha with rfl | ha
    · rfl
    · cases List.mem_singleton.mp ha
      rfl
  refine AllSteps.cons trivial
    (show step _ _ = .ok (.item (some 2), ⟨⟨[some ⟨some 5, some 9, false, none, some 1⟩,
      some ⟨some 6, some 9, false, some 0, none⟩, some ⟨some 7, none, false, none, none⟩]⟩,
      9, some 1, some 0, 2, false, []⟩) from rfl) ?_
  refine AllSteps.cons trivial
    (show step _ _ = .ok (.code .badArg, ⟨⟨[some ⟨some 5, some 9, false, none, some 1⟩,
      some ⟨some 6, some 9, false, some 0, none⟩, some ⟨some 7, none, false, none, none⟩]⟩,
      9, some 1, some 0, 2, false, []⟩) from rfl) ?_
  refine AllSteps.cons ⟨[1, 0], ⟨⟨⟨⟨rfl, rfl, trivial⟩, ⟨rfl, rfl, trivial⟩⟩, ?_⟩, rfl, rfl, rfl⟩,
    by simp⟩ (show step _ _ = .ok (.code .ok, ⟨⟨[none, some ⟨some 6, some 9, false, none, none⟩,
      some ⟨some 7, none, false, none, none⟩]⟩, 9, some 1, some 1, 1, false, [5]⟩) from rfl) trivial
  intro a ha
  rcases List.mem_cons.mp ha with rfl | ha
  · rfl
  · cases List.mem_singleton.mp ha
    rfl

end AlibC.DList
