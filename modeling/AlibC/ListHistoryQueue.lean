import AlibC.ListHistoryRuns
import AlibC.Lib.BoundedQueue

/-! A `ListHistory` with a maximum is a queue that keeps its latest items. -/
namespace AlibC.ListHistory

open CLang Function Linked Machine ListHistoryItem

variable {α R : Type} {hist : ListHistory α R} {m : Nat} {q : BoundedQueue (α × Option R)}
  {pushed : List (α × Option R)}

/-- The calls `Push_Back` and `Pop_Off`. -/
inductive QueueCall (α R : Type) where
  | pushBack (item : Option α) (removeFunc : Option R) (compareFunc : Option (α → α → Int))
  | popOff

/-- Memory is found for every item. -/
def QueueCall.op : QueueCall α R → Op α R
  | .pushBack item removeFunc compareFunc => .pushBack true item removeFunc compareFunc
  | .popOff => .popOff

/-- What a call puts into the queue, if anything. -/
def QueueCall.entry : QueueCall α R → Option (α × Option R)
  | .pushBack item removeFunc _ => item.map (·, removeFunc)
  | .popOff => none

def QueueCall.answer : QueueCall α R → Int
  | .pushBack none _ _ => AlibError.badArg.code
  | .pushBack (some _) _ _ | .popOff => AlibError.ok.code

/-- The same on a queue. -/
def QueueCall.queued (m : Nat) (q : BoundedQueue (α × Option R)) :
    QueueCall α R → BoundedQueue (α × Option R)
  | .pushBack none _ _ => q
  | .pushBack (some item) removeFunc _ => q.push m (item, removeFunc)
  | .popOff => q.pop

/-- The call of the remove callback of an item, if it has one. -/
def removeCall (e : α × Option R) : List (R × α) := (e.2.map (·, e.1)).toList

theorem removeCalls_eq (it : ListHistoryItem α R) :
    it.removeCalls = removeCall (it.listItem, it.removeCallback) := by
  rw [removeCalls, removeCall]
  cases it.removeCallback with
  | none => rfl
  | some f => rfl

/-- The chain has the items that the queue holds, and the callbacks were given those that are gone. -/
structure Stores (hist : ListHistory α R) (q : BoundedQueue (α × Option R)) (as : List Nat) :
    Prop where
  holds : hist.Holds as
  values : as.map (entry hist.items) = q.held.map some
  removed_eq : hist.removed = q.gone.flatMap removeCall

theorem Stores.count_eq {as : List Nat} (h : hist.Stores q as) : hist.count = q.held.length := by
  have hlen := congrArg List.length h.values
  rw [List.length_map, List.length_map] at hlen
  rw [h.holds.count_eq, hlen]

/-- The oldest item leaves the chain and the queue. -/
theorem Stores.popOff {as : List Nat} (h : hist.Stores q as) : ∃ hist', hist.popOff = .ok hist' ∧
    hist'.max = hist.max ∧ hist'.Stores q.pop as.tail := by
  obtain ⟨gone, held⟩ := q
  have hvalues := h.values
  cases as with
  | nil =>
    obtain rfl : held = [] := by simpa using hvalues
    exact ⟨_, popOff_empty h.holds, rfl,
      ⟨h.holds.seg, rfl, h.holds.count_eq⟩, rfl, h.removed_eq⟩
  | cons a as =>
    obtain ⟨hist', x, hpop, hholds, hx, hitems, hremoved, hmax⟩ := popOff_oldest h.holds
    have hnd := List.nodup_cons.mp h.holds.seg.nodup
    cases held with
    | nil => cases hvalues
    | cons e held =>
      rw [List.map_cons, List.map_cons] at hvalues
      obtain ⟨hhead, htail⟩ := List.cons.inj hvalues
      rw [entry, hx, Option.map_some, Option.some.injEq] at hhead
      refine ⟨hist', hpop, hmax, hholds, ?_, ?_⟩
      · refine Eq.trans (List.map_congr_left fun c hc => ?_) htail
        have hca : c ≠ a := fun he => hnd.1 (he ▸ hc)
        rw [entry, hitems, Heap.cell_put hx, update_of_ne hca, entry]
      · rw [hremoved, h.removed_eq, removeCalls_eq, hhead]
        simp [BoundedQueue.pop]

/-- A new item joins the chain and the queue. -/
theorem Stores.appends {as : List Nat} (h : hist.Stores q as) {hist' : ListHistory α R}
    {it : ListHistoryItem α R} (happ : hist.Appends hist' it as) :
    hist'.Stores (q.append (it.listItem, it.removeCallback)) (as ++ [hist.items.fresh]) := by
  refine ⟨happ.holds, ?_, happ.removed_eq.trans h.removed_eq⟩
  rw [List.map_append, List.map_singleton, happ.entry_new, List.map_congr_left happ.entry_old,
    h.values, BoundedQueue.append, List.map_append, List.map_singleton]

/-- What is pushed is held, and the oldest item goes if that makes one too many. -/
theorem Stores.pushBack [DecidableEq α] {as : List Nat} (h : hist.Stores q as) (hm : 0 < m)
    (hmax : hist.max = m) (hcount : q.held.length + 1 < 2 ^ 32) (item : α) (removeFunc : Option R)
    (compareFunc : Option (α → α → Int)) :
    ∃ hist' as', hist.pushBack true (some item) removeFunc compareFunc = .ok (.ok, hist') ∧
      hist'.max = m ∧ hist'.Stores (q.push m (item, removeFunc)) as' := by
  obtain ⟨hist₁, hist₂, hnew, hlink, happ⟩ := newItem_holds h.holds
    ⟨item, removeFunc, compareFunc.getD defaultCompare, none⟩ rfl
    (by rw [← h.holds.count_eq, h.count_eq]; exact hcount)
  have h₂ := h.appends happ
  have hmax₂ : hist₂.max = m := happ.max_eq.trans hmax
  have hcount₂ := h₂.count_eq
  rw [pushBack_eq hnew hlink, BoundedQueue.push]
  by_cases hfull : (q.append (item, removeFunc)).held.length > m
  · obtain ⟨hist₃, hpop, hmax₃, h₃⟩ := h₂.popOff
    refine ⟨hist₃, (as ++ [hist.items.fresh]).tail, ?_, hmax₃.trans hmax₂, ?_⟩
    · rw [if_pos ⟨by omega, by rw [hmax₂, Int.toNat_natCast, hcount₂]; exact hfull⟩, hpop]
      rfl
    · rw [if_pos hfull]
      exact h₃
  · refine ⟨hist₂, as ++ [hist.items.fresh], if_neg fun hmore => hfull ?_, hmax₂, ?_⟩
    · have hgt := hmore.2
      rw [hmax₂, Int.toNat_natCast, hcount₂] at hgt
      exact hgt
    · rw [if_neg hfull]
      exact h₂

/-- A history of at most `m` items that is the queue `q`, in which all of `pushed` are or were. -/
structure Keeps (hist : ListHistory α R) (m : Nat) (q : BoundedQueue (α × Option R))
    (pushed : List (α × Option R)) : Prop where
  within : q.Within m pushed
  values : hist.chain.map (entry hist.items) = q.held.map some
  removed_eq : hist.removed = q.gone.flatMap removeCall
  count_eq : hist.count = q.held.length
  end_eq : hist.listEnd = hist.chain.getLast?
  root_eq : hist.listRoot = hist.chain.head?

theorem Stores.keeps {as : List Nat} (h : hist.Stores q as) (hq : q.Within m pushed) :
    hist.Keeps m q pushed := by
  have hchain := h.holds.chain_eq
  refine ⟨hq, ?_, h.removed_eq, h.count_eq, ?_, ?_⟩
  · rw [hchain]
    exact h.values
  · rw [hchain]
    exact h.holds.end_eq
  · rw [hchain]
    exact h.holds.seg.head_eq

/-- A call does to the history what it does to the queue. -/
theorem step_queued [DecidableEq α] (hm : 0 < m) (hlt : m < 2 ^ 31) (hist : ListHistory α R)
    (q : BoundedQueue (α × Option R)) (c : QueueCall α R)
    (h : hist.max = m ∧ q.held.length ≤ m ∧ ∃ as, hist.Stores q as) :
    ∃ hist', step hist c.op = .ok (c.answer, hist') ∧ hist'.max = m ∧
      (c.queued m q).held.length ≤ m ∧ ∃ as, hist'.Stores (c.queued m q) as := by
  obtain ⟨hmax, hbound, as, h⟩ := h
  have hwithin : q.Within m (q.gone ++ q.held) := ⟨rfl, hbound⟩
  cases c with
  | pushBack item removeFunc compareFunc =>
    cases item with
    | none => exact ⟨hist, rfl, hmax, hbound, as, h⟩
    | some item =>
      obtain ⟨hist', as', hpush, hmax', h'⟩ := h.pushBack hm hmax (by omega) item removeFunc compareFunc
      refine ⟨hist', ?_, hmax', (hwithin.push _).bound, as', h'⟩
      rw [QueueCall.op, step, hpush]
      rfl
  | popOff =>
    obtain ⟨hist', hpop, hmax', h'⟩ := h.popOff
    refine ⟨hist', ?_, hmax'.trans hmax, hwithin.pop.bound, _, h'⟩
    rw [QueueCall.op, step, hpop]
    rfl

/-- All items that were pushed are in the queue or gone, in their order. -/
theorem queued_within (m : Nat) (calls : List (QueueCall α R)) :
    ∀ {q : BoundedQueue (α × Option R)} {xs : List (α × Option R)}, q.Within m xs →
      (calls.foldl (QueueCall.queued m) q).Within m (xs ++ calls.filterMap QueueCall.entry) := by
  induction calls with
  | nil =>
    intro q xs h
    rw [List.filterMap_nil, List.append_nil]
    exact h
  | cons c calls ih =>
    intro q xs h
    rw [List.foldl_cons]
    cases c with
    | pushBack item removeFunc compareFunc =>
      cases item with
      | none => exact ih h
      | some item =>
        have hentry : (QueueCall.pushBack (some item) removeFunc compareFunc).entry =
            some (item, removeFunc) := rfl
        rw [List.filterMap_cons_some hentry, List.append_cons]
        exact ih (h.push _)
    | popOff => exact ih h.pop

/-- However items are pushed and popped, the chain holds the latest of them, in their order and never
more than the maximum; those that went were the oldest at their time, and were given to their remove
callbacks once each and in their order. -/
theorem run_keeps_latest [DecidableEq α] (m : Int) (hm : 0 < m) (hmax : m ≤ INT32_MAX)
    (calls : List (QueueCall α R)) :
    ∃ hist, run step (new m) (calls.map QueueCall.op) = .ok (calls.map QueueCall.answer, hist) ∧
      hist.Keeps m.toNat (calls.foldl (QueueCall.queued m.toNat) BoundedQueue.empty)
        (calls.filterMap QueueCall.entry) := by
  obtain ⟨n, rfl⟩ := Int.eq_ofNat_of_zero_le (Int.le_of_lt hm)
  rw [Int.toNat_natCast]
  have hpos : 0 < n := by omega
  have hlt : n < 2 ^ 31 := by
    rw [INT32_MAX] at hmax
    omega
  have hmaximum : (new n : ListHistory α R).max = n := if_pos (by omega)
  obtain ⟨hist, hrun, -, -, as, h⟩ := @run_simulates _ (BoundedQueue (α × Option R)) _ _
    (fun hist c => step hist (QueueCall.op c)) (fun q c => (c.answer, c.queued n q))
    (fun hist q => hist.max = n ∧ q.held.length ≤ n ∧ ∃ as, hist.Stores q as) (fun _ _ => True)
    (fun hist q c h _ => step_queued hpos hlt hist q c h) calls (new n) BoundedQueue.empty
    ⟨hmaximum, Nat.zero_le n, [], new_holds _, rfl, rfl⟩ (allTrace_of_forall (fun _ _ => trivial) calls _)
  rw [trace_map_foldl] at hrun h
  exact ⟨hist, (run_map step _ calls _).trans hrun, h.keeps (queued_within n calls
    (BoundedQueue.within_empty n))⟩

/-- Two items of the three fit, and the two that are left are popped. -/
theorem run_keeps_latest_two : ∃ hist,
    run step (new 2 : ListHistory Nat Unit)
      ([.pushBack (some 5) (some ()) none, .pushBack (some 6) none none,
        .pushBack (some 7) (some ()) none, .popOff].map QueueCall.op) =
      .ok ([.pushBack (some 5) (some ()) none, .pushBack (some 6) none none,
        .pushBack (some 7) (some ()) none, .popOff].map QueueCall.answer, hist) ∧
    hist.Keeps 2 ⟨[(5, some ()), (6, none)], [(7, some ())]⟩
      [(5, some ()), (6, none), (7, some ())] :=
  run_keeps_latest 2 (by decide) (by decide)
    [.pushBack (some 5) (some ()) none, .pushBack (some 6) none none,
      .pushBack (some 7) (some ()) none, .popOff]

end AlibC.ListHistory
