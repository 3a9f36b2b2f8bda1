import AlibC.Lib.Heap
import AlibC.Lib.SizeT
import AlibC.Error

/-! `ListHistory`: a singly linked list of items, the oldest first. Lock calls succeed. -/
namespace AlibC

open CLang

/-- An item of the history. Items are of type `α`, callbacks that remove one of type `R`. -/
structure ListHistoryItem (α R : Type) where
  listItem : α
  removeCallback : Option R
  compareCallback : α → α → Int
  next : Option Nat

/-- The history with the memory its items live in and the calls of remove callbacks. -/
structure ListHistory (α R : Type) where
  items : Heap (ListHistoryItem α R)
  listRoot : Option Nat
  listEnd : Option Nat
  count : Nat
  max : Int
  removed : List (R × α)

namespace ListHistoryItem

variable {α R : Type}

def defaultCompare [DecidableEq α] (item₁ item₂ : α) : Int := if item₁ = item₂ then 0 else 1

/-- The call `Remove_Callback(list_item)`, if there is one. -/
def removeCalls (it : ListHistoryItem α R) : List (R × α) :=
  match it.removeCallback with
  | none => []
  | some removeFunc => [(removeFunc, it.listItem)]

/-- The loop of `ListHistoryItem_member_function_find_one_before`. -/
def findOneBeforeLoop (items : Heap (ListHistoryItem α R)) (item : α) :
    Nat → Nat → Outcome (Option Nat)
  | 0, _ => .error .diverges
  | fuel + 1, list => do
    let it ← items.get (some list)
    match it.next with
    | none => return none
    | some next => do
      let nextIt ← items.get (some next)
      if it.compareCallback nextIt.listItem item ≠ 0 then findOneBeforeLoop items item fuel next
      else return some list

/-- `ListHistoryItem_member_function_find_one_before`. -/
def findOneBefore (items : Heap (ListHistoryItem α R)) (list : Option Nat) (item : α) :
    Outcome (Option Nat) :=
  match list with
  | none => .ok none
  | some list => do
    let it ← items.get (some list)
    if it.compareCallback it.listItem item = 0 then return none
    else findOneBeforeLoop items item (items.cells.length + 1) list

/-- The last item of the list, which `newListHistoryItem` walks to. -/
def lastLoop (items : Heap (ListHistoryItem α R)) : Nat → Nat → Outcome Nat
  | 0, _ => .error .diverges
  | fuel + 1, list => do
    let it ← items.get (some list)
    match it.next with
    | none => return list
    | some next => lastLoop items fuel next

end ListHistoryItem

namespace ListHistory

open ListHistoryItem

variable {α R : Type}

/-- A `ListHistoryItem**` that the code passes on. -/
inductive Slot where
  | root
  | next (list : Nat)
deriving DecidableEq, Repr

def read (hist : ListHistory α R) : Slot → Outcome (Option Nat)
  | .root => .ok hist.listRoot
  | .next list => do
    let it ← hist.items.get (some list)
    return it.next

def write (hist : ListHistory α R) (slot : Slot) (p : Option Nat) : Outcome (ListHistory α R) :=
  match slot with
  | .root => .ok { hist with listRoot := p }
  | .next list => do
    let items ← hist.items.modify (some list) fun it => { it with next := p }
    return { hist with items }

/-- `delListHistoryItem`. -/
def delItem (hist : ListHistory α R) (slot : Slot) : Outcome (ListHistory α R) := do
  let p ← hist.read slot
  match p with
  | none => return hist
  | some tempItem => do
    let it ← hist.items.get (some tempItem)
    let hist ← hist.write slot it.next
    return { hist with
      items := hist.items.put tempItem none
      removed := hist.removed ++ it.removeCalls }

/-- `newListHistoryItem` behind `list_end`; `mem` tells whether memory was found. -/
def newItem (hist : ListHistory α R) (mem : Bool) (it : ListHistoryItem α R) :
    Outcome (AlibError × ListHistory α R) :=
  if mem = false then .ok (.memErr, hist)
  else
    let tempList := hist.items.fresh
    let items := hist.items.alloc it
    match hist.listEnd with
    | none => .ok (.ok, { hist with items, listEnd := some tempList })
    | some list => do
      let last ← lastLoop items (items.cells.length + 1) list
      let items ← items.modify (some last) fun it => { it with next := some tempList }
      return (.ok, { hist with items })

/-- `ListHistoryItem_member_function_remove`: whether an item was deleted. -/
def itemRemove (hist : ListHistory α R) (slot : Slot) (item : α) :
    Outcome (Bool × ListHistory α R) := do
  let p ← hist.read slot
  match p with
  | none => return (false, hist)
  | some list => do
    let it ← hist.items.get (some list)
    if it.compareCallback it.listItem item = 0 then do
      let hist ← hist.delItem slot
      return (true, hist)
    else do
      -- the search is the one of `find_one_before`
      let before ← findOneBeforeLoop hist.items item (hist.items.cells.length + 1) list
      match before with
      | none => return (false, hist)
      | some tempList => do
        let hist ← hist.delItem (.next tempList)
        return (true, hist)

/-- The loop of `ListHistory_helper_function_calc_count`. -/
def calcCountLoop (items : Heap (ListHistoryItem α R)) : Nat → Option Nat → Nat → Outcome Nat
  | 0, _, _ => .error .diverges
  | _, none, count => .ok count
  | fuel + 1, some list, count => do
    let it ← items.get (some list)
    calcCountLoop items fuel it.next (uintAdd count 1)

/-- What follows a deletion: the count goes down, or is taken anew when it was lost. -/
def dropCount (hist : ListHistory α R) : Outcome (ListHistory α R) :=
  if hist.count = 0 then do
    let count ← calcCountLoop hist.items (hist.items.cells.length + 1) hist.listRoot 0
    return { hist with count }
  else .ok { hist with count := hist.count - 1 }

/-- The part of `remove` that finds and deletes the item. -/
def removeFrom (hist : ListHistory α R) (item : α) : Outcome (Bool × ListHistory α R) := do
  let last ← hist.items.get hist.listEnd
  if last.compareCallback last.listItem item = 0 then do
    let tempItem ← findOneBefore hist.items hist.listRoot last.listItem
    match tempItem with
    | none => throw .nullDeref
    | some tempItem => do
      let (deleted, hist) ← hist.itemRemove (.next tempItem) item
      return (deleted, { hist with listEnd := some tempItem })
  else do
    let _ ← hist.items.get hist.listRoot
    hist.itemRemove .root item

/-- The cleanup of the list pointers. -/
def cleanup (hist : ListHistory α R) : ListHistory α R :=
  if hist.listEnd = none then { hist with listRoot := none }
  else if hist.listRoot = none then { hist with listEnd := none }
  else hist

def remove (hist : ListHistory α R) (item : Option α) : Outcome (AlibError × ListHistory α R) :=
  match item with
  | none => .ok (.badArg, hist)
  | some item => do
    let (deleted, hist) ← hist.removeFrom item
    let hist ← if deleted then hist.dropCount else pure hist
    return (.ok, hist.cleanup)

def popOff (hist : ListHistory α R) : Outcome (ListHistory α R) :=
  let hist := if hist.listEnd = hist.listRoot then { hist with listEnd := none } else hist
  if hist.listRoot = none then .ok hist
  else do
    let hist ← hist.delItem .root
    hist.dropCount

/-- The part of `push_back` that links the new item. -/
def linkBack (hist : ListHistory α R) : Outcome (ListHistory α R) :=
  if hist.listRoot = none then
    .ok { hist with listRoot := hist.listEnd, count := uintAdd hist.count 1 }
  else do
    let last ← hist.items.get hist.listEnd
    return { hist with listEnd := last.next, count := uintAdd hist.count 1 }

def pushBack [DecidableEq α] (hist : ListHistory α R) (mem : Bool) (item : Option α)
    (removeFunc : Option R) (compareFunc : Option (α → α → Int)) :
    Outcome (AlibError × ListHistory α R) :=
  match item with
  | none => .ok (.badArg, hist)
  | some item => do
    let (code, hist) ← hist.newItem mem
      ⟨item, removeFunc, compareFunc.getD defaultCompare, none⟩
    if code ≠ .ok then return (code, hist)
    else do
      let hist ← hist.linkBack
      if hist.max > 0 ∧ hist.count > hist.max.toNat then do
        let hist ← hist.popOff
        return (.ok, hist)
      else return (.ok, hist)

def moveTopToBottom (hist : ListHistory α R) : Outcome (ListHistory α R) := do
  let items ← hist.items.modify hist.listEnd fun it => { it with next := hist.listRoot }
  let root ← items.get hist.listRoot
  let last ← items.get hist.listEnd
  let items ← items.modify last.next fun it => { it with next := none }
  return { hist with items, listRoot := root.next, listEnd := last.next }

/-- The part of `move_to_bottom` where the item follows `tempItem`. -/
def moveNextToBottom (hist : ListHistory α R) (tempItem : Nat) : Outcome (ListHistory α R) := do
  let it ← hist.items.get (some tempItem)
  let items ← hist.items.modify hist.listEnd fun last => { last with next := it.next }
  let it ← items.get (some tempItem)
  let nextIt ← items.get it.next
  let items ← items.modify (some tempItem) fun it => { it with next := nextIt.next }
  let last ← items.get hist.listEnd
  return { hist with items, listEnd := last.next }

/-- `move_to_bottom` returns 1 when there is no item before. -/
def moveToBottom (hist : ListHistory α R) (item : Option α) : Outcome (Int × ListHistory α R) :=
  match item with
  | none => .ok (AlibError.badArg.code, hist)
  | some item => do
    let _ ← hist.items.get hist.listRoot
    let tempItem ← findOneBefore hist.items hist.listRoot item
    match tempItem with
    | none => return (1, hist)
    | some tempItem => do
      let it ← hist.items.get (some tempItem)
      if it.compareCallback it.listItem item ≠ 0 then do
        let hist ← hist.moveNextToBottom tempItem
        return (AlibError.ok.code, hist)
      else do
        let hist ← hist.moveTopToBottom
        return (AlibError.ok.code, hist)

/-- `newListHistory`. -/
def new (max : Int) : ListHistory α R where
  items := ⟨[]⟩
  listRoot := none
  listEnd := none
  count := 0
  max := if max ≠ 0 then max else INT32_MAX - 1
  removed := []

end ListHistory

end AlibC
