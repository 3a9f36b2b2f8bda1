import AlibC.Lib.DoublyLinked
import AlibC.Lib.Heap
import AlibC.Lib.SizeT
import AlibC.Error

/-! `DListItem`: an item of a doubly linked list, and lists told by any of their items. -/
namespace AlibC

open CLang

/-- An item with its `ListItem` base. `val` is the value object it refers to, `parent` the
list it belongs to. -/
structure DListItem (α : Type) where
  val : Option α
  parent : Option Nat
  removed : Bool
  next : Option Nat
  prev : Option Nat
deriving DecidableEq, Repr

namespace DListItem

variable {α : Type}

/-- The objects in memory. -/
abbrev Items (α : Type) := Heap (DListItem α)

/-- `p->m`, where `m` is one of the pointers of an item. -/
def member (m : DListItem α → Option Nat) (items : Items α) (p : Option Nat) :
    Outcome (Option Nat) := do
  let it ← items.get p
  return m it

def setNext (items : Items α) (p q : Option Nat) : Outcome (Items α) :=
  items.modify p fun it => { it with next := q }

def setPrev (items : Items α) (p q : Option Nat) : Outcome (Items α) :=
  items.modify p fun it => { it with prev := q }

def setParent (items : Items α) (p q : Option Nat) : Outcome (Items α) :=
  items.modify p fun it => { it with parent := q }

/-- `if(p) p->next = q;` -/
def setNextIf (items : Items α) (p q : Option Nat) : Outcome (Items α) :=
  if p = none then .ok items else setNext items p q

/-- `if(p) p->prev = q;` -/
def setPrevIf (items : Items α) (p q : Option Nat) : Outcome (Items α) :=
  if p = none then .ok items else setPrev items p q

/-- The loop `while(list->m)list = list->m;`. -/
def lastLoop (m : DListItem α → Option Nat) (items : Items α) : Nat → Nat → Outcome Nat
  | 0, _ => .error .diverges
  | fuel + 1, list => do
    let next ← member m items (some list)
    match next with
    | none => return list
    | some next => lastLoop m items fuel next

/-- A loop over items without a repetition is over by then. -/
def fuel (items : Items α) : Nat := items.cells.length + 1

def getFirstItem (items : Items α) (list : Option Nat) : Outcome (Option Nat) :=
  match list with
  | none => .ok none
  | some list => do return some (← lastLoop prev items (fuel items) list)

def getLastItem (items : Items α) (list : Option Nat) : Outcome (Option Nat) :=
  match list with
  | none => .ok none
  | some list => do return some (← lastLoop next items (fuel items) list)

/-- The loop `for(; it; it = it->m, ++count);`. -/
def countLoop (m : DListItem α → Option Nat) (items : Items α) :
    Nat → Option Nat → Nat → Outcome Nat
  | 0, _, _ => .error .diverges
  | _ + 1, none, count => .ok count
  | fuel + 1, some it, count => do
    let next ← member m items (some it)
    countLoop m items fuel next (sizeAdd count 1)

def count (items : Items α) (list : Option Nat) : Outcome Nat :=
  match list with
  | none => .ok 0
  | some list => do
    let it ← member prev items (some list)
    let count ← countLoop prev items (fuel items) it 0
    countLoop next items (fuel items) (some list) count

/-- The loop of `DListItem_set_list_parent`. -/
def setParentLoop (parent : Option Nat) : Nat → Items α → Option Nat → Outcome (Items α)
  | 0, _, _ => .error .diverges
  | _ + 1, items, none => .ok items
  | fuel + 1, items, some list => do
    let items ← setParent items (some list) parent
    let next ← member next items (some list)
    setParentLoop parent fuel items next

def setListParent (items : Items α) (list parent : Option Nat) : Outcome (Items α) :=
  match list with
  | none => .ok items
  | some list => do
    let old ← member DListItem.parent items (some list)
    if old = parent then return items
    else do
      let first ← getFirstItem items (some list)
      setParentLoop parent (fuel items) items first

/-- The loop `for(; n && list->m; --n, list = list->m);`: where it ends, and what is left
of `n`. -/
def stepLoop (m : DListItem α → Option Nat) (items : Items α) :
    Nat → Nat → Outcome (Nat × Nat)
  | list, 0 => .ok (list, 0)
  | list, n + 1 => do
    let next ← member m items (some list)
    match next with
    | none => return (list, n + 1)
    | some next => stepLoop m items next n

/-- The item found, and what `*index_exceeds` is set to. -/
def getByRelativeIndex (items : Items α) (list : Option Nat) (index : Int) :
    Outcome (Option Nat × Int) :=
  match list with
  | none => .ok (none, index)
  | some list =>
    if index > 0 then do
      let (list, left) ← stepLoop next items list index.toNat
      return (some list, left)
    else do
      let (list, left) ← stepLoop prev items list (-index).toNat
      return (some list, -left)

/-- `DListItem_insert_after`. -/
def insertAfter (items : Items α) (list newItem : Option Nat) :
    Outcome (Option Nat × Items α) :=
  match list, newItem with
  | none, newItem => do return (← getFirstItem items newItem, items)
  | list, none => .ok (list, items)
  | some list, some newItem => do
    let parent ← member parent items (some newItem)
    if parent ≠ none then return (some list, items)
    else do
      let newItemEnd ← getLastItem items (some newItem)
      let newItem ← getFirstItem items (some newItem)
      let items ← setListParent items newItem (← member DListItem.parent items (some list))
      let items ← setNext items newItemEnd (← member next items (some list))
      let items ← setPrevIf items (← member next items newItemEnd) newItemEnd
      let items ← setPrev items newItem (some list)
      let items ← setNext items (some list) newItem
      return (newItem, items)

/-- `DListItem_insert_before`. -/
def insertBefore (items : Items α) (list newItem : Option Nat) :
    Outcome (Option Nat × Items α) :=
  match list, newItem with
  | none, newItem => do return (← getFirstItem items newItem, items)
  | list, none => .ok (list, items)
  | some list, some newItem => do
    let parent ← member parent items (some newItem)
    if parent ≠ none then return (some list, items)
    else do
      let newItemEnd ← getLastItem items (some newItem)
      let newItem ← getFirstItem items (some newItem)
      let items ← setListParent items newItem (← member DListItem.parent items (some list))
      let items ← setNext items newItemEnd (some list)
      let items ← setPrev items newItem (← member prev items (some list))
      let items ← setPrevIf items (← member next items newItemEnd) newItemEnd
      -- `new_item->prev->next`, whether there is an item before or not
      let items ← setNext items (← member prev items newItem) newItem
      return (newItem, items)

/-- `DListItem_push_back`. -/
def pushBack (items : Items α) (list newItem : Option Nat) : Outcome (Option Nat × Items α) :=
  match list, newItem with
  | none, newItem => do return (← getFirstItem items newItem, items)
  | list, none => .ok (list, items)
  | some list, some newItem => do
    let parent ← member parent items (some newItem)
    if parent ≠ none then return (some list, items)
    else do
      let list ← getLastItem items (some list)
      let newItem ← getFirstItem items (some newItem)
      let items ← setListParent items newItem (← member DListItem.parent items list)
      let items ← setNext items list newItem
      let items ← setPrev items newItem list
      return (newItem, items)

/-- `DListItem_push_forward`. -/
def pushForward (items : Items α) (list newItem : Option Nat) :
    Outcome (Option Nat × Items α) :=
  match list, newItem with
  | none, newItem => do return (← getFirstItem items newItem, items)
  | list, none => .ok (list, items)
  | some list, some newItem => do
    let parent ← member parent items (some newItem)
    if parent ≠ none then return (some list, items)
    else do
      let newItemEnd ← getLastItem items (some newItem)
      let newItem ← getFirstItem items (some newItem)
      let items ← setListParent items newItem (← member DListItem.parent items (some list))
      let list ← getFirstItem items (some list)
      let items ← setPrev items list newItemEnd
      let items ← setNext items newItemEnd list
      return (newItem, items)

/-- The item next to `a` that a pointer to `a` is set to, preferably the previous one. -/
def adjacent (items : Items α) (a : Nat) : Outcome (Option Nat) := do
  let prev ← member prev items (some a)
  if prev ≠ none then return prev else member next items (some a)

/-- `DListItem_pull_out`: the item pulled, and the pointer it was given. -/
def pullOut (items : Items α) (item : Option Nat) :
    Outcome (Option Nat × Option Nat × Items α) :=
  match item with
  | none => .ok (none, none, items)
  | some pulled => do
    let item ← adjacent items pulled
    let items ← setPrevIf items (← member next items (some pulled))
      (← member prev items (some pulled))
    let items ← setNextIf items (← member prev items (some pulled))
      (← member next items (some pulled))
    let items ← setNext items (some pulled) none
    let items ← setPrev items (some pulled) none
    let items ← setListParent items (some pulled) none
    return (some pulled, item, items)

/-- `delDListItem`: the value that is given up, and the pointer it was given. -/
def del (items : Items α) (listItem : Option Nat) :
    Outcome (List α × Option Nat × Items α) :=
  match listItem with
  | none => .ok ([], none, items)
  | some a => do
    let listItem ← adjacent items a
    let items ← setNextIf items (← member prev items (some a)) (← member next items (some a))
    let items ← setPrevIf items (← member next items (some a)) (← member prev items (some a))
    let it ← items.get (some a)
    return (it.val.toList, listItem, items.put a none)

/-- `DListItem_get`: the item found, and what `*index_exceeds` is set to. -/
def get (items : Items α) (list : Option Nat) (index : Nat) : Outcome (Option Nat × Nat) :=
  match list with
  | none => .ok (none, index)
  | some list => do
    let list ← lastLoop prev items (fuel items) list
    let (list, left) ← stepLoop next items list index
    return (some list, left)

/-- The items before `from` and behind `fromEnd` are linked to each other. -/
def unlink (items : Items α) (fromItem fromEnd : Option Nat) : Outcome (Items α) := do
  let items ← setNextIf items (← member prev items fromItem) (← member next items fromEnd)
  setPrevIf items (← member next items fromEnd) (← member prev items fromItem)

/-- Place `from` to `fromEnd` before `to`. -/
def placeBefore (items : Items α) (fromItem fromEnd toItem : Option Nat) : Outcome (Items α) := do
  let items ← setPrev items fromItem (← member prev items toItem)
  let items ← setNext items fromEnd toItem
  let items ← setPrev items toItem fromEnd
  setNextIf items (← member prev items fromItem) fromItem

/-- Place `from` after `to`. -/
def placeAfter (items : Items α) (fromItem toItem : Option Nat) : Outcome (Items α) := do
  let items ← setPrev items fromItem toItem
  let items ← setNext items fromItem (← member next items toItem)
  let items ← setNext items toItem fromItem
  setPrevIf items (← member next items fromItem) fromItem

/-- `DListItem_move`. -/
def move (items : Items α) (list : Option Nat) (fromIndex toIndex : Nat) :
    Outcome (Int × Items α) :=
  match list with
  | none => .ok (AlibError.badArg.code, items)
  | some list =>
    if fromIndex = toIndex then .ok (toLong fromIndex, items)
    else if fromIndex < toIndex then do
      let (fromItem, exceeded) ← get items (some list) fromIndex
      if exceeded ≠ 0 then return (AlibError.badIndex.code, items)
      else do
        let (toItem, exceeded) ←
          getByRelativeIndex items fromItem (toLong (sizeSub toIndex fromIndex))
        if fromItem ≠ toItem then do
          let items ← unlink items fromItem fromItem
          let items ← placeAfter items fromItem toItem
          return (toLong (sizeSub toIndex (toSize exceeded)), items)
        else return (toLong fromIndex, items)
    else do
      let (toItem, exceeded) ← get items (some list) toIndex
      if exceeded ≠ 0 then return (AlibError.badIndex.code, items)
      else do
        let (fromItem, exceeded) ←
          getByRelativeIndex items toItem (toLong (sizeSub fromIndex toIndex))
        if exceeded ≠ 0 then return (AlibError.badIndex.code, items)
        else if fromItem ≠ toItem then do
          let items ← unlink items fromItem fromItem
          let items ← placeBefore items fromItem fromItem toItem
          return (toLong toIndex, items)
        else return (toLong fromIndex, items)

/-- `DListItem_move_count`. -/
def moveCount (items : Items α) (list : Option Nat) (fromIndex toIndex count : Nat) :
    Outcome (Int × Items α) :=
  match list with
  | none => .ok (AlibError.badArg.code, items)
  | some list =>
    if fromIndex < toIndex then do
      let (fromItem, exceeded) ← get items (some list) fromIndex
      if exceeded ≠ 0 then return (AlibError.badIndex.code, items)
      else do
        let (fromEnd, exceeded) ← getByRelativeIndex items fromItem (toLong (sizeSub count 1))
        if exceeded ≠ 0 then return (toLong fromIndex, items)
        else do
          let next ← member next items fromEnd
          if next = none then return (toLong fromIndex, items)
          else do
            let (toItem, exceeded) ←
              getByRelativeIndex items fromEnd (toLong (sizeSub toIndex fromIndex))
            let items ← unlink items fromItem fromEnd
            let items ← placeBefore items fromItem fromEnd toItem
            return (toLong (sizeSub toIndex (toSize exceeded)), items)
    else do
      let (toItem, exceeded) ← get items (some list) toIndex
      if exceeded ≠ 0 then return (AlibError.badIndex.code, items)
      else do
        let (fromItem, exceeded) ←
          getByRelativeIndex items toItem (toLong (sizeSub fromIndex toIndex))
        if exceeded ≠ 0 then return (AlibError.badIndex.code, items)
        else do
          let (fromEnd, _) ← getByRelativeIndex items fromItem (toLong (sizeSub count 1))
          let items ← unlink items fromItem fromEnd
          let items ← placeBefore items fromItem fromEnd toItem
          return (toLong toIndex, items)

/-- `DListItem_pull_out_count`: the items pulled, and the pointer it was given. -/
def pullOutCount (count : Nat) (items : Items α) (item : Option Nat) :
    Outcome (Option Nat × Option Nat × Items α) :=
  match item with
  | none => .ok (none, none, items)
  | some pulled =>
    if count = 0 then .ok (none, item, items)
    else do
      let (pulledEnd, _) ← getByRelativeIndex items item (toLong (sizeSub count 1))
      let before ← member prev items item
      let behind ← member next items pulledEnd
      let items ← unlink items item pulledEnd
      let items ← setPrev items item none
      let items ← setNext items pulledEnd none
      let items ← setListParent items item none
      return (some pulled, if before ≠ none then before else behind, items)

/-- The loop of `DListItem_index`. -/
def indexLoop (items : Items α) (list : Nat) : Nat → Option Nat → Nat → Outcome Nat
  | 0, _, _ => .error .diverges
  | fuel + 1, it, index =>
    if it = some list then .ok index
    else do
      let next ← member next items it
      indexLoop items list fuel next (index + 1)

/-- `DListItem_index`. -/
def index (items : Items α) (list : Option Nat) : Outcome Int :=
  match list with
  | none => .ok AlibError.badArg.code
  | some list => do
    let first ← getFirstItem items (some list)
    let index ← indexLoop items list (fuel items) first 0
    return toInt32 index

/-- The loop of `delDListItem_all`. -/
def delLoop : Nat → Items α → Option Nat → List α → Outcome (List α × Items α)
  | _, items, none, dropped => .ok (dropped, items)
  | 0, _, some _, _ => .error .diverges
  | fuel + 1, items, some a, dropped => do
    let (values, listItem, items) ← del items (some a)
    delLoop fuel items listItem (dropped ++ values)

/-- `delDListItem_all`: the values that are given up. -/
def delAll (items : Items α) (listItem : Option Nat) : Outcome (List α × Items α) :=
  delLoop (fuel items) items listItem []

/-- `ListItem_mark_for_removal`. -/
def markForRemoval (items : Items α) (item : Option Nat) : Outcome (Items α) :=
  items.modify item fun it => { it with removed := true }

/-- The loop `for(; count && item; --count, item = item->next)`. -/
def markLoop : Nat → Items α → Option Nat → Outcome (Items α)
  | 0, items, _ => .ok items
  | _ + 1, items, none => .ok items
  | count + 1, items, some item => do
    let items ← markForRemoval items (some item)
    let next ← member next items (some item)
    markLoop count items next

end DListItem

end AlibC
