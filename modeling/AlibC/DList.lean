import AlibC.DListItem

/-! `DList`: a doubly linked list that knows its first item, its last item and its length. -/
namespace AlibC

open CLang

/-- The list, the memory its items live in and the values that were given up. `self` is the
address its items have as their parent. -/
structure DList (α : Type) where
  items : DListItem.Items α
  self : Nat
  beginItem : Option Nat
  endItem : Option Nat
  count : Nat
  itemsReadyForRemoval : Bool
  dropped : List α
deriving DecidableEq, Repr

namespace DList

open DListItem

variable {α : Type}

/-- The walk to an index in range, from the nearer end. -/
def walk (list : DList α) (index : Nat) : Outcome (Option Nat × Int) :=
  if index < list.count / 2 then
    getByRelativeIndex list.items list.beginItem (toLong index)
  else getByRelativeIndex list.items list.endItem (toLong (sizeSub index (sizeSub list.count 1)))

/-- The item at an index in range. -/
def seek (list : DList α) (index : Nat) : Outcome (Option Nat) := do
  let (item, _) ← list.walk index
  return item

/-- `if(!list->begin->base.parent) DListItem_set_list_parent(list->begin, list);` -/
def adoptBegin (list : DList α) : Outcome (DList α) := do
  let parent ← member parent list.items list.beginItem
  if parent = none then do
    let items ← setListParent list.items list.beginItem (some list.self)
    return { list with items }
  else return list

/-- The five routes of `DList_insert`. -/
def link (list : DList α) (index : Nat) (item : Option Nat) : Outcome (DList α) :=
  if list.beginItem = none then do
    let beginItem ← getFirstItem list.items item
    let endItem ← getLastItem list.items item
    return { list with beginItem, endItem }
  else if index ≥ list.count then do
    let (_, items) ← insertAfter list.items list.endItem item
    let endItem ← getLastItem items list.endItem
    return { list with items, endItem }
  else do
    let cur ← list.seek index
    let (_, items) ← insertBefore list.items cur item
    return { list with items }

/-- `DList_insert`. -/
def insert (list : DList α) (index : Nat) (item : Option Nat) : Outcome (AlibError × DList α) :=
  match item with
  | none => .ok (.badArg, list)
  | some item => do
    let parent ← member parent list.items (some item)
    if parent ≠ none then return (.badArg, list)
    else do
      let itemCount ← DListItem.count list.items (some item)
      let list ← list.link index (some item)
      let list ← list.adoptBegin
      return (.ok, { list with count := sizeAdd list.count itemCount })

/-- `DList_push_back`. -/
def pushBack (list : DList α) (item : Option Nat) : Outcome (AlibError × DList α) :=
  match item with
  | none => .ok (.badArg, list)
  | some item => do
    let parent ← member parent list.items (some item)
    if parent ≠ none then return (.badArg, list)
    else do
      let itemLen ← DListItem.count list.items (some item)
      let (endItem, items) ← DListItem.pushBack list.items list.endItem (some item)
      let beginItem := if list.beginItem = none then endItem else list.beginItem
      let endItem ← getLastItem items endItem
      let list ← adoptBegin { list with
        items, beginItem, endItem, count := sizeAdd list.count itemLen }
      return (.ok, list)

/-- `if(!list->end)list->end = DListItem_get_last_item(list->begin);` -/
def endIfNone (list : DList α) : Outcome (DList α) :=
  if list.endItem = none then do
    let endItem ← getLastItem list.items list.beginItem
    return { list with endItem }
  else .ok list

/-- `DList_push_forward`. -/
def pushForward (list : DList α) (item : Option Nat) : Outcome (AlibError × DList α) :=
  match item with
  | none => .ok (.badArg, list)
  | some item => do
    let parent ← member parent list.items (some item)
    if parent ≠ none then return (.badArg, list)
    else do
      let itemLen ← DListItem.count list.items (some item)
      let (beginItem, items) ← DListItem.pushForward list.items list.beginItem (some item)
      let list ← endIfNone { list with items, beginItem, count := sizeAdd list.count itemLen }
      let list ← list.adoptBegin
      return (.ok, list)

section Take

-- `DListItem_pull_out` or `delDListItem`
variable {β : Type} (op : Items α → Option Nat → Outcome (β × Option Nat × Items α))

/-- `op(&list->begin)`. -/
def takeBegin (list : DList α) : Outcome (β × DList α) := do
  let (result, beginItem, items) ← op list.items list.beginItem
  let endItem := if beginItem = none then none else list.endItem
  return (result, { list with items, beginItem, endItem })

/-- `op(&list->end)`. -/
def takeEnd (list : DList α) : Outcome (β × DList α) := do
  let (result, endItem, items) ← op list.items list.endItem
  return (result, { list with items, endItem })

/-- `op(&item)`. -/
def takeItem (list : DList α) (item : Option Nat) : Outcome (β × DList α) := do
  let (result, _, items) ← op list.items item
  return (result, { list with items })

/-- The four routes to an index in range. -/
def takeAt (list : DList α) (index : Nat) : Outcome (β × DList α) :=
  if index = 0 then list.takeBegin op
  else if index = sizeSub list.count 1 then list.takeEnd op
  else do
    let item ← list.seek index
    list.takeItem op item

/-- The three routes to an item that is given. -/
def takeGiven (list : DList α) (item : Option Nat) : Outcome (β × DList α) :=
  if item = list.beginItem then list.takeBegin op
  else if item = list.endItem then list.takeEnd op
  else list.takeItem op item

end Take

/-- `DList_remove`. -/
def remove (list : DList α) (index : Nat) : Outcome (AlibError × DList α) :=
  if index ≥ list.count then .ok (.badArg, list)
  else do
    let (dropped, list) ← list.takeAt del index
    return (.ok,
      { list with count := sizeSub list.count 1, dropped := list.dropped ++ dropped })

/-- `DList_remove_item`. -/
def removeItem (list : DList α) (item : Option Nat) : Outcome (AlibError × DList α) := do
  let parent ← member parent list.items item
  if parent ≠ some list.self then return (.badArg, list)
  else do
    let (dropped, list) ← list.takeGiven del item
    return (.ok,
      { list with count := sizeSub list.count 1, dropped := list.dropped ++ dropped })

/-- `DList_pull_out`. -/
def pullOut (list : DList α) (index : Nat) : Outcome (Option Nat × DList α) :=
  if index ≥ list.count then .ok (none, list)
  else do
    let (pulled, list) ← list.takeAt DListItem.pullOut index
    return (pulled, { list with count := sizeSub list.count 1 })

/-- `DList_get`. -/
def get (list : DList α) (index : Nat) : Outcome (Option Nat) :=
  if index ≥ list.count then .ok none
  else if index = 0 then .ok list.beginItem
  else list.seek index

/-- `p && p->m`, as a pointer. -/
def memberIf (m : DListItem α → Option Nat) (items : Items α) (p : Option Nat) :
    Outcome (Option Nat) :=
  if p = none then .ok none else member m items p

/-- `if(c)p = DListItem_get_first_item(item);` -/
def firstIf (c : Prop) [Decidable c] (items : Items α) (item : Nat) (p : Option Nat) :
    Outcome (Option Nat) :=
  if c then getFirstItem items (some item) else .ok p

/-- `if(c)p = DListItem_get_last_item(item);` -/
def lastIf (c : Prop) [Decidable c] (items : Items α) (item : Nat) (p : Option Nat) :
    Outcome (Option Nat) :=
  if c then getLastItem items (some item) else .ok p

/-- `DList_insert_after`. It asks for a new item that has a parent. -/
def insertAfter (list : DList α) (curItm newItm : Option Nat) :
    Outcome (AlibError × DList α) :=
  match curItm, newItm with
  | none, _ => .ok (.badArg, list)
  | some curItm, newItm => do
    let parent ← member parent list.items (some curItm)
    if parent ≠ some list.self then return (.badArg, list)
    else
      match newItm with
      | none => return (.badArg, list)
      | some newItm => do
        let parent ← member DListItem.parent list.items (some newItm)
        if parent = none then return (.badArg, list)
        else do
          let (item, items) ← DListItem.insertAfter list.items (some curItm) (some newItm)
          if item = some curItm then return (.unknownErr, { list with items })
          else do
            let behind ← memberIf next items list.endItem
            let endItem ← lastIf (list.endItem = none ∨ behind ≠ none) items newItm list.endItem
            let beginItem ← firstIf (list.beginItem = none) items newItm list.beginItem
            return (.ok, { list with items, beginItem, endItem, count := sizeAdd list.count 1 })

/-- `DList_insert_before`. -/
def insertBefore (list : DList α) (curItm newItm : Option Nat) :
    Outcome (AlibError × DList α) :=
  match curItm, newItm with
  | none, _ => .ok (.badArg, list)
  | some curItm, newItm => do
    let parent ← member parent list.items (some curItm)
    if parent ≠ some list.self then return (.badArg, list)
    else
      match newItm with
      | none => return (.badArg, list)
      | some newItm => do
        let parent ← member DListItem.parent list.items (some newItm)
        if parent ≠ none then return (.badArg, list)
        else do
          let (item, items) ← DListItem.insertBefore list.items (some curItm) (some newItm)
          if item = some curItm then return (.unknownErr, { list with items })
          else do
            let before ← memberIf prev items list.beginItem
            let beginItem ←
              firstIf (list.beginItem = none ∨ before ≠ none) items newItm list.beginItem
            let endItem ← lastIf (list.endItem = none) items newItm list.endItem
            return (.ok, { list with items, beginItem, endItem, count := sizeAdd list.count 1 })

/-- `if(from_index == 0)list->begin = list->begin->next;` -/
def passBegin (list : DList α) (fromIndex : Nat) : Outcome (DList α) :=
  if fromIndex = 0 then do
    let beginItem ← member next list.items list.beginItem
    return { list with beginItem }
  else .ok list

/-- `if(from_index == list->count - 1)list->end = list->end->prev;` -/
def passEnd (list : DList α) (fromIndex : Nat) : Outcome (DList α) :=
  if fromIndex = sizeSub list.count 1 then do
    let endItem ← member prev list.items list.endItem
    return { list with endItem }
  else .ok list

/-- The end that an item was moved to is looked up. -/
def findEnd (list : DList α) (toIndex : Nat) : Outcome (DList α) :=
  if toIndex = 0 then do
    let beginItem ← getFirstItem list.items list.beginItem
    return { list with beginItem }
  else if toIndex ≥ list.count then do
    let endItem ← getLastItem list.items list.endItem
    return { list with endItem }
  else .ok list

/-- `DList_move`. -/
def move (list : DList α) (fromIndex toIndex : Nat) : Outcome (Int × DList α) :=
  if fromIndex = toIndex ∨ list.count = 1 then .ok (toLong fromIndex, list)
  else do
    let list ← list.passBegin fromIndex
    let list ← list.passEnd fromIndex
    let (index, items) ← DListItem.move list.items list.beginItem fromIndex toIndex
    let list ← findEnd { list with items } toIndex
    return (index, list)

/-- `DList_move_count`. -/
def moveCount (list : DList α) (fromIndex toIndex count : Nat) : Outcome (Int × DList α) := do
  let (index, items) ← DListItem.moveCount list.items list.beginItem fromIndex toIndex count
  let beginItem ← getFirstItem items list.beginItem
  let endItem ← getLastItem items list.endItem
  return (index, { list with items, beginItem, endItem })

/-- `if(index + count == list->count)list->end = rval->prev;` -/
def cutEnd (list : DList α) (index count : Nat) (item : Option Nat) : Outcome (DList α) :=
  if sizeAdd index count = list.count then do
    let endItem ← member prev list.items item
    return { list with endItem }
  else .ok list

/-- The routes of `DList_pull_out_count`. -/
def takeCount (list : DList α) (index count : Nat) : Outcome (Option Nat × DList α) :=
  if index = 0 then list.takeBegin (DListItem.pullOutCount count)
  else if index = sizeSub list.count 1 then list.takeEnd (DListItem.pullOutCount count)
  else do
    let item ← list.seek index
    let list ← list.cutEnd index count item
    list.takeItem (DListItem.pullOutCount count) item

/-- `DList_pull_out_count`. -/
def pullOutCount (list : DList α) (index count : Nat) : Outcome (Option Nat × DList α) := do
  let (pulled, list) ← list.takeCount index count
  let n ← DListItem.count list.items pulled
  return (pulled, { list with count := sizeSub list.count n })

/-- `DList_remove_count`. -/
def removeCount (list : DList α) (index count : Nat) : Outcome (AlibError × DList α) :=
  if index ≥ list.count then .ok (.badArg, list)
  else do
    let (removeList, list) ← list.pullOutCount index count
    let (dropped, items) ← delAll list.items removeList
    return (.ok, { list with items, dropped := list.dropped ++ dropped })

/-- `DList_remove_item_count`. -/
def removeItemCount (list : DList α) (item : Option Nat) (count : Nat) :
    Outcome (AlibError × DList α) := do
  let index ← DListItem.index list.items item
  list.removeCount (toSize index) count

/-- `DList_remove_count_lsafe`. -/
def removeCountLsafe (list : DList α) (index count : Nat) : Outcome (AlibError × DList α) :=
  if index ≥ list.count then .ok (.badArg, list)
  else do
    let item ← list.get index
    if item = none then return (.badIndex, list)
    else do
      let items ← markLoop count list.items item
      return (.ok, { list with items, itemsReadyForRemoval := true })

/-- `DList_remove_lsafe`. -/
def removeLsafe (list : DList α) (index : Nat) : Outcome (AlibError × DList α) :=
  if index ≥ list.count then .ok (.badArg, list)
  else do
    let item ← list.get index
    if item = none then return (.badIndex, list)
    else do
      let items ← markForRemoval list.items item
      return (.ok, { list with items, itemsReadyForRemoval := true })

/-- `DList_remove_item_lsafe`. -/
def removeItemLsafe (list : DList α) (item : Option Nat) : Outcome (AlibError × DList α) := do
  let parent ← member parent list.items item
  if parent ≠ some list.self then return (.badArg, list)
  else do
    let items ← markForRemoval list.items item
    return (.ok, { list with items, itemsReadyForRemoval := true })

/-- `DList_remove_item_count_lsafe`. -/
def removeItemCountLsafe (list : DList α) (item : Option Nat) (count : Nat) :
    Outcome (AlibError × DList α) := do
  let index ← DListItem.index list.items item
  list.removeCountLsafe (toSize index) count

/-- The loop of `DList_remove_marked_items`. An item is removed once `iter` is behind it. -/
def markedLoop : Nat → DList α → Option Nat → Outcome (DList α)
  | 0, _, _ => .error .diverges
  | _ + 1, list, none => .ok list
  | fuel + 1, list, some iter => do
    let it ← list.items.get (some iter)
    if it.removed then do
      let item ← member prev list.items it.next
      let (_, list) ← list.removeItem item
      markedLoop fuel list it.next
    else markedLoop fuel list it.next

/-- `DList_remove_marked_items`. -/
def removeMarkedItems (list : DList α) : Outcome (DList α) :=
  if list.itemsReadyForRemoval then markedLoop (fuel list.items) list list.beginItem
  else .ok list

/-- `newDList`. Nothing is stored in `items_ready_for_removal`. -/
def new (items : Items α) (self : Nat) (itemsReadyForRemoval : Bool) : DList α :=
  ⟨items, self, none, none, 0, itemsReadyForRemoval, []⟩

end DList

end AlibC
