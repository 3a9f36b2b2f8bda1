import AlibC.Lib.Block
import AlibC.Lib.SizeT
import AlibC.Lib.Slots
import AlibC.Error

/-! `ArrayList`: pointers in an array with holes. The functions that let go of items
return those the delete callback is called with, in order. -/
namespace AlibC

open CLang

structure ArrayList (α : Type) where
  list : Option (List (Option α))
  count : Nat
  capacity : Nat
  maxCap : Nat
  /-- Whether a delete callback was given. -/
  freeItem : Bool
deriving DecidableEq, Repr

namespace ArrayList

variable {α β : Type}

/-- The items, in the order of their slots. -/
def entries (l : ArrayList α) : List α := (l.list.getD []).reduceOption

/-- `calloc(n, sizeof(void*))`. It fails only when the size does not fit. -/
def calloc (n : Nat) : Option (List (Option α)) :=
  if 8 * n < 2 ^ 64 then some (List.replicate n none) else none

/-- `realloc(list, size)`. The new slots are not initialised. -/
def realloc (cells : List (Option α)) (size : Nat) : List (Option α) :=
  cells.take (size / 8) ++ List.replicate (size / 8 - cells.length) none

/-- The first slot that meets `p`. -/
def findSlot (l : ArrayList α) (p : Option α → Bool) : Outcome (Option Nat) :=
  match l.list with
  | none => if l.capacity = 0 then .ok none else .error .nullDeref
  | some cells => Slots.find p cells l.capacity

def removeByPtrNoFree (l : ArrayList α) (item : Nat) : Outcome (ArrayList α) := do
  let list ← store l.list item [none]
  return { l with list, count := sizeSub l.count 1 }

def removeByPtr (l : ArrayList α) (item : Nat) : Outcome (List α × ArrayList α) := do
  let holder ← load l.list item 1
  let l ← l.removeByPtrNoFree item
  return (if l.freeItem then holder.reduceOption else [], l)

/-- The value returned by the source is the new capacity. -/
def resize (l : ArrayList α) (newcap : Nat) : Outcome (List α × ArrayList α) :=
  if newcap = l.capacity then .ok ([], l)
  else
    match l.list with
    | none =>
      let newcap := if newcap > l.maxCap then l.maxCap else newcap
      .ok ([], { l with list := calloc newcap, capacity := newcap })
    | some cells =>
      if newcap > 0 then
        if newcap < l.capacity then do
          let (kept, rest) ← Slots.takeEntries cells (min l.count newcap)
          let list ← store (calloc newcap) 0 (kept.map some)
          let (dropped, _) ← Slots.takeEntries rest (l.count - newcap)
          return (if l.freeItem then dropped else [],
            { l with list, count := min l.count newcap, capacity := newcap })
        else do
          let list ← store (some (realloc cells (sizeMul 8 newcap))) l.capacity
            (List.replicate (sizeMul (sizeSub newcap l.capacity) 8 / 8) none)
          return ([], { l with list, capacity := newcap })
      else .ok ([], { l with list := none, count := 0, capacity := newcap })

def shrink (l : ArrayList α) : Outcome (List α × ArrayList α) := l.resize l.count

def expand (l : ArrayList α) : Outcome (ArrayList α) :=
  if l.capacity = 0 then do
    let (_, l) ← l.resize 1
    return l
  else if l.capacity < l.maxCap then
    if l.maxCap - l.capacity < l.capacity then do
      let (_, l) ← l.resize l.maxCap
      return l
    else do
      let (_, l) ← l.resize (l.capacity * 2)
      return l
  else .ok l

/-- Returns whether the item was stored. -/
def add (l : ArrayList α) (item : Option α) : Outcome (Bool × ArrayList α) :=
  match item with
  | none => .ok (false, l)
  | some _ =>
    if l.count < l.capacity then do
      match ← l.findSlot (·.isNone) with
      | none => return (false, l)
      | some i =>
        let list ← store l.list i [item]
        return (true, { l with list, count := sizeAdd l.count 1 })
    else if l.capacity = l.maxCap then .ok (false, l)
    else do
      let l ← l.expand
      let list ← store l.list l.count [item]
      return (true, { l with list, count := sizeAdd l.count 1 })

def removeNoFree [DecidableEq α] (l : ArrayList α) (item : Option α) :
    Outcome (ArrayList α) :=
  match item with
  | none => .ok l
  | some _ => do
    match ← l.findSlot (· = item) with
    | none => return l
    | some i => l.removeByPtrNoFree i

def remove [DecidableEq α] (l : ArrayList α) (item : Option α) :
    Outcome (List α × ArrayList α) :=
  match item with
  | none => .ok ([], l)
  | some _ => do
    match ← l.findSlot (· = item) with
    | none => return ([], l)
    | some i => l.removeByPtr i

/-- The item for which the comparison returns 0, with its slot. -/
def findItemByValue (l : ArrayList α) (compare : α → Bool) : Outcome (Option (Nat × α)) :=
  match l.list with
  | none => if l.count = 0 then .ok none else .error .nullDeref
  | some cells => Slots.findEntry compare cells l.count

/-- The item with the given index among the items, not among the slots. -/
def getByIndex (l : ArrayList α) (vIndex : Nat) : Outcome (Option α) :=
  if vIndex ≥ l.count then .ok none
  else
    match l.list with
    | none => if l.capacity = 0 then .ok none else .error .nullDeref
    | some cells => Slots.nthEntry cells l.capacity vIndex

/-- Its loop also tests `array_count` against the capacity, but never increments it. -/
def getItemIndex [DecidableEq α] (l : ArrayList α) (item : Option α) : Outcome Int :=
  match item with
  | none => .ok AlibError.badArg.code
  | some a =>
    if l.capacity = 0 ∨ l.count = 0 then .ok (-1)
    else do
      let cells ← deref l.list
      match ← Slots.entryIndex (· = a) cells 0 l.count with
      | none => return -1
      | some arrayIndex => return toLong arrayIndex

def clear (l : ArrayList α) : Outcome (List α × ArrayList α) :=
  match l.list with
  | none => if l.count = 0 then .ok ([], l) else .error .nullDeref
  | some cells => do
    let (dropped, rest) ← Slots.takeEntries cells l.count
    return (if l.freeItem then dropped else [],
      { l with
        list := some (List.replicate (cells.length - rest.length) none ++ rest), count := 0 })

/-- `array_end_it` goes down to the next item or to `array_it`, whichever comes first. -/
def siftEnd (cells : List (Option α)) (i : Nat) : Nat → Outcome Nat
  | 0 =>
    if i = 0 then .ok 0
    else do
      let cell ← load (some cells) 0 1
      if cell.all (·.isNone) then .error .outOfBounds else return 0
  | j + 1 =>
    if j + 1 = i then .ok (j + 1)
    else do
      let cell ← load (some cells) (j + 1) 1
      if cell.all (·.isNone) then siftEnd cells i j else return (j + 1)

/-- The loop of `ArrayList_sift` with `n` rounds to go, at `array_it` and `array_end_it`.
The number is the count that is found to be wrong. -/
def siftLoop : List (Option α) → Nat → Nat → Nat → Outcome (Option Nat × List (Option α))
  | cells, _, _, 0 => .ok (none, cells)
  | cells, i, j, n + 1 => do
    let cell ← load (some cells) i 1
    if cell.all (·.isNone) then
      let j ← siftEnd cells i j
      if j = i then return (some i, cells)
      else
        let last ← load (some cells) j 1
        siftLoop (overwrite (overwrite cells i last) j [none]) (i + 1) j n
    else siftLoop cells (i + 1) j n

def sift (l : ArrayList α) : Outcome (AlibError × ArrayList α) :=
  if l.count = 0 then .ok (.ok, l)
  else do
    let cells ← deref l.list
    let (corrupt, cells) ← siftLoop cells 0 (l.capacity - 1) l.count
    match corrupt with
    | none => return (.ok, { l with list := some cells })
    | some i => return (.objCorruption, { l with list := some cells, count := i })

def extractArray (l : ArrayList α) : Option (List (Option α)) × ArrayList α :=
  (l.list, { l with capacity := 0, count := 0, list := none })

/-- The source stores the new maximum in `capacity`. -/
def setMaxCap (l : ArrayList α) (maxCap : Nat) : ArrayList α :=
  { l with capacity := if maxCap = 0 then ULONG_MAX else maxCap }

/-- `newArrayList_ex`. -/
def newEx (freeItem : Bool) (startCapacity maxCapacity : Nat) : Option (ArrayList α) :=
  let maxCap := if maxCapacity = 0 then ULONG_MAX else maxCapacity
  if maxCap < startCapacity then none
  else if startCapacity = 0 then some { list := none, count := 0, capacity := 0, maxCap, freeItem }
  else
    (calloc startCapacity).map fun cells =>
      { list := some cells, count := 0, capacity := startCapacity, maxCap, freeItem }

/-- `newArrayList`. -/
def new (freeItem : Bool) : Option (ArrayList α) := newEx freeItem 4 0

/-- A walk that starts at the array, visits entries while fewer than the current count
were visited, and removes some of them by `ArrayList_remove_by_ptr`. -/
def visit (l : ArrayList α) (body : α → List β × Bool) : Outcome (List β × ArrayList α) :=
  match l.list with
  | none => if l.count = 0 then .ok ([], l) else .error .nullDeref
  | some cells => do
    let (events, cells, count) ← Slots.visit body cells 0 l.count
    return (events, { l with list := some cells, count })

end ArrayList

end AlibC
