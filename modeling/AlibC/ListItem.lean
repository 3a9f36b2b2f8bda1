import AlibC.Lib.Machine
import AlibC.Lib.RefCount
import AlibC.Lib.SizeT

/-! `ListItemVal` and `ListItem`: values that several list items share. -/
namespace AlibC

open CLang

/-- `V` stands for the user's values, `F` for the callbacks that free them. -/
structure ListItemVal (V F : Type) where
  value : Option V
  freeValueCb : Option F
  refCount : Nat
deriving DecidableEq, Repr

structure ListItem where
  val : Option Nat
  removed : Bool
deriving DecidableEq, Repr

namespace ListItemVal

variable {V F : Type}

/-- The object whose callback is run, the callback and the value it is given. -/
structure FreeCall (V F : Type) where
  liv : Nat
  cb : F
  value : V
deriving DecidableEq, Repr

/-- The objects made so far, which are never reused. An object is `none` after `free`. -/
structure Heap (V F : Type) where
  vals : List (Option (ListItemVal V F))
  freed : List Nat
  calls : List (FreeCall V F)
deriving DecidableEq, Repr

/-- `*liv`. -/
def get (h : Heap V F) (liv : Nat) : Outcome (ListItemVal V F) :=
  match h.vals[liv]? with
  | some (some v) => .ok v
  | _ => .error .dangling

def set (h : Heap V F) (liv : Nat) (v : Option (ListItemVal V F)) : Heap V F :=
  { h with vals := h.vals.set liv v }

/-- `newListItemVal`. `alloc` tells whether there is memory. -/
def new (h : Heap V F) (alloc : Bool) (val : Option V) (freeValCb : Option F) :
    Option Nat × Heap V F :=
  if alloc then
    (some h.vals.length, { h with vals := h.vals ++ [some ⟨val, freeValCb, 1⟩] })
  else (none, h)

/-- `ListItemVal_ref`. -/
def ref (h : Heap V F) (liv : Option Nat) : Outcome (Option Nat × Heap V F) :=
  match liv with
  | none => .ok (none, h)
  | some liv => do
    let v ← get h liv
    if v.refCount = 0 then return (none, h)
    else return (some liv, set h liv (some { v with refCount := sizeAdd v.refCount 1 }))

/-- The calls the last `delListItemVal` makes of the callback. -/
def freeCalls (liv : Nat) (value : Option V) (cb : Option F) : List (FreeCall V F) :=
  match cb, value with
  | some cb, some value => [⟨liv, cb, value⟩]
  | _, _ => []

/-- `delListItemVal`. The pointer it is given becomes the one it returns. -/
def del (h : Heap V F) (liv : Option Nat) : Outcome (Option Nat × Heap V F) :=
  match liv with
  | none => .ok (none, h)
  | some liv => do
    let v ← get h liv
    if v.refCount ≠ 0 then
      if v.refCount - 1 = 0 then
        return (none,
          { vals := h.vals.set liv none, freed := h.freed ++ [liv],
            calls := h.calls ++ freeCalls liv v.value v.freeValueCb })
      else return (none, set h liv (some { v with refCount := v.refCount - 1 }))
    else return (none, h)

end ListItemVal

namespace ListItem

variable {V F : Type}

open ListItemVal (Heap)

/-- `ListItem_get_val_ref`. -/
def getValRef (h : Heap V F) (item : Option ListItem) : Outcome (Option Nat × Heap V F) := do
  let item ← deref item
  ListItemVal.ref h item.val

/-- `newListItem_ex`. The item is told from others by the pointer to it. -/
def newEx (alloc : Bool) (val : Option Nat) : Option ListItem :=
  match val with
  | none => none
  | some liv => if alloc then some { val := some liv, removed := false } else none

/-- `newListItem`. There are two allocations. -/
def new (h : Heap V F) (allocVal allocItem : Bool) (val : Option V) (freeVal : Option F) :
    Option ListItem × Heap V F :=
  let (liv, h) := ListItemVal.new h allocVal val freeVal
  (newEx allocItem liv, h)

/-- `delListItem`. -/
def del (h : Heap V F) (item : Option ListItem) : Outcome (Option ListItem × Heap V F) :=
  match item with
  | none => .ok (none, h)
  | some item => do
    let (_, h) ← ListItemVal.del h item.val
    return (none, h)

end ListItem

end AlibC
