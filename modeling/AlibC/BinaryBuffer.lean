import AlibC.AlibString
import AlibC.Error

/-! `BinaryBuffer`: a growing array of bytes. The memory `buff` points to is a block
whose own length is the number of bytes that were allocated, so that a write beyond
the allocation faults whatever `capacity` says. -/
namespace AlibC

open CLang

structure BinaryBuffer where
  buff : Option Block
  len : Nat
  capacity : Nat
  minCap : Nat
  maxExpand : Nat
deriving DecidableEq, Repr

namespace BinaryBuffer

/-- `BINARY_BUFFER_DEFAULT_MIN_CAP` and `BINARY_BUFFER_DEFUALT_MAX_EXPAND`. -/
def defaultMinCap : Nat := 64
def defaultMaxExpand : Nat := 1024 * 1024

def calculateExpansion (b : BinaryBuffer) (size : Nat) : Nat :=
  if size = 0 then 1
  else
    let newSize := if size > b.maxExpand then sizeAdd size b.maxExpand else sizeMul size 2
    if newSize < size then ULONG_MAX else newSize

def hardResize (al : Alloc UInt8) (b : BinaryBuffer) (newSize : Nat) :
    AlibError × BinaryBuffer :=
  if b.capacity = newSize then (.ok, b)
  else if newSize = 0 then (.ok, { b with buff := none, capacity := 0, len := 0 })
  else
    match al.realloc b.buff newSize with
    | none => (.memErr, { b with buff := none })
    | some blk =>
      (.ok, { b with buff := some blk, capacity := newSize, len := min b.len newSize })

def resize (al : Alloc UInt8) (b : BinaryBuffer) (newSize : Nat) : AlibError × BinaryBuffer :=
  hardResize al b (if newSize < b.minCap then b.minCap else newSize)

/-- `BinaryBuffer_expand` computes the new size from a local variable that was never
set; `newCap` is what happens to be in it. -/
def expand (al : Alloc UInt8) (b : BinaryBuffer) (newCap : Nat) : AlibError × BinaryBuffer :=
  if b.capacity = ULONG_MAX then (.internalMaxReached, b)
  else resize al b (b.calculateExpansion newCap)

/-- The growth loop `while(new_cap < target)`, for as many rounds as there is fuel. -/
def expandLoop (b : BinaryBuffer) (target : Nat) : Nat → Nat → Outcome Nat
  | 0, newCap => if newCap < target then .error .diverges else .ok newCap
  | fuel + 1, newCap =>
    if newCap < target then expandLoop b target fuel (b.calculateExpansion newCap)
    else .ok newCap

def expandToTarget (al : Alloc UInt8) (b : BinaryBuffer) (target : Nat) :
    Outcome (AlibError × BinaryBuffer) := do
  let newCap ← expandLoop b target target b.capacity
  return resize al b newCap

/-- The test `append` and `insert` begin with: memory is taken only when it is missing. -/
def ensureRoom (al : Alloc UInt8) (b : BinaryBuffer) (newLen : Nat) :
    Outcome (AlibError × BinaryBuffer) :=
  if b.capacity < newLen then expandToTarget al b newLen else .ok (.ok, b)

/-- `data` is the caller's memory, `none` for `NULL`. -/
def append (al : Alloc UInt8) (b : BinaryBuffer) (data : Option Block) (dataLen : Nat) :
    Outcome (AlibError × BinaryBuffer) :=
  if data = none then .ok (.badArg, b)
  else if sizeAdd b.len dataLen > ULONG_MAX then .ok (.internalMaxReached, b)
  else do
    let newDataLen := sizeAdd b.len dataLen
    let (err, b) ← ensureRoom al b newDataLen
    if err ≠ .ok then return (err, b)
    let p ← memcpy b.buff b.len data 0 dataLen
    return (.ok, { b with buff := p, len := newDataLen })

def insert (al : Alloc UInt8) (b : BinaryBuffer) (index : Nat) (data : Option Block)
    (dataLen : Nat) : Outcome (AlibError × BinaryBuffer) :=
  if data = none then .ok (.badArg, b)
  else if index > b.len then .ok (.badIndex, b)
  else if sizeAdd b.len dataLen > ULONG_MAX then .ok (.internalMaxReached, b)
  else do
    let newLen := sizeAdd b.len dataLen
    let (err, b) ← ensureRoom al b newLen
    if err ≠ .ok then return (err, b)
    let p ← memcpyBack b.buff (index + dataLen) index (sizeSub b.len (index + 1))
    let p ← memcpy p index data 0 dataLen
    return (.ok, { b with buff := p, len := newLen })

def clear (al : Alloc UInt8) (b : BinaryBuffer) : BinaryBuffer :=
  if b.capacity > b.minCap then (hardResize al b 0).2 else { b with len := 0 }

def clearNoResize (b : BinaryBuffer) : BinaryBuffer := { b with len := 0 }

def shrinkToFit (al : Alloc UInt8) (b : BinaryBuffer) : BinaryBuffer := (hardResize al b b.len).2

def remove (b : BinaryBuffer) (begin_ end_ : Nat) : Outcome (AlibError × BinaryBuffer) :=
  let (lo, hi) := if begin_ > end_ then (end_, begin_) else (begin_, end_)
  if hi ≥ sizeSub b.len 1 then .ok (.ok, { b with len := lo })
  else do
    let p ← memcpyWithin b.buff lo hi (sizeSub b.len hi)
    return (.ok, { b with buff := p, len := sizeSub b.len (sizeSub hi lo) })

/-- `to_` is the caller's memory, `none` for `NULL`; it is returned with what was copied into it. -/
def copyAndDrain (b : BinaryBuffer) (to_ : Option Block) (count : Nat) :
    Outcome (AlibError × Option Block × BinaryBuffer) :=
  if to_ = none then .ok (.badArg, to_, b)
  else do
    let count := if count > b.len then b.len else count
    let to_ ← memcpy to_ 0 b.buff 0 count
    let (err, b) ← b.remove 0 count
    return (err, to_, b)

def copyBlock (b : BinaryBuffer) (begin_ end_ : Nat) (to_ : Option Block) (count : Nat) :
    Outcome (AlibError × Option Block) :=
  let (lo, hi) := if begin_ > end_ then (end_, begin_) else (begin_, end_)
  if hi ≥ b.len then .ok (.badIndex, to_)
  else do
    let avail := sizeSub hi lo
    let count := if count > avail then avail else count
    let to_ ← memcpy to_ 0 b.buff lo count
    return (.ok, to_)

/-- The range that is removed is counted from `begin_`, in whatever order the two are. -/
def copyBlockAndDrain (b : BinaryBuffer) (begin_ end_ : Nat) (to_ : Option Block) (count : Nat) :
    Outcome (AlibError × Option Block × BinaryBuffer) := do
  let (err, to_) ← b.copyBlock begin_ end_ to_ count
  if err ≠ .ok then return (err, to_, b)
  let newCount := sizeSub end_ begin_
  let count := if count > newCount then newCount else count
  let (err, b) ← b.remove begin_ (sizeAdd begin_ count)
  return (err, to_, b)

/-- The caller receives the block; the buffer forgets it. -/
def extractBuffer (b : BinaryBuffer) : Option Block × BinaryBuffer :=
  (b.buff, { b with buff := none, capacity := 0, len := 0 })

def replace (al : Alloc UInt8) (b : BinaryBuffer) (index oldLen : Nat) (newData : Option Block)
    (newDataLen : Nat) : Outcome (AlibError × BinaryBuffer) :=
  if index > b.len then .ok (.badArg, b)
  else
    let newLen := sizeSub (sizeAdd b.len newDataLen) oldLen
    if b.capacity < newLen then do
      let (err, b) ← expandToTarget al b newLen
      if err ≠ .ok then return (err, b)
      -- the addresses below were computed from the block that `realloc` took away
      .error .dangling
    else do
      let p ← if oldLen ≠ newDataLen then
          memcpySafe b.buff (index + newDataLen) (index + oldLen)
            (sizeSub (sizeSub b.len index) oldLen)
        else .ok b.buff
      let p ← memcpy p index newData 0 newDataLen
      return (.ok, { b with buff := p, len := sizeAdd b.len (sizeSub newDataLen oldLen) })

/-- `newBinaryBuffer_ex`. When the block is refused the object is deleted, and data
copied into it afterwards goes through a `NULL` pointer. -/
def newEx (al : Alloc UInt8) (data : Option Block) (dataLen startCap minCap maxExpand : Nat) :
    Outcome (Option BinaryBuffer) :=
  let startCap := if dataLen > startCap then dataLen else startCap
  let startCap := if minCap > startCap then minCap else startCap
  let b : BinaryBuffer :=
    { buff := none, len := dataLen, capacity := startCap, minCap := minCap
      maxExpand := if maxExpand = 0 then ULONG_MAX else maxExpand }
  if startCap = 0 then .ok (some b)
  else
    match al.block startCap with
    | none => if data ≠ none ∧ dataLen ≠ 0 then .error .nullDeref else .ok none
    | some blk =>
      if data ≠ none ∧ dataLen ≠ 0 then do
        let p ← memcpy (some blk) 0 data 0 dataLen
        return some { b with buff := p }
      else .ok (some { b with buff := some blk })

def new (al : Alloc UInt8) : Outcome (Option BinaryBuffer) :=
  newEx al none 0 0 defaultMinCap defaultMaxExpand

end BinaryBuffer

end AlibC
