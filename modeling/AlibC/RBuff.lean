import AlibC.AlibString
import AlibC.Error

/-! `RBuff`: a ring of bytes. Pointers into the memory are offsets from its start. -/
namespace AlibC

open CLang

structure RBuff where
  buff : Block
  buffEnd : Nat
  itBegin : Nat
  itEnd : Nat
  count : Nat
  flags : Nat
deriving DecidableEq, Repr

namespace RBuff

def rbuffOwnedBuff : Nat := 1
def rbuffNoOverwrite : Nat := 2

/-- Up to the end of the memory or the begin iterator, whichever is closer. -/
def endItToBuffEnd (r : RBuff) : Nat :=
  if r.itEnd < r.itBegin then r.itBegin - r.itEnd else r.buffEnd - r.itEnd

/-- Up to the end of the memory or the end iterator, whichever is closer. -/
def beginItToBuffEnd (r : RBuff) : Nat :=
  if r.itBegin < r.itEnd then r.itEnd - r.itBegin else r.buffEnd - r.itBegin

def getSize (r : RBuff) : Nat := r.buffEnd

def getCount (r : RBuff) : Nat := r.count

/-- The new position of the iterator `it`. -/
def incrementIt (r : RBuff) (it count : Nat) : Nat :=
  let buffSize := r.getSize
  let count := if count > buffSize then count % buffSize else count
  let it := it + count
  if it ≥ r.buffEnd then it - buffSize else it

/-- Returns the number of bytes and the caller's memory `buff` with these bytes in it. -/
def copy (r : RBuff) (buff : Option Block) (count : Nat) : Outcome (Nat × Option Block) :=
  if count = 0 then .ok (0, buff)
  else
    let count := if count > r.getCount then r.getCount else count
    let copyCount := r.beginItToBuffEnd
    if copyCount < count then do
      if buff = none then return (copyCount + (count - copyCount), none)
      let buff ← memcpy buff 0 (some r.buff) r.itBegin copyCount
      let buff ← memcpy buff copyCount (some r.buff) 0 (count - copyCount)
      return (copyCount + (count - copyCount), buff)
    else do
      if buff = none then return (count, none)
      let buff ← memcpy buff 0 (some r.buff) r.itBegin count
      return (count, buff)

def popoff (r : RBuff) (buff : Option Block) (count : Nat) :
    Outcome ((Nat × Option Block) × RBuff) := do
  let (rval, buff) ← r.copy buff count
  return ((rval, buff),
    { r with itBegin := r.incrementIt r.itBegin rval, count := sizeSub r.count rval })

/-- The byte, or the code of `ALIB_BAD_ARG` when there is none. -/
def popoffByte (r : RBuff) : Outcome (Int × RBuff) :=
  if r.getCount = 0 then .ok (AlibError.badArg.code, r)
  else do
    let cell ← load (some r.buff) r.itBegin 1
    return (cell.foldl (fun _ c => c.toNat) 0,
      { r with itBegin := r.incrementIt r.itBegin 1, count := sizeSub r.count 1 })

/-- The second half of `RBuff_pushback`: `count` bytes of `data` from `off` on are stored
in up to two pieces. -/
def pushPieces (r : RBuff) (data : Block) (off count : Nat) : Outcome (Nat × RBuff) :=
  let copyCount := r.endItToBuffEnd
  if count > copyCount then do
    let p ← memcpy (some r.buff) r.itEnd (some data) off copyCount
    let p ← memcpy p 0 (some data) (off + copyCount) (count - copyCount)
    let blk ← deref p
    let totalCount := toInt32 (toInt32 copyCount + (count - copyCount : Nat))
    let total := sizeAdd r.count (toSize totalCount)
    return (toSize totalCount,
      { r with buff := blk, itEnd := count - copyCount, count := min total r.getSize })
  else do
    let p ← memcpy (some r.buff) r.itEnd (some data) off count
    let blk ← deref p
    let totalCount := toInt32 count
    let total := sizeAdd r.count (toSize totalCount)
    return (toSize totalCount,
      { r with buff := blk, itEnd := r.itEnd + count, count := min total r.getSize })

/-- Makes room for `count` bytes, or lowers `count` to the room there is. -/
def pushRoom (r : RBuff) (count : Nat) : Outcome (Nat × RBuff) :=
  if sizeAdd count r.getCount > r.getSize then
    if r.flags &&& rbuffNoOverwrite ≠ 0 then .ok (sizeSub r.getSize r.getCount, r)
    else do
      let (_, r') ← r.popoff none (sizeSub (sizeAdd count r.getCount) r.getSize)
      return (count, r')
  else .ok (count, r)

def pushback (r : RBuff) (buff : Option Block) (count : Nat) : Outcome (Nat × RBuff) :=
  match buff with
  | none => .ok (0, r)
  | some data =>
    if count = 0 then .ok (0, r)
    else do
      let off := if count > r.getSize then count - r.getSize else 0
      let (count, r) ← r.pushRoom (if count > r.getSize then r.getSize else count)
      r.pushPieces data off count

/-- The number of bytes stored is returned as an `alib_error`. -/
def pushbackByte (r : RBuff) (byte : UInt8) : Outcome (Int × RBuff) := do
  let (n, r) ← r.pushback (some [byte]) 1
  return (toInt32 n, r)

/-- `none` stands for `ALIB_BAD_ARG`, which leaves the object alone. -/
def init (buff : Option Block) (buffSize flags : Nat) : Option RBuff :=
  match buff with
  | none => none
  | some blk =>
    if buffSize = 0 then none
    else some { buff := blk, buffEnd := buffSize, itBegin := 0, itEnd := 0, count := 0, flags }

def reset (r : RBuff) : RBuff := (init (some r.buff) r.getSize r.flags).getD r

/-- `newRBuff`. -/
def new (al : Alloc UInt8) (buffSize : Nat) : Option RBuff :=
  if buffSize = 0 then none else init (al.block buffSize) buffSize rbuffOwnedBuff

end RBuff

end AlibC
