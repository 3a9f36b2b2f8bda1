import AlibC.BinaryBufferInvariant
import AlibC.Lib.ZStream

/-! `zip`: blocks and files that are deflated and inflated in chunks. zlib is a parameter. Files are
read and written without errors, and the pointers for the results are not `NULL`. -/
namespace AlibC.Zip

open CLang ZStream BinaryBuffer

variable {σ β : Type}

/-- `ZIP_CHUNK`. -/
abbrev ZIP_CHUNK : Nat := 64 * 1024

/-- `strm.avail_in = buff_len`, which has 32 bits: the bytes the stream is given. -/
def availIn (buff : Block) : List UInt8 := buff.take (buff.length % 2 ^ 32)

/-- Where the output goes: how room is made for a chunk, where the stream writes, and what is done with
what it wrote. -/
structure Output (β : Type) where
  room : β → β
  write : β → List UInt8 → Outcome β
  keep : β → List UInt8 → β

/-- Behind the bytes of a `BinaryBuffer`. The result of the resizing is not looked at. -/
def toBuffer (al : Alloc UInt8) : Output BinaryBuffer where
  room out := (hardResize al out (sizeAdd out.len ZIP_CHUNK)).2
  write out bytes := do
    let buff ← store out.buff out.len bytes
    return { out with buff }
  keep out bytes := { out with len := sizeAdd out.len bytes.length }

/-- In an array of one chunk, and from there at the end of a file. -/
def toFile : Output (List UInt8) where
  room dest := dest
  write dest bytes := if bytes.length ≤ ZIP_CHUNK then .ok dest else .error .outOfBounds
  keep dest bytes := dest ++ bytes

/-- What the loop `do{ .. }while(strm.avail_out == 0)` leaves: `rval`, the stream, and whether it was
left with `goto f_return`. -/
structure Pumped (σ β : Type) where
  rval : ZCode
  strm : σ
  totalIn : Nat
  out : β
  failed : Bool

/-- The loop `do{ .. }while(strm.avail_out == 0)`. `fails` gives the value that is returned at once for a
code. -/
def pump (call : Call σ) (fails : ZCode → Option ZCode) (dest : Output β) :
    Nat → σ → List UInt8 → β → Outcome (Pumped σ β)
  | 0, _, _, _ => .error .diverges
  | fuel + 1, strm, nextIn, out => do
    let r := call strm nextIn ZIP_CHUNK
    let out ← dest.write (dest.room out) r.out
    match fails r.code with
    | some rval => return ⟨rval, r.state, r.used, out, true⟩
    | none =>
      let out := dest.keep out r.out
      if r.out.length = ZIP_CHUNK then do
        let p ← pump call fails dest fuel r.state (nextIn.drop r.used) out
        return { p with totalIn := r.used + p.totalIn }
      else return ⟨r.code, r.state, r.used, out, false⟩

/-- `if(rval == Z_STREAM_ERROR)goto f_return;` and the `switch` that follows in the inflating loops. -/
def inflateFails : ZCode → Option ZCode
  | .streamError => some .streamError
  | .needDict => some .dataError
  | .dataError => some .dataError
  | .memError => some .memError
  | _ => none

def deflateFails : ZCode → Option ZCode
  | .streamError => some .streamError
  | _ => none

/-- `if(rval == Z_STREAM_END)rval = Z_OK;` -/
def endCode (rval : ZCode) : ZCode := if rval = .streamEnd then .ok else rval

/-- The loop that reads a file chunk by chunk, from what is left of it. -/
def readLoop (call : Call σ) (fails : ZCode → Option ZCode) (dest : Output β) (fuel : Nat) :
    Nat → σ → List UInt8 → β → ZCode → Outcome (Pumped σ β)
  | 0, _, _, _, _ => .error .diverges
  | rounds + 1, strm, source, out, rval =>
    if source.take ZIP_CHUNK = [] then .ok ⟨rval, strm, 0, out, false⟩
    else do
      let p ← pump call fails dest fuel strm (source.take ZIP_CHUNK) out
      if p.failed ∨ p.rval = .streamEnd then return p
      else do
        let q ← readLoop call fails dest fuel rounds p.strm (source.drop ZIP_CHUNK) p.out p.rval
        return { q with totalIn := p.totalIn + q.totalIn }

/-- What is set by a function that fills a buffer: the block and its length, unless it fails. -/
abbrev Returned := ZCode × Option (Option Block × Nat)

/-- The end of the functions that fill a buffer. -/
def takeBuffer (al : Alloc UInt8) (p : Pumped σ BinaryBuffer) : Returned :=
  if p.failed then (p.rval, none)
  else
    let out := p.out.shrinkToFit al
    (endCode p.rval, some (out.extractBuffer.1, out.len))

/-- `deflate_btb`, and how much of the input its stream used. -/
def deflateBtb (d : Deflater σ) (al : Alloc UInt8) (level : Int) (buff : Option Block) (fuel : Nat) :
    Outcome (Returned × Nat) :=
  match buff with
  | none => .ok ((.bufError, none), 0)
  | some buff =>
    if buff.length = 0 then .ok ((.bufError, none), 0)
    else do
      let out ← newEx al none 0 0 0 0
      match out with
      | none => return ((.memError, none), 0)
      | some out => do
        let p ← pump d.deflate deflateFails (toBuffer al) fuel (d.init level) (availIn buff) out
        return (takeBuffer al p, p.totalIn)

/-- `inflate_btb`. -/
def inflateBtb (z : Inflater σ) (al : Alloc UInt8) (buff : Option Block) (fuel : Nat) :
    Outcome Returned :=
  match buff with
  | none => .ok (.dataError, none)
  | some buff =>
    if buff.length = 0 then .ok (.dataError, none)
    else do
      let out ← newEx al none 0 0 0 0
      match out with
      | none => return (.memError, none)
      | some out => do
        let p ← pump z.inflate inflateFails (toBuffer al) fuel z.init (availIn buff) out
        return takeBuffer al p

/-- `inflate_ftb`. -/
def inflateFtb (z : Inflater σ) (al : Alloc UInt8) (source : Option (List UInt8)) (fuel : Nat) :
    Outcome Returned :=
  match source with
  | none => .ok (.dataError, none)
  | some source => do
    let out ← newEx al none 0 0 0 0
    match out with
    | none => return (.memError, none)
    | some out => do
      let p ← readLoop z.inflate inflateFails (toBuffer al) fuel fuel z.init source out .ok
      return takeBuffer al p

/-- `inflate_btf`: the code, and the file after what was written to `dest`. -/
def inflateBtf (z : Inflater σ) (buff : Option Block) (dest : List UInt8) (fuel : Nat) :
    Outcome (ZCode × List UInt8) :=
  match buff with
  | none => .ok (.dataError, dest)
  | some buff =>
    if buff.length = 0 then .ok (.dataError, dest)
    else do
      let p ← pump z.inflate inflateFails toFile fuel z.init (availIn buff) dest
      return (if p.failed then p.rval else endCode p.rval, p.out)

/-- `inflate_ftf`. -/
def inflateFtf (z : Inflater σ) (src : Option (List UInt8)) (dest : List UInt8) (fuel : Nat) :
    Outcome (ZCode × List UInt8) :=
  match src with
  | none => .ok (.dataError, dest)
  | some src => do
    let p ← readLoop z.inflate inflateFails toFile fuel fuel z.init src dest .ok
    return (if p.failed then p.rval else endCode p.rval, p.out)

end AlibC.Zip
