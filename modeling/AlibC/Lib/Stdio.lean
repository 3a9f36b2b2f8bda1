import AlibC.Lib.Block

/-! Files that are open for reading, whose position is what `fseek` sets and `ftell` returns, and files
that are written. -/
namespace CLang

/-- `readable` is how many of the bytes the device gives out before it fails. -/
structure Stream where
  bytes : List UInt8
  readable : Nat
  pos : Nat

/-- `SEEK_SET`, `SEEK_CUR` and `SEEK_END`. -/
inductive Whence where
  | set | cur | end_
deriving DecidableEq, Repr

namespace Stream

def base (f : Stream) : Whence → Nat
  | .set => 0
  | .cur => f.pos
  | .end_ => f.bytes.length

/-- A position that is no `long`, or below zero, is refused. One behind the end of the file is not. -/
def fseek (f : Stream) (offset : Int) (whence : Whence) : Stream :=
  let pos := f.base whence + offset
  if 0 ≤ pos ∧ pos ≤ LONG_MAX then { f with pos := pos.toNat } else f

/-- What a read of `count` bytes comes to. -/
def given (f : Stream) (count : Nat) : List UInt8 := ((f.bytes.take f.readable).drop f.pos).take count

/-- `fread(p + off, 1, count, f)`. No more is stored than there is. -/
def fread (f : Stream) (p : Option (List UInt8)) (off count : Nat) :
    Outcome (Nat × Option (List UInt8) × Stream) := do
  let bs := f.given count
  let p ← store p off bs
  return (bs.length, p, { f with pos := f.pos + bs.length })

variable {f : Stream} {n off count : Nat} {blk : List UInt8}

theorem fseek_eq {whence : Whence} {offset : Int} (h : f.base whence + offset = n)
    (hn : n < 2 ^ 63) : f.fseek offset whence = { f with pos := n } := by
  have hmax : (LONG_MAX : Int) = 2 ^ 63 - 1 := rfl
  rw [fseek, h, if_pos (by omega), Int.toNat_natCast]

theorem fseek_set (h : n < 2 ^ 63) : f.fseek n .set = { f with pos := n } :=
  fseek_eq (Int.zero_add _) h

theorem fseek_cur (h : f.pos + n < 2 ^ 63) : f.fseek n .cur = { f with pos := f.pos + n } :=
  fseek_eq (Int.natCast_add _ _).symm h

theorem fseek_end (h : f.bytes.length < 2 ^ 63) :
    f.fseek 0 .end_ = { f with pos := f.bytes.length } :=
  fseek_eq (Int.add_zero _) h

theorem length_given_le : (f.given count).length ≤ count := List.length_take_le _ _

theorem given_eq (hread : f.bytes.length ≤ f.readable) :
    f.given count = (f.bytes.drop f.pos).take count := by
  rw [given, List.take_of_length_le hread]

theorem length_given (hread : f.bytes.length ≤ f.readable) :
    (f.given count).length = min count (f.bytes.length - f.pos) := by
  rw [given, List.take_of_length_le hread, List.length_take, List.length_drop]

theorem fread_eq (h : off + count ≤ blk.length) : f.fread (some blk) off count =
    .ok ((f.given count).length, some (overwrite blk off (f.given count)),
      { f with pos := f.pos + (f.given count).length }) := by
  have hle := @length_given_le f count
  rw [fread, store_some (by omega)]
  rfl

/-- More is read than the block has room for. -/
theorem fread_faults (h : blk.length < off + (f.given count).length)
    (hpos : 0 < (f.given count).length) :
    f.fread (some blk) off count = .error .outOfBounds := by
  rw [fread, store, if_neg (by omega), deref_some, ok_bind, if_neg (by omega)]
  rfl

end Stream

/-- A file that is written, and how many bytes its device still takes, if there is a limit. -/
structure Sink where
  bytes : List UInt8
  space : Option Nat
deriving DecidableEq, Repr

namespace Sink

/-- `fwrite(out, 1, have, f) == have`, and the file after that. -/
def fwrite (f : Sink) (out : List UInt8) : Bool × Sink :=
  match f.space with
  | none => (true, { f with bytes := f.bytes ++ out })
  | some n => (out.length ≤ n, ⟨f.bytes ++ out.take n, some (n - out.length)⟩)

/-- All of `out` was written behind what the file `f` held. -/
structure Wrote (f : Sink) (out : List UInt8) (f' : Sink) : Prop where
  bytes : f'.bytes = f.bytes ++ out
  space : f'.space = f.space.map (· - out.length)
  fits : ∀ n, f.space = some n → out.length ≤ n

/-- The device was full before all of `out` was written. -/
structure Filled (f : Sink) (out : List UInt8) (f' : Sink) : Prop where
  bytes : ∃ n, f.space = some n ∧ n < out.length ∧ f'.bytes = f.bytes ++ out.take n

variable {f f₁ f₂ : Sink} {a b : List UInt8}

theorem Wrote.refl (f : Sink) : f.Wrote [] f := by
  refine ⟨(List.append_nil _).symm, ?_, fun n _ => Nat.zero_le n⟩
  cases f.space <;> rfl

theorem Wrote.trans (h : f.Wrote a f₁) (h' : f₁.Wrote b f₂) : f.Wrote (a ++ b) f₂ := by
  refine ⟨?_, ?_, fun n hn => ?_⟩
  · rw [h'.bytes, h.bytes, List.append_assoc]
  · rw [h'.space, h.space, Option.map_map, List.length_append]
    congr 1
    funext n
    exact Nat.sub_sub n _ _
  · have hleft := h'.fits (n - a.length) (by rw [h.space, hn]; rfl)
    have hfits := h.fits n hn
    rw [List.length_append]
    omega

theorem Wrote.filled (h : f.Wrote a f₁) (h' : f₁.Filled b f₂) : f.Filled (a ++ b) f₂ := by
  obtain ⟨m, hm, hlt, hbytes⟩ := h'.bytes
  obtain ⟨n, hn, rfl⟩ := Option.map_eq_some_iff.mp (h.space.symm.trans hm)
  have hfits := h.fits n hn
  refine ⟨n, hn, by rw [List.length_append]; omega, ?_⟩
  rw [hbytes, h.bytes, List.append_assoc, List.take_append, List.take_of_length_le hfits]

/-- More that was to follow makes no difference. -/
theorem Filled.append (h : f.Filled a f₁) (b : List UInt8) : f.Filled (a ++ b) f₁ := by
  obtain ⟨n, hn, hlt, hbytes⟩ := h.bytes
  refine ⟨n, hn, by rw [List.length_append]; omega, ?_⟩
  rw [hbytes, List.take_append_of_le_length (Nat.le_of_lt hlt)]

theorem fwrite_eq (f : Sink) (out : List UInt8) : (f.fwrite out).1 = true ∧ f.Wrote out (f.fwrite out).2 ∨
    (f.fwrite out).1 = false ∧ f.Filled out (f.fwrite out).2 := by
  obtain ⟨bytes, space⟩ := f
  cases space with
  | none => exact .inl ⟨rfl, rfl, rfl, nofun⟩
  | some n =>
    by_cases hfits : out.length ≤ n
    · refine .inl ⟨decide_eq_true hfits, ?_, rfl, fun m hm => Option.some.inj hm ▸ hfits⟩
      show bytes ++ out.take n = bytes ++ out
      rw [List.take_of_length_le hfits]
    · exact .inr ⟨decide_eq_false hfits, n, rfl, Nat.lt_of_not_le hfits, rfl⟩

end Sink

end CLang
