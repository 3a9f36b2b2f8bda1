import AlibC.Lib.Stdio
import AlibC.Lib.ZChunks
import AlibC.ZipDeflate

/-! `zip`: the deflating functions that read or write files. A file that is read ends, or fails, and the
device of one that is written may be full. -/
namespace AlibC.Zip

open CLang ZStream BinaryBuffer

variable {σ β : Type}

/-- A `FILE*` that is read: the bytes that come from it, and whether there is an error behind them or the
end of the file. -/
structure Source where
  bytes : List UInt8
  fails : Bool
deriving DecidableEq, Repr

/-- How the inner loop of a function takes what the stream puts out. -/
abbrev Feeder (σ β : Type) := Call σ → σ → List UInt8 → β → Outcome (Pumped σ β)

/-- The inner loop `do{ .. }while(strm.avail_out == 0)` of the functions that write a file. -/
def pumpFile (call : Call σ) (fails : ZCode → Option ZCode) :
    Nat → σ → List UInt8 → Sink → Outcome (Pumped σ Sink)
  | 0, _, _, _ => .error .diverges
  | fuel + 1, strm, nextIn, dest =>
    let r := call strm nextIn ZIP_CHUNK
    -- `out` has room for one chunk
    if ZIP_CHUNK < r.out.length then .error .outOfBounds
    else
      match fails r.code with
      | some rval => .ok ⟨rval, r.state, r.used, dest, true⟩
      | none =>
        if (dest.fwrite r.out).1 then
          if r.out.length = ZIP_CHUNK then do
            let p ← pumpFile call fails fuel r.state (nextIn.drop r.used) (dest.fwrite r.out).2
            return { p with totalIn := r.used + p.totalIn }
          else .ok ⟨r.code, r.state, r.used, (dest.fwrite r.out).2, false⟩
        else .ok ⟨.errno, r.state, r.used, (dest.fwrite r.out).2, true⟩

/-- The outer loop, which reads a file chunk by chunk. The end of the file is noticed by a read that does
not fill its chunk. -/
def chunkLoop (d : Compressor σ) (feed : Feeder σ β) (fails : Bool) :
    Nat → σ → List UInt8 → β → Outcome (Pumped σ β)
  | 0, _, _, _ => .error .diverges
  | rounds + 1, strm, source, out =>
    if source.length < ZIP_CHUNK then
      if fails then .ok ⟨.errno, strm, 0, out, true⟩ else feed (d.deflate .finish) strm source out
    else do
      let p ← feed (d.deflate .noFlush) strm (source.take ZIP_CHUNK) out
      if p.failed then return p
      else do
        let q ← chunkLoop d feed fails rounds p.strm (source.drop ZIP_CHUNK) p.out
        return { q with totalIn := p.totalIn + q.totalIn }

/-- `deflate_ftb`. -/
def deflateFtb (d : Compressor σ) (al : Alloc UInt8) (level : Int) (source : Option Source) (fuel : Nat) :
    Outcome Returned :=
  match source with
  | none => .ok (.bufError, none)
  | some source => do
    let out ← newEx al none 0 0 0 0
    match out with
    | none => return (.memError, none)
    | some out => do
      let p ← chunkLoop d (fun call => pump call deflateFails (toBuffer al) fuel) source.fails fuel
        (d.init level) source.bytes out
      return takeBuffer al p

/-- `deflate_btf`: the code, and the file after that. -/
def deflateBtf (d : Compressor σ) (level : Int) (buff : Option Block) (dest : Option Sink) (fuel : Nat) :
    Outcome (ZCode × Option Sink) :=
  match buff, dest with
  | some buff, some dest =>
    if buff.length = 0 then .ok (.bufError, some dest)
    else do
      let p ← pumpFile (d.deflate .finish) deflateFails fuel (d.init level) (availIn buff) dest
      return (finalCode p, some p.out)
  | _, dest => .ok (.bufError, dest)

/-- `deflate_ftf`. -/
def deflateFtf (d : Compressor σ) (level : Int) (source : Option Source) (dest : Option Sink) (fuel : Nat) :
    Outcome (ZCode × Option Sink) :=
  match source, dest with
  | some source, some dest => do
    let p ← chunkLoop d (fun call => pumpFile call deflateFails fuel) source.fails fuel (d.init level)
      source.bytes dest
    return (finalCode p, some p.out)
  | _, dest => .ok (.bufError, dest)

section Feeding

variable {call : Call σ} {fails : ZCode → Option ZCode} {s : σ} {x o : List UInt8} {f : Fed σ}
  {Holds Short : β → List UInt8 → Prop} {Fits : Nat → Prop} {out : β}

/-- What is left of calls that do not fail: all they put out is held, or there was no room for all. -/
inductive Took (Holds Short : β → List UInt8 → Prop) (o : List UInt8) (f : Fed σ) : Pumped σ β → Prop where
  | all {p : Pumped σ β} : p.failed = false → p.rval = f.code → p.strm = f.state →
      Holds p.out (o ++ f.pieces.flatten) → Took Holds Short o f p
  | short {p : Pumped σ β} : p.failed = true → p.rval = .errno → Short p.out (o ++ f.pieces.flatten) →
      Took Holds Short o f p

/-- An inner loop that makes the calls and takes what they put out, with fuel. -/
structure TakesCalls (feed : Nat → Feeder σ β) (Holds Short : β → List UInt8 → Prop) (Fits : Nat → Prop) :
    Prop where
  fits_le : ∀ {m n}, m ≤ n → Fits n → Fits m
  short_append : ∀ {out : β} {a : List UInt8} (b : List UInt8), Short out a → Short out (a ++ b)
  takes : ∀ {call : Call σ} {s : σ} {x o : List UInt8} {f : Fed σ} {out : β},
    Feeds call (fun code => (deflateFails code).isSome) ZIP_CHUNK s x f → f.failed = false → Holds out o →
    Fits (o ++ f.pieces.flatten).length →
    ∃ p, Settles (fun fuel => feed fuel call s x out) p ∧ Took Holds Short o f p

theorem pump_takesCalls {al : Alloc UInt8} (hal : al.Succeeds) :
    TakesCalls (σ := σ) (fun fuel call => pump call deflateFails (toBuffer al) fuel) BufferHolds
      (fun _ _ => False) BufferFits := by
  refine ⟨(toBuffer_takes hal).fits_le, fun _ h => h, ?_⟩
  intro call s x o f out hfeeds hok hout hfits
  obtain ⟨p, hp, hends⟩ := pump_feeds (toBuffer_takes hal) hfits hfeeds hout (Nat.le_refl _)
  exact ⟨p, hp, .all (hends.failed.trans hok) (hends.rval hok) hends.strm (hends.holds hok)⟩

/-- A piece that does not fit ends the loop. -/
theorem pumpFile_short {dest : Sink} (hle : (call s x ZIP_CHUNK).out.length ≤ ZIP_CHUNK)
    (hgoes : fails (call s x ZIP_CHUNK).code = none)
    (hnot : (dest.fwrite (call s x ZIP_CHUNK).out).1 = false) :
    Settles (fun fuel => pumpFile call fails fuel s x dest)
      ⟨.errno, (call s x ZIP_CHUNK).state, (call s x ZIP_CHUNK).used,
        (dest.fwrite (call s x ZIP_CHUNK).out).2, true⟩ := by
  refine ⟨1, fun fuel hfuel => ?_⟩
  obtain ⟨fuel, rfl⟩ := Nat.exists_eq_add_of_le' hfuel
  dsimp only
  rw [pumpFile, if_neg (Nat.not_lt_of_le hle), hgoes]
  dsimp only
  rw [if_neg (by rw [hnot]; decide)]

/-- The loop makes the calls, and writes what they return until the device is full. -/
theorem pumpFile_feeds {start : Sink}
    (hf : Feeds call (fun code => (fails code).isSome) ZIP_CHUNK s x f) :
    ∀ {o : List UInt8} {dest : Sink}, f.failed = false → start.Wrote o dest →
      ∃ p, Settles (fun fuel => pumpFile call fails fuel s x dest) p ∧
        Took (fun out bytes => start.Wrote bytes out) (fun out bytes => start.Filled bytes out) o f p := by
  induction hf with
  | failed => nofun
  | @last s x hlt hgoes =>
    intro o dest _ hout
    have hnone : fails (call s x ZIP_CHUNK).code = none := by simpa using hgoes
    rcases dest.fwrite_eq (call s x ZIP_CHUNK).out with ⟨hall, hwrote⟩ | ⟨hnot, hfilled⟩
    · refine ⟨⟨(call s x ZIP_CHUNK).code, (call s x ZIP_CHUNK).state, (call s x ZIP_CHUNK).used,
        (dest.fwrite (call s x ZIP_CHUNK).out).2, false⟩, ⟨1, fun fuel hfuel => ?_⟩, .all rfl rfl rfl ?_⟩
      · obtain ⟨fuel, rfl⟩ := Nat.exists_eq_add_of_le' hfuel
        dsimp only
        rw [pumpFile, if_neg (by omega), hnone]
        dsimp only
        rw [if_pos hall, if_neg (Nat.ne_of_lt hlt)]
      · rw [List.flatten_singleton]
        exact hout.trans hwrote
    · refine ⟨_, pumpFile_short (Nat.le_of_lt hlt) hnone hnot, Took.short (by rfl) (by rfl) ?_⟩
      rw [List.flatten_singleton]
      exact hout.filled hfilled
  | @more s x f hfull hgoes _ ih =>
    intro o dest hok hout
    have hnone : fails (call s x ZIP_CHUNK).code = none := by simpa using hgoes
    rcases dest.fwrite_eq (call s x ZIP_CHUNK).out with ⟨hall, hwrote⟩ | ⟨hnot, hfilled⟩
    · obtain ⟨p, ⟨m, hp⟩, htook⟩ := ih hok (hout.trans hwrote)
      refine ⟨{ p with totalIn := (call s x ZIP_CHUNK).used + p.totalIn }, ⟨m + 1, fun fuel hfuel => ?_⟩, ?_⟩
      · obtain ⟨fuel, rfl⟩ := Nat.exists_eq_add_of_le' (Nat.le_of_add_left_le hfuel)
        have hrest := hp fuel (by omega)
        dsimp only at hrest ⊢
        rw [pumpFile, if_neg (by omega), hnone]
        dsimp only
        rw [if_pos hall, if_pos hfull, hrest]
        rfl
      · cases htook with
        | all hok hrval hstrm hholds =>
          rw [List.append_assoc, ← List.flatten_cons] at hholds
          exact .all hok hrval hstrm hholds
        | short hfailed hrval hshort =>
          rw [List.append_assoc, ← List.flatten_cons] at hshort
          exact .short hfailed hrval hshort
    · refine ⟨_, pumpFile_short (Nat.le_of_eq hfull) hnone hnot, Took.short (by rfl) (by rfl) ?_⟩
      rw [List.flatten_cons, ← List.append_assoc]
      exact (hout.filled hfilled).append _

theorem pumpFile_takesCalls (start : Sink) :
    TakesCalls (σ := σ) (fun fuel call => pumpFile call deflateFails fuel)
      (fun out bytes => start.Wrote bytes out) (fun out bytes => start.Filled bytes out) fun _ => True :=
  ⟨fun _ _ => trivial, fun b h => h.append b, fun hfeeds hok hout _ => pumpFile_feeds hfeeds hok hout⟩

end Feeding

section Chunks

variable {d : Compressor σ} {level : Int} {fmt : Format} {src : List UInt8}
  {At : σ → List UInt8 → List UInt8 → Prop} {Closing : List UInt8 → σ → List UInt8 → List UInt8 → Prop}
  {feed : Nat → Feeder σ β} {Holds Short : β → List UInt8 → Prop} {Fits : Nat → Prop}

/-- How a file is deflated: all of it, or up to an error of the device it is read from, or until there is
no room for what comes out. -/
inductive Deflated (fmt : Format) (src : List UInt8) (fails : Bool) (Holds Short : β → List UInt8 → Prop) :
    Pumped σ β → Prop where
  | whole {p : Pumped σ β} {w : List UInt8} : p.failed = false → p.rval = .streamEnd → fails = false →
      Encodes fmt src w → Holds p.out w → Deflated fmt src fails Holds Short p
  | unread {p : Pumped σ β} {o w : List UInt8} : p.failed = true → p.rval = .errno → fails = true →
      Encodes fmt src w → o <+: w → o ≠ w → Holds p.out o → Deflated fmt src fails Holds Short p
  | short {p : Pumped σ β} {w : List UInt8} : p.failed = true → p.rval = .errno → Encodes fmt src w →
      Short p.out w → Deflated fmt src fails Holds Short p

/-- The last chunk, which is given with `Z_FINISH`. -/
theorem chunk_last (hd : Compresses d level fmt src At Closing) (hfeed : TakesCalls feed Holds Short Fits)
    (hfits : ∀ w, Encodes fmt src w → Fits w.length) {s : σ} {x o y : List UInt8} {out : β}
    (hat : At s x o) (hall : x ++ y = src) (hout : Holds out o) :
    ∃ p, Settles (fun fuel => feed fuel (d.deflate .finish) s y out) p ∧
      Deflated fmt src false Holds Short p := by
  obtain ⟨f, hfeeds, hok, hend, hw⟩ := hd.feeds_last (fun code => (deflateFails code).isSome)
    ⟨rfl, rfl⟩ (show 0 < ZIP_CHUNK by decide) hat hall
  obtain ⟨p, hp, htook⟩ := hfeed.takes hfeeds hok hout (hfits _ hw)
  refine ⟨p, hp, ?_⟩
  cases htook with
  | all hgoes hrval _ hholds => exact .whole hgoes (hrval.trans hend) rfl hw hholds
  | short hfailed hrval hshort => exact .short hfailed hrval hw hshort

/-- A chunk before the last one. -/
theorem chunk_next (hd : Compresses d level fmt src At Closing) (hfeed : TakesCalls feed Holds Short Fits)
    (hfits : ∀ w, Encodes fmt src w → Fits w.length) {s : σ} {x o y : List UInt8} {out : β}
    (hat : At s x o) (hpre : x ++ y <+: src) (hout : Holds out o) :
    ∃ p, Settles (fun fuel => feed fuel (d.deflate .noFlush) s y out) p ∧
      ((p.failed = false ∧ ∃ o', At p.strm (x ++ y) o' ∧ Holds p.out o') ∨
        p.failed = true ∧ p.rval = .errno ∧ ∃ w, Encodes fmt src w ∧ Short p.out w) := by
  obtain ⟨f, hfeeds, hok, hat'⟩ := hd.feeds_chunk (fun code => (deflateFails code).isSome) ⟨rfl, rfl⟩
    (show 0 < ZIP_CHUNK by decide) _ hat hpre (Nat.lt_succ_self _)
  obtain ⟨w, hw, ⟨t, rfl⟩, -⟩ := hd.cut hat'
  obtain ⟨p, hp, htook⟩ := hfeed.takes hfeeds hok hout
    (hfeed.fits_le (List.prefix_append _ t).length_le (hfits _ hw))
  refine ⟨p, hp, ?_⟩
  cases htook with
  | all hgoes _ hstrm hholds => exact .inl ⟨hgoes, _, hstrm ▸ hat', hholds⟩
  | short hfailed hrval hshort => exact .inr ⟨hfailed, hrval, _, hw, hfeed.short_append t hshort⟩

/-- Chunk by chunk the whole file is deflated, however long it is. -/
theorem chunkLoop_deflates (hd : Compresses d level fmt src At Closing)
    (hfeed : TakesCalls feed Holds Short Fits) (hfits : ∀ w, Encodes fmt src w → Fits w.length)
    (fails : Bool) : ∀ (n : Nat) {s : σ} {x o y : List UInt8} {out : β}, y.length < n → At s x o →
      x ++ y = src → Holds out o →
      ∃ p m, (∀ fuel rounds, m ≤ fuel → m ≤ rounds →
          chunkLoop d (feed fuel) fails rounds s y out = .ok p) ∧
        Deflated fmt src fails Holds Short p := by
  intro n
  induction n with
  | zero => intro s x o y out hn; omega
  | succ n ih =>
    intro s x o y out hn hat hall hout
    by_cases hlast : y.length < ZIP_CHUNK
    · cases fails with
      | true =>
        obtain ⟨w, hw, hpre, hne⟩ := hd.cut hat
        refine ⟨⟨.errno, s, 0, out, true⟩, 1, fun fuel rounds _ hrounds => ?_,
          .unread rfl rfl rfl hw hpre hne hout⟩
        obtain ⟨rounds, rfl⟩ := Nat.exists_eq_add_of_le' hrounds
        rw [chunkLoop, if_pos hlast, if_pos rfl]
      | false =>
        obtain ⟨p, ⟨m, hp⟩, hdeflated⟩ := chunk_last hd hfeed hfits hat hall hout
        refine ⟨p, m + 1, fun fuel rounds hfuel hrounds => ?_, hdeflated⟩
        obtain ⟨rounds, rfl⟩ := Nat.exists_eq_add_of_le' (Nat.le_of_add_left_le hrounds)
        rw [chunkLoop, if_pos hlast, if_neg (by decide)]
        exact hp fuel (by omega)
    · have hsplit : (x ++ y.take ZIP_CHUNK) ++ y.drop ZIP_CHUNK = src := by
        rw [append_take_drop]
        exact hall
      have hpos : 0 < ZIP_CHUNK := by decide
      obtain ⟨p, ⟨k, hp⟩, hnext⟩ := chunk_next hd hfeed hfits hat ⟨_, hsplit⟩ hout
      rcases hnext with ⟨hok, o', hat', hout'⟩ | ⟨hfailed, hrval, w, hw, hshort⟩
      · obtain ⟨q, m, hq, hdeflated⟩ := @ih p.strm _ o' (y.drop ZIP_CHUNK) p.out
          (by rw [List.length_drop]; omega) hat' hsplit hout'
        refine ⟨{ q with totalIn := p.totalIn + q.totalIn }, max k m + 1,
          fun fuel rounds hfuel hrounds => ?_, ?_⟩
        · obtain ⟨rounds, rfl⟩ := Nat.exists_eq_add_of_le' (Nat.le_of_add_left_le hrounds)
          have hrun := hp fuel (by omega)
          dsimp only at hrun
          rw [chunkLoop, if_neg hlast, hrun, ok_bind, if_neg (by rw [hok]; decide),
            hq fuel rounds (by omega) (by omega)]
          rfl
        · cases hdeflated with
          | whole hok hrval hfile hw hholds => exact .whole hok hrval hfile hw hholds
          | unread hfailed hrval hfile hw hpre hne hholds =>
            exact .unread hfailed hrval hfile hw hpre hne hholds
          | short hfailed hrval hw hshort => exact .short hfailed hrval hw hshort
      · refine ⟨p, k + 1, fun fuel rounds hfuel hrounds => ?_, .short hfailed hrval hw hshort⟩
        obtain ⟨rounds, rfl⟩ := Nat.exists_eq_add_of_le' (Nat.le_of_add_left_le hrounds)
        have hrun := hp fuel (by omega)
        dsimp only at hrun
        rw [chunkLoop, if_neg hlast, hrun, ok_bind, if_pos hfailed]
        rfl

end Chunks

section RoundTrips

variable {τ : Type} {d : Compressor σ} {level : Int} {z : Inflater τ} {fmt : Format} {x w : List UInt8}
  {al : Alloc UInt8} {At : σ → List UInt8 → List UInt8 → Prop}
  {Closing : List UInt8 → σ → List UInt8 → List UInt8 → Prop} {Reads : τ → List UInt8 → List UInt8 → Prop}

/-- Each of the inflating functions makes `x` of `w`. A block has to have a length of 32 bits. -/
structure Restores (z : Inflater τ) (al : Alloc UInt8) (w x : List UInt8) : Prop where
  ftf : ∀ copy, Settles (inflateFtf z (some w) copy) (.ok, copy ++ x)
  btf : w.length < 2 ^ 32 → ∀ copy, Settles (inflateBtf z (some w) copy) (.ok, copy ++ x)
  ftb : al.Succeeds → BufferFits x.length →
    ∃ blk, Settles (inflateFtb z al (some w)) (.ok, some (blk, x.length)) ∧ blk.getD [] = x
  btb : al.Succeeds → BufferFits x.length → w.length < 2 ^ 32 →
    ∃ blk, Settles (inflateBtb z al (some w)) (.ok, some (blk, x.length)) ∧ blk.getD [] = x

/-- What is left where the end marker was reached. -/
theorem Closes.whole {stop : ZCode} {Holds : β → List UInt8 → Prop} {p : Pumped τ β}
    (h : Closes fmt Holds w stop p) (hw : Encodes fmt x w) :
    p.failed = false ∧ endCode p.rval = .ok ∧ Holds p.out x := by
  have hok := h.goes (by rw [hw.complete]; decide)
  refine ⟨hok, by rw [h.complete hw.complete]; rfl, ?_⟩
  rw [← hw.out]
  exact h.holds hok

/-- A whole stream is inflated again by each function. -/
theorem restores_of_encodes (hz : Inflates z fmt Reads) (al : Alloc UInt8) (hw : Encodes fmt x w) :
    Restores z al w x := by
  refine ⟨fun copy => ?_, fun hshort copy => ?_, fun hal hfits => ?_, fun hal hfits hshort => ?_⟩
  · obtain ⟨p, n, hp, hends⟩ := @readLoop_inflates _ _ _ _ _ _ _ _ hz (toFile_takes copy) _ z.init []
      w copy .ok (Nat.lt_succ_self _) (by rw [fmt.out_nil]; exact hz.init) fmt.status_nil
      (by rw [fmt.out_nil]; exact (List.append_nil copy).symm) trivial
    obtain ⟨hok, hcode, hholds⟩ := hends.closes.whole hw
    refine ⟨n, fun fuel hfuel => ?_⟩
    rw [inflateFtf, hp fuel fuel hfuel hfuel, ok_bind, hok, hcode, hholds]
    rfl
  · obtain ⟨p, ⟨n, hp⟩, hends⟩ := pump_inflates hz (toFile_takes copy) hz.init
      (show [] <+: fmt.out ([] ++ availIn w) from List.nil_prefix) trivial (List.append_nil copy).symm
    obtain ⟨hok, hcode, hholds⟩ := hends.closes.whole ((availIn_eq hshort).symm ▸ hw)
    refine ⟨n, fun fuel hfuel => ?_⟩
    have hrun := hp fuel hfuel
    dsimp only at hrun
    rw [inflateBtf, if_neg (mt List.length_eq_zero_iff.mp hw.ne_nil), hrun, ok_bind, hok, hcode, hholds]
    rfl
  · obtain ⟨p, n, hp, hends⟩ := @readLoop_inflates _ _ _ _ _ _ _ _ hz (toBuffer_takes hal) _ z.init []
      w emptyOut .ok (Nat.lt_succ_self _) (by rw [fmt.out_nil]; exact hz.init) fmt.status_nil
      (by rw [fmt.out_nil]; exact emptyOut_holds) (by rw [List.nil_append, hw.out]; exact hfits)
    obtain ⟨hok, hcode, hholds⟩ := hends.closes.whole hw
    obtain ⟨blk, htake, hblk⟩ := takeBuffer_eq hal hok hholds
    refine ⟨blk, ⟨n, fun fuel hfuel => ?_⟩, hblk⟩
    rw [inflateFtb, newEx_emptyOut, ok_bind]
    dsimp only
    rw [hp fuel fuel hfuel hfuel, ok_bind, htake, hcode]
    rfl
  · obtain ⟨p, ⟨n, hp⟩, hcloses⟩ := inflateBtb_closes hz hal hw.ne_nil
      (by rw [availIn_eq hshort, hw.out]; exact hfits)
    obtain ⟨hok, hcode, hholds⟩ := hcloses.whole ((availIn_eq hshort).symm ▸ hw)
    obtain ⟨blk, htake, hblk⟩ := takeBuffer_eq hal hok hholds
    rw [htake, hcode] at hp
    exact ⟨blk, ⟨n, hp⟩, hblk⟩

/-- What `deflate_ftf` leaves: `Z_OK` and a stream from which each function makes the file again, or
`Z_ERRNO` and a part of a stream that has no end, because of the file that is read or because the device
of the other one is full. -/
inductive WroteFile (z : Inflater τ) (fmt : Format) (src : Source) (dest : Sink) :
    ZCode × Option Sink → Prop where
  | whole {p : List UInt8} {dest' : Sink} : dest'.bytes = dest.bytes ++ p → src.fails = false →
      (∀ al, Restores z al p src.bytes) → WroteFile z fmt src dest (.ok, some dest')
  | cut {p : List UInt8} {dest' : Sink} : dest'.bytes = dest.bytes ++ p → fmt.status p = .partly →
      src.fails = true ∨ dest.space = some p.length → WroteFile z fmt src dest (.errno, some dest')

theorem encodes_cut {n : Nat} (hw : Encodes fmt x w) (hn : n < w.length) :
    fmt.status (w.take n) = .partly ∧ (w.take n).length = n := by
  have hlen : (w.take n).length = n := List.length_take_of_le (Nat.le_of_lt hn)
  refine ⟨hw.proper _ (List.take_prefix _ _) fun heq => ?_, hlen⟩
  rw [heq] at hlen
  omega

theorem Deflated.wroteFile (hz : Inflates z fmt Reads) (src : Source) {dest : Sink} {p : Pumped σ Sink}
    (h : Deflated fmt src.bytes src.fails (fun out bytes => dest.Wrote bytes out)
      (fun out bytes => dest.Filled bytes out) p) :
    WroteFile z fmt src dest (finalCode p, some p.out) := by
  cases h with
  | whole hok hrval hfile hw hwrote =>
    rw [finalCode, hok, hrval]
    exact .whole hwrote.bytes hfile fun al => restores_of_encodes hz al hw
  | unread hfailed hrval hfile hw hpre hne hwrote =>
    rw [finalCode, hfailed, hrval]
    exact .cut hwrote.bytes (hw.proper _ hpre hne) (.inl hfile)
  | short hfailed hrval hw hfilled =>
    obtain ⟨n, hspace, hlt, hbytes⟩ := hfilled.bytes
    obtain ⟨hpart, hlen⟩ := encodes_cut hw hlt
    rw [finalCode, hfailed, hrval]
    exact .cut hbytes hpart (.inr (by rw [hlen]; exact hspace))

/-- A block is deflated as a file with the bytes that are given to the stream. -/
theorem deflateBtf_wroteFile {buff : List UInt8} (hd : Compresses d level fmt (availIn buff) At Closing)
    (hz : Inflates z fmt Reads) (hne : buff ≠ []) (dest : Sink) :
    ∃ r, Settles (deflateBtf d level (some buff) (some dest)) r ∧
      WroteFile z fmt ⟨availIn buff, false⟩ dest r := by
  obtain ⟨p, ⟨m, hp⟩, hdeflated⟩ := chunk_last hd (pumpFile_takesCalls dest) (fun _ _ => trivial) hd.init
    (List.nil_append _) (Sink.Wrote.refl dest)
  refine ⟨_, ⟨m, fun fuel hfuel => ?_⟩, Deflated.wroteFile hz ⟨availIn buff, false⟩ hdeflated⟩
  have hrun := hp fuel hfuel
  dsimp only at hrun
  rw [deflateBtf, if_neg (mt List.length_eq_zero_iff.mp hne), hrun]
  rfl

/-- A file is deflated into a buffer, all of it or not at all. -/
theorem deflateFtb_restores (src : Source) (hd : Compresses d level fmt src.bytes At Closing)
    (hz : Inflates z fmt Reads) (hal : al.Succeeds)
    (hfits : BufferFits (src.bytes.length + src.bytes.length / 1000 + 12)) :
    (src.fails = true → Settles (deflateFtb d al level (some src)) (.errno, none)) ∧
      (src.fails = false → ∃ blk len, Settles (deflateFtb d al level (some src)) (.ok, some (blk, len)) ∧
        (blk.getD []).length = len ∧ ∀ al', Restores z al' (blk.getD []) src.bytes) := by
  have htakes := @pump_takesCalls σ al hal
  obtain ⟨p, m, hp, hdeflated⟩ := chunkLoop_deflates hd htakes
    (fun w hw => htakes.fits_le hw.expansion hfits) src.fails _ (Nat.lt_succ_self _) hd.init
    (List.nil_append _) emptyOut_holds
  have hrun : Settles (deflateFtb d al level (some src)) (takeBuffer al p) := by
    refine ⟨m, fun fuel hfuel => ?_⟩
    rw [deflateFtb, newEx_emptyOut, ok_bind]
    dsimp only
    rw [hp fuel fuel hfuel hfuel]
    rfl
  cases hdeflated with
  | whole hok hrval hfile hw hholds =>
    obtain ⟨blk, htake, hblk⟩ := takeBuffer_eq hal hok hholds
    rw [htake, hrval] at hrun
    refine ⟨fun hfails => absurd (hfile.symm.trans hfails) (by decide), fun _ => ⟨blk, _, hrun, ?_, ?_⟩⟩
    · rw [hblk]
    · rw [hblk]
      exact fun al' => restores_of_encodes hz al' hw
  | unread hfailed hrval hfile =>
    rw [takeBuffer, if_pos hfailed, hrval] at hrun
    exact ⟨fun _ => hrun, fun hgoes => absurd (hfile.symm.trans hgoes) (by decide)⟩
  | short _ _ _ hshort => exact hshort.elim

end RoundTrips

end AlibC.Zip
