import AlibC.Zip

/-! What the inflating functions of `zip` return, and for which inputs `Z_OK` means that the stream was
inflated to its end. -/
namespace AlibC.Zip

open CLang ZStream BinaryBuffer

variable {σ β : Type} {call : Call σ} {fails : ZCode → Option ZCode} {dest : Output β}
  {Holds : β → List UInt8 → Prop} {Fits : Nat → Prop} {s : σ} {c o x : List UInt8} {f : Fed σ}
  {out : β}

/-- With enough fuel the result is `a`. -/
def Settles {α : Type} (g : Nat → Outcome α) (a : α) : Prop := ∃ n, ∀ fuel, n ≤ fuel → g fuel = .ok a

theorem Settles.unique {α : Type} {g : Nat → Outcome α} {a b : α} (ha : Settles g a)
    (hb : Settles g b) : a = b := by
  obtain ⟨n, hn⟩ := ha
  obtain ⟨m, hm⟩ := hb
  have h := (hn (n + m) (Nat.le_add_right n m)).symm.trans (hm (n + m) (Nat.le_add_left m n))
  exact Except.ok.inj h

/-- An output that holds bytes takes a chunk more, where so many fit. -/
structure Takes (dest : Output β) (Holds : β → List UInt8 → Prop) (Fits : Nat → Prop) : Prop where
  fits_le : ∀ {m n}, m ≤ n → Fits n → Fits m
  piece : ∀ {out : β} {bytes piece : List UInt8}, Holds out bytes → Fits bytes.length →
    piece.length ≤ ZIP_CHUNK → ∃ out', dest.write (dest.room out) piece = .ok out' ∧
      Holds (dest.keep out' piece) (bytes ++ piece)

/-- Memory for one more chunk has a size. -/
def BufferFits (n : Nat) : Prop := n + ZIP_CHUNK < 2 ^ 64

def BufferHolds (out : BinaryBuffer) (bytes : List UInt8) : Prop := out.WF ∧ out.contents = bytes

theorem toBuffer_takes {al : Alloc UInt8} (hal : al.Succeeds) :
    Takes (toBuffer al) BufferHolds BufferFits := by
  refine ⟨fun hmn hn => Nat.lt_of_le_of_lt (Nat.add_le_add_right hmn _) hn, ?_⟩
  rintro out bytes piece ⟨hwf, hbytes⟩ hfit hpiece
  have hlen : out.len = bytes.length := by rw [← hbytes, hwf.length_contents]
  have hsize : out.len + ZIP_CHUNK < 2 ^ 64 := by
    rw [hlen]
    exact hfit
  have hroom : sizeAdd out.len ZIP_CHUNK = out.len + ZIP_CHUNK := sizeAdd_eq hsize
  obtain ⟨b, hr, hwf', hcap, hblen, hcont, -⟩ := hardResize_eq hal hwf hsize
  have hkeep : b.len = out.len := by omega
  have hsame : b.contents = bytes := by
    rw [hcont, List.take_of_length_le (by rw [hwf.length_contents]; omega), hbytes]
  obtain ⟨q, hstore, hwf'', hcont''⟩ := store_end hwf' (show b.len + piece.length ≤ b.capacity by omega)
  have hadd : sizeAdd b.len piece.length = b.len + piece.length := sizeAdd_eq (by
    rw [BufferFits] at hfit
    omega)
  refine ⟨{ b with buff := q }, ?_, ?_, ?_⟩
  · have hmade : (toBuffer al).room out = b := by
      show (hardResize al out (sizeAdd out.len ZIP_CHUNK)).2 = b
      rw [hroom, hr]
    rw [hmade]
    show (store b.buff b.len piece >>= fun buff => pure { b with buff }) = _
    rw [hstore]
    rfl
  · show ({ b with buff := q, len := sizeAdd b.len piece.length } : BinaryBuffer).WF
    rw [hadd]
    exact hwf''
  · show ({ b with buff := q, len := sizeAdd b.len piece.length } : BinaryBuffer).contents = _
    rw [hadd, hcont'', hsame]

/-- A file holds what was written behind what it held before. -/
theorem toFile_takes (start : List UInt8) :
    Takes toFile (fun out bytes => out = start ++ bytes) fun _ => True := by
  refine ⟨fun _ _ => trivial, ?_⟩
  rintro out bytes piece rfl - hpiece
  refine ⟨start ++ bytes, if_pos hpiece, ?_⟩
  exact List.append_assoc start bytes piece

/-- What is left of the calls, put into the output. -/
structure PumpEnds (fails : ZCode → Option ZCode) (Holds : β → List UInt8 → Prop) (o : List UInt8)
    (f : Fed σ) (p : Pumped σ β) : Prop where
  strm : p.strm = f.state
  totalIn : p.totalIn = f.totalIn
  failed : p.failed = f.failed
  rval_failed : f.failed = true → fails f.code = some p.rval
  rval : f.failed = false → p.rval = f.code
  holds : f.failed = false → Holds p.out (o ++ f.pieces.flatten)

/-- The loop makes the calls, and puts out what they return. -/
theorem pump_feeds (hdest : Takes dest Holds Fits) {n : Nat} (hfits : Fits n)
    (hf : Feeds call (fun code => (fails code).isSome) ZIP_CHUNK s x f) :
    ∀ {o : List UInt8} {out : β}, Holds out o → (o ++ f.pieces.flatten).length ≤ n →
      ∃ p, Settles (fun fuel => pump call fails dest fuel s x out) p ∧ PumpEnds fails Holds o f p := by
  induction hf with
  | @failed s x hle hfail =>
    intro o out hout hn
    obtain ⟨out', hwrite, -⟩ := hdest.piece hout (hdest.fits_le (by simpa using hn) hfits) hle
    obtain ⟨rval, hrval⟩ := Option.isSome_iff_exists.mp hfail
    refine ⟨⟨rval, (call s x ZIP_CHUNK).state, (call s x ZIP_CHUNK).used, out', true⟩,
      ⟨1, fun fuel hfuel => ?_⟩, rfl, rfl, rfl, fun _ => hrval, fun h => (by cases h),
      fun h => (by cases h)⟩
    obtain ⟨fuel, rfl⟩ := Nat.exists_eq_add_of_le' hfuel
    dsimp only
    rw [pump, hwrite, ok_bind, hrval]
    rfl
  | @last s x hlt hgoes =>
    intro o out hout hn
    rw [List.length_append] at hn
    obtain ⟨out', hwrite, hkeep⟩ := hdest.piece hout (hdest.fits_le (by omega) hfits)
      (Nat.le_of_lt hlt)
    have hnone : fails (call s x ZIP_CHUNK).code = none := by simpa using hgoes
    refine ⟨⟨(call s x ZIP_CHUNK).code, (call s x ZIP_CHUNK).state, (call s x ZIP_CHUNK).used,
      dest.keep out' (call s x ZIP_CHUNK).out, false⟩, ⟨1, fun fuel hfuel => ?_⟩, rfl, rfl, rfl,
      fun h => (by cases h), fun _ => rfl, fun _ => ?_⟩
    · obtain ⟨fuel, rfl⟩ := Nat.exists_eq_add_of_le' hfuel
      dsimp only
      rw [pump, hwrite, ok_bind, hnone]
      dsimp only
      rw [if_neg (Nat.ne_of_lt hlt)]
      rfl
    · rw [List.flatten_singleton]
      exact hkeep
  | @more s x f hfull hgoes _ ih =>
    intro o out hout hn
    rw [List.flatten_cons, ← List.append_assoc] at hn
    have hn' := hn
    rw [List.length_append, List.length_append] at hn'
    obtain ⟨out', hwrite, hkeep⟩ := hdest.piece hout (hdest.fits_le (by omega) hfits)
      (Nat.le_of_eq hfull)
    have hnone : fails (call s x ZIP_CHUNK).code = none := by simpa using hgoes
    obtain ⟨p, ⟨m, hp⟩, hends⟩ := ih hkeep hn
    refine ⟨{ p with totalIn := (call s x ZIP_CHUNK).used + p.totalIn }, ⟨m + 1, fun fuel hfuel => ?_⟩,
      hends.strm, ?_, hends.failed, hends.rval_failed, hends.rval, fun h => ?_⟩
    · obtain ⟨fuel, rfl⟩ := Nat.exists_eq_add_of_le' (Nat.le_of_add_left_le hfuel)
      have hrest := hp fuel (by omega)
      dsimp only at hrest ⊢
      rw [pump, hwrite, ok_bind, hnone]
      dsimp only
      rw [if_pos hfull, hrest]
      rfl
    · dsimp only
      rw [hends.totalIn]
    · rw [List.flatten_cons, ← List.append_assoc]
      exact hends.holds h

section Inflate

variable {z : Inflater σ} {fmt : Format} {At : σ → List UInt8 → List UInt8 → Prop}

theorem inflateFails_fatal : Fatal fun code => (inflateFails code).isSome :=
  ⟨rfl, rfl, rfl, rfl, rfl⟩

/-- What the loop leaves after the input `x`, where `c` came before it and `o` was put out. -/
structure Ends (fmt : Format) (At : σ → List UInt8 → List UInt8 → Prop)
    (Holds : β → List UInt8 → Prop) (c o x : List UInt8) (p : Pumped σ β) : Prop where
  failed_iff : p.failed = true ↔ fmt.status (c ++ x) = .invalid
  rval_failed : p.failed = true → p.rval = .dataError
  holds : p.failed = false → Holds p.out (fmt.out (c ++ x))
  complete : fmt.status (c ++ x) = .complete → p.rval = .streamEnd
  partly : fmt.status (c ++ x) = .partly → At p.strm (c ++ x) (fmt.out (c ++ x)) ∧
    p.rval = stopCode ZIP_CHUNK ((fmt.out (c ++ x)).length - o.length) x

/-- All that is known from the input is put out. -/
theorem pump_inflates (hz : Inflates z fmt At) (hdest : Takes dest Holds Fits) (hat : At s c o)
    (hpre : o <+: fmt.out (c ++ x)) (hfits : Fits (fmt.out (c ++ x)).length) (hout : Holds out o) :
    ∃ p, Settles (fun fuel => pump z.inflate inflateFails dest fuel s x out) p ∧
      Ends fmt At Holds c o x p := by
  obtain ⟨f, hfeeds, hdec⟩ := hz.feeds inflateFails_fatal (show 0 < ZIP_CHUNK by decide) _ hat hpre
    (Nat.lt_succ_self _)
  obtain ⟨p, hp, hends⟩ := pump_feeds hdest hfits hfeeds hout hdec.pieces.length_le
  have hrval : fmt.status (c ++ x) ≠ .invalid → p.rval = f.code := fun hne =>
    hends.rval (by simpa using mt hdec.failed_iff.mp hne)
  refine ⟨p, hp, ?_, fun h => ?_, fun h => ?_, fun h => ?_, fun h => ⟨?_, ?_⟩⟩
  · rw [hends.failed]
    exact hdec.failed_iff
  · rw [hends.failed] at h
    have hcode := hends.rval_failed h
    rcases hdec.failed_code h with he | he
    · rw [he] at hcode
      exact (Option.some.inj hcode).symm
    · rw [he] at hcode
      exact (Option.some.inj hcode).symm
  · rw [hends.failed] at h
    rw [← hdec.out h]
    exact hends.holds h
  · rw [hrval (by rw [h]; decide)]
    exact hdec.complete h
  · rw [hends.strm]
    exact (hdec.partly h).1
  · rw [hrval (by rw [h]; decide)]
    exact (hdec.partly h).2

/-- Where the last chunk of a file of `n` bytes begins. -/
def lastChunk (n : Nat) : Nat := (n - 1) / ZIP_CHUNK * ZIP_CHUNK

theorem lastChunk_first {n : Nat} (h : n ≤ ZIP_CHUNK) : lastChunk n = 0 := by
  have hpos : 0 < ZIP_CHUNK := by decide
  rw [lastChunk, Nat.div_eq_of_lt (by omega), Nat.zero_mul]

theorem lastChunk_more {n : Nat} (h : ZIP_CHUNK < n) :
    lastChunk n = ZIP_CHUNK + lastChunk (n - ZIP_CHUNK) := by
  have hsplit : n - 1 = n - ZIP_CHUNK - 1 + ZIP_CHUNK := by omega
  rw [lastChunk, lastChunk, hsplit, Nat.add_div_right _ (by decide), Nat.add_mul, Nat.one_mul,
    Nat.add_comm]

/-- What reading the file `source` leaves, where `c` was read before it and `rval` returned for that. -/
structure ReadEnds (fmt : Format) (Holds : β → List UInt8 → Prop) (c source : List UInt8) (rval : ZCode)
    (p : Pumped σ β) : Prop where
  failed_iff : p.failed = true ↔ fmt.status (c ++ source) = .invalid
  rval_failed : p.failed = true → p.rval = .dataError
  holds : p.failed = false → Holds p.out (fmt.out (c ++ source))
  complete : fmt.status (c ++ source) = .complete → p.rval = .streamEnd
  partly : fmt.status (c ++ source) = .partly → p.rval = if source = [] then rval else
    stopCode ZIP_CHUNK ((fmt.out (c ++ source)).length -
      (fmt.out (c ++ source.take (lastChunk source.length))).length) source

theorem readEnds_nil (hc : fmt.status c = .partly) (hout : Holds out (fmt.out c)) (rval : ZCode) :
    ReadEnds fmt Holds c [] rval (⟨rval, s, 0, out, false⟩ : Pumped σ β) := by
  refine ⟨⟨fun h => (by cases h), fun h => ?_⟩, fun h => (by cases h), fun _ => ?_, fun h => ?_,
    fun _ => (if_pos rfl).symm⟩
  · rw [List.append_nil] at h
    cases hc.symm.trans h
  · rw [List.append_nil]
    exact hout
  · rw [List.append_nil] at h
    cases hc.symm.trans h

/-- Behind the end marker or an error nothing is read. -/
theorem Ends.last {source : List UInt8} {rval : ZCode} {p : Pumped σ β}
    (h : Ends fmt At Holds c o (source.take ZIP_CHUNK) p)
    (hend : fmt.status (c ++ source.take ZIP_CHUNK) ≠ .partly) :
    ReadEnds fmt Holds c source rval p := by
  obtain ⟨hstatus, hout⟩ := fmt.final _ (source.drop ZIP_CHUNK) hend
  rw [append_take_drop] at hstatus hout
  refine ⟨?_, h.rval_failed, ?_, ?_, fun hp => absurd (hstatus.symm.trans hp) hend⟩
  · rw [hstatus]
    exact h.failed_iff
  · rw [hout]
    exact h.holds
  · rw [hstatus]
    exact h.complete

/-- A chunk in the middle of the stream is followed by the rest. -/
theorem Ends.next {source : List UInt8} {rval : ZCode} {p q : Pumped σ β} {n : Nat}
    (h : Ends fmt At Holds c (fmt.out c) (source.take ZIP_CHUNK) p) (hne : source ≠ [])
    (hpart : fmt.status (c ++ source.take ZIP_CHUNK) = .partly)
    (hq : ReadEnds fmt Holds (c ++ source.take ZIP_CHUNK) (source.drop ZIP_CHUNK) p.rval q) :
    ReadEnds fmt Holds c source rval { q with totalIn := n } := by
  obtain ⟨hfailed, hrval, hholds, hcomplete, hpartly⟩ := hq
  rw [append_take_drop] at hfailed hholds hcomplete hpartly
  refine ⟨hfailed, hrval, hholds, hcomplete, fun hs => ?_⟩
  rw [if_neg hne]
  refine (hpartly hs).trans ?_
  by_cases hlen : source.length ≤ ZIP_CHUNK
  · rw [if_pos (List.drop_eq_nil_of_le hlen), (h.partly hpart).2, List.take_of_length_le hlen,
      lastChunk_first hlen, List.take_zero, List.append_nil]
  · have hrest : source.drop ZIP_CHUNK ≠ [] := fun hnil => hlen (List.drop_eq_nil_iff.mp hnil)
    rw [if_neg hrest, List.append_assoc, ← List.take_add, List.length_drop,
      lastChunk_more (show ZIP_CHUNK < source.length by omega)]
    exact stopCode_congr hrest hne

/-- All of the file up to the end marker or an error is put out. -/
theorem readLoop_inflates (hz : Inflates z fmt At) (hdest : Takes dest Holds Fits) :
    ∀ (n : Nat) {s : σ} {c source : List UInt8} {out : β} {rval : ZCode}, source.length < n →
      At s c (fmt.out c) → fmt.status c = .partly → Holds out (fmt.out c) →
      Fits (fmt.out (c ++ source)).length →
      ∃ p m, (∀ fuel rounds, m ≤ fuel → m ≤ rounds →
          readLoop z.inflate inflateFails dest fuel rounds s source out rval = .ok p) ∧
        ReadEnds fmt Holds c source rval p := by
  intro n
  induction n with
  | zero => intro s c source out rval hn; omega
  | succ n ih =>
    intro s c source out rval hn hat hc hout hfits
    by_cases hnil : source = []
    · subst hnil
      refine ⟨⟨rval, s, 0, out, false⟩, 1, fun fuel rounds _ hrounds => ?_, readEnds_nil hc hout rval⟩
      obtain ⟨rounds, rfl⟩ := Nat.exists_eq_add_of_le' hrounds
      rw [readLoop, if_pos (List.take_nil)]
    · have hchunk : source.take ZIP_CHUNK ≠ [] := fun h =>
        (List.take_eq_nil_iff.mp h).elim (by decide) hnil
      have hmono := fmt.out_mono (c ++ source.take ZIP_CHUNK) (source.drop ZIP_CHUNK)
      rw [append_take_drop] at hmono
      obtain ⟨p, ⟨k, hp⟩, hends⟩ := pump_inflates hz hdest hat (fmt.out_mono c (source.take ZIP_CHUNK))
        (hdest.fits_le hmono.length_le hfits) hout
      by_cases hpart : fmt.status (c ++ source.take ZIP_CHUNK) = .partly
      · have hgoes : ¬(p.failed = true ∨ p.rval = .streamEnd) := by
          rintro (hf | hend)
          · cases hpart.symm.trans (hends.failed_iff.mp hf)
          · exact stopCode_ne_end _ _ _ ((hends.partly hpart).2.symm.trans hend)
        have hok : p.failed = false := by simpa using fun hf => hgoes (.inl hf)
        obtain ⟨q, m, hq, hread⟩ := @ih p.strm (c ++ source.take ZIP_CHUNK) (source.drop ZIP_CHUNK) p.out
          p.rval (show (source.drop ZIP_CHUNK).length < n by
            have hpos := List.length_pos_iff.mpr hnil
            have hchunk : 0 < ZIP_CHUNK := by decide
            rw [List.length_drop]
            omega)
          (hends.partly hpart).1 hpart (hends.holds hok) (by rw [append_take_drop]; exact hfits)
        refine ⟨{ q with totalIn := p.totalIn + q.totalIn }, max k m + 1,
          fun fuel rounds hfuel hrounds => ?_, hends.next hnil hpart hread⟩
        obtain ⟨rounds, rfl⟩ := Nat.exists_eq_add_of_le' (Nat.le_of_add_left_le hrounds)
        have hrun := hp fuel (by omega)
        dsimp only at hrun
        rw [readLoop, if_neg hchunk, hrun, ok_bind, if_neg hgoes, hq fuel rounds (by omega) (by omega)]
        rfl
      · have hstops : p.failed = true ∨ p.rval = .streamEnd := by
          cases hstatus : fmt.status (c ++ source.take ZIP_CHUNK) with
          | partly => exact absurd hstatus hpart
          | complete => exact .inr (hends.complete hstatus)
          | invalid => exact .inl (hends.failed_iff.mpr hstatus)
        refine ⟨p, k + 1, fun fuel rounds hfuel hrounds => ?_, hends.last hpart⟩
        obtain ⟨rounds, rfl⟩ := Nat.exists_eq_add_of_le' (Nat.le_of_add_left_le hrounds)
        have hrun := hp fuel (by omega)
        dsimp only at hrun
        rw [readLoop, if_neg hchunk, hrun, ok_bind, if_pos hstops]
        rfl

end Inflate

section Results

variable {z : Inflater σ} {fmt : Format} {At : σ → List UInt8 → List UInt8 → Prop}
  {al : Alloc UInt8} {v : List UInt8} {stop : ZCode}

/-- The code that a function returns. -/
def finalCode (p : Pumped σ β) : ZCode := if p.failed then p.rval else endCode p.rval

/-- What is left at the end of a function that gave `v` to its stream, where `stop` is the last code if
the stream goes on. -/
structure Closes (fmt : Format) (Holds : β → List UInt8 → Prop) (v : List UInt8) (stop : ZCode)
    (p : Pumped σ β) : Prop where
  failed_iff : p.failed = true ↔ fmt.status v = .invalid
  rval_failed : p.failed = true → p.rval = .dataError
  holds : p.failed = false → Holds p.out (fmt.out v)
  complete : fmt.status v = .complete → p.rval = .streamEnd
  partly : fmt.status v = .partly → p.rval = stop

/-- The loop is only left early for an error in the stream. -/
theorem Closes.goes {p : Pumped σ β} (h : Closes fmt Holds v stop p) (hne : fmt.status v ≠ .invalid) :
    p.failed = false := by
  by_contra hf
  rw [Bool.not_eq_false] at hf
  exact hne (h.failed_iff.mp hf)

theorem Ends.closes {p : Pumped σ β} (h : Ends fmt At Holds [] [] v p) :
    Closes fmt Holds v (stopCode ZIP_CHUNK (fmt.out v).length v) p :=
  ⟨h.failed_iff, h.rval_failed, h.holds, h.complete, fun hp => (h.partly hp).2⟩

theorem ReadEnds.closes {p : Pumped σ β} {rval : ZCode} (h : ReadEnds fmt Holds [] v rval p) :
    Closes fmt Holds v (if v = [] then rval else stopCode ZIP_CHUNK ((fmt.out v).length -
      (fmt.out (v.take (lastChunk v.length))).length) v) p := by
  obtain ⟨hfailed, hrval, hholds, hcomplete, hpartly⟩ := h
  rw [List.nil_append] at hfailed hholds hcomplete hpartly
  rw [List.nil_append] at hpartly
  exact ⟨hfailed, hrval, hholds, hcomplete, hpartly⟩

/-- `Z_OK` is returned at the end marker, and where the last call returned it. -/
theorem Closes.ok_iff {p : Pumped σ β} (h : Closes fmt Holds v stop p) (hstop : stop ≠ .streamEnd) :
    finalCode p = .ok ↔ fmt.status v = .complete ∨ fmt.status v = .partly ∧ stop = .ok := by
  rw [finalCode]
  cases hstatus : fmt.status v with
  | invalid =>
    have hf := h.failed_iff.mpr hstatus
    rw [if_pos hf, h.rval_failed hf]
    exact iff_of_false (by decide) (by simp)
  | complete =>
    rw [h.goes (by rw [hstatus]; decide), if_neg (by decide), h.complete hstatus]
    exact iff_of_true rfl (.inl rfl)
  | partly =>
    rw [h.goes (by rw [hstatus]; decide), if_neg (by decide), h.partly hstatus, endCode, if_neg hstop]
    simp

/-- `Z_OK` is only returned when the end marker is in what the stream was given, and then with exactly
the decoded bytes. -/
def BufferRight (fmt : Format) (given whole : List UInt8) (r : Returned) : Prop :=
  r.1 = .ok → fmt.status given = .complete ∧
    ∃ blk, r.2 = some (blk, (fmt.out whole).length) ∧ blk.getD [] = fmt.out whole

/-- The same for what is written behind `dest`. -/
def FileRight (fmt : Format) (given whole dest : List UInt8) (r : ZCode × List UInt8) : Prop :=
  r.1 = .ok → fmt.status given = .complete ∧ r.2 = dest ++ fmt.out whole

/-- The buffer that is returned is exactly what was put out. -/
theorem takeBuffer_eq {p : Pumped σ BinaryBuffer} (hal : al.Succeeds) (hok : p.failed = false)
    (hout : BufferHolds p.out v) :
    ∃ blk, takeBuffer al p = (endCode p.rval, some (blk, v.length)) ∧ blk.getD [] = v := by
  obtain ⟨hwf, hcontents⟩ := hout
  obtain ⟨hwf', hcontents', hcap, -⟩ := shrinkToFit_eq hal hwf
  have hlen : (p.out.shrinkToFit al).len = v.length := by
    rw [← hwf'.length_contents, hcontents', hcontents]
  have hblock : ((p.out.shrinkToFit al).buff.getD []).length = (p.out.shrinkToFit al).len := by
    rw [hwf'.block, hcap, hlen, ← hcontents, hwf.length_contents]
  refine ⟨(p.out.shrinkToFit al).buff, ?_, ?_⟩
  · rw [takeBuffer, if_neg (by rw [hok]; decide)]
    dsimp only
    rw [extractBuffer, hlen]
  · rw [← hcontents, ← hcontents', contents, List.take_of_length_le (Nat.le_of_eq hblock)]

theorem takeBuffer_code (p : Pumped σ BinaryBuffer) : (takeBuffer al p).1 = finalCode p := by
  rw [takeBuffer, finalCode]
  split
  · rfl
  · rfl

/-- Whether a function that fills a buffer is right depends on the last code where the stream goes on. -/
theorem Closes.bufferRight_iff {p : Pumped σ BinaryBuffer} {whole : List UInt8} (hal : al.Succeeds)
    (h : Closes fmt BufferHolds v stop p) (hstop : stop ≠ .streamEnd)
    (hwhole : fmt.status v = .complete → fmt.out whole = fmt.out v) :
    BufferRight fmt v whole (takeBuffer al p) ↔ (fmt.status v = .partly → stop ≠ .ok) := by
  rw [BufferRight, takeBuffer_code, h.ok_iff hstop]
  constructor
  · intro hright hpart hok
    cases hpart.symm.trans (hright (.inr ⟨hpart, hok⟩)).1
  · rintro hnot (hend | ⟨hpart, hok⟩)
    · have hf : p.failed = false := h.goes (by rw [hend]; decide)
      obtain ⟨blk, htake, hblk⟩ := takeBuffer_eq hal hf (h.holds hf)
      refine ⟨hend, blk, ?_, ?_⟩
      · rw [htake, hwhole hend]
      · rw [hblk, hwhole hend]
    · exact absurd hok (hnot hpart)

theorem Closes.fileRight_iff {p : Pumped σ (List UInt8)} {whole dest : List UInt8}
    (h : Closes fmt (fun out bytes => out = dest ++ bytes) v stop p) (hstop : stop ≠ .streamEnd)
    (hwhole : fmt.status v = .complete → fmt.out whole = fmt.out v) :
    FileRight fmt v whole dest (finalCode p, p.out) ↔ (fmt.status v = .partly → stop ≠ .ok) := by
  rw [FileRight, h.ok_iff hstop]
  constructor
  · intro hright hpart hok
    cases hpart.symm.trans (hright (.inr ⟨hpart, hok⟩)).1
  · rintro hnot (hend | ⟨hpart, hok⟩)
    · have hf : p.failed = false := h.goes (by rw [hend]; decide)
      exact ⟨hend, by rw [hwhole hend]; exact h.holds hf⟩
    · exact absurd hok (hnot hpart)

end Results

section Functions

variable {z : Inflater σ} {fmt : Format} {At : σ → List UInt8 → List UInt8 → Prop}
  {al : Alloc UInt8} {buff source : List UInt8}

/-- A block that was cut is not taken for a whole stream if nothing of it reaches the stream, or if what
it stands for fills its chunks. -/
def BlockDetects (fmt : Format) (given : List UInt8) : Prop :=
  fmt.status given = .partly → given = [] ∨ 0 < (fmt.out given).length ∧
    ZIP_CHUNK ∣ (fmt.out given).length

/-- How much the last chunk of a file adds to what the file stands for. -/
def lastPiece (fmt : Format) (source : List UInt8) : Nat :=
  (fmt.out source).length - (fmt.out (source.take (lastChunk source.length))).length

/-- The same for a file, where the last chunk decides, and an empty file is taken for a whole stream. -/
def FileDetects (fmt : Format) (source : List UInt8) : Prop :=
  fmt.status source = .partly → source ≠ [] ∧ 0 < lastPiece fmt source ∧
    ZIP_CHUNK ∣ lastPiece fmt source

/-- An empty buffer. -/
def emptyOut : BinaryBuffer := ⟨none, 0, 0, 0, ULONG_MAX⟩

theorem newEx_emptyOut (al : Alloc UInt8) : newEx al none 0 0 0 0 = .ok (some emptyOut) := rfl

theorem emptyOut_holds : BufferHolds emptyOut [] :=
  ⟨⟨rfl, iff_of_true rfl rfl, Nat.le_refl 0, by decide, by decide, by decide⟩, rfl⟩

theorem stopCode_ok_iff {m : Nat} {x : List UInt8} :
    stopCode ZIP_CHUNK m x ≠ .ok ↔ x = [] ∧ m = 0 ∨ 0 < m ∧ ZIP_CHUNK ∣ m := by
  rw [stopCode]
  split
  · exact iff_of_true (by decide) ‹_›
  · exact iff_of_false (fun h => h rfl) ‹_›

theorem blockDetects_iff {given : List UInt8} : BlockDetects fmt given ↔
    (fmt.status given = .partly → stopCode ZIP_CHUNK (fmt.out given).length given ≠ .ok) := by
  refine forall_congr' fun _ => ?_
  rw [stopCode_ok_iff]
  refine or_congr_left ⟨fun h => ⟨h, ?_⟩, fun h => h.1⟩
  rw [h, fmt.out_nil, List.length_nil]

theorem fileDetects_iff : FileDetects fmt source ↔ (fmt.status source = .partly →
    (if source = [] then .ok else stopCode ZIP_CHUNK (lastPiece fmt source) source) ≠ ZCode.ok) := by
  refine forall_congr' fun _ => ?_
  by_cases hnil : source = []
  · rw [if_pos hnil]
    exact iff_of_false (fun h => h.1 hnil) fun h => h rfl
  · rw [if_neg hnil, stopCode_ok_iff]
    refine ⟨fun h => .inr h.2, ?_⟩
    rintro (h | h)
    · exact absurd h.1 hnil
    · exact ⟨hnil, h⟩

theorem out_availIn (h : fmt.status (availIn buff) = .complete) :
    fmt.out buff = fmt.out (availIn buff) := by
  have := (Format.complete_append h (buff.drop (buff.length % 2 ^ 32))).2
  rwa [availIn, List.take_append_drop] at this

/-- `inflate_btb` ends, and returns what was put out for the bytes that reached the stream. -/
theorem inflateBtb_closes (hz : Inflates z fmt At) (hal : al.Succeeds) (hne : buff ≠ [])
    (hfits : BufferFits (fmt.out (availIn buff)).length) :
    ∃ p : Pumped σ BinaryBuffer, Settles (inflateBtb z al (some buff)) (takeBuffer al p) ∧
      Closes fmt BufferHolds (availIn buff)
        (stopCode ZIP_CHUNK (fmt.out (availIn buff)).length (availIn buff)) p := by
  obtain ⟨p, ⟨n, hp⟩, hends⟩ := pump_inflates hz (toBuffer_takes hal) hz.init
    (show [] <+: fmt.out ([] ++ availIn buff) from List.nil_prefix) hfits emptyOut_holds
  refine ⟨p, ⟨n, fun fuel hfuel => ?_⟩, hends.closes⟩
  have hrun := hp fuel hfuel
  dsimp only at hrun
  rw [inflateBtb, if_neg (mt List.length_eq_zero_iff.mp hne), newEx_emptyOut, ok_bind]
  dsimp only
  rw [hrun]
  rfl

theorem inflateBtb_iff (hz : Inflates z fmt At) (hal : al.Succeeds) (buff : List UInt8)
    (hfits : BufferFits (fmt.out (availIn buff)).length) :
    ∃ r, Settles (inflateBtb z al (some buff)) r ∧
      (BufferRight fmt (availIn buff) buff r ↔ BlockDetects fmt (availIn buff)) := by
  by_cases hnil : buff = []
  · subst hnil
    exact ⟨(.dataError, none), ⟨0, fun _ _ => rfl⟩,
      iff_of_true (fun h => absurd h (by decide)) fun _ => .inl rfl⟩
  · obtain ⟨p, hp, hcloses⟩ := inflateBtb_closes hz hal hnil hfits
    refine ⟨takeBuffer al p, hp, ?_⟩
    rw [blockDetects_iff]
    exact hcloses.bufferRight_iff hal (stopCode_ne_end _ _ _) out_availIn

theorem inflateBtf_iff (hz : Inflates z fmt At) (buff dest : List UInt8) :
    ∃ r, Settles (inflateBtf z (some buff) dest) r ∧
      (FileRight fmt (availIn buff) buff dest r ↔ BlockDetects fmt (availIn buff)) := by
  by_cases hnil : buff = []
  · subst hnil
    exact ⟨(.dataError, dest), ⟨0, fun _ _ => rfl⟩,
      iff_of_true (fun h => absurd h (show ZCode.dataError ≠ .ok by decide)) fun _ => .inl rfl⟩
  · obtain ⟨p, ⟨n, hp⟩, hends⟩ := pump_inflates hz (toFile_takes dest) hz.init
      (show [] <+: fmt.out ([] ++ availIn buff) from List.nil_prefix) trivial
      (List.append_nil dest).symm
    refine ⟨(finalCode p, p.out), ⟨n, fun fuel hfuel => ?_⟩, ?_⟩
    · have hrun := hp fuel hfuel
      dsimp only at hrun
      rw [inflateBtf, if_neg (mt List.length_eq_zero_iff.mp hnil), hrun]
      rfl
    · rw [blockDetects_iff]
      exact hends.closes.fileRight_iff (stopCode_ne_end _ _ _) out_availIn

theorem readStop_ne_end (source : List UInt8) (m : Nat) :
    (if source = [] then .ok else stopCode ZIP_CHUNK m source) ≠ ZCode.streamEnd := by
  split
  · decide
  · exact stopCode_ne_end _ _ _

theorem inflateFtb_iff (hz : Inflates z fmt At) (hal : al.Succeeds) (source : List UInt8)
    (hfits : BufferFits (fmt.out source).length) :
    ∃ r, Settles (inflateFtb z al (some source)) r ∧
      (BufferRight fmt source source r ↔ FileDetects fmt source) := by
  obtain ⟨p, n, hp, hends⟩ := @readLoop_inflates _ _ _ _ _ _ _ _ hz (toBuffer_takes hal) _ z.init []
    source emptyOut .ok (Nat.lt_succ_self _) (by rw [fmt.out_nil]; exact hz.init) fmt.status_nil
    (by rw [fmt.out_nil]; exact emptyOut_holds) hfits
  refine ⟨takeBuffer al p, ⟨n, fun fuel hfuel => ?_⟩, ?_⟩
  · rw [inflateFtb, newEx_emptyOut, ok_bind]
    dsimp only
    rw [hp fuel fuel hfuel hfuel]
    rfl
  · rw [fileDetects_iff]
    exact hends.closes.bufferRight_iff hal (readStop_ne_end _ _) fun _ => rfl

theorem inflateFtf_iff (hz : Inflates z fmt At) (source dest : List UInt8) :
    ∃ r, Settles (inflateFtf z (some source) dest) r ∧
      (FileRight fmt source source dest r ↔ FileDetects fmt source) := by
  obtain ⟨p, n, hp, hends⟩ := @readLoop_inflates _ _ _ _ _ _ _ _ hz (toFile_takes dest) _ z.init []
    source dest .ok (Nat.lt_succ_self _) (by rw [fmt.out_nil]; exact hz.init) fmt.status_nil
    (by rw [fmt.out_nil]; exact (List.append_nil dest).symm) trivial
  refine ⟨(finalCode p, p.out), ⟨n, fun fuel hfuel => ?_⟩, ?_⟩
  · rw [inflateFtf, hp fuel fuel hfuel hfuel]
    rfl
  · rw [fileDetects_iff]
    exact hends.closes.fileRight_iff (readStop_ne_end _ _) fun _ => rfl

/-- The zlib stream of one letter. The letter is known before its last byte. -/
def letterFormat : Format :=
  .ofScript (0x78, []) [(0x9c, []), (0x4b, []), (0x04, [0x61]), (0x00, []), (0x00, []), (0x62, []),
    (0x00, []), (0x62, [])]

def letterStream : List UInt8 := [0x78, 0x9c, 0x4b, 0x04, 0x00, 0x00, 0x62, 0x00, 0x62]

end Functions

end AlibC.Zip
