import AlibC.ZipInflate

/-! What `deflate_btb` and `inflate_btb` come to one after the other. -/
namespace AlibC.Zip

open CLang ZStream BinaryBuffer

variable {σ τ : Type} {d : Deflater σ} {z : Inflater τ} {al : Alloc UInt8} {level : Int}
  {x w : List UInt8} {Given : σ → List UInt8 → List UInt8 → Prop} {fmt : Format}
  {At : τ → List UInt8 → List UInt8 → Prop}

theorem length_availIn (buff : List UInt8) : (availIn buff).length = buff.length % 2 ^ 32 :=
  List.length_take_of_le (Nat.mod_le _ _)

theorem availIn_eq (h : x.length < 2 ^ 32) : availIn x = x := by
  rw [availIn, Nat.mod_eq_of_lt h, List.take_length]

/-- `deflate_btb` ends with `Z_OK` and the whole stream for the bytes that were given to it. -/
theorem deflateBtb_settles (hd : Deflates d level (availIn x) w Given) (hal : al.Succeeds)
    (hx : x ≠ []) (hfits : BufferFits w.length) :
    ∃ blk, Settles (deflateBtb d al level (some x))
      ((.ok, some (blk, w.length)), (availIn x).length) ∧ blk.getD [] = w := by
  obtain ⟨f, hfeeds, hgoes, hend, hout, htotal⟩ := @Deflates.feeds _ d level w _
    (fun code => (deflateFails code).isSome) Given (availIn x) hd ⟨rfl, rfl⟩ (show 0 < ZIP_CHUNK by decide)
    _ _ [] _ hd.init List.nil_prefix (Nat.lt_succ_self _)
  rw [List.nil_append] at hout
  obtain ⟨p, ⟨n, hp⟩, hends⟩ := pump_feeds (toBuffer_takes hal) hfits hfeeds emptyOut_holds
    (by rw [List.nil_append, hout])
  have hholds := hends.holds hgoes
  rw [List.nil_append, hout] at hholds
  have hok : p.failed = false := hends.failed.trans hgoes
  obtain ⟨blk, htake, hblk⟩ := takeBuffer_eq hal hok hholds
  refine ⟨blk, ⟨n, fun fuel hfuel => ?_⟩, hblk⟩
  have hrun := hp fuel hfuel
  dsimp only at hrun
  rw [deflateBtb, if_neg (mt List.length_eq_zero_iff.mp hx), newEx_emptyOut, ok_bind]
  dsimp only
  rw [hrun, ok_bind, htake, hends.rval hgoes, hend, hends.totalIn, htotal]
  rfl

/-- The block is deflated, all of it, and what comes of that is inflated to the block again. -/
def RoundTrip (d : Deflater σ) (z : Inflater τ) (al : Alloc UInt8) (level : Int) (x : List UInt8) :
    Prop :=
  ∃ blk len, Settles (deflateBtb d al level (some x)) ((.ok, some (blk, len)), x.length) ∧
    (blk.getD []).length = len ∧
    ∃ blk', Settles (inflateBtb z al blk) (.ok, some (blk', x.length)) ∧ blk'.getD [] = x

/-- Only bytes that the length leaves out can be missing, and there are too many of these. -/
theorem availIn_misses (h : Encodes fmt x w) (hlen : 2 ^ 32 ≤ w.length) :
    fmt.status (availIn w) = .partly ∧ fmt.out (availIn w) ≠ x := by
  have hpre : availIn w <+: w := List.take_prefix _ _
  have hcut := length_availIn w
  have hshort : (availIn w).length + 2 ^ 32 ≤ w.length := by omega
  refine ⟨h.proper _ hpre fun heq => ?_, fun hout => ?_⟩
  · rw [heq] at hshort
    omega
  · have := h.trailer _ hpre hout
    omega

theorem out_availIn_known (h : Encodes fmt x w) : fmt.out (availIn w) <+: x := by
  have := fmt.out_mono (availIn w) (w.drop (w.length % 2 ^ 32))
  rwa [availIn, List.take_append_drop, h.out] at this

section Lengths

variable (hd : Deflates d level (availIn x) w Given) (hw : Encodes fmt (availIn x) w)
  (hz : Inflates z fmt At) (hal : al.Succeeds)

include hw in
theorem stream_fits : BufferFits w.length ∧ BufferFits (fmt.out (availIn w)).length := by
  have hx := length_availIn x
  have hlong := hw.expansion
  have hshort := (out_availIn_known hw).length_le
  have hmod := Nat.mod_lt x.length (show 0 < 2 ^ 32 by decide)
  have hchunk : ZIP_CHUNK = 65536 := rfl
  rw [BufferFits, BufferFits]
  omega

include hd hw hz hal

/-- Where both lengths have 32 bits, the block comes back. -/
theorem roundTrip_of_lt (hne : x ≠ []) (hx : x.length < 2 ^ 32) (hlen : w.length < 2 ^ 32) :
    RoundTrip d z al level x := by
  obtain ⟨blk, hblk, rfl⟩ := deflateBtb_settles hd hal hne (stream_fits hw).1
  obtain ⟨w, rfl⟩ : ∃ w, blk = some w := Option.ne_none_iff_exists'.mp fun h => by
    rw [h] at hw
    exact hw.ne_nil rfl
  rw [Option.getD_some] at *
  obtain ⟨p, hp, hcloses⟩ := inflateBtb_closes hz hal hw.ne_nil (stream_fits hw).2
  have hcomplete := hw.complete
  have hout := hw.out
  rw [availIn_eq hlen] at hcloses
  rw [availIn_eq hx] at hout hblk
  have hok : p.failed = false := hcloses.goes (by rw [hcomplete]; decide)
  obtain ⟨blk', htake, hblk'⟩ := takeBuffer_eq hal hok (hcloses.holds hok)
  rw [hcloses.complete hcomplete, hout] at htake
  rw [hout] at hblk'
  refine ⟨some w, w.length, hblk, rfl, blk', ?_, hblk'⟩
  rw [htake] at hp
  exact hp

/-- Where the block comes back, both lengths have 32 bits. -/
theorem lt_of_roundTrip (hne : x ≠ []) (h : RoundTrip d z al level x) :
    x.length < 2 ^ 32 ∧ w.length < 2 ^ 32 := by
  obtain ⟨blk, len, hrun, -, blk', hback, hsame⟩ := h
  obtain ⟨blk₀, hblk, hw₀⟩ := deflateBtb_settles hd hal hne (stream_fits hw).1
  obtain ⟨hreturned, htotal⟩ := Prod.mk.inj (hrun.unique hblk)
  have hblk₀ : blk = blk₀ := (Prod.mk.inj (Option.some.inj (Prod.mk.inj hreturned).2)).1
  have hx : x.length < 2 ^ 32 := by
    rw [length_availIn] at htotal
    rw [htotal]
    exact Nat.mod_lt _ (by decide)
  refine ⟨hx, Nat.lt_of_not_le fun hlen => ?_⟩
  -- the inflated bytes are those known from the part of the stream that is given
  obtain ⟨w', rfl⟩ : ∃ w', blk₀ = some w' := Option.ne_none_iff_exists'.mp fun hnone => by
    rw [hnone] at hw₀
    exact hw.ne_nil hw₀.symm
  obtain rfl : w' = w := hw₀
  obtain ⟨p, hp, hcloses⟩ := inflateBtb_closes hz hal hw.ne_nil (stream_fits hw).2
  obtain ⟨hpart, hother⟩ := availIn_misses hw hlen
  have hok : p.failed = false := hcloses.goes (by rw [hpart]; decide)
  obtain ⟨blk'', htake, hout⟩ := takeBuffer_eq hal hok (hcloses.holds hok)
  rw [hblk₀] at hback
  have hsame' := (Prod.mk.inj (hback.unique hp |>.trans htake)).2
  rw [(Prod.mk.inj (Option.some.inj hsame')).1, hout] at hsame
  exact hother (hsame.trans (availIn_eq hx).symm)

end Lengths

/-- A block comes back from deflating and inflating exactly where its length and that of the stream have
32 bits. -/
theorem roundTrip_iff (hd : Deflates d level (availIn x) w Given) (hw : Encodes fmt (availIn x) w)
    (hz : Inflates z fmt At) (hal : al.Succeeds) (hne : x ≠ []) :
    RoundTrip d z al level x ↔ x.length < 2 ^ 32 ∧ w.length < 2 ^ 32 :=
  ⟨lt_of_roundTrip hd hw hz hal hne, fun h => roundTrip_of_lt hd hw hz hal hne h.1 h.2⟩

theorem encodes_letter : Encodes letterFormat [0x61] letterStream :=
  encodes_ofScript _ _ rfl (by decide) (by decide)

theorem roundTrip_iff_letter :
    RoundTrip (.ofStream letterStream) (.ofFormat letterFormat) (.filled 0) 6 [0x61] ↔
      [(0x61 : UInt8)].length < 2 ^ 32 ∧ letterStream.length < 2 ^ 32 :=
  roundTrip_iff (deflates_ofStream 6 _ letterStream) encodes_letter (inflates_ofFormat letterFormat)
    (Alloc.filled_succeeds 0) (by decide)

/-- The zlib stream of no bytes. -/
def emptyFormat : Format :=
  .ofScript (0x78, []) [(0x9c, []), (0x03, []), (0x00, []), (0x00, []), (0x00, []), (0x00, []),
    (0x01, [])]

def emptyStream : List UInt8 := [0x78, 0x9c, 0x03, 0x00, 0x00, 0x00, 0x00, 0x01]

/-- Of a block of `2 ^ 32` bytes nothing reaches the stream, and `Z_OK` is returned all the same. -/
theorem deflate_drops_block :
    (∃ blk, Settles (deflateBtb (.ofStream emptyStream) (.filled 0) 6
      (some (List.replicate (2 ^ 32) 0))) ((.ok, some (blk, 8)), 0)) ∧
    ¬RoundTrip (.ofStream emptyStream) (.ofFormat emptyFormat) (.filled 0) 6
      (List.replicate (2 ^ 32) 0) := by
  have hlen : (List.replicate (2 ^ 32) (0 : UInt8)).length = 2 ^ 32 := List.length_replicate
  generalize List.replicate (2 ^ 32) (0 : UInt8) = x at *
  have hne : x ≠ [] := fun h => by rw [h] at hlen; cases hlen
  have hnone : availIn x = [] := by rw [availIn, hlen]; rfl
  have hd := deflates_ofStream 6 (availIn x) emptyStream
  have hw : Encodes emptyFormat (availIn x) emptyStream := by
    rw [hnone]
    exact encodes_ofScript _ _ rfl (by decide) (by decide)
  obtain ⟨blk, hblk, -⟩ := deflateBtb_settles hd (Alloc.filled_succeeds 0) hne (stream_fits hw).1
  refine ⟨⟨blk, ?_⟩, fun h => ?_⟩
  · rw [hnone] at hblk
    exact hblk
  · have := (lt_of_roundTrip hd hw (inflates_ofFormat emptyFormat) (Alloc.filled_succeeds 0) hne h).1
    omega

end AlibC.Zip
