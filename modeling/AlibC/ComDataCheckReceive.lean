import AlibC.ComDataCheckStream

/-! Runs of the documented receive loop: the chunks do not matter, and what was sent
is received. -/
namespace AlibC.ComDataCheck

open CLang BinaryBuffer

/-- The chunks of a stream in the order in which they arrive, each with the allocator
its call meets. -/
structure Cuts (is : List (Alloc UInt8 × Block)) (s : Block) : Prop where
  alloc : ∀ i ∈ is, i.1.Succeeds
  nonempty : ∀ i ∈ is, i.2 ≠ []
  flatten_eq : (is.map Prod.snd).flatten = s

/-- The bytes of the first `k` chunks. -/
def received (is : List (Alloc UInt8 × Block)) (k : Nat) : Block :=
  ((is.take k).map Prod.snd).flatten

theorem received_starts {is : List (Alloc UInt8 × Block)} {s : Block} (h : Cuts is s) (k : Nat) :
    received is k <+: s := by
  rw [← h.flatten_eq]
  conv_rhs => rw [← List.take_append_drop k is, List.map_append, List.flatten_append]
  exact List.prefix_append _ _

theorem received_all {is : List (Alloc UInt8 × Block)} {s : Block} (h : Cuts is s) :
    received is is.length = s := by
  rw [received, List.take_length, h.flatten_eq]

/-- A fresh input object. -/
def fresh (a : UInt8) : ComDataCheck :=
  let b : BinaryBuffer :=
    { buff := some (List.replicate defaultMinCap a), len := 0, capacity := defaultMinCap
      minCap := defaultMinCap, maxExpand := defaultMaxExpand }
  { dataLen := 0, buff := b, unreadBuff := b, input := 1 }

theorem new_filled (a : UInt8) : new (.filled a) 1 = .ok (some (fresh a)) := rfl

section

variable {al : Alloc UInt8} {cdc : ComDataCheck} {is : List (Alloc UInt8 × Block)} {s : Block}

/-- The receive loop over a whole stream is the parser on that stream, at its end and
after each chunk. A chunk must fit behind the bytes that wait for it. -/
theorem receive_run (hnew : new al 1 = .ok (some cdc)) (hcut : Cuts is s)
    (hfit : ∀ pre i post, is = pre ++ i :: post →
      (wire.decode (pre.map Prod.snd).flatten).2.length + i.2.length < 2 ^ 64) :
    ∃ outs cdc', Machine.run receive cdc is = .ok (outs, cdc') ∧
      outs.flatten = (wire.decode s).1 ∧
      (∀ k, (outs.take k).flatten = (wire.decode (received is k)).1) ∧
      Waits cdc' (wire.decode s).2 := by
  have hok : Machine.AllTrace (fun w (i : Alloc UInt8 × Block) => wire.feed w i.2)
      (fun w i => i.1.Succeeds ∧ i.2 ≠ [] ∧ w.length + i.2.length < 2 ^ 64) [] is := by
    refine wire.allTrace_feed Prod.snd is [] rfl ?_
    intro pre i post hs
    have hi : i ∈ is := by simp [hs]
    exact ⟨hcut.alloc i hi, hcut.nonempty i hi, hfit pre i post hs⟩
  have hstep : ∀ (c : ComDataCheck) (w : Block) (i : Alloc UInt8 × Block), Waits c w →
      (i.1.Succeeds ∧ i.2 ≠ [] ∧ w.length + i.2.length < 2 ^ 64) →
      ∃ c', receive c i = .ok ((wire.feed w i.2).1, c') ∧ Waits c' (wire.feed w i.2).2 :=
    fun c w i hc hi => receive_eq hi.1 hc hi.2.1 hi.2.2
  obtain ⟨cdc', hr, hw⟩ := Machine.run_simulates hstep is cdc [] (new_waits hnew) hok
  have htrace := fun js => wire.trace_feed Prod.snd (js : List (Alloc UInt8 × Block)) [] rfl
  simp only [List.nil_append] at htrace
  refine ⟨_, cdc', hr, ?_, ?_, ?_⟩
  · rw [← hcut.flatten_eq, ← htrace]
  · intro k
    rw [Machine.take_trace, received, ← htrace]
  · rwa [← hcut.flatten_eq, ← htrace]

/-- The whole stream is shorter than the largest `size_t`. -/
theorem receive_short_stream (hnew : new al 1 = .ok (some cdc)) (hcut : Cuts is s)
    (hlen : s.length < ULONG_MAX) :
    ∃ outs cdc', Machine.run receive cdc is = .ok (outs, cdc') ∧
      outs.flatten = (wire.decode s).1 ∧ Waits cdc' (wire.decode s).2 := by
  have hfit : ∀ pre i post, is = pre ++ i :: post →
      (wire.decode (pre.map Prod.snd).flatten).2.length + i.2.length < 2 ^ 64 := by
    intro pre i post hs
    have hle := wire.length_decode_le (pre.map Prod.snd).flatten
    have hsum : (pre.map Prod.snd).flatten.length + i.2.length ≤ s.length := by
      rw [← hcut.flatten_eq, hs]
      simp
    have := lt_of_le_max (Nat.le_of_lt hlen)
    omega
  obtain ⟨outs, cdc', hr, hm, -, hw⟩ := receive_run hnew hcut hfit
  exact ⟨outs, cdc', hr, hm, hw⟩

/-- Two ways to cut one stream deliver the same messages and leave the same bytes
pending. -/
theorem receive_chunking {al' : Alloc UInt8} {cdc' : ComDataCheck}
    {js : List (Alloc UInt8 × Block)} (hnew : new al 1 = .ok (some cdc))
    (hnew' : new al' 1 = .ok (some cdc')) (his : Cuts is s) (hjs : Cuts js s)
    (hlen : s.length < ULONG_MAX) :
    ∃ outs outs' c c', Machine.run receive cdc is = .ok (outs, c) ∧
      Machine.run receive cdc' js = .ok (outs', c') ∧ outs.flatten = outs'.flatten ∧
      c.dataLen = c'.dataLen ∧ c.buff.contents = c'.buff.contents ∧
      c.unreadBuff.contents = c'.unreadBuff.contents := by
  obtain ⟨outs, c, hr, hm, hw⟩ := receive_short_stream hnew his hlen
  obtain ⟨outs', c', hr', hm', hw'⟩ := receive_short_stream hnew' hjs hlen
  refine ⟨outs, outs', c, c', hr, hr', hm.trans hm'.symm, ?_, ?_, ?_⟩
  · rw [hw.dataLen_eq, hw'.dataLen_eq]
  · rw [hw.contents_eq, hw'.contents_eq]
  · rw [contents_of_len_zero hw.unread_len, contents_of_len_zero hw'.unread_len]

/-- One message split over two chunks and sent whole. -/
theorem receive_chunking_split :
    ∃ cdc outs outs' c c', new (.filled 0) 1 = .ok (some cdc) ∧
      Machine.run receive cdc [(.filled 0, [0, 0]), (.filled 0, [0, 1, 7, 0])] = .ok (outs, c) ∧
      Machine.run receive cdc [(.filled 0, [0, 0, 0, 1, 7, 0])] = .ok (outs', c') ∧
      outs.flatten = outs'.flatten ∧ c.dataLen = c'.dataLen ∧
      c.buff.contents = c'.buff.contents ∧ c.unreadBuff.contents = c'.unreadBuff.contents := by
  have hsplit : Cuts [(.filled 0, [0, 0]), (.filled 0, [0, 1, 7, 0])] [0, 0, 0, 1, 7, 0] :=
    ⟨by simp [Alloc.filled_succeeds], by simp, rfl⟩
  have hwhole : Cuts [(.filled 0, [0, 0, 0, 1, 7, 0])] [0, 0, 0, 1, 7, 0] :=
    ⟨by simp [Alloc.filled_succeeds], by simp, rfl⟩
  obtain ⟨outs, outs', c, c', h⟩ :=
    receive_chunking (new_filled 0) (new_filled 0) hsplit hwhole (by decide)
  exact ⟨_, outs, outs', c, c', new_filled 0, h⟩

end

end AlibC.ComDataCheck
