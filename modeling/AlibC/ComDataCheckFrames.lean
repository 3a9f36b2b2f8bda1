import AlibC.ComDataCheckReceive

/-! What an output object sends, and when the receive loop gets it back. -/
namespace AlibC.ComDataCheck

open CLang BinaryBuffer

/-- A payload on the wire. -/
def frame (payload : Block) : Block := htonl payload.length ++ payload

def encode (payloads : List Block) : Block := (payloads.map frame).flatten

@[simp] theorem encode_nil : encode [] = [] := rfl

@[simp] theorem encode_cons (m : Block) (ms : List Block) : encode (m :: ms) = frame m ++ encode ms :=
  rfl

theorem encode_append (ms ms' : List Block) : encode (ms ++ ms') = encode ms ++ encode ms' := by
  simp [encode]

@[simp] theorem length_htonl (n : Int) : (htonl n).length = 4 := rfl

theorem length_frame (m : Block) : (frame m).length = 4 + m.length := by simp [frame]

theorem ntohl_htonl {n : Nat} (h : n ≤ INT32_MAX) : ntohl (htonl n) = n := by
  unfold INT32_MAX at h
  simp only [ntohl, htonl, List.foldl_cons, List.foldl_nil, UInt8.toNat_ofNat']
  rw [toInt32_eq] <;> omega

/-- A socket that takes everything gets the length and the stored bytes. -/
theorem send_eq {cdc : ComDataCheck} (h : cdc.buff.WF) (hp : cdc.buff.len ≤ INT32_MAX)
    {sock : Int} (hs : 0 < sock) :
    send cdc sock (fun _ bs => bs.length) = .ok (.ok, frame cdc.buff.contents) := by
  have hlen := h.length_contents
  have hlt : cdc.buff.len < 2 ^ 31 := Nat.lt_succ_of_le hp
  simp only [send, if_neg (show ¬ sock ≤ 0 by omega), h.load_contents, ok_bind, length_htonl,
    hlen, toSize_nat (show 4 < 2 ^ 64 by decide), toSize_nat (show cdc.buff.len < 2 ^ 64 by omega)]
  rw [toInt32_eq (by omega) (by omega), frame, hlen]
  simp

/-- What an output object sends after a payload was appended to it. -/
theorem send_payload {al : Alloc UInt8} (hal : al.Succeeds) {payload : Block}
    (hp : payload.length ≤ INT32_MAX) {sock : Int} (hs : 0 < sock) :
    ∃ cdc cdc', new al 0 = .ok (some cdc) ∧
      append al cdc (some payload) payload.length = .ok (.complete, cdc') ∧
      send cdc' sock (fun _ bs => bs.length) = .ok (.ok, frame payload) := by
  have hlt : payload.length < 2 ^ 31 := Nat.lt_succ_of_le hp
  obtain ⟨b, hb, hwf, hl, -⟩ := new_eq hal
  have hnew : new al 0 = .ok (some ⟨0, b, b, 0⟩) := by simp [new, hb]
  by_cases hz : payload = []
  · subst hz
    have hsend := @send_eq ⟨0, b, b, 0⟩ hwf (by simp [hl]) sock hs
    rw [show b.contents = [] from contents_of_len_zero hl] at hsend
    exact ⟨_, _, hnew, by simp [append, hl, appendRead, check], hsend⟩
  · have hpos : payload.length ≠ 0 := by simpa using hz
    obtain ⟨b', hb', hwf', hc, hl', -⟩ :=
      append_eq hal hwf (Nat.le_refl payload.length) (by omega)
    rw [contents_of_len_zero hl, List.nil_append, List.take_length] at hc
    have hlen : b'.len = payload.length := by omega
    have hsend := @send_eq ⟨toInt32 b'.len, b', b, 0⟩ hwf' (by simpa [hlen] using hp) sock hs
    rw [show (⟨toInt32 b'.len, b', b, 0⟩ : ComDataCheck).buff.contents = payload from hc] at hsend
    have happ : append al ⟨0, b, b, 0⟩ (some payload) payload.length =
        .ok (.complete, ⟨toInt32 b'.len, b', b, 0⟩) := by
      have hmax : ¬ INT32_MAX < b'.len := by omega
      simp [append, hl, appendRead, hz, hb', hmax]
    exact ⟨_, _, hnew, happ, hsend⟩

/-- An empty payload needs a byte behind its frame. -/
theorem takeMessage_frame {m : Block} (hm : m.length ≤ INT32_MAX) (t : Block) :
    takeMessage (frame m ++ t) = if m = [] ∧ t = [] then none else some (m, t) := by
  have hlt : m.length < 2 ^ 31 := Nat.lt_succ_of_le hm
  split
  · rename_i h
    obtain ⟨rfl, rfl⟩ := h
    exact takeMessage_short (Nat.le_refl 4)
  · rename_i h
    have hpos : 0 < (m ++ t).length := by
      apply List.length_pos_iff.mpr
      simpa using h
    have hn : toSize (ntohl (htonl m.length)) = m.length := by
      rw [ntohl_htonl hm, toSize_nat (by omega)]
    rw [frame, List.append_assoc, takeMessage_append rfl hpos, hn,
      if_neg (by simp), List.take_left, List.drop_left]

theorem parse_frame {m t : Block} (hm : m.length ≤ INT32_MAX) (h : ¬ (m = [] ∧ t = [])) :
    wire.parse (frame m ++ t) = some (m, t) :=
  (takeMessage_frame hm t).trans (if_neg h)

/-- Every payload can be in a header. -/
def Sendable (payloads : List Block) : Prop := ∀ m ∈ payloads, m.length ≤ INT32_MAX

/-- Bytes behind the frames make the decoder take them all. -/
theorem decode_encode_append {ms : List Block} (hms : Sendable ms) {t : Block} (ht : t ≠ []) :
    wire.decode (encode ms ++ t) = (ms ++ (wire.decode t).1, (wire.decode t).2) := by
  induction ms with
  | nil => simp
  | cons m ms ih =>
    obtain ⟨hm, hms⟩ := List.forall_mem_cons.mp hms
    have hne : ¬ (m = [] ∧ encode ms ++ t = []) := by simp [ht]
    rw [encode_cons, List.append_assoc, wire.decode_some (parse_frame hm hne), ih hms]
    rfl

/-- At the end of a frame its payload is taken, unless it is empty. -/
theorem decode_encode_concat {ms : List Block} (hms : Sendable ms) {m : Block}
    (hm : m.length ≤ INT32_MAX) : wire.decode (encode (ms ++ [m])) =
      if m = [] then (ms, frame m) else (ms ++ [m], []) := by
  have hne : frame m ≠ [] := List.ne_nil_of_length_pos (by rw [length_frame]; omega)
  have hf : takeMessage (frame m) = if m = [] then none else some (m, []) := by
    simpa using takeMessage_frame hm []
  rw [encode_append, encode_cons, encode_nil, List.append_nil, decode_encode_append hms hne]
  split
  · rename_i h0
    rw [if_pos h0] at hf
    rw [wire.decode_none hf, List.append_nil]
  · rename_i h0
    rw [if_neg h0] at hf
    rw [wire.decode_some hf, wire.decode_none rfl]

/-- At most one frame waits. -/
theorem length_pending_le {ms : List Block} (hms : Sendable ms) : ∀ {s : Block},
    s <+: encode ms → (wire.decode s).2.length ≤ 4 + INT32_MAX := by
  induction ms with
  | nil =>
    intro s hs
    obtain rfl : s = [] := List.prefix_nil.mp hs
    rw [wire.decode_none rfl]
    exact Nat.zero_le _
  | cons m ms ih =>
    intro s hs
    obtain ⟨hm, hms⟩ := List.forall_mem_cons.mp hms
    have hle := wire.length_decode_le s
    have hf := length_frame m
    by_cases hlen : s.length ≤ (frame m).length
    · omega
    · obtain ⟨t, rfl⟩ := List.prefix_of_prefix_length_le (List.prefix_append _ _) hs
        (Nat.le_of_not_le hlen)
      have ht : t ≠ [] := by
        rintro rfl
        simp at hlen
      rw [wire.decode_some (parse_frame hm (by simp [ht]))]
      exact ih hms ((List.prefix_append_right_inj _).mp hs)

/-- Everything sent is received: in order, with nothing left over, and each payload by
the call that brings the last byte of its frame. -/
def Delivers (cdc : ComDataCheck) (is : List (Alloc UInt8 × Block)) (payloads : List Block) :
    Prop :=
  ∃ outs cdc', Machine.run receive cdc is = .ok (outs, cdc') ∧ outs.flatten = payloads ∧
    cdc'.dataLen = 0 ∧ cdc'.buff.contents = [] ∧ cdc'.unreadBuff.contents = [] ∧
    ∀ k j, j ≤ payloads.length → (encode (payloads.take j)).length ≤ (received is k).length →
      payloads.take j <+: (outs.take k).flatten

/-- No chunk ends, and so neither does the stream, right behind the frame of an empty
payload. -/
def NoEmptyAtEnd (is : List (Alloc UInt8 × Block)) (payloads : List Block) : Prop :=
  ∀ k pre post, payloads = pre ++ [] :: post → received is k ≠ encode (pre ++ [[]])

section

variable {al : Alloc UInt8} {cdc : ComDataCheck} {is : List (Alloc UInt8 × Block)}
  {payloads : List Block}

theorem receive_frames (hnew : new al 1 = .ok (some cdc)) (hcut : Cuts is (encode payloads))
    (hsize : ∀ i ∈ is, i.2.length ≤ PTRDIFF_MAX) (hp : Sendable payloads) :
    ∃ outs cdc', Machine.run receive cdc is = .ok (outs, cdc') ∧
      outs.flatten = (wire.decode (encode payloads)).1 ∧
      (∀ k, (outs.take k).flatten = (wire.decode (received is k)).1) ∧
      Waits cdc' (wire.decode (encode payloads)).2 := by
  apply receive_run hnew hcut
  intro pre i post hs
  have hpre : (pre.map Prod.snd).flatten = received is pre.length := by
    rw [received, hs, List.take_left]
  have hle := length_pending_le hp (received_starts hcut pre.length)
  have hi := hsize i (by simp [hs])
  unfold INT32_MAX at hle
  unfold PTRDIFF_MAX at hi
  rw [hpre]
  omega

/-- The payload whose frame was just completed stays behind when it is empty. -/
theorem not_delivers (hnew : new al 1 = .ok (some cdc)) (hcut : Cuts is (encode payloads))
    (hsize : ∀ i ∈ is, i.2.length ≤ PTRDIFF_MAX) (hp : Sendable payloads) {k : Nat}
    {pre post : List Block} (hpay : payloads = pre ++ [] :: post)
    (hk : received is k = encode (pre ++ [[]])) : ¬ Delivers cdc is payloads := by
  rintro ⟨outs, cdc', hr, -, -, -, -, htime⟩
  obtain ⟨outs', cdc'', hr', -, hout, -⟩ := receive_frames hnew hcut hsize hp
  obtain ⟨rfl, rfl⟩ := Prod.mk.inj (Except.ok.inj (hr.symm.trans hr'))
  have hpre : Sendable pre := fun m hm => hp m (by simp [hpay, hm])
  have htake : payloads.take (pre.length + 1) = pre ++ [[]] := by
    rw [hpay, List.append_cons]
    exact List.take_left' (by simp)
  have h := htime k (pre.length + 1) (by simp [hpay]) (Nat.le_of_eq (by rw [htake, hk]))
  rw [htake, hout, hk, decode_encode_concat hpre (by simp), if_pos rfl] at h
  have hlen := h.length_le
  simp only [List.length_append, List.length_singleton] at hlen
  omega

/-- What has been delivered when the first `j` frames are there. -/
theorem decode_received (hcut : Cuts is (encode payloads)) (hp : Sendable payloads)
    (hend : NoEmptyAtEnd is payloads) {k j : Nat} (hj : j ≤ payloads.length)
    (hlen : (encode (payloads.take j)).length ≤ (received is k).length) :
    payloads.take j <+: (wire.decode (received is k)).1 := by
  have hms : Sendable (payloads.take j) := fun m hm => hp m (List.mem_of_mem_take hm)
  have hpre : encode (payloads.take j) <+: encode payloads := by
    conv_rhs => rw [← List.take_append_drop j payloads, encode_append]
    exact List.prefix_append _ _
  obtain ⟨t, ht⟩ := List.prefix_of_prefix_length_le hpre (received_starts hcut k) hlen
  by_cases ht0 : t = []
  · subst ht0
    rw [List.append_nil] at ht
    cases j with
    | zero => exact List.nil_prefix
    | succ j =>
      have hsplit : payloads.take (j + 1) = payloads.take j ++ [payloads[j]] := by simp
      have hall : payloads = payloads.take j ++ payloads[j] :: payloads.drop (j + 1) := by simp
      have hne : payloads[j] ≠ [] := by
        intro h0
        rw [h0] at hsplit hall
        exact hend k _ _ hall (by rw [← ht, hsplit])
      have hms' : Sendable (payloads.take j) := fun m hm => hp m (List.mem_of_mem_take hm)
      have hdecode := decode_encode_concat hms' (hp payloads[j] (List.getElem_mem _))
      rw [if_neg hne, ← hsplit, ht] at hdecode
      exact hdecode ▸ List.prefix_rfl
  · rw [← ht, decode_encode_append hms ht0]
    exact List.prefix_append _ _

theorem decode_encode (hcut : Cuts is (encode payloads)) (hp : Sendable payloads)
    (hend : NoEmptyAtEnd is payloads) : wire.decode (encode payloads) = (payloads, []) := by
  obtain rfl | ⟨ms, m, rfl⟩ := payloads.eq_nil_or_concat'
  · exact wire.decode_none rfl
  · have hm : m ≠ [] := by
      rintro rfl
      exact hend is.length ms [] rfl (received_all hcut)
    rw [decode_encode_concat (fun x hx => hp x (by simp [hx])) (hp m (by simp)), if_neg hm]

/-- The loop delivers exactly when no chunk ends behind an empty payload's frame. -/
theorem delivers_iff (hnew : new al 1 = .ok (some cdc)) (hcut : Cuts is (encode payloads))
    (hsize : ∀ i ∈ is, i.2.length ≤ PTRDIFF_MAX) (hp : Sendable payloads) :
    Delivers cdc is payloads ↔ NoEmptyAtEnd is payloads := by
  constructor
  · intro h k pre post hpay hk
    exact not_delivers hnew hcut hsize hp hpay hk h
  · intro hend
    obtain ⟨outs, cdc', hr, hall, hout, hw⟩ := receive_frames hnew hcut hsize hp
    rw [decode_encode hcut hp hend] at hall hw
    refine ⟨outs, cdc', hr, hall, hw.dataLen_eq, hw.contents_eq,
      contents_of_len_zero hw.unread_len, ?_⟩
    intro k j hj hlen
    rw [hout]
    exact decode_received hcut hp hend hj hlen

/-- An empty payload that is followed by another one in the same chunk. -/
theorem delivers_followed :
    Delivers (fresh 0) [(.filled 0, [0, 0, 0, 0, 0, 0, 0, 1, 7])] [[], [7]] := by
  have hcut : Cuts [(.filled 0, [0, 0, 0, 0, 0, 0, 0, 1, 7])] (encode [[], [7]]) :=
    ⟨by simp [Alloc.filled_succeeds], by simp, rfl⟩
  refine (delivers_iff (new_filled 0) hcut (by simp [PTRDIFF_MAX])
    (by simp [Sendable, INT32_MAX])).mpr ?_
  intro k pre post hpay
  obtain rfl : pre = [] := by
    cases pre with
    | nil => rfl
    | cons m pre => cases pre <;> simp at hpay
  cases k with
  | zero => decide
  | succ k =>
    simp only [received, List.take_succ_cons, List.take_nil]
    decide

/-- An empty payload that is sent alone is never delivered. -/
theorem empty_payload_lost :
    new (.filled 0) 1 = .ok (some (fresh 0)) ∧
      Cuts [(.filled 0, [0, 0, 0, 0])] (encode [[]]) ∧
      ¬ Delivers (fresh 0) [(.filled 0, [0, 0, 0, 0])] [[]] := by
  have hcut : Cuts [(.filled 0, [0, 0, 0, 0])] (encode [[]]) :=
    ⟨by simp [Alloc.filled_succeeds], by simp, rfl⟩
  exact ⟨new_filled 0, hcut, not_delivers (new_filled 0) hcut (by simp [PTRDIFF_MAX])
    (by simp [Sendable]) (k := 1) (show [[]] = [] ++ [] :: [] from rfl) rfl⟩

end

end AlibC.ComDataCheck
