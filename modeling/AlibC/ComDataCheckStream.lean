import AlibC.BinaryBufferInvariant
import AlibC.ComDataCheck
import AlibC.Lib.Framing

/-! The receiver is a framing parser: whatever the chunks are, the object holds exactly
the bytes the parser waits with. -/
namespace AlibC.ComDataCheck

open CLang BinaryBuffer

/-- What the receiver makes of the bytes it has. It looks at a header only when a byte
behind it is there, and a negative length is a very large one. -/
def takeMessage (s : Block) : Option (Block × Block) :=
  if s.length ≤ 4 then none
  else
    let body := s.drop 4
    let n := toSize (ntohl (s.take 4))
    if body.length < n then none else some (body.take n, body.drop n)

theorem takeMessage_short {s : Block} (h : s.length ≤ 4) : takeMessage s = none :=
  if_pos h

/-- On a complete header and a body that has begun. -/
theorem takeMessage_append {header body : Block} (hh : header.length = 4)
    (hb : 0 < body.length) : takeMessage (header ++ body) =
      if body.length < toSize (ntohl header) then none
      else some (body.take (toSize (ntohl header)), body.drop (toSize (ntohl header))) := by
  have hl : ¬ (header ++ body).length ≤ 4 := by
    rw [List.length_append, hh]
    omega
  rw [takeMessage, if_neg hl, ← hh, List.take_left, List.drop_left]

theorem takeMessage_eq_some {s m r : Block} (h : takeMessage s = some (m, r)) :
    ∃ header, header.length = 4 ∧ s = header ++ (m ++ r) ∧
      m.length = toSize (ntohl header) ∧ 0 < (m ++ r).length := by
  unfold takeMessage at h
  split at h
  · cases h
  · dsimp only at h
    split at h
    · cases h
    · rename_i hs hn
      obtain ⟨rfl, rfl⟩ := Prod.mk.inj (Option.some.inj h)
      exact ⟨s.take 4, by simp; omega, by simp only [List.take_append_drop],
        List.length_take_of_le (Nat.not_lt.mp hn), by simp; omega⟩

/-- The receiver as a parser. -/
def wire : Framing.Parser UInt8 Block where
  parse := takeMessage
  rest_lt h := by
    obtain ⟨header, hh, rfl, -, -⟩ := takeMessage_eq_some h
    simp only [List.length_append]
    omega
  parse_append {s m r} t h := by
    obtain ⟨header, hh, rfl, hm, hpos⟩ := takeMessage_eq_some h
    rw [List.append_assoc, takeMessage_append hh (by simp at hpos ⊢; omega),
      if_neg (by simp; omega), ← hm, List.append_assoc, List.take_left, List.drop_left]

/-- The length field and the buffered bytes of a receiver that waits with `s`. -/
def expectedLen (s : Block) : Int := if s.length ≤ 4 then 0 else ntohl (s.take 4)

def buffered (s : Block) : Block := if s.length ≤ 4 then s else s.drop 4

/-- An input object in working order. -/
structure Live (cdc : ComDataCheck) : Prop where
  input : cdc.input ≠ 0
  buff : cdc.buff.WF
  unreadBuff : cdc.unreadBuff.WF

/-- Nothing more can be delivered before the next chunk. -/
structure Waits (cdc : ComDataCheck) (s : Block) : Prop extends Live cdc where
  unread_len : cdc.unreadBuff.len = 0
  parse_eq : takeMessage s = none
  dataLen_eq : cdc.dataLen = expectedLen s
  contents_eq : cdc.buff.contents = buffered s

/-- The state after a call that has looked at all of `s`, by the result it returned. -/
inductive Checked (s : Block) : RVal → ComDataCheck → Prop where
  | waits {cdc : ComDataCheck} (h : Waits cdc s) : Checked s .waiting cdc
  | message {cdc : ComDataCheck} {rest : Block} (h : Live cdc)
      (hm : takeMessage s = some (cdc.buff.contents, rest))
      (hr : cdc.unreadBuff.contents = rest) :
      Checked s (if rest = [] then .complete else .dataRemaining) cdc

/-- `ComDataCheck_check` decides by the length field and hands surplus bytes on. -/
theorem check_eq {al : Alloc UInt8} (hal : al.Succeeds) {cdc : ComDataCheck} (h : Live cdc)
    (hu : cdc.unreadBuff.len = 0) {header : Block} (hh : header.length = 4)
    (hd : cdc.dataLen = ntohl header) (hpos : 0 < cdc.buff.len) :
    ∃ r cdc', check al cdc = .ok (r, cdc') ∧ Checked (header ++ cdc.buff.contents) r cdc' := by
  have hlen := h.buff.length_contents
  have hle := h.buff.len_le
  have hcap := h.buff.capacity_lt
  have hparse := takeMessage_append hh (hlen ▸ hpos)
  rw [hlen] at hparse
  set n := toSize (ntohl header) with hn
  simp only [check, h.input, if_false, hd, ← hn]
  by_cases hlt : cdc.buff.len < n
  · rw [if_pos hlt] at hparse ⊢
    refine ⟨_, _, rfl, .waits ⟨h, hu, hparse, ?_, ?_⟩⟩
    · rw [expectedLen, if_neg (by simp; omega), ← hh, List.take_left, hd]
    · rw [buffered, if_neg (by simp; omega), ← hh, List.drop_left]
  · rw [if_neg hlt] at hparse ⊢
    by_cases heq : cdc.buff.len = n
    · rw [if_pos heq]
      rw [List.take_of_length_le (by omega), List.drop_eq_nil_of_le (by omega)] at hparse
      exact ⟨_, _, rfl, .message h hparse (contents_of_len_zero hu)⟩
    · obtain ⟨blk, hb, hbl⟩ := h.buff.buff_eq_some (by omega)
      obtain ⟨u, hu', huwf, huc, -, -⟩ := append_eq hal h.unreadBuff
        (show cdc.buff.len - n ≤ (blk.drop n).length by simp; omega) (by omega)
      obtain ⟨b, hb', hbwf, hbc, -⟩ := remove_tail h.buff
        (show n ≤ cdc.buff.len by omega) (by omega) hpos (by omega)
      have hrest : u.contents = cdc.buff.contents.drop n := by
        rw [huc, contents_of_len_zero hu, List.nil_append, contents, hb, Option.getD_some,
          List.drop_take]
      have hne : cdc.buff.contents.drop n ≠ [] := by
        apply List.ne_nil_of_length_pos
        simp
        omega
      refine ⟨.dataRemaining, { cdc with unreadBuff := u, buff := b }, ?_, ?_⟩
      · rw [if_neg heq, hb, advance_some, sizeSub_eq (by omega) (by omega), hu']
        simp [hb', hd]
      · have hlive : Live { cdc with unreadBuff := u, buff := b } := ⟨h.input, hbwf, huwf⟩
        have := Checked.message (s := header ++ cdc.buff.contents) hlive (by rw [hparse, hbc]) hrest
        rwa [if_neg hne] at this

theorem appendBody_eq {al : Alloc UInt8} (hal : al.Succeeds) {cdc : ComDataCheck} (h : Live cdc)
    (hu : cdc.unreadBuff.len = 0) {header : Block} (hh : header.length = 4)
    (hd : cdc.dataLen = ntohl header) {data : Block} {n : Nat} (hn : n ≤ data.length)
    (hpos : 0 < cdc.buff.len + n) (hlt : cdc.buff.len + n < 2 ^ 64) :
    ∃ r cdc', appendBody al cdc (some data) n = .ok (r, cdc') ∧
      Checked (header ++ (cdc.buff.contents ++ data.take n)) r cdc' := by
  obtain ⟨b, hb, hwf, hc, hl, -⟩ := append_eq hal h.buff hn hlt
  have hlive : Live { cdc with buff := b } := ⟨h.input, hwf, h.unreadBuff⟩
  obtain ⟨r, cdc', he, hr⟩ := check_eq hal hlive hu hh hd (by simpa [hl] using hpos)
  exact ⟨r, cdc', by simp [appendBody, hb, he], by simpa [hc] using hr⟩

theorem toSize_ntohl_eq_zero (bs : Block) : toSize (ntohl bs) = 0 ↔ ntohl bs = 0 := by
  unfold ntohl toInt32 toSize
  omega

section

variable {al : Alloc UInt8} {cdc : ComDataCheck} {s data : Block} {n : Nat}

theorem Waits.short (h : Waits cdc s) (hs : s.length ≤ 4) :
    cdc.dataLen = 0 ∧ cdc.buff.contents = s ∧ cdc.buff.len = s.length := by
  have hc : cdc.buff.contents = s := by rw [h.contents_eq, buffered, if_pos hs]
  exact ⟨by rw [h.dataLen_eq, expectedLen, if_pos hs], hc, by rw [← h.buff.length_contents, hc]⟩

/-- A header that has been read is not zero: its message would have been delivered. -/
theorem Waits.long (h : Waits cdc s) (hs : 4 < s.length) :
    cdc.dataLen = ntohl (s.take 4) ∧ cdc.dataLen ≠ 0 ∧ cdc.buff.contents = s.drop 4 ∧
      cdc.buff.len = s.length - 4 := by
  have hd : cdc.dataLen = ntohl (s.take 4) := by
    rw [h.dataLen_eq, expectedLen, if_neg (by omega)]
  have hc : cdc.buff.contents = s.drop 4 := by
    rw [h.contents_eq, buffered, if_neg (by omega)]
  refine ⟨hd, ?_, hc, by rw [← h.buff.length_contents, hc, List.length_drop]⟩
  intro h0
  have hp := h.parse_eq
  rw [hd] at h0
  rw [takeMessage, if_neg (by omega),
    if_neg (by rw [(toSize_ntohl_eq_zero _).mpr h0]; omega)] at hp
  cases hp

/-- The header was read by an earlier call. -/
theorem appendInput_body (hal : al.Succeeds) (h : Waits cdc s) (hs : 4 < s.length)
    (hn : n ≤ data.length) (hlt : s.length + n < 2 ^ 64) :
    ∃ r cdc', appendInput al cdc (some data) n = .ok (r, cdc') ∧
      Checked (s ++ data.take n) r cdc' := by
  obtain ⟨hd, hd0, hc, hl⟩ := h.long hs
  obtain ⟨r, cdc', he, hr⟩ := appendBody_eq hal h.toLive h.unread_len
    (List.length_take_of_le (Nat.le_of_lt hs)) hd hn (by omega) (by omega)
  rw [hc, ← List.append_assoc, List.take_append_drop] at hr
  exact ⟨r, cdc', by rw [appendInput, if_pos hd0, he], hr⟩

/-- The header is the beginning of the chunk. -/
theorem appendInput_chunk (hal : al.Succeeds) (h : Waits cdc []) (hn : n ≤ data.length)
    (hbig : 4 < n) (hlt : n < 2 ^ 64) :
    ∃ r cdc', appendInput al cdc (some data) n = .ok (r, cdc') ∧
      Checked (data.take n) r cdc' := by
  obtain ⟨hd, hc, hl⟩ := h.short (Nat.zero_le 4)
  rw [List.length_nil] at hl
  have hlive : Live { cdc with dataLen := ntohl (data.take 4) } :=
    ⟨h.input, h.buff, h.unreadBuff⟩
  obtain ⟨r, cdc', he, hr⟩ := appendBody_eq hal hlive
    h.unread_len (List.length_take_of_le (by omega)) rfl
    (show n - 4 ≤ (data.drop 4).length by simp; omega) (by omega) (by simp only [hl]; omega)
  refine ⟨r, cdc', ?_, ?_⟩
  · rw [appendInput, if_neg (by simp [hd]), hl, sizeAdd_eq (by omega), if_pos (by omega),
      if_neg (by simp), load_some (by omega), ok_bind, List.drop_zero, advance_some,
      sizeSub_eq (by omega) (by omega)]
    exact he
  · have ht : data.take 4 ++ (data.drop 4).take (n - 4) = data.take n := by
      rw [← List.take_add, show 4 + (n - 4) = n by omega]
    rwa [hc, List.nil_append, ht] at hr

/-- The chunk completes a header that has begun. -/
theorem appendInput_split (hal : al.Succeeds) (h : Waits cdc s) (hs : s.length ≤ 4)
    (hs0 : 0 < s.length) (hn : n ≤ data.length) (hbig : 4 < s.length + n)
    (hlt : s.length + n < 2 ^ 64) :
    ∃ r cdc', appendInput al cdc (some data) n = .ok (r, cdc') ∧
      Checked (s ++ data.take n) r cdc' := by
  obtain ⟨hd, hc, hl⟩ := h.short hs
  set diff := 4 - s.length with hdef
  have hdiff : toSize (toInt8 (sizeSub 4 s.length)) = diff := by
    rw [sizeSub_eq (by omega) (by omega), toInt8_eq (by omega) (by omega),
      toSize_nat (by omega)]
  obtain ⟨b, hb, hwf, hbc, hbl, -⟩ :=
    append_eq hal h.buff (show diff ≤ data.length by omega) (by omega)
  have hload : load b.buff 0 4 = .ok (s ++ data.take diff) := by
    have := hwf.load_contents
    rwa [show b.len = 4 by omega, hbc, hc] at this
  have hlive : Live
      { cdc with dataLen := ntohl (s ++ data.take diff), buff := b.clearNoResize } :=
    ⟨h.input, hwf.clearNoResize, h.unreadBuff⟩
  obtain ⟨r, cdc', he, hr⟩ := appendBody_eq hal hlive h.unread_len
    (show (s ++ data.take diff).length = 4 by simp; omega) rfl
    (show n - diff ≤ (data.drop diff).length by simp; omega) (by omega)
    (by simp only [clearNoResize]; omega)
  refine ⟨r, cdc', ?_, ?_⟩
  · rw [appendInput, if_neg (by simp [hd]), hl, sizeAdd_eq (by omega), if_pos (by omega),
      if_pos (by omega), hdiff]
    simp only [hb, ok_bind, hload]
    rw [sizeSub_eq (by omega) (by omega), advance_some]
    exact he
  · have ht : data.take diff ++ (data.drop diff).take (n - diff) = data.take n := by
      rw [← List.take_add, show diff + (n - diff) = n by omega]
    rwa [contents_of_len_zero (b := b.clearNoResize) rfl, List.nil_append, List.append_assoc,
      ht] at hr

/-- No byte behind the header is there yet. -/
theorem appendInput_short (hal : al.Succeeds) (h : Waits cdc s) (hn : n ≤ data.length)
    (hsmall : s.length + n ≤ 4) :
    ∃ r cdc', appendInput al cdc (some data) n = .ok (r, cdc') ∧
      Checked (s ++ data.take n) r cdc' := by
  obtain ⟨hd, hc, hl⟩ := h.short (by omega)
  obtain ⟨b, hb, hwf, hbc, -, -⟩ := append_eq hal h.buff hn (by omega)
  have hs' : (s ++ data.take n).length ≤ 4 := by simp; omega
  refine ⟨.waiting, { cdc with buff := b }, ?_, .waits ⟨⟨h.input, hwf, h.unreadBuff⟩,
    h.unread_len, takeMessage_short hs', ?_, ?_⟩⟩
  · rw [appendInput, if_neg (by simp [hd]), hl, sizeAdd_eq (by omega), if_neg (by omega), hb]
    rfl
  · rw [expectedLen, if_pos hs', ← hd]
  · rw [buffered, if_pos hs', ← hc, ← hbc]

/-- New bytes reach a receiver that waits. -/
theorem appendRead_eq (hal : al.Succeeds) (h : Waits cdc s) (hn : n ≤ data.length)
    (hpos : 0 < n) (hlt : s.length + n < 2 ^ 64) :
    ∃ r cdc', appendRead al cdc (some data) n = .ok (r, cdc') ∧
      Checked (s ++ data.take n) r cdc' := by
  have hne : ¬ ((some data : Option Block) = none ∨ n = 0) := by
    simp
    omega
  rw [appendRead, if_neg hne, if_pos h.input]
  by_cases hs : 4 < s.length
  · exact appendInput_body hal h hs hn hlt
  · by_cases hbig : 4 < s.length + n
    · by_cases hs0 : s = []
      · subst hs0
        exact appendInput_chunk hal h hn (by simpa using hbig) (by simpa using hlt)
      · exact appendInput_split hal h (by omega) (List.length_pos_iff.mpr hs0) hn hbig hlt
    · exact appendInput_short hal h hn (by omega)

theorem clear_waits (al : Alloc UInt8) (h : Live cdc) (hu : cdc.unreadBuff.len = 0) :
    Waits (cdc.clear al) [] := by
  obtain ⟨hwf, hl, -⟩ := clear_eq al h.buff
  exact ⟨⟨h.input, hwf, h.unreadBuff⟩, hu, rfl, rfl, contents_of_len_zero hl⟩

theorem drain_waiting (h : Waits cdc s) (fuel : Nat) :
    drain al fuel .waiting cdc = .ok ((wire.decode s).1, cdc) ∧
      Waits cdc (wire.decode s).2 := by
  rw [wire.decode_none h.parse_eq]
  cases fuel <;> exact ⟨rfl, h⟩

theorem drain_complete (h : Live cdc) (hm : takeMessage s = some (cdc.buff.contents, []))
    (hu : cdc.unreadBuff.len = 0) (fuel : Nat) :
    drain al fuel .complete cdc = .ok ((wire.decode s).1, cdc.clear al) ∧
      Waits (cdc.clear al) (wire.decode s).2 := by
  rw [wire.decode_some hm, wire.decode_none rfl]
  cases fuel <;> exact ⟨by simp [drain, h.buff.load_contents], clear_waits al h hu⟩

/-- The rest behind a message is processed like a chunk of its own. -/
theorem processBufferedData_eq (hal : al.Succeeds) (h : Live cdc)
    (hpos : 0 < cdc.unreadBuff.len) :
    ∃ r cdc', processBufferedData al (cdc.clear al) = .ok (r, cdc') ∧
      Checked cdc.unreadBuff.contents r cdc' := by
  have hle := h.unreadBuff.len_le
  have hcap := h.unreadBuff.capacity_lt
  obtain ⟨blk, hb, hbl⟩ := h.unreadBuff.buff_eq_some (by omega)
  have hw : Waits { cdc.clear al with unreadBuff := cdc.unreadBuff.extractBuffer.2 } [] :=
    @clear_waits { cdc with unreadBuff := cdc.unreadBuff.extractBuffer.2 } al
      ⟨h.input, h.buff, h.unreadBuff.released⟩ rfl
  obtain ⟨r, cdc', he, hc⟩ := appendRead_eq hal hw
    (show cdc.unreadBuff.len ≤ blk.length by omega) hpos (by simp; omega)
  refine ⟨r, cdc', ?_, ?_⟩
  · rw [← hb] at he
    exact he
  · rw [contents, hb]
    exact hc

/-- The bytes that are not looked at yet become fewer with every message. -/
theorem Checked.unread_lt {r : RVal} (h : Checked s r cdc) (hs : 0 < s.length) :
    cdc.unreadBuff.len < s.length := by
  cases h with
  | waits h => rwa [h.unread_len]
  | message h hm hr =>
    rw [← h.unreadBuff.length_contents, hr]
    exact wire.rest_lt hm

/-- The receive loop delivers every message of the bytes that were looked at. -/
theorem drain_eq (hal : al.Succeeds) (fuel : Nat) : ∀ {s : Block} {r : RVal}
    {cdc : ComDataCheck}, Checked s r cdc → cdc.unreadBuff.len ≤ fuel →
      ∃ cdc', drain al fuel r cdc = .ok ((wire.decode s).1, cdc') ∧
        Waits cdc' (wire.decode s).2 := by
  induction fuel with
  | zero =>
    intro s r cdc h hf
    cases h with
    | waits h => exact ⟨cdc, drain_waiting h 0⟩
    | message h hm hr =>
      have hu : cdc.unreadBuff.len = 0 := by omega
      rw [contents_of_len_zero hu] at hr
      subst hr
      exact ⟨_, drain_complete h hm hu 0⟩
  | succ fuel ih =>
    intro s r cdc h hf
    cases h with
    | waits h => exact ⟨cdc, drain_waiting h _⟩
    | message h hm hr =>
      rename_i rest
      have hlen : cdc.unreadBuff.len = rest.length := by
        rw [← h.unreadBuff.length_contents, hr]
      by_cases hrest : rest = []
      · subst hrest
        exact ⟨_, drain_complete h hm hlen _⟩
      · have hpos : 0 < rest.length := List.length_pos_iff.mpr hrest
        obtain ⟨r', cdc', hp, hc⟩ := processBufferedData_eq hal h (by omega)
        rw [hr] at hc
        have hdec := hc.unread_lt hpos
        obtain ⟨cdc'', hd, hw⟩ := ih hc (by omega)
        rw [if_neg hrest, wire.decode_some hm]
        exact ⟨cdc'', by simp [drain, h.buff.load_contents, hp, hd], hw⟩

/-- A chunk is received as the parser is fed. -/
theorem receive_eq (hal : al.Succeeds) (h : Waits cdc s) (hpos : data ≠ [])
    (hlt : s.length + data.length < 2 ^ 64) :
    ∃ cdc', receive cdc (al, data) = .ok ((wire.feed s data).1, cdc') ∧
      Waits cdc' (wire.feed s data).2 := by
  obtain ⟨r, cdc', he, hc⟩ := appendRead_eq hal h (Nat.le_refl data.length)
    (List.length_pos_iff.mpr hpos) hlt
  rw [List.take_length] at hc
  obtain ⟨cdc'', hd, hw⟩ := drain_eq hal _ hc (Nat.le_refl _)
  exact ⟨cdc'', by simp [receive, append, h.unread_len, he, hd, Framing.Parser.feed], hw⟩

theorem new_eq_some {input : UInt8} (hnew : new al input = .ok (some cdc)) :
    ∃ b : BinaryBuffer, b.WF ∧ b.len = 0 ∧
      cdc = { dataLen := 0, buff := b, unreadBuff := b, input := input } := by
  unfold new at hnew
  cases hb : BinaryBuffer.new al with
  | error e => simp [hb] at hnew
  | ok ob =>
    cases ob with
    | none => simp [hb] at hnew
    | some b =>
      obtain ⟨hwf, -, hl, -⟩ := newEx_eq (by decide) (by decide) (by decide) hb
      exact ⟨b, hwf, hl, by simpa [hb, eq_comm] using hnew⟩

/-- A fresh input object waits with nothing. -/
theorem new_waits (hnew : new al 1 = .ok (some cdc)) : Waits cdc [] := by
  obtain ⟨b, hwf, hl, rfl⟩ := new_eq_some hnew
  exact ⟨⟨by simp, hwf, hwf⟩, hl, rfl, rfl, contents_of_len_zero hl⟩

end

end AlibC.ComDataCheck
