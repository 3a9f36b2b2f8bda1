import AlibC.ComDataCheckReceive

/-! An object in output mode, whatever was done with it before. -/
namespace AlibC.ComDataCheck

open CLang BinaryBuffer

inductive Op where
  | append (data : Option Block) (dataLen : Nat)
  | clear
  | processBufferedData
  | setMode (input : UInt8)

def step (cdc : ComDataCheck) : Alloc UInt8 × Op → Outcome (Option RVal × ComDataCheck)
  | (al, .append data dataLen) => do
    let (r, cdc) ← cdc.append al data dataLen
    return (some r, cdc)
  | (al, .clear) => .ok (none, cdc.clear al)
  | (al, .processBufferedData) => do
    let (r, cdc) ← cdc.processBufferedData al
    return (some r, cdc)
  | (_, .setMode input) => .ok (none, cdc.setMode input)

/-- An object that a run of calls led to, in which no allocation was refused. -/
def Reachable (cdc : ComDataCheck) : Prop :=
  ∃ al input cdc₀ ops rs, new al input = .ok (some cdc₀) ∧ (∀ i ∈ ops, i.1.Succeeds) ∧
    Machine.run step cdc₀ ops = .ok (rs, cdc)

/-- What every run keeps. The length field of an output object is right as long as the
length fits into it. -/
structure Sound (cdc : ComDataCheck) : Prop where
  buff : cdc.buff.WF
  unreadBuff : cdc.unreadBuff.WF
  dataLen_lt : cdc.dataLen < 2 ^ 31
  output : cdc.input = 0 → cdc.dataLen = cdc.buff.len ∨ INT32_MAX < cdc.buff.len

theorem toInt32_lt (n : Int) : toInt32 n < 2 ^ 31 := by
  unfold toInt32
  omega

theorem toInt32_len (n : Nat) : toInt32 n = n ∨ INT32_MAX < n := by
  unfold INT32_MAX
  by_cases h : n < 2 ^ 31
  · exact Or.inl (toInt32_eq (by omega) (by omega))
  · exact Or.inr (by omega)

section

variable {al : Alloc UInt8} {cdc cdc' : ComDataCheck} {r : RVal} {data : Option Block} {n : Nat}

/-- `append` to one of the buffers, also when it is given `NULL`. -/
theorem append_wf (hal : al.Succeeds) {b b' : BinaryBuffer} (h : b.WF) {e : AlibError}
    (hr : BinaryBuffer.append al b data n = .ok (e, b')) : b'.WF := by
  cases data with
  | none =>
    rw [append_null] at hr
    cases hr
    exact h
  | some d => exact (append_inv hal h hr).2.1

theorem check_sound (hal : al.Succeeds) (h : Sound cdc) (hr : check al cdc = .ok (r, cdc')) :
    Sound cdc' := by
  unfold check at hr
  split at hr
  case isTrue =>
    cases hr
    exact h
  case isFalse hin =>
    dsimp only at hr
    split at hr
    case isTrue =>
      cases hr
      exact h
    case isFalse hlt =>
      split at hr
      case isTrue =>
        cases hr
        exact h
      case isFalse hne =>
        obtain ⟨⟨e, unread⟩, hu, hr⟩ := bind_eq_ok.mp hr
        obtain ⟨b, hb, hwf, -⟩ := remove_tail h.buff
          (show toSize cdc.dataLen ≤ cdc.buff.len by omega) (by omega) (by omega) (by omega)
        rw [hb, ok_bind] at hr
        cases hr
        exact ⟨hwf, append_wf hal h.unreadBuff hu, h.dataLen_lt, fun h0 => absurd h0 hin⟩

theorem appendBody_sound (hal : al.Succeeds) (h : Sound cdc) (hin : cdc.input ≠ 0)
    (hr : appendBody al cdc data n = .ok (r, cdc')) : Sound cdc' := by
  obtain ⟨⟨e, b⟩, hb, hr⟩ := bind_eq_ok.mp hr
  have hs : Sound { cdc with buff := b } :=
    ⟨append_wf hal h.buff hb, h.unreadBuff, h.dataLen_lt, fun h0 => absurd h0 hin⟩
  dsimp only at hr
  split at hr
  case isTrue =>
    cases hr
    exact hs
  case isFalse => exact check_sound hal hs hr

theorem appendInput_sound (hal : al.Succeeds) (h : Sound cdc) (hin : cdc.input ≠ 0)
    (hr : appendInput al cdc data n = .ok (r, cdc')) : Sound cdc' := by
  unfold appendInput at hr
  split at hr
  case isTrue => exact appendBody_sound hal h hin hr
  case isFalse =>
    split at hr
    case isTrue =>
      split at hr
      case isTrue =>
        obtain ⟨⟨e, b⟩, hb, hr⟩ := bind_eq_ok.mp hr
        have hwf := append_wf hal h.buff hb
        dsimp only at hr
        split at hr
        case isTrue =>
          cases hr
          exact ⟨hwf, h.unreadBuff, h.dataLen_lt, fun h0 => absurd h0 hin⟩
        case isFalse =>
          obtain ⟨header, -, hr⟩ := bind_eq_ok.mp hr
          have hs : Sound { cdc with dataLen := ntohl header, buff := b.clearNoResize } :=
            ⟨hwf.clearNoResize, h.unreadBuff, toInt32_lt _, fun h0 => absurd h0 hin⟩
          exact appendBody_sound hal hs hin hr
      case isFalse =>
        obtain ⟨header, -, hr⟩ := bind_eq_ok.mp hr
        have hs : Sound { cdc with dataLen := ntohl header } :=
          ⟨h.buff, h.unreadBuff, toInt32_lt _, fun h0 => absurd h0 hin⟩
        exact appendBody_sound hal hs hin hr
    case isFalse =>
      obtain ⟨⟨e, b⟩, hb, hr⟩ := bind_eq_ok.mp hr
      cases hr
      exact ⟨append_wf hal h.buff hb, h.unreadBuff, h.dataLen_lt, fun h0 => absurd h0 hin⟩

/-- What an output object does with bytes, once nothing is left in the unread buffer. -/
theorem appendRead_output (hal : al.Succeeds) (h : Sound cdc) (hout : cdc.input = 0)
    {d : Block} (hr : appendRead al cdc (some d) n = .ok (r, cdc')) :
    n = 0 ∧ r = .complete ∧ cdc' = cdc ∨
      ∃ b, b.WF ∧ b.contents = cdc.buff.contents ++ d.take n ∧ b.len = cdc.buff.len + n ∧
        (INT32_MAX < b.len ∧ r = .err .internalMaxReached ∧ cdc' = { cdc with buff := b } ∨
          b.len ≤ INT32_MAX ∧ r = .complete ∧
            cdc' = { cdc with buff := b, dataLen := b.len }) := by
  unfold appendRead at hr
  split at hr
  case isTrue hz =>
    have hz : n = 0 := by simpa using hz
    rw [check, if_pos hout] at hr
    cases hr
    exact Or.inl ⟨hz, rfl, rfl⟩
  case isFalse =>
    rw [if_neg (not_not.mpr hout)] at hr
    obtain ⟨⟨e, b⟩, hb, hr⟩ := bind_eq_ok.mp hr
    obtain ⟨rfl, hwf, hc, hl, -⟩ := append_inv hal h.buff hb
    refine Or.inr ⟨b, hwf, hc, hl, ?_⟩
    dsimp only at hr
    rw [if_neg (by decide)] at hr
    split at hr
    case isTrue hmax =>
      cases hr
      exact Or.inl ⟨hmax, rfl, rfl⟩
    case isFalse hmax =>
      have hlen := (toInt32_len b.len).resolve_right hmax
      rw [hlen] at hr
      cases hr
      exact Or.inr ⟨Nat.not_lt.mp hmax, rfl, rfl⟩

theorem appendRead_sound (hal : al.Succeeds) (h : Sound cdc)
    (hr : appendRead al cdc data n = .ok (r, cdc')) : Sound cdc' := by
  by_cases hout : cdc.input = 0
  · cases data with
    | none =>
      rw [appendRead, if_pos (Or.inl rfl)] at hr
      exact check_sound hal h hr
    | some d =>
      obtain ⟨-, -, rfl⟩ | ⟨b, hwf, -, -, ⟨hmax, -, rfl⟩ | ⟨hmax, -, rfl⟩⟩ :=
        appendRead_output hal h hout hr
      · exact h
      · exact ⟨hwf, h.unreadBuff, h.dataLen_lt, fun _ => Or.inr hmax⟩
      · exact ⟨hwf, h.unreadBuff, by dsimp only; unfold INT32_MAX at hmax; omega,
          fun _ => Or.inl rfl⟩
  · unfold appendRead at hr
    split at hr
    case isTrue => exact check_sound hal h hr
    case isFalse => exact appendInput_sound hal h hout hr

theorem processBufferedData_sound (hal : al.Succeeds) (h : Sound cdc)
    (hr : processBufferedData al cdc = .ok (r, cdc')) : Sound cdc' :=
  have hs : Sound { cdc with unreadBuff := cdc.unreadBuff.extractBuffer.2 } :=
    ⟨h.buff, h.unreadBuff.released, h.dataLen_lt, h.output⟩
  appendRead_sound hal hs hr

theorem append_sound (hal : al.Succeeds) (h : Sound cdc)
    (hr : append al cdc data n = .ok (r, cdc')) : Sound cdc' := by
  unfold append at hr
  split at hr
  case isTrue =>
    obtain ⟨⟨r₁, cdc₁⟩, hp, hr⟩ := bind_eq_ok.mp hr
    have hs := processBufferedData_sound hal h hp
    dsimp only at hr
    split at hr
    case isTrue =>
      obtain ⟨⟨e, u⟩, hu, hr⟩ := bind_eq_ok.mp hr
      cases hr
      exact ⟨hs.buff, append_wf hal hs.unreadBuff hu, hs.dataLen_lt, hs.output⟩
    case isFalse => exact appendRead_sound hal hs hr
  case isFalse => exact appendRead_sound hal h hr

theorem step_sound (cdc : ComDataCheck) (i : Alloc UInt8 × Op) (o : Option RVal)
    (cdc' : ComDataCheck) (h : Sound cdc) (hal : i.1.Succeeds)
    (hr : step cdc i = .ok (o, cdc')) : Sound cdc' := by
  obtain ⟨al, op⟩ := i
  cases op with
  | append data n =>
    obtain ⟨⟨r, c⟩, happ, hr⟩ := bind_eq_ok.mp hr
    cases hr
    exact append_sound hal h happ
  | clear =>
    cases hr
    obtain ⟨hwf, hl, -⟩ := clear_eq al h.buff
    exact ⟨hwf, h.unreadBuff, by simp [clear], fun _ => Or.inl (by simp [clear, hl])⟩
  | processBufferedData =>
    obtain ⟨⟨r, c⟩, happ, hr⟩ := bind_eq_ok.mp hr
    cases hr
    exact processBufferedData_sound hal h happ
  | setMode input =>
    cases hr
    unfold setMode
    split
    case isTrue => exact h
    case isFalse =>
      split
      case isTrue hin => exact ⟨h.buff, h.unreadBuff, by simp, fun h0 => absurd h0 hin⟩
      case isFalse => exact ⟨h.buff, h.unreadBuff, toInt32_lt _, fun _ => toInt32_len _⟩

theorem Reachable.sound (h : Reachable cdc) : Sound cdc := by
  obtain ⟨al, input, cdc₀, ops, rs, hnew, hops, hrun⟩ := h
  obtain ⟨b, hwf, hl, rfl⟩ := new_eq_some hnew
  exact Machine.run_preserves step_sound ops _ rs cdc
    ⟨hwf, hwf, by simp, fun _ => Or.inl (by simp [hl])⟩ hops hrun

/-- Bytes left from input mode come first: the call then does not return as it should, or
it was given nothing and still changes the buffer. -/
theorem append_unread (hal : al.Succeeds) (h : Sound cdc) (hout : cdc.input = 0)
    (hu : cdc.unreadBuff.len ≠ 0) {d : Block} (hr : append al cdc (some d) n = .ok (r, cdc')) :
    (r = .complete → n = 0 ∧ cdc'.buff.contents.length = cdc.buff.len + cdc.unreadBuff.len) ∧
      (r = .err .internalMaxReached → INT32_MAX < cdc'.buff.len) := by
  obtain ⟨blk, hb, hbl⟩ := h.unreadBuff.buff_eq_some (by have := h.unreadBuff.len_le; omega)
  rw [append, if_pos hu] at hr
  obtain ⟨⟨r₁, cdc₁⟩, hp, hr⟩ := bind_eq_ok.mp hr
  have hs : Sound { cdc with unreadBuff := cdc.unreadBuff.extractBuffer.2 } :=
    ⟨h.buff, h.unreadBuff.released, h.dataLen_lt, h.output⟩
  have hp' : appendRead al { cdc with unreadBuff := cdc.unreadBuff.extractBuffer.2 }
      (some blk) cdc.unreadBuff.len = .ok (r₁, cdc₁) := by
    rw [← hb]
    exact hp
  obtain ⟨hz, -⟩ | ⟨b, hwf, hc, hl, hcase⟩ := appendRead_output hal hs hout hp'
  · exact absurd hz hu
  · have hlen : b.contents.length = cdc.buff.len + cdc.unreadBuff.len := by
      rw [hwf.length_contents, hl]
    obtain ⟨hmax, rfl, rfl⟩ | ⟨hmax, rfl, rfl⟩ := hcase
    · have hr : appendRead al
          { cdc with unreadBuff := cdc.unreadBuff.extractBuffer.2, buff := b } (some d) n =
            .ok (r, cdc') := by simpa using hr
      have hs₁ : Sound { cdc with unreadBuff := cdc.unreadBuff.extractBuffer.2, buff := b } :=
        ⟨hwf, h.unreadBuff.released, h.dataLen_lt, fun _ => Or.inr hmax⟩
      obtain ⟨hz, rfl, rfl⟩ | ⟨b', -, -, hl', ⟨hmax', rfl, rfl⟩ | ⟨hmax', -, -⟩⟩ :=
        appendRead_output hal hs₁ hout hr
      · exact ⟨fun _ => ⟨hz, hlen⟩, fun hr => by cases hr⟩
      · exact ⟨fun hr => (by cases hr), fun _ => hmax'⟩
      · dsimp only at hl'
        omega
    · simp only [true_or, if_true] at hr
      obtain ⟨⟨e, u⟩, -, hr⟩ := bind_eq_ok.mp hr
      cases hr
      by_cases hz : n = 0
      · simp [hz, hlen]
      · simp [hz]

/-- `ComDataCheck_append` on an output object, for a block of data. -/
def AppendsOnly (al : Alloc UInt8) (cdc : ComDataCheck) (data : Block) : Prop :=
  if cdc.buff.len + data.length ≤ INT32_MAX then
    ∃ cdc', append al cdc (some data) data.length = .ok (.complete, cdc') ∧
      cdc'.buff.contents = cdc.buff.contents ++ data ∧
      cdc'.dataLen = (cdc.buff.len + data.length : Nat) ∧ cdc'.unreadBuff = cdc.unreadBuff
  else
    ∃ cdc', append al cdc (some data) data.length = .ok (.err .internalMaxReached, cdc') ∧
      cdc'.dataLen = cdc'.buff.len

theorem append_fits (hal : al.Succeeds) (h : Sound cdc) (hout : cdc.input = 0)
    (hu : cdc.unreadBuff.len = 0) {d : Block} (hmax : cdc.buff.len + d.length ≤ INT32_MAX) :
    ∃ cdc', append al cdc (some d) d.length = .ok (.complete, cdc') ∧
      cdc'.buff.contents = cdc.buff.contents ++ d ∧
      cdc'.dataLen = (cdc.buff.len + d.length : Nat) ∧ cdc'.unreadBuff = cdc.unreadBuff := by
  rw [append, if_neg (not_not.mpr hu)]
  by_cases hz : d = []
  · subst hz
    have hlen := (h.output hout).resolve_right (Nat.not_lt.mpr hmax)
    exact ⟨cdc, by simp [appendRead, check, hout], by simp, by simpa using hlen, rfl⟩
  · have hpos : d.length ≠ 0 := by simpa using hz
    have hlt : cdc.buff.len + d.length < 2 ^ 64 := by
      unfold INT32_MAX at hmax
      omega
    obtain ⟨b, hb, -, hc, hl, -⟩ := append_eq hal h.buff (Nat.le_refl d.length) hlt
    rw [List.take_length] at hc
    have hlen := (toInt32_len b.len).resolve_right (by omega)
    refine ⟨{ cdc with buff := b, dataLen := b.len }, ?_, hc, by simp [hl], rfl⟩
    have hge : ¬ INT32_MAX < b.len := by omega
    simp [appendRead, hz, hout, hb, hge, hlen]

/-- An output object takes data as it should exactly when no bytes are left from input
mode and the length stays in range. -/
theorem appendsOnly_iff {cdc : ComDataCheck} (hreach : Reachable cdc) (hout : cdc.input = 0)
    {al : Alloc UInt8} (hal : al.Succeeds) (data : Block) :
    AppendsOnly al cdc data ↔
      cdc.unreadBuff.len = 0 ∧ cdc.buff.len + data.length ≤ INT32_MAX := by
  have h := hreach.sound
  unfold AppendsOnly
  split
  case isTrue hmax =>
    constructor
    · rintro ⟨cdc', hr, hc, -, -⟩
      refine ⟨?_, hmax⟩
      by_contra hu
      obtain ⟨hz, hlen⟩ := (append_unread hal h hout hu hr).1 rfl
      rw [hc, List.length_append, h.buff.length_contents, hz] at hlen
      omega
    · rintro ⟨hu, -⟩
      exact append_fits hal h hout hu hmax
  case isFalse hmax =>
    refine ⟨?_, fun hc => absurd hc.2 hmax⟩
    rintro ⟨cdc', hr, hlen⟩
    have hlt := (append_sound hal h hr).dataLen_lt
    have hbig : INT32_MAX < cdc'.buff.len := by
      by_cases hu : cdc.unreadBuff.len = 0
      · rw [append, if_neg (not_not.mpr hu)] at hr
        obtain ⟨-, hr, -⟩ | ⟨b, -, -, -, ⟨hb, -, rfl⟩ | ⟨-, hr, -⟩⟩ :=
          appendRead_output hal h hout hr
        · cases hr
        · exact hb
        · cases hr
      · exact (append_unread hal h hout hu hr).2 rfl
    unfold INT32_MAX at hbig
    omega

/-- One byte for a fresh output object. -/
theorem appendsOnly_fresh :
    AppendsOnly (.filled 0) { fresh 0 with input := 0 } [5] := by
  have hreach : Reachable { fresh 0 with input := 0 } :=
    ⟨.filled 0, 0, _, [], [], rfl, by simp, rfl⟩
  exact (appendsOnly_iff hreach rfl (Alloc.filled_succeeds 0) [5]).mpr ⟨rfl, by decide⟩

/-- A frame of one byte is received with two bytes behind it; then the mode is switched. -/
theorem append_after_switch :
    ∃ cdc, Reachable cdc ∧ cdc.input = 0 ∧ cdc.buff.len + 1 ≤ INT32_MAX ∧
      ¬ AppendsOnly (.filled 0) cdc [5] := by
  have hparse : takeMessage [0, 0, 0, 1, 7, 8, 9] = some ([7], [8, 9]) := by decide
  obtain ⟨r, cdc, he, hc⟩ := appendRead_eq (Alloc.filled_succeeds 0) (new_waits (new_filled 0))
    (show 7 ≤ [0, 0, 0, 1, 7, 8, 9].length by decide) (by decide) (by decide)
  cases hc with
  | waits h => cases hparse.symm.trans h.parse_eq
  | message h hm hr =>
    obtain ⟨hbuff, hrest⟩ := Prod.mk.inj (Option.some.inj (hparse.symm.trans hm))
    have hl : cdc.buff.len = 1 := by rw [← h.buff.length_contents, ← hbuff]; rfl
    have hu : cdc.unreadBuff.len = 2 := by
      rw [← h.unreadBuff.length_contents, hr, ← hrest]
      rfl
    have happ : append (.filled 0) (fresh 0) (some [0, 0, 0, 1, 7, 8, 9]) 7 = .ok (_, cdc) := he
    have hmode : cdc.setMode 0 = { cdc with input := 0, dataLen := toInt32 cdc.buff.len } := by
      rw [setMode, if_neg h.input, if_neg (by simp)]
    have hreach : Reachable (cdc.setMode 0) :=
      ⟨.filled 0, 1, fresh 0,
        [(.filled 0, .append (some [0, 0, 0, 1, 7, 8, 9]) 7), (.filled 0, .setMode 0)], _,
        new_filled 0, by simp [Alloc.filled_succeeds],
        by simp only [Machine.run, step, happ, ok_bind, pure_ok]; rfl⟩
    have hmax : cdc.buff.len + [(5 : UInt8)].length ≤ INT32_MAX := by
      rw [hl]
      decide
    rw [hmode] at hreach
    refine ⟨_, hreach, rfl, hmax, fun h => ?_⟩
    rw [AppendsOnly, if_pos hmax] at h
    obtain ⟨cdc', hr, -⟩ := h
    obtain ⟨hz, -⟩ := (append_unread (Alloc.filled_succeeds 0) hreach.sound rfl
      (by rw [hu]; decide) hr).1 rfl
    cases hz

end

end AlibC.ComDataCheck
