import AlibC.BinaryBufferInvariant

/-! Replacing a part of a `BinaryBuffer`. -/
namespace AlibC.BinaryBuffer

open CLang

variable {al : Alloc UInt8} {b b' : BinaryBuffer} {data : Block} {index oldLen newLen : Nat}

/-- A call that ends with `ALIB_OK` went past the test of an error. -/
theorem of_guard {e : AlibError} {r : Outcome (AlibError × BinaryBuffer)}
    (h : (if e ≠ .ok then .ok (e, b) else r) = .ok (.ok, b')) : e = .ok ∧ r = .ok (.ok, b') := by
  by_cases he : e ≠ .ok
  · rw [if_pos he] at h
    cases h
    exact absurd rfl he
  · rw [if_neg he] at h
    exact ⟨not_not.mp he, h⟩

/-- What `replace` does in the memory that is there. -/
theorem replace_room (hindex : index ≤ b.len)
    (hroom : sizeSub (sizeAdd b.len newLen) oldLen ≤ b.capacity) :
    replace al b index oldLen (some data) newLen = (do
      let p ← if oldLen ≠ newLen then
          memcpySafe b.buff (index + newLen) (index + oldLen)
            (sizeSub (sizeSub b.len index) oldLen)
        else .ok b.buff
      let p ← memcpy p index (some data) 0 newLen
      return (.ok, { b with buff := p, len := sizeAdd b.len (sizeSub newLen oldLen) })) := by
  rw [replace, if_neg (Nat.not_lt.mpr hindex)]
  dsimp only
  rw [if_neg (Nat.not_lt.mpr hroom)]

/-- With the bytes behind the part moved and the new ones copied it is done. -/
theorem replace_of_move {p q : Option Block} (hindex : index ≤ b.len)
    (hroom : sizeSub (sizeAdd b.len newLen) oldLen ≤ b.capacity)
    (hmove : (if oldLen ≠ newLen then
        memcpySafe b.buff (index + newLen) (index + oldLen) (sizeSub (sizeSub b.len index) oldLen)
      else .ok b.buff) = .ok p)
    (hcopy : memcpy p index (some data) 0 newLen = .ok q) :
    replace al b index oldLen (some data) newLen =
      .ok (.ok, { b with buff := q, len := sizeAdd b.len (sizeSub newLen oldLen) }) := by
  rw [replace_room hindex hroom]
  by_cases hne : oldLen ≠ newLen
  · rw [if_pos hne] at hmove ⊢
    rw [hmove, ok_bind]
    dsimp only
    rw [hcopy]
    rfl
  · rw [if_neg hne] at hmove ⊢
    rw [hmove, ok_bind]
    dsimp only
    rw [hcopy]
    rfl

/-- The replacements that work: there is room for the bytes, and those behind the part are moved
back or not onto themselves. -/
def Replaceable (b : BinaryBuffer) (index oldLen newLen : Nat) : Prop :=
  b.len - oldLen + newLen ≤ b.capacity ∧
    (oldLen ≤ newLen ∨ b.len - index - oldLen ≤ oldLen - newLen)

/-- On each route the bytes behind the part come behind the new ones. -/
theorem move_tail {blk : Block} {rest : Nat}
    (hfit : index + newLen + rest ≤ blk.length) (hin : index + oldLen + rest ≤ blk.length)
    (hgap : oldLen ≤ newLen ∨ rest ≤ oldLen - newLen) :
    (if oldLen ≠ newLen then memcpySafe (some blk) (index + newLen) (index + oldLen) rest
      else .ok (some blk)) =
      .ok (some (overwrite blk (index + newLen) ((blk.drop (index + oldLen)).take rest))) := by
  rcases Nat.lt_trichotomy oldLen newLen with hback | rfl | hfwd
  · rw [if_pos (Nat.ne_of_lt hback), memcpySafe,
      if_pos (show index + newLen > index + oldLen by omega), memcpyBack_eq (by omega) hfit]
  · rw [if_neg (fun hne => hne rfl), overwrite_self hfit]
  · rw [if_pos (Nat.ne_of_gt hfwd), memcpySafe,
      if_neg (show ¬index + newLen > index + oldLen by omega),
      memcpyWithin_some (.inr (.inr (by omega))) hfit hin]

/-- The new length does not wrap on the way. -/
theorem Replaceable.len_eq (hr : Replaceable b index oldLen newLen) (h : b.WF)
    (hin : index + oldLen ≤ b.len) :
    sizeSub (sizeAdd b.len newLen) oldLen = b.len - oldLen + newLen ∧
      sizeAdd b.len (sizeSub newLen oldLen) = b.len - oldLen + newLen := by
  have hlt := h.capacity_lt
  have hle := h.len_le
  have hroom := hr.1
  constructor
  · unfold sizeSub sizeAdd
    omega
  · unfold sizeSub sizeAdd
    omega

/-- In a buffer without memory nothing is replaced by nothing. -/
theorem Replaceable.replace_null (al : Alloc UInt8) (hr : Replaceable b index oldLen newLen)
    (h : b.WF) (hin : index + oldLen ≤ b.len) (hb : b.buff = none) :
    replace al b index oldLen (some data) newLen = .ok (.ok, b) ∧
      index = 0 ∧ oldLen = 0 ∧ newLen = 0 ∧ b.len = 0 := by
  have hcap := h.null.mp hb
  have hle := h.len_le
  obtain ⟨hlen, hlen'⟩ := hr.len_eq h hin
  have hroom := hr.1
  obtain ⟨rfl, rfl, rfl⟩ : index = 0 ∧ oldLen = 0 ∧ newLen = 0 := by omega
  refine ⟨?_, rfl, rfl, rfl, by omega⟩
  rw [replace_of_move (Nat.zero_le _) (hlen ▸ hroom) (if_neg (fun hne => hne rfl)) (by rw [hb]; rfl),
    hlen', ← hb]
  rfl

theorem Replaceable.replace_eq (al : Alloc UInt8) (hr : Replaceable b index oldLen newLen)
    (h : b.WF) (hin : index + oldLen ≤ b.len) (hd : newLen ≤ data.length) :
    ∃ b', replace al b index oldLen (some data) newLen = .ok (.ok, b') ∧ b'.WF ∧
      b'.contents = b.contents.take index ++ data.take newLen ++ b.contents.drop (index + oldLen) ∧
      b'.len = b.len - oldLen + newLen ∧ b'.capacity = b.capacity ∧
      ∀ blk, b.buff = some blk → b'.buff = some (overwrite (overwrite blk (index + newLen)
        (b.contents.drop (index + oldLen))) index (data.take newLen)) := by
  have hle := h.len_le
  have hlt := h.capacity_lt
  obtain ⟨hnew, hnew'⟩ := hr.len_eq h hin
  cases hb : b.buff with
  | none =>
    obtain ⟨hreplace, rfl, rfl, rfl, hlen⟩ := @replace_null b data _ _ _ al hr h hin hb
    refine ⟨b, hreplace, h, ?_, by omega, rfl, fun blk hblk => by cases hblk⟩
    rw [contents, hlen]
    rfl
  | some blk =>
    obtain ⟨hroom, hgap⟩ := hr
    have hl : blk.length = b.capacity := by rw [← h.block, hb, Option.getD_some]
    have hcont : blk.take b.len = b.contents := by rw [contents, hb, Option.getD_some]
    have hfront : blk.take index = b.contents.take index := by
      rw [← hcont, List.take_take, Nat.min_eq_left (by omega)]
    have htail : (blk.drop (index + oldLen)).take (b.len - (index + oldLen)) =
        b.contents.drop (index + oldLen) := by rw [← hcont, List.drop_take]
    have htlen : (b.contents.drop (index + oldLen)).length = b.len - (index + oldLen) := by
      rw [List.length_drop, h.length_contents]
    have hrest : sizeSub (sizeSub b.len index) oldLen = b.len - (index + oldLen) := by
      rw [sizeSub_eq (show b.len < 2 ^ 64 by omega) (by omega), sizeSub_eq (by omega) (by omega),
        Nat.sub_sub]
    have hdlen : (data.take newLen).length = newLen := List.length_take_of_le hd
    have hmove := @move_tail index oldLen newLen blk (b.len - (index + oldLen)) (by omega)
      (by omega) (by omega)
    rw [htail, ← hb, ← hrest] at hmove
    have hpart := @take_overwrite_part UInt8 blk (b.contents.take index)
      (b.contents.drop (index + oldLen)) (data.take newLen) index newLen hfront (by omega) hdlen
    generalize b.contents.drop (index + oldLen) = tail at *
    generalize hblk₁ : overwrite blk (index + newLen) tail = blk₁ at hmove hpart
    have hl₁ : blk₁.length = b.capacity := by
      rw [← hblk₁, length_overwrite (by omega), hl]
    have hcopy : memcpy (some blk₁) index (some data) 0 newLen =
        .ok (some (overwrite blk₁ index (data.take newLen))) := by
      rw [memcpy_some (by omega) (by omega), List.drop_zero]
    refine ⟨_, replace_of_move (by omega) (by omega) hmove hcopy, ?_, ?_, hnew', rfl,
      fun blk' hblk => ?_⟩
    · exact h.rewritten hb (by rw [length_overwrite (by omega), hl₁, hl]) (hnew' ▸ hroom)
    · have hsum : b.len - oldLen + newLen = index + newLen + tail.length := by omega
      rw [contents, hnew', hsum]
      exact hpart
    · cases hblk
      rw [hblk₁]

/-- Moving the bytes behind the part is no way out when there are fewer of them than are replaced,
and moving them onto themselves is none either. -/
theorem move_inv {blk : Block} {p : Option Block} (hlt : blk.length < 2 ^ 64) (hle : b.len ≤ blk.length)
    (hindex : index ≤ b.len) (hold : oldLen < 2 ^ 64)
    (hr : memcpySafe (some blk) (index + newLen) (index + oldLen)
      (sizeSub (sizeSub b.len index) oldLen) = .ok p) :
    index + oldLen ≤ b.len ∧ (oldLen ≤ newLen ∨ b.len - index - oldLen ≤ oldLen - newLen) := by
  have hfirst : sizeSub b.len index = b.len - index := sizeSub_eq (by omega) hindex
  rw [hfirst] at hr
  have hin : index + oldLen ≤ b.len := by
    by_contra hout
    have hcount : sizeSub (b.len - index) oldLen = b.len - index + 2 ^ 64 - oldLen :=
      sizeSub_wrap hold (by omega)
    rw [hcount, memcpySafe] at hr
    split at hr
    · rw [memcpyBack_fault (by omega) (.inl (by omega))] at hr
      cases hr
    · obtain ⟨-, blk', hblk, hend⟩ := memcpyWithin_inv hr (by omega)
      cases hblk
      omega
  refine ⟨hin, ?_⟩
  rw [sizeSub_eq (by omega) (by omega), memcpySafe] at hr
  split at hr
  · omega
  · by_cases hrest : b.len - index - oldLen = 0
    · omega
    · obtain ⟨hapart, -⟩ := memcpyWithin_inv hr hrest
      omega

/-- A replacement that ends with `ALIB_OK` did so in the memory that was there. -/
theorem replace_cases (hr : replace al b index oldLen (some data) newLen = .ok (.ok, b')) :
    index ≤ b.len ∧ sizeSub (sizeAdd b.len newLen) oldLen ≤ b.capacity ∧ ∃ p q,
      (if oldLen ≠ newLen then
        memcpySafe b.buff (index + newLen) (index + oldLen) (sizeSub (sizeSub b.len index) oldLen)
      else .ok b.buff) = .ok p ∧
      memcpy p index (some data) 0 newLen = .ok q ∧
      b' = { b with buff := q, len := sizeAdd b.len (sizeSub newLen oldLen) } := by
  have hindex : index ≤ b.len := by
    by_contra hout
    rw [replace, if_pos (Nat.lt_of_not_le hout)] at hr
    cases hr
  refine ⟨hindex, ?_⟩
  by_cases hgrow : b.capacity < sizeSub (sizeAdd b.len newLen) oldLen
  · rw [replace, if_neg (Nat.not_lt.mpr hindex)] at hr
    dsimp only at hr
    rw [if_pos hgrow] at hr
    obtain ⟨⟨e, b₁⟩, -, hr⟩ := bind_eq_ok.mp hr
    dsimp only at hr
    obtain ⟨-, hr⟩ := of_guard hr
    cases hr
  · refine ⟨Nat.le_of_not_lt hgrow, ?_⟩
    rw [replace_room hindex (Nat.le_of_not_lt hgrow)] at hr
    by_cases hne : oldLen ≠ newLen
    · rw [if_pos hne] at hr ⊢
      obtain ⟨p, hmove, hr⟩ := bind_eq_ok.mp hr
      obtain ⟨q, hcopy, hr⟩ := bind_eq_ok.mp hr
      cases hr
      exact ⟨p, q, hmove, hcopy, rfl⟩
    · rw [if_neg hne] at hr ⊢
      obtain ⟨p, hmove, hr⟩ := bind_eq_ok.mp hr
      obtain ⟨q, hcopy, hr⟩ := bind_eq_ok.mp hr
      cases hr
      exact ⟨p, q, hmove, hcopy, rfl⟩

/-- The memory keeps its length, and contains the new bytes. -/
theorem replace_memory (hr : replace al b index oldLen (some data) newLen = .ok (.ok, b')) :
    (b'.buff.getD []).length = (b.buff.getD []).length ∧
      (newLen ≠ 0 → index + newLen ≤ (b.buff.getD []).length ∧
        ((b'.buff.getD []).drop index).take newLen = data.take newLen) := by
  obtain ⟨-, -, p, q, hmove, hcopy, rfl⟩ := replace_cases hr
  obtain ⟨hlen, hfit⟩ := memcpy_inv hcopy
  have hplen : (p.getD []).length = (b.buff.getD []).length := by
    split at hmove
    · exact memcpySafe_length hmove
    · cases hmove
      rfl
  rw [hplen] at hlen hfit
  exact ⟨hlen, fun hne => ⟨hfit hne, memcpy_data hcopy hne⟩⟩

/-- What is known of the lengths then. -/
theorem replace_inv (h : b.WF) (hold : oldLen < 2 ^ 64) (hnew : newLen < 2 ^ 64)
    (hr : replace al b index oldLen (some data) newLen = .ok (.ok, b')) :
    b'.len = sizeSub (sizeAdd b.len newLen) oldLen ∧ b'.len ≤ b.capacity ∧
      (oldLen = newLen ∨ index + oldLen ≤ b.len ∧
        (oldLen ≤ newLen ∨ b.len - index - oldLen ≤ oldLen - newLen)) := by
  have hsum : sizeAdd b.len (sizeSub newLen oldLen) = sizeSub (sizeAdd b.len newLen) oldLen := by
    unfold sizeSub sizeAdd
    omega
  obtain ⟨hindex, hroom, p, q, hmove, hcopy, rfl⟩ := replace_cases hr
  refine ⟨hsum, hsum ▸ hroom, ?_⟩
  by_cases hsame : oldLen = newLen
  · exact .inl hsame
  · rw [if_pos hsame] at hmove
    refine .inr ?_
    cases hb : b.buff with
    | none =>
      have hcap := h.null.mp hb
      have hle := h.len_le
      have hlen : b.len = 0 := by omega
      rw [hlen, hcap] at hroom
      unfold sizeSub sizeAdd at hroom
      omega
    | some blk =>
      have hl : blk.length = b.capacity := by rw [← h.block, hb, Option.getD_some]
      rw [hb] at hmove
      exact move_inv (hl ▸ h.capacity_lt) (hl ▸ h.len_le) hindex hold hmove

/-- The part is replaced, and nothing else. -/
def Replaces (al : Alloc UInt8) (b : BinaryBuffer) (index oldLen : Nat) (data : Block)
    (newLen : Nat) : Prop :=
  ∃ b', replace al b index oldLen (some data) newLen = .ok (.ok, b') ∧
    b'.contents = b.contents.take index ++ data.take newLen ++ b.contents.drop (index + oldLen) ∧
    b'.len = b.len - oldLen + newLen

/-- Replacing works without more memory, where the bytes behind the part move back, stay, or move to
the front past themselves. -/
theorem replace_replaces_iff (h : b.WF) (hindex : index ≤ b.len) (hold : oldLen ≤ b.len - index)
    (hd : newLen ≤ data.length) (hnew : newLen ≤ ULONG_MAX) :
    Replaces al b index oldLen data newLen ↔ Replaceable b index oldLen newLen := by
  have hlt := h.capacity_lt
  have hle := h.len_le
  constructor
  · rintro ⟨b', hr, -, hlen⟩
    obtain ⟨-, hfit, hmove⟩ := replace_inv h (by omega) (lt_of_le_max hnew) hr
    exact ⟨by omega, hmove.elim (fun heq => .inl (Nat.le_of_eq heq)) fun hmove => hmove.2⟩
  · intro hok
    obtain ⟨b', hr, -, hcont, hlen, -⟩ := hok.replace_eq al h (by omega) hd
    exact ⟨b', hr, hcont, hlen⟩

/-- One byte of two is replaced by two. -/
theorem replace_replaces_two : Replaces (.filled 0) ⟨some [1, 2, 0], 2, 3, 1, 1⟩ 0 1 [8, 9] 2 :=
  (replace_replaces_iff ⟨rfl, by decide, by decide, by decide, by decide, by decide⟩ (by decide)
    (by decide) (by decide) (by decide)).mpr ⟨by decide, .inl (by decide)⟩

/-- Without the room the new bytes go where the old memory was. Two bytes cannot move to the front
by one. -/
theorem replace_fails :
    replace (.filled 0) ⟨some [1, 2], 2, 2, 1, 1⟩ 0 1 (some [8, 9]) 2 = .error .dangling ∧
    replace (.filled 0) ⟨some [1, 2, 3], 3, 3, 1, 1⟩ 0 1 (some []) 0 = .error .overlap ∧
    ¬Replaces (.filled 0) ⟨some [1, 2], 2, 2, 1, 1⟩ 0 1 [8, 9] 2 := by
  have hr : replace (.filled 0) ⟨some [1, 2], 2, 2, 1, 1⟩ 0 1 (some [8, 9]) 2 = .error .dangling := by
    decide
  refine ⟨hr, by decide, fun ⟨b', hr', _⟩ => ?_⟩
  rw [hr] at hr'
  cases hr'

end AlibC.BinaryBuffer
