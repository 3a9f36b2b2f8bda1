import AlibC.BinaryBufferInsert
import AlibC.StrRuns

/-! Overwriting a part of a text. -/
namespace AlibC.Str

open CLang BinaryBuffer

variable {al : Alloc UInt8} {str : BinaryBuffer} {text blk : Block} {index count r : Nat} {crc : Int}

/-- A call puts a text in the place of `r` characters. -/
def Overwrites (text new : Block) (index r : Nat) (res : Outcome (AlibError × BinaryBuffer)) : Prop :=
  ∃ str', res = .ok (.ok, str') ∧ IsText str' (text.take index ++ new ++ text.drop (index + r))

/-- How many there are: as many as the new ones or as told, and at most those that are left. -/
def overwritten (charReplaceCount : Int) (count left : Nat) : Nat :=
  min (if charReplaceCount < 0 then count else charReplaceCount.toNat) left

theorem overwritten_le (crc : Int) (count left : Nat) : overwritten crc count left ≤ left :=
  Nat.min_le_right _ _

/-- The counts that work: of the characters that are there, with room for another terminator, where
the rest moves back, stays, or moves to the front past itself; and a count that takes the whole text
with its terminator, for nothing. -/
def Overwritable (str : BinaryBuffer) (index oldLen r count : Nat) : Prop :=
  oldLen = r ∧ str.len - oldLen + count < str.capacity ∧
    (oldLen ≤ count ∨ str.len - index - oldLen ≤ oldLen - count) ∨
  index = 0 ∧ oldLen = str.len ∧ count = 0 ∧ str.len = r + 1

theorem replaced_lt (crc : Int) (count : Nat) : replaced crc count < 2 ^ 64 := by
  unfold replaced toSize
  omega

/-- Before it ends the call puts a terminator behind the new length. -/
theorem replaceCount_inv {str' : BinaryBuffer} (hin : index < str.len)
    (hr : replaceCount al str index crc (some blk) count = .ok (.ok, str')) :
    ∃ str₁, str.replace al index (replaced crc count) (some blk) count = .ok (.ok, str₁) ∧
      str'.len = str₁.len ∧ str₁.len < (str₁.buff.getD []).length := by
  rw [replaceCount, if_neg (not_or.mpr ⟨Option.some_ne_none blk, by omega⟩)] at hr
  obtain ⟨⟨e, str₁⟩, hr₁, hr⟩ := bind_eq_ok.mp hr
  dsimp only at hr
  obtain ⟨rfl, hr⟩ := of_guard hr
  obtain ⟨p, hp, hr⟩ := bind_eq_ok.mp hr
  cases hr
  exact ⟨str₁, hr₁, rfl, (store_inv hp).2 Nat.one_ne_zero⟩

theorem replaceCount_overwrites_iff (h : Holds str text) (hin : index < text.length)
    (hp : Given (some blk) count) (hleft : r ≤ text.length - index) :
    Overwrites text (blk.take count) index r (replaceCount al str index crc (some blk) count) ↔
      Overwritable str index (replaced crc count) r count := by
  obtain ⟨hcount, hmax, h0⟩ := hp blk rfl
  have hlen := h.len_eq
  constructor
  · rintro ⟨str', hr, h'⟩
    obtain ⟨str₁, hr₁, hlen', hroom⟩ := replaceCount_inv (by omega) hr
    have hold := replaced_lt crc count
    have hle := h.wf.len_le
    have hlt := h.wf.capacity_lt
    unfold PTRDIFF_MAX at hmax
    obtain ⟨hsum, -, hmove⟩ := replace_inv h.wf hold (by omega) hr₁
    have hblk := (replace_memory hr₁).1.trans h.wf.block
    have hget := h'.getLength_eq
    rw [List.length_append, List.length_append, List.length_take_of_le (by omega),
      List.length_take_of_le hcount, List.length_drop, getLength, hlen'] at hget
    unfold Overwritable
    generalize replaced crc count = oldLen at *
    have hparted : oldLen ≤ str.len + count := by
      rcases hmove with rfl | ⟨hpart, -⟩
      · exact Nat.le_add_left oldLen str.len
      · omega
    -- the new length tells how many characters were taken out
    have hnew := hsum.trans (sizeSub_sizeAdd hparted hold)
    rcases hmove with rfl | ⟨hpart, hgap⟩
    · rw [Nat.add_sub_cancel, Nat.mod_eq_of_lt (by omega)] at hnew
      exact .inl (by split at hget <;> omega)
    · split at hget
      · exact .inl (by omega)
      · exact .inr (by omega)
  · rintro (⟨hold, hroom, hgap⟩ | ⟨rfl, hold, rfl, hr⟩)
    · obtain ⟨str', hr, h'⟩ := replaceCount_part al h (by omega) hcount hroom hgap h0
      exact ⟨str', hr, hold ▸ h'.isText⟩
    · obtain ⟨str', hr, -, -, h'⟩ := replaceCount_all al blk h.wf (by omega) hold
      refine ⟨str', hr, ?_⟩
      rw [List.drop_eq_nil_of_le (by omega)]
      exact h'

/-- An insertion with room for another terminator is right where the memory ends with one. -/
theorem insertCount_overwrites_iff (hal : al.Succeeds) (h : Holds str text)
    (hin : index < text.length) (hp : Given (some blk) count)
    (hroom : str.len + count < str.capacity) :
    Overwrites text (blk.take count) index 0 (insertCount al str (some blk) index count) ↔
      roomLast al str (str.len + count) = some 0 := by
  obtain ⟨hcount, -, h0⟩ := hp blk rfl
  have hlen := h.len_eq
  have hlt := h.wf.capacity_lt
  obtain ⟨str₁, x, hr₁, hx, hwf₁, hcont, hlen₁, hcap⟩ := insert_inner hal h.wf hcount
    (show str.len + count < 2 ^ 64 by omega) (show index < str.len by omega)
  have hcap₁ := hcap (Nat.le_of_lt hroom)
  obtain ⟨p, hp, hwf, hcont'⟩ := store_behind hwf₁ (by omega)
  have hr : insertCount al str (some blk) index count = .ok (.ok, { str₁ with buff := p }) := by
    rw [insertCount, hr₁, ok_bind]
    dsimp only
    rw [if_neg (fun hc => hc rfl), hp]
    rfl
  have hback : ((text ++ [0]).drop index).dropLast = text.drop index := by
    rw [List.drop_append_of_le_length (by omega), List.dropLast_concat]
  rw [h.contents_eq, hback, List.take_append_of_le_length (by omega), ← List.append_assoc] at hcont
  rw [hx, hr, Overwrites, Nat.add_zero]
  constructor
  · rintro ⟨str', hr', h'⟩
    cases hr'
    have hlast := hcont.symm.trans (hcont'.symm.trans (h'.holds hwf (by
      show str₁.len ≠ 0
      omega)).contents_eq)
    rw [List.append_cancel_left_eq, List.singleton_inj] at hlast
    rw [hlast]
  · intro hzero
    rw [Option.some.inj hzero] at hcont
    exact ⟨_, rfl, Holds.isText ⟨hwf, h.noZero_spliced h0 _ _, hcont'.trans hcont⟩⟩

/-- The count that is told may be another one than the count that arrives, but not for zero. -/
theorem replaceCount_and_insertCount_iff (hal : al.Succeeds) (h : Holds str text)
    (hin : index < text.length) (hp : Given (some blk) count) {told : Int}
    (hzero : told = 0 → crc = 0) :
    Overwrites text (blk.take count) index (overwritten told count (text.length - index))
        (replaceCount al str index crc (some blk) count) ∧
      (told = 0 → Overwrites text (blk.take count) index
        (overwritten told count (text.length - index))
        (insertCount al str (some blk) index count)) ↔
    Overwritable str index (replaced crc count) (overwritten told count (text.length - index))
        count ∧ (told = 0 → roomLast al str (str.len + count) = some 0) := by
  rw [replaceCount_overwrites_iff h hin hp (overwritten_le _ _ _)]
  refine and_congr_right fun hok => forall_congr' fun htold => ?_
  have hnone : overwritten told count (text.length - index) = 0 := by
    rw [overwritten, htold]
    exact Nat.zero_min _
  have hold : replaced crc count = 0 := by
    rw [hzero htold]
    rfl
  rw [hnone] at hok ⊢
  rw [hold] at hok
  have hlen := h.len_eq
  rcases hok with ⟨-, hroom, -⟩ | ⟨-, hall, -⟩
  · exact insertCount_overwrites_iff hal h hin hp hroom
  · omega

/-- Exactly with such a count do both calls put the text in its place, and with zero the insertion
too if the memory happens to end with a terminator. -/
theorem replace_overwrites_iff (hal : al.Succeeds) (h : Holds str text) (hin : index < text.length) :
    (∀ (charReplaceCount : Int) (substring : Block) (count : Nat), Given (some substring) count →
      let r := overwritten charReplaceCount count (text.length - index)
      (Overwrites text (substring.take count) index r
          (replaceCount al str index charReplaceCount (some substring) count) ∧
        (charReplaceCount = 0 → Overwrites text (substring.take count) index r
          (insertCount al str (some substring) index count)) ↔
      Overwritable str index (replaced charReplaceCount count) r count ∧
        (charReplaceCount = 0 → roomLast al str (str.len + count) = some 0))) ∧
    ∀ (charReplaceCount : Int) (substring : Block), GivenText (some substring) →
      let count := (cstr substring).length
      let r := overwritten charReplaceCount count (text.length - index)
      (Overwrites text (cstr substring) index r
          (replace al str index charReplaceCount (some substring)) ∧
        (charReplaceCount = 0 → Overwrites text (cstr substring) index r
          (insert al str (some substring) index)) ↔
      Overwritable str index (replaced (toInt32 charReplaceCount) count) r count ∧
        (charReplaceCount = 0 → roomLast al str (str.len + count) = some 0)) := by
  refine ⟨fun charReplaceCount substring count hp =>
    replaceCount_and_insertCount_iff hal h hin hp id, fun charReplaceCount substring hp => ?_⟩
  obtain ⟨hlen, hgiven⟩ := hp.given rfl
  have hiff := @replaceCount_and_insertCount_iff al str text substring index _ (toInt32 charReplaceCount)
    hal h hin hgiven charReplaceCount (fun htold => by rw [htold]; rfl)
  rw [take_cstr] at hiff
  rw [replace, insert, if_neg (Option.some_ne_none substring), if_neg (Option.some_ne_none substring),
    hlen]
  exact hiff

/-- One character is put in front of two. -/
theorem replace_overwrites_two :
    Overwrites [97, 98] [99] 0 0
      (replace (.filled 0) ⟨some [97, 98, 0, 0, 0], 3, 5, 1, 1⟩ 0 0 (some [99, 0])) ∧
    Overwrites [97, 98] [99] 0 0
      (insert (.filled 0) ⟨some [97, 98, 0, 0, 0], 3, 5, 1, 1⟩ (some [99, 0]) 0) := by
  have h : Holds ⟨some [97, 98, 0, 0, 0], 3, 5, 1, 1⟩ [97, 98] :=
    ⟨⟨rfl, by decide, by decide, by decide, by decide, by decide⟩, by decide, rfl⟩
  have hp : GivenText (some [99, 0]) :=
    givenText_some (by decide) (show 2 ≤ PTRDIFF_MAX by decide)
  obtain ⟨hrep, hins⟩ := ((replace_overwrites_iff (Alloc.filled_succeeds 0) h
    (show 0 < 2 by decide)).2 0 [99, 0] hp).mpr
    ⟨.inl ⟨rfl, by decide, .inl (by decide)⟩, fun _ => rfl⟩
  exact ⟨hrep, hins rfl⟩

/-- A count that goes beyond the text takes the terminator too; without room for another terminator
one is written behind the memory; a text does not move to the front by one; and an insertion leaves
what the memory ends with. -/
theorem replace_does_not_overwrite :
    (replaceCount (.filled 0) ⟨some [97, 98, 99, 0, 0], 4, 5, 1, 1⟩ 1 3 (some [100]) 1 =
        .ok (.ok, ⟨some [97, 100, 0, 0, 0], 2, 5, 1, 1⟩) ∧
      ¬Overwrites [97, 98, 99] [100] 1 (overwritten 3 1 2) (replaceCount (.filled 0)
        ⟨some [97, 98, 99, 0, 0], 4, 5, 1, 1⟩ 1 3 (some [100]) 1)) ∧
    replace (.filled 0) ⟨some [97, 98, 0], 3, 3, 1, 1⟩ 0 (-1) (some [99, 0]) =
      .error .outOfBounds ∧
    replace (.filled 0) ⟨some [97, 98, 99, 0, 0], 4, 5, 1, 1⟩ 0 1 (some [0]) = .error .overlap ∧
    insert (.filled 0) ⟨some [97, 98, 0, 7, 7], 3, 5, 1, 1⟩ (some [99, 0]) 0 =
      .ok (.ok, ⟨some [99, 97, 98, 7, 0], 4, 5, 1, 1⟩) := by
  have hr : replaceCount (.filled 0) ⟨some [97, 98, 99, 0, 0], 4, 5, 1, 1⟩ 1 3 (some [100]) 1 =
      .ok (.ok, ⟨some [97, 100, 0, 0, 0], 2, 5, 1, 1⟩) := by decide
  refine ⟨⟨hr, fun hover => ?_⟩, by decide, by decide, by decide⟩
  obtain ⟨str', hr', h'⟩ := hover
  rw [hr] at hr'
  cases hr'
  exact absurd h'.getLength_eq (by decide)

end AlibC.Str
