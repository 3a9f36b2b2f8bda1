import AlibC.RBuff
import AlibC.Lib.Ring
import Mathlib.Data.List.DropRight

/-! What an `RBuff` stores, whatever its flags: a queue in a ring. -/
namespace AlibC.RBuff

open CLang Ring

/-- The ring holds the queue. The end iterator may rest behind the last cell instead of at the first
one, and also where an empty ring begins. -/
structure Stores (size : Nat) (r : RBuff) (q : Block) : Prop where
  holds : Holds r.buff r.itBegin q
  length_buff : r.buff.length = size
  buffEnd_eq : r.buffEnd = size
  size_le : size ≤ PTRDIFF_MAX
  count_eq : r.count = q.length
  itEnd_le : r.itEnd ≤ size
  itEnd_eq : r.itEnd = r.itBegin + q.length ∨ r.itEnd + size = r.itBegin + q.length ∨
    r.itEnd = r.itBegin + q.length + size

variable {size count : Nat} {r : RBuff} {q : Block}

theorem Stores.begin_lt (h : Stores size r q) : r.itBegin < size := h.length_buff ▸ h.holds.begin_lt

theorem Stores.length_le (h : Stores size r q) : q.length ≤ size := h.length_buff ▸ h.holds.length_le

/-- What is stored is determined by the ring. -/
theorem Stores.unique (h : Stores size r q) {q' : Block} (h' : Stores size r q') : q = q' := by
  have hlen : q.length = q'.length := h.count_eq.symm.trans h'.count_eq
  apply List.ext_getElem?
  intro i
  by_cases hi : i < q.length
  · rw [← h.holds.cell i hi, ← h'.holds.cell i (by omega)]
  · rw [List.getElem?_eq_none (by omega), List.getElem?_eq_none (by omega)]

/-- The caller's memory after the oldest `n` bytes were copied into it. -/
def handOut (q : Block) (n : Nat) (dst : Option Block) : Option Block :=
  dst.map fun blk => overwrite blk 0 (q.take n)

/-- The caller's memory has room for what is copied. -/
def HasRoom (q : Block) (count : Nat) (dst : Option Block) : Prop :=
  ∀ blk, dst = some blk → min count q.length ≤ blk.length

/-- `copy` hands out the oldest bytes, in one piece or in two. -/
theorem copy_eq (h : Stores size r q) {dst : Option Block} (hroom : HasRoom q count dst) :
    r.copy dst count = .ok (min count q.length, handOut q (min count q.length) dst) := by
  have hb := h.begin_lt
  have hl := h.length_le
  have hlen := h.length_buff
  have hend := h.itEnd_eq
  have hle := h.itEnd_le
  have hcnt : (if count > r.getCount then r.getCount else count) = min count q.length := by
    rw [getCount, h.count_eq]
    split <;> omega
  unfold copy
  by_cases hz : count = 0
  · rw [if_pos hz]
    cases dst <;> simp [hz, handOut]
  · rw [if_neg hz, hcnt]
    set n := min count q.length with hn
    have hside : r.beginItToBuffEnd < n ∧ r.beginItToBuffEnd = size - r.itBegin ∨
        ¬ r.beginItToBuffEnd < n ∧ r.itBegin + n ≤ size := by
      unfold beginItToBuffEnd
      rw [h.buffEnd_eq]
      split <;> omega
    obtain ⟨hlt, he⟩ | ⟨hge, he⟩ := hside
    · have hwrap := h.holds.take_wrap (n := n) (by omega) (by omega)
      rw [hlen, ← he] at hwrap
      have hfst : ((r.buff.drop r.itBegin).take r.beginItToBuffEnd).length =
          r.beginItToBuffEnd := by
        simp
        omega
      simp only [if_pos hlt]
      cases dst with
      | none => simp [handOut]; omega
      | some blk =>
        have hblk := hroom blk rfl
        have hover := @overwrite_append _ blk 0 ((r.buff.drop r.itBegin).take r.beginItToBuffEnd)
          (r.buff.take (n - r.beginItToBuffEnd)) (by omega)
        rw [hwrap, hfst, Nat.zero_add] at hover
        rw [memcpy_some (by omega) (by omega), ok_bind, memcpy_some ?_ (by omega)]
        · simp [handOut, hover]
          omega
        · rw [length_overwrite (by omega)]
          omega
    · simp only [if_neg hge]
      cases dst with
      | none => simp [handOut]
      | some blk =>
        have hblk := hroom blk rfl
        rw [memcpy_some (by omega) (by omega), h.holds.take_eq (by omega) (by omega)]
        simp [handOut]

/-- The place where an iterator lands. -/
theorem incrementIt_eq (hsize : r.buffEnd = size) (hc : count ≤ size) (it : Nat) :
    r.incrementIt it count = slot size it count := by
  have hc' : (if count > size then count % size else count) = count := if_neg (by omega)
  simp only [incrementIt, slot, getSize, hsize, hc']
  split <;> split <;> omega

/-- Moving the begin iterator forgets the oldest bytes. -/
theorem Stores.advance (h : Stores size r q) (hc : count ≤ q.length) :
    Stores size { r with itBegin := r.incrementIt r.itBegin count, count := sizeSub r.count count }
      (q.drop count) := by
  have hb := h.begin_lt
  have hl := h.length_le
  have hs := h.size_le
  have hend := h.itEnd_eq
  have hle := h.itEnd_le
  have hdrop := h.holds.drop hc
  rw [h.length_buff] at hdrop
  unfold PTRDIFF_MAX at hs
  refine ⟨?_, h.length_buff, h.buffEnd_eq, h.size_le, ?_, hle, ?_⟩
  · rwa [incrementIt_eq h.buffEnd_eq (by omega)]
  · rw [List.length_drop, h.count_eq]
    exact sizeSub_eq (by omega) hc
  · rw [List.length_drop, incrementIt_eq h.buffEnd_eq (by omega)]
    unfold slot
    dsimp only
    split <;> omega

/-- What popping leaves alone. -/
structure Popped (r r' : RBuff) : Prop where
  flags_eq : r'.flags = r.flags
  itEnd_eq : r'.itEnd = r.itEnd

theorem popoff_eq (h : Stores size r q) {dst : Option Block} (hroom : HasRoom q count dst) :
    ∃ r', r.popoff dst count =
        .ok ((min count q.length, handOut q (min count q.length) dst), r') ∧
      Stores size r' (q.drop count) ∧ Popped r r' := by
  have hdrop : q.drop (min count q.length) = q.drop count := by
    by_cases hc : count ≤ q.length
    · rw [Nat.min_eq_left hc]
    · rw [Nat.min_eq_right (by omega), List.drop_eq_nil_of_le (by omega),
        List.drop_eq_nil_of_le (by omega)]
  refine ⟨{ r with itBegin := r.incrementIt r.itBegin (min count q.length)
                   count := sizeSub r.count (min count q.length) },
    by rw [popoff, copy_eq h hroom]; rfl, ?_, rfl, rfl⟩
  rw [← hdrop]
  exact h.advance (Nat.min_le_right _ _)

/-- The oldest byte, which is the one under the begin iterator. -/
theorem popoffByte_eq (h : Stores size r q) :
    ∃ r', r.popoffByte =
        .ok ((match q with | [] => AlibError.badArg.code | c :: _ => (c.toNat : Int)), r') ∧
      Stores size r' (q.drop 1) ∧ Popped r r' := by
  cases q with
  | nil => exact ⟨r, by simp [popoffByte, getCount, h.count_eq], h, rfl, rfl⟩
  | cons c q =>
    have hb := h.begin_lt
    have hone := h.holds.take_eq (n := 1) (by simp) (by rw [h.length_buff]; omega)
    have hload : load (some r.buff) r.itBegin 1 = .ok [c] := by
      rw [load_some (by rw [h.length_buff]; omega), hone]
      rfl
    refine ⟨{ r with itBegin := r.incrementIt r.itBegin 1, count := sizeSub r.count 1 }, ?_,
      h.advance (show 1 ≤ _ by simp), rfl, rfl⟩
    rw [popoffByte, getCount, if_neg (by simp [h.count_eq]), hload]
    rfl

section Push

theorem toSize_toInt32 {n : Nat} (h : n < 2 ^ 31) : toSize (toInt32 n) = n := by
  rw [toInt32_eq (by omega) (by omega), toSize_nat (by omega)]

theorem Stores.count_add (h : Stores size r q) (hroom : q.length + count ≤ size) :
    min (sizeAdd r.count count) r.getSize = q.length + count := by
  have hs := h.size_le
  unfold PTRDIFF_MAX at hs
  rw [h.count_eq, sizeAdd_eq (by omega), getSize, h.buffEnd_eq]
  omega

/-- What pushing leaves alone. The end iterator is not put back to the start. -/
structure Pushed (r r' : RBuff) : Prop where
  flags_eq : r'.flags = r.flags
  itBegin_eq : r'.itBegin = r.itBegin
  itEnd_pos : 0 < r'.itEnd

/-- Bytes that are stored in one piece. -/
theorem pushPieces_one (h : Stores size r q) {data : Block} {off : Nat}
    (hd : off + count ≤ data.length) (hroom : q.length + count ≤ size) (hc : 0 < count)
    (hint : count < 2 ^ 31) (hone : count ≤ r.endItToBuffEnd) :
    ∃ r', r.pushPieces data off count = .ok (count, r') ∧
      Stores size r' (q ++ (data.drop off).take count) ∧ Pushed r r' := by
  have hb := h.begin_lt
  have hend := h.itEnd_eq
  have hle := h.itEnd_le
  have hlen := h.length_buff
  have hto : r.itEnd + count ≤ size ∧
      (r.itEnd = r.itBegin + q.length ∨ r.itEnd + size = r.itBegin + q.length) := by
    unfold endItToBuffEnd at hone
    rw [h.buffEnd_eq] at hone
    split at hone <;> omega
  set d := (data.drop off).take count with hdef
  have hdl : d.length = count := by simp [hdef]; omega
  have hholds := h.holds.append (e := r.itEnd) (d := d) (by rw [hlen]; exact hto.2)
    (by omega) (by omega)
  refine ⟨{ r with buff := overwrite r.buff r.itEnd d, itEnd := r.itEnd + count
                   count := q.length + count },
    ?_, ⟨hholds, ?_, h.buffEnd_eq, h.size_le, ?_, hto.1, ?_⟩, rfl, rfl, ?_⟩
  · rw [pushPieces, if_neg (by omega), memcpy_some (by omega) (by omega), ok_bind, deref_some,
      ok_bind]
    simp only [toSize_toInt32 hint, h.count_add hroom, pure_ok, hdef]
  · rw [length_overwrite (by omega), hlen]
  · rw [List.length_append, hdl]
  · rw [List.length_append, hdl]
    dsimp only
    omega
  · dsimp only
    omega

theorem toInt32_add_rest {k n : Nat} (hk : k < n) (hn : n < 2 ^ 31) :
    toInt32 (toInt32 k + (n - k : Nat)) = (n : Int) := by
  have hfst : toInt32 (k : Int) = k := toInt32_eq (by omega) (by omega)
  have hsum : (k : Int) + (n - k : Nat) = n := by omega
  rw [hfst, hsum]
  exact toInt32_eq (by omega) (by omega)

/-- When the end of the memory is in the way the free cells lie on both sides of it. -/
theorem Stores.end_of_two (h : Stores size r q) (hroom : q.length + count ≤ size) {k : Nat}
    (hk : k = r.endItToBuffEnd) (htwo : k < count) :
    k = size - r.itEnd ∧
      (r.itEnd = r.itBegin + q.length ∨ r.itEnd = size ∧ r.itBegin + q.length = 0) := by
  have hb := h.begin_lt
  have hend := h.itEnd_eq
  have hle := h.itEnd_le
  have hsize := h.buffEnd_eq
  unfold endItToBuffEnd at hk
  split at hk <;> omega

/-- Bytes that are stored up to the end of the memory and on from its start. -/
theorem pushPieces_two (h : Stores size r q) {data : Block} {off : Nat}
    (hd : off + count ≤ data.length) (hroom : q.length + count ≤ size)
    (hint : count < 2 ^ 31) (htwo : r.endItToBuffEnd < count) :
    ∃ r', r.pushPieces data off count = .ok (count, r') ∧
      Stores size r' (q ++ (data.drop off).take count) ∧ Pushed r r' := by
  have hle := h.itEnd_le
  have hlen := h.length_buff
  obtain ⟨k, hk⟩ : ∃ k, k = r.endItToBuffEnd := ⟨_, rfl⟩
  rw [← hk] at htwo
  obtain ⟨hks, hto⟩ := h.end_of_two hroom hk htwo
  have hdl : ((data.drop off).take k).length = k := by simp; omega
  have hdl' : ((data.drop (off + k)).take (count - k)).length = count - k := by simp; omega
  have hsplit : (data.drop off).take k ++ (data.drop (off + k)).take (count - k) =
      (data.drop off).take count := by
    rw [← List.drop_drop, ← List.take_add, Nat.add_sub_cancel' (Nat.le_of_lt htwo)]
  have hres := h.holds.append_two (e := r.itEnd) hdl hdl' (by omega) (by omega) (by omega)
  rw [hsplit] at hres
  refine ⟨{ r with buff := overwrite (overwrite r.buff r.itEnd ((data.drop off).take k)) 0
                     ((data.drop (off + k)).take (count - k))
                   itEnd := count - k, count := q.length + count }, ?_, ?_, rfl, rfl, ?_⟩
  · rw [pushPieces, ← hk, if_pos htwo, memcpy_some (by omega) (by omega), ok_bind,
      memcpy_some (by rw [length_overwrite] <;> omega) (by omega), ok_bind, deref_some, ok_bind]
    simp only [toInt32_add_rest htwo hint,
      toSize_nat (show count < 2 ^ 64 by omega), h.count_add hroom, pure_ok]
  · have hcl : ((data.drop off).take count).length = count := by simp; omega
    refine ⟨hres, ?_, h.buffEnd_eq, h.size_le, ?_, ?_, ?_⟩
    · rw [length_overwrite (by rw [length_overwrite] <;> omega), length_overwrite (by omega), hlen]
    · rw [List.length_append, hcl]
    · exact Nat.le_trans (Nat.sub_le _ _) (by omega)
    · rw [List.length_append, hcl]
      dsimp only
      omega
  · dsimp only
    omega

/-- Bytes for which there is room are stored behind the others. -/
theorem pushPieces_eq (h : Stores size r q) {data : Block} {off : Nat}
    (hd : off + count ≤ data.length) (hroom : q.length + count ≤ size) (hc : 0 < count)
    (hint : count < 2 ^ 31) :
    ∃ r', r.pushPieces data off count = .ok (count, r') ∧
      Stores size r' (q ++ (data.drop off).take count) ∧ Pushed r r' := by
  by_cases hone : count ≤ r.endItToBuffEnd
  · exact pushPieces_one h hd hroom hc hint hone
  · exact pushPieces_two h hd hroom hint (Nat.not_le.mp hone)

/-- What is done about the room depends on the number of bytes that are stored. -/
theorem pushRoom_eq (h : Stores size r q) (hc : count ≤ size) : r.pushRoom count =
    if q.length + count > size then
      if r.flags &&& rbuffNoOverwrite ≠ 0 then .ok (size - q.length, r)
      else do
        let (_, r') ← r.popoff none (q.length + count - size)
        return (count, r')
    else .ok (count, r) := by
  have hl := h.length_le
  have hs := h.size_le
  unfold PTRDIFF_MAX at hs
  have hadd : sizeAdd count q.length = q.length + count := by
    rw [Nat.add_comm q.length]
    exact sizeAdd_eq (by omega)
  unfold pushRoom getCount getSize
  rw [h.count_eq, h.buffEnd_eq, hadd, sizeSub_eq (by omega) hl]
  split
  · rw [sizeSub_eq (by omega) (by omega)]
  · rfl

theorem pushRoom_overwrites (h : Stores size r q) (hf : r.flags &&& rbuffNoOverwrite = 0)
    (hc : count ≤ size) :
    ∃ r', r.pushRoom count = .ok (count, r') ∧
      Stores size r' (q.drop (q.length + count - size)) ∧ r'.flags = r.flags := by
  rw [pushRoom_eq h hc]
  split
  · rw [if_neg (by simp [hf])]
    obtain ⟨r', hp, hw, hpop⟩ := @popoff_eq size (q.length + count - size) r q h none
      (fun _ hb => by cases hb)
    exact ⟨r', by simp [hp], hw, hpop.flags_eq⟩
  · rw [show q.length + count - size = 0 by omega]
    exact ⟨r, rfl, h, rfl⟩

/-- Only the newest `size` bytes matter, on either side. -/
theorem rtake_append_take {data : Block} (hd : count ≤ data.length) :
    (q ++ data.take count).rtake size =
      q.drop (q.length + min count size - size) ++
        (data.drop (count - size)).take (min count size) := by
  have hlen : (q ++ data.take count).length = q.length + count := by simp [hd]
  have hold : q.drop (q.length + count - size) = q.drop (q.length + min count size - size) := by
    by_cases hc : count ≤ size
    · rw [Nat.min_eq_left hc]
    · rw [List.drop_eq_nil_of_le (by omega), List.drop_eq_nil_of_le (by omega)]
  have hnew : (data.take count).drop (q.length + count - size - q.length) =
      (data.drop (count - size)).take (min count size) := by
    rw [List.drop_take, show q.length + count - size - q.length = count - size by omega,
      show count - (count - size) = min count size by omega]
  rw [List.rtake, hlen, List.drop_append, hold, hnew]

theorem Stores.clamp (h : Stores size r q) (count : Nat) :
    (if count > r.getSize then r.getSize else count) = min count size ∧
      (if count > r.getSize then count - r.getSize else 0) = count - size := by
  rw [getSize, h.buffEnd_eq]
  constructor
  · split <;> omega
  · split <;> omega

/-- Pushing keeps the newest bytes. -/
theorem pushback_overwrites (h : Stores size r q) (hf : r.flags &&& rbuffNoOverwrite = 0)
    {data : Block} (hd : count ≤ data.length) (hint : min count size < 2 ^ 31) :
    ∃ r', r.pushback (some data) count = .ok (min count size, r') ∧
      Stores size r' ((q ++ data.take count).rtake size) ∧ r'.flags = r.flags ∧
      (count ≠ 0 → 0 < r'.itEnd) := by
  have hl := h.length_le
  have hb := h.begin_lt
  rw [rtake_append_take hd]
  by_cases hz : count = 0
  · subst hz
    refine ⟨r, by simp [pushback], ?_, rfl, fun hne => absurd rfl hne⟩
    simpa [Nat.sub_eq_zero_of_le hl] using h
  · obtain ⟨hclamp, hskip⟩ := h.clamp count
    obtain ⟨r₁, hr₁, hw₁, hf₁⟩ := pushRoom_overwrites h hf (Nat.min_le_right count size)
    obtain ⟨r₂, hr₂, hw₂, hp⟩ := @pushPieces_eq size (min count size) r₁ _ hw₁ data _
      (show count - size + min count size ≤ data.length by omega) (by simp; omega) (by omega) hint
    exact ⟨r₂, by simp [pushback, hz, hclamp, hskip, hr₁, hr₂], hw₂, hp.flags_eq.trans hf₁,
      fun _ => hp.itEnd_pos⟩

/-- Where nothing may be overwritten the bytes are counted off by the room there is. -/
theorem pushRoom_keeps (h : Stores size r q) (hf : r.flags &&& rbuffNoOverwrite ≠ 0)
    (hc : count ≤ size) : r.pushRoom count = .ok (min count (size - q.length), r) := by
  rw [pushRoom_eq h hc, if_pos hf]
  split
  · rw [Nat.min_eq_right (by omega)]
  · rw [Nat.min_eq_left (by omega)]

/-- Pieces of no bytes change nothing. -/
theorem pushPieces_zero (h : Stores size r q) {data : Block} {off : Nat} (hd : off ≤ data.length) :
    r.pushPieces data off 0 = .ok (0, r) := by
  have hlen := h.length_buff
  have hle := h.itEnd_le
  have hroom : q.length + 0 ≤ size := h.length_le
  have hzero : toSize (toInt32 ((0 : Nat) : Int)) = 0 := toSize_toInt32 (by decide)
  rw [pushPieces, if_neg (Nat.not_lt_zero _), memcpy_some (by omega) (by omega), ok_bind, deref_some,
    ok_bind, List.take_zero, overwrite_nil]
  simp only [hzero, h.count_add hroom, pure_ok]
  rw [Nat.add_zero, Nat.add_zero, ← h.count_eq]

/-- Then the bytes stored are those at `count - size` on. -/
theorem pushback_keeps (h : Stores size r q) (hf : r.flags &&& rbuffNoOverwrite ≠ 0) {data : Block}
    (hd : count ≤ data.length) (hint : min count (size - q.length) < 2 ^ 31) :
    ∃ r', r.pushback (some data) count = .ok (min count (size - q.length), r') ∧
      Stores size r' (q ++ (data.drop (count - size)).take (min count (size - q.length))) ∧
      r'.flags = r.flags ∧ r'.itBegin = r.itBegin ∧
      (min count (size - q.length) ≠ 0 → 0 < r'.itEnd) ∧
      (min count (size - q.length) = 0 → r' = r) := by
  have hl := h.length_le
  by_cases hz : count = 0
  · subst hz
    rw [Nat.zero_min, List.take_zero, List.append_nil]
    exact ⟨r, rfl, h, rfl, rfl, fun hne => absurd rfl hne, fun _ => rfl⟩
  · obtain ⟨hclamp, hskip⟩ := h.clamp count
    have hroom := pushRoom_keeps h hf (Nat.min_le_right count size)
    have hmin : min (min count size) (size - q.length) = min count (size - q.length) := by omega
    rw [hmin] at hroom
    by_cases hnone : min count (size - q.length) = 0
    · have hzero := pushPieces_zero h (show count - size ≤ data.length by omega)
      rw [hnone] at hroom ⊢
      rw [List.take_zero, List.append_nil]
      exact ⟨r, by simp [pushback, hz, hclamp, hskip, hroom, hzero], h, rfl, rfl,
        fun hne => absurd rfl hne, fun _ => rfl⟩
    · obtain ⟨r', hr', hw, hp⟩ := @pushPieces_eq size (min count (size - q.length)) r _ h data _
        (show count - size + min count (size - q.length) ≤ data.length by omega) (by omega)
        (by omega) hint
      exact ⟨r', by simp [pushback, hz, hclamp, hskip, hroom, hr'], hw, hp.flags_eq, hp.itBegin_eq,
        fun _ => hp.itEnd_pos, fun h0 => absurd h0 hnone⟩

end Push

/-- An initialised ring is empty. -/
theorem init_stores {blk : Block} {flags : Nat} (hblk : blk.length = size)
    (hs : size ≤ PTRDIFF_MAX) (hinit : init (some blk) size flags = some r) :
    Stores size r [] ∧ r.flags = flags := by
  by_cases hz : size = 0
  · simp [init, hz] at hinit
  · rw [init, if_neg hz] at hinit
    obtain rfl := Option.some.inj hinit
    exact ⟨⟨.nil (by dsimp only; omega), hblk, rfl, hs, rfl, Nat.zero_le _, Or.inl rfl⟩, rfl⟩

theorem reset_stores (h : Stores size r q) :
    Stores size r.reset [] ∧ r.reset.flags = r.flags := by
  have hb := h.begin_lt
  have hinit : init (some r.buff) r.getSize r.flags = some
      { buff := r.buff, buffEnd := r.getSize, itBegin := 0, itEnd := 0, count := 0
        flags := r.flags } := if_neg (by rw [getSize, h.buffEnd_eq]; omega)
  have hsize : r.getSize = size := h.buffEnd_eq
  rw [reset, hinit, Option.getD_some]
  exact init_stores h.length_buff h.size_le (by rw [← hsize]; exact hinit)

end AlibC.RBuff
