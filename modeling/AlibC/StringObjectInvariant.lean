import AlibC.StringObjectGrowth
import AlibC.Lib.Machine

/-! What the operations on a `StringObject` keep: a terminated text inside its memory. -/
namespace AlibC.StringObject

open CLang

/-- The memory has `capacity` bytes and begins with `text` and its terminator. -/
structure Holds (s : StringObject) (text : Block) : Prop where
  exists_block : ∃ blk, s.str = some blk ∧ blk.length = s.capacity ∧
    blk.take (text.length + 1) = text ++ [0]
  noZero : 0 ∉ text
  length_eq : s.length = text.length
  capacity_lt : s.capacity < 2 ^ 32

variable {al : Alloc UInt8} {s : StringObject} {text : Block}

theorem Holds.length_lt (h : s.Holds text) : text.length < s.capacity := by
  obtain ⟨blk, -, hl, ht⟩ := h.exists_block
  have := congrArg List.length ht
  rw [List.length_take, List.length_append, List.length_singleton] at this
  omega

theorem Holds.text_eq {text' : Block} (h : s.Holds text) (h' : s.Holds text') : text = text' := by
  obtain ⟨blk, hb, -, ht⟩ := h.exists_block
  obtain ⟨blk', hb', -, ht'⟩ := h'.exists_block
  cases hb.symm.trans hb'
  rw [← h'.length_eq, h.length_eq, ht] at ht'
  exact List.append_cancel_right ht'

theorem Holds.str_eq (h : s.Holds text) : ∃ rest, s.str = some (text ++ 0 :: rest) := by
  obtain ⟨blk, hb, -, ht⟩ := h.exists_block
  have hparts := List.take_append_drop (text.length + 1) blk
  rw [ht, List.append_assoc] at hparts
  exact ⟨_, hb.trans (congrArg some hparts.symm)⟩

/-- A block in which the text was stored with its terminator. -/
theorem holds_overwrite {blk : Block} {off : Nat} {bs new : Block} {minMem : Nat}
    (hoff : off + bs.length + 1 ≤ blk.length) (hblk : blk.length < 2 ^ 32)
    (hnew : blk.take off ++ bs = new) (h0 : 0 ∉ new) :
    Holds ⟨some (overwrite blk off (bs ++ [0])), new.length, blk.length, minMem⟩ new := by
  have hl : new.length = off + bs.length := by
    rw [← hnew, List.length_append, List.length_take, Nat.min_eq_left (by omega)]
  refine ⟨⟨_, rfl, length_overwrite (by simp; omega), ?_⟩, h0, rfl, hblk⟩
  have ht := @take_overwrite _ blk off (bs ++ [0]) (by omega)
  rw [List.length_append, List.length_singleton, ← Nat.add_assoc, ← hl] at ht
  rw [ht, ← List.append_assoc, hnew]

theorem Holds.grows (h : s.Holds text) {n : Nat} (hn : n ≤ 2 ^ 31) : s.Grows n := by
  have hlt := h.length_lt
  exact grows_of_le hn (by omega) h.capacity_lt

/-- What lies below both the old and the new size is kept. -/
theorem resize_eq (hal : al.Succeeds) {blk : Block} (hb : s.str = some blk) {n : Nat}
    (hn : 0 < n) :
    ∃ blk', s.resize al n = .ok (.ok, { s with str := some blk', capacity := n }) ∧
      blk'.length = n ∧ ∀ k, k ≤ n → k ≤ blk.length → blk'.take k = blk.take k := by
  obtain ⟨blk', hr, hl, hk⟩ := hal.realloc s.str n
  refine ⟨blk', ?_, hl, fun k hkn hkl => ?_⟩
  · rw [resize, if_neg (by omega)]
    simp only [hr]
    rw [if_pos (by simp [hb])]
  · have := hk k hkn (by rw [hb]; exact hkl)
    rwa [hb] at this

theorem calcAndResize_eq (hal : al.Succeeds) {blk : Block} (hb : s.str = some blk)
    (hl : blk.length = s.capacity) {minSize : Nat} (hm : 0 < minSize) (hg : s.Grows minSize) :
    ∃ c blk', s.calcCapacity minSize = .ok c ∧
      s.calcAndResize al minSize = .ok { s with str := some blk', capacity := c } ∧
      minSize ≤ c ∧ c < 2 ^ 32 ∧ blk'.length = c ∧
      ∀ k, k ≤ c → k ≤ s.capacity → blk'.take k = blk.take k := by
  obtain ⟨c, hc, hle, hclt⟩ := hg
  obtain ⟨blk', hr, hlen, hk⟩ := resize_eq hal hb (show 0 < c by omega)
  refine ⟨c, blk', hc, ?_, hle, hclt, hlen, fun k h h' => hk k h (hl ▸ h')⟩
  rw [calcAndResize, if_neg (by omega), hc, ok_bind, hr]
  rfl

theorem clearNoFree_holds (h : s.Holds text) : ∃ s', s.clearNoFree = .ok s' ∧ s'.Holds [] := by
  obtain ⟨blk, hb, hl, -⟩ := h.exists_block
  have hlt := h.length_lt
  refine ⟨⟨some (overwrite blk 0 ([] ++ [0])), 0, blk.length, s.minMem⟩, ?_,
    holds_overwrite (by simp; omega) (hl ▸ h.capacity_lt) rfl (by simp)⟩
  rw [clearNoFree, hb, store_some (by simp; omega), hl]
  rfl

theorem clear_holds (hal : al.Succeeds) (h : s.Holds text) :
    ∃ s', s.clear al = .ok s' ∧ s'.Holds [] := by
  unfold clear
  split
  · obtain ⟨blk, hr, hl, -⟩ := hal.realloc s.str 1
    refine ⟨⟨some (overwrite blk 0 ([] ++ [0])), 0, 1, s.minMem⟩, ?_, ?_⟩
    · rw [resize, if_pos rfl]
      simp only [hr]
      rw [store_some (by simp; omega)]
      rfl
    · have := @holds_overwrite blk 0 [] [] s.minMem (by simp; omega) (by omega) rfl (by simp)
      rwa [hl] at this
  · exact clearNoFree_holds h

theorem set_holds (hal : al.Succeeds) (h : s.Holds text) {mem : Block} (hm : 0 ∈ mem)
    (hlen : (cstr mem).length < 2 ^ 31) :
    ∃ s', s.set al (some mem) = .ok (.ok, s') ∧ s'.Holds (cstr mem) := by
  obtain ⟨rest, hmem, h0⟩ := exists_text hm
  generalize hn : cstr mem = new at *
  subst hmem
  obtain ⟨blk, hb, hl, -⟩ := h.exists_block
  have hlt := h.length_lt
  have hleq := h.length_eq
  -- room for the text is there or is made
  have hroom : ∃ blk', s.fit al new.length (new.length + 1) =
      .ok { s with str := some blk', capacity := blk'.length } ∧
      new.length + 1 ≤ blk'.length ∧ blk'.length < 2 ^ 32 := by
    unfold fit
    split
    · obtain ⟨c, blk', -, hr, hle, hclt, hlen', -⟩ := calcAndResize_eq hal hb hl
        (Nat.succ_pos new.length) (h.grows (by omega))
      exact ⟨blk', by rw [hr, hlen'], by omega, by omega⟩
    · rename_i hfit
      have hle : ¬ new.length > s.length := fun hgt => hfit (.inl hgt)
      refine ⟨blk, by rw [hl, ← hb], by omega, hl ▸ h.capacity_lt⟩
  obtain ⟨blk', hr, hle, hblt⟩ := hroom
  refine ⟨⟨some (overwrite blk' 0 (new ++ [0])), new.length, blk'.length, s.minMem⟩, ?_,
    holds_overwrite (by omega) hblt rfl h0⟩
  rw [set]
  simp only [strlen_eq h0, ok_bind, toUInt_nat (show new.length < 2 ^ 32 by omega)]
  rw [uintAdd_eq (by omega), hr, ok_bind]
  simp only [strcpy_eq h0 (show 0 + new.length + 1 ≤ blk'.length by omega), ok_bind]
  rfl

/-- Room is made behind the text, which is kept. -/
theorem Holds.makeRoom (hal : al.Succeeds) (h : s.Holds text) {n : Nat}
    (hg : s.Grows (text.length + n + 1)) :
    ∃ c blk', s.calcCapacity (text.length + n + 1) = .ok c ∧
      s.calcAndResize al (text.length + n + 1) =
        .ok { s with str := some blk', capacity := blk'.length } ∧
      c = blk'.length ∧ text.length + n + 1 ≤ blk'.length ∧ blk'.length < 2 ^ 32 ∧
      blk'.take (text.length + 1) = text ++ [0] := by
  obtain ⟨blk, hb, hl, ht⟩ := h.exists_block
  have hlt := h.length_lt
  obtain ⟨c, blk', hc, hr, hle, hclt, hlen, hk⟩ := calcAndResize_eq hal hb hl
    (Nat.succ_pos (text.length + n)) hg
  exact ⟨c, blk', hc, by rw [hr, hlen], hlen.symm, by omega, by omega,
    by rw [hk _ (by omega) (by omega), ht]⟩

theorem take_text {blk : Block} (h : blk.take (text.length + 1) = text ++ [0]) :
    blk.take text.length = text := by
  have := congrArg (List.take text.length) h
  rwa [List.take_take, Nat.min_eq_left (Nat.le_succ _), List.take_left] at this

theorem append_of_grows (hal : al.Succeeds) (h : s.Holds text) {mem : Block} (hm : 0 ∈ mem)
    (hg : s.Grows (text.length + (cstr mem).length + 1)) :
    ∃ s', s.append al (some mem) = .ok (.ok, s') ∧ s'.Holds (text ++ cstr mem) ∧
      s'.minMem = s.minMem := by
  obtain ⟨rest, hmem, h0⟩ := exists_text hm
  generalize hn : cstr mem = new at *
  subst hmem
  obtain ⟨-, blk, -, hr, -, hle, hblt, ht⟩ := h.makeRoom hal hg
  have hleq := h.length_eq
  have hnot : 0 ∉ text ++ new := by
    rw [List.mem_append, not_or]
    exact ⟨h.noZero, h0⟩
  refine ⟨⟨some (overwrite blk text.length (new ++ [0])), (text ++ new).length, blk.length,
    s.minMem⟩, ?_, holds_overwrite (by omega) hblt (by rw [take_text ht]) hnot, rfl⟩
  have hsize : toUInt (toInt32 (text.length + new.length + 1 : Nat)) =
      text.length + new.length + 1 := by
    rw [toUInt_toInt32, toUInt_nat (show text.length + new.length + 1 < 2 ^ 32 by omega)]
  have hback : toUInt (toInt32 (toInt32 (text.length + new.length + 1 : Nat) - 1)) =
      (text ++ new).length := by
    rw [toUInt_toInt32_pred (show text.length + new.length + 1 < 2 ^ 32 by omega),
      List.length_append]
  rw [append, if_neg (by simp), strlen_eq h0, ok_bind]
  dsimp only
  rw [hleq, hsize, hr, ok_bind]
  dsimp only
  rw [hleq, strcpy_eq h0 (show text.length + new.length + 1 ≤ blk.length by omega), ok_bind, hback]
  rfl

theorem append_holds (hal : al.Succeeds) (h : s.Holds text) {mem : Block} (hm : 0 ∈ mem)
    (hlen : text.length + (cstr mem).length < 2 ^ 31) :
    ∃ s', s.append al (some mem) = .ok (.ok, s') ∧ s'.Holds (text ++ cstr mem) := by
  obtain ⟨s', he, hs', -⟩ := append_of_grows hal h hm (h.grows (by omega))
  exact ⟨s', he, hs'⟩

theorem load_in_text {new rest : Block} {count : Nat} (h0 : 0 ∉ new) (hc : count < new.length) :
    ∃ c, load (some (new ++ 0 :: rest)) count 1 = .ok [c] ∧ [c] ≠ [0] := by
  refine ⟨new[count], ?_, fun he => h0 ((List.cons.inj he).1 ▸ List.getElem_mem hc)⟩
  rw [load_some (by simp; omega), List.drop_append_of_le_length (by omega),
    List.drop_eq_getElem_cons hc]
  rfl

theorem load_terminator {new rest : Block} :
    load (some (new ++ 0 :: rest)) new.length 1 = .ok [0] := by
  rw [load_some (by simp), List.drop_left]
  rfl

theorem appendCount_of_grows (hal : al.Succeeds) (h : s.Holds text) {mem : Block} (hm : 0 ∈ mem)
    {count : Nat} (hc : count ≤ (cstr mem).length) (hmem : (cstr mem).length < 2 ^ 32)
    (hg : s.Grows (text.length + count + 1)) :
    ∃ s', s.appendCount al (some mem) count = .ok (.ok, s') ∧
      s'.Holds (text ++ (cstr mem).take count) ∧ s'.minMem = s.minMem := by
  obtain ⟨rest, hmem', h0⟩ := exists_text hm
  generalize hn : cstr mem = new at *
  subst hmem'
  have hleq := h.length_eq
  by_cases hz : count = 0
  · refine ⟨s, by simp [appendCount, hz], ?_, rfl⟩
    simpa [hz] using h
  · obtain ⟨-, blk, -, hr, -, hle, hblt, ht⟩ := h.makeRoom hal hg
    have hnot : 0 ∉ text ++ new.take count := by
      rw [List.mem_append, not_or]
      exact ⟨h.noZero, fun hmem => h0 (List.mem_of_mem_take hmem)⟩
    have htake : (new.take count).length = count := List.length_take_of_le hc
    -- the last byte that is copied belongs to the text
    obtain ⟨c, hlast, hne⟩ := @load_in_text new rest (count - 1) h0 (by omega)
    refine ⟨⟨some (overwrite blk text.length (new.take count ++ [0])),
      (text ++ new.take count).length, blk.length, s.minMem⟩, ?_,
      holds_overwrite (by omega) hblt (by rw [take_text ht]) hnot, rfl⟩
    rw [appendCount, if_neg (by simp), if_neg hz, hlast, ok_bind, if_pos hne, hleq,
      uintAdd_eq (show text.length + count < 2 ^ 32 by omega), uintAdd_eq (by omega)]
    simp only [hr, ok_bind, hleq]
    rw [strncpy_eq h0 hc (by omega), ok_bind, strlen_eq h0, ok_bind, toUInt_nat (by omega),
      if_neg (by omega), uintSub_eq (by omega) (by omega), Nat.add_sub_cancel,
      store_some (by rw [length_overwrite (by omega)]; simp; omega), ok_bind]
    have htwo := @overwrite_append _ blk text.length (new.take count) [0] (by omega)
    rw [htake] at htwo
    rw [htwo, List.length_append, htake]
    rfl

theorem appendCount_holds (hal : al.Succeeds) (h : s.Holds text) {mem : Block} (hm : 0 ∈ mem)
    {count : Nat} (hc : count ≤ (cstr mem).length) (hmem : (cstr mem).length < 2 ^ 32)
    (hlen : text.length + count < 2 ^ 31) :
    ∃ s', s.appendCount al (some mem) count = .ok (.ok, s') ∧
      s'.Holds (text ++ (cstr mem).take count) := by
  obtain ⟨s', he, hs', -⟩ := appendCount_of_grows hal h hm hc hmem (h.grows (by omega))
  exact ⟨s', he, hs'⟩

theorem shrinkToFit_holds (hal : al.Succeeds) (h : s.Holds text) :
    ∃ s', s.shrinkToFit al = .ok (.ok, s') ∧ s'.Holds text := by
  obtain ⟨blk, hb, hl, ht⟩ := h.exists_block
  have hlt := h.length_lt
  have hcap := h.capacity_lt
  obtain ⟨blk', hr, hlen, hk⟩ := resize_eq hal hb (show 0 < text.length + 1 by omega)
  have hkept : blk'.take (text.length + 1) = text ++ [0] := by
    rw [hk _ (Nat.le_refl _) (show text.length + 1 ≤ blk.length by omega), ht]
  refine ⟨{ s with str := some blk', capacity := text.length + 1 }, ?_,
    ⟨blk', rfl, hlen, hkept⟩, h.noZero, h.length_eq, ?_⟩
  · have hsize : uintAdd s.length 1 = text.length + 1 := by
      rw [h.length_eq, uintAdd_eq (show text.length + 1 < 2 ^ 32 by omega)]
    rw [shrinkToFit, hsize, hr]
  · show text.length + 1 < 2 ^ 32
    omega

/-- With room for the terminator the text is made to fit, and what stays of it is kept. -/
theorem Holds.fit (hal : al.Succeeds) (h : s.Holds text) {n : Nat} (hpos : 0 < n)
    (hn : n ≤ 2 ^ 31) (hroom : ¬ s.badFit n ∨ ∀ c, s.calcCapacity n = .ok c → n < c) :
    ∃ blk', s.fit al n n = .ok { s with str := some blk', capacity := blk'.length } ∧
      n < blk'.length ∧ blk'.length < 2 ^ 32 ∧
      (n ≤ text.length → blk'.take n = text.take n) := by
  obtain ⟨blk, hb, hl, ht⟩ := h.exists_block
  have hlt := h.length_lt
  have htext : ∀ k, k ≤ text.length → blk.take k = text.take k := by
    intro k hk
    rw [← take_text ht, List.take_take, Nat.min_eq_left hk]
  by_cases hbad : s.badFit n
  · obtain ⟨c, blk', hc, hr, hle, hclt, hlen, hk⟩ := calcAndResize_eq hal hb hl hpos
      (h.grows hn)
    have hnc : n < c := by
      cases hroom with
      | inl hfit => exact absurd hbad hfit
      | inr hroom => exact hroom c hc
    refine ⟨blk', by rw [StringObject.fit, if_pos hbad, hr, hlen], by omega, by omega, ?_⟩
    intro hle'
    rw [hk n hle (by omega), htext n hle']
  · have hle : n ≤ text.length := by
      have hnot : ¬ n > s.length := fun hgt => hbad (.inl hgt)
      have := h.length_eq
      omega
    have hcap := h.capacity_lt
    exact ⟨blk, by rw [StringObject.fit, if_neg hbad, hl, ← hb], by omega, by omega,
      fun _ => htext n hle⟩

/-- All of the text is stored with the terminator it has. -/
theorem setCount_all_holds (hal : al.Succeeds) (h : s.Holds text) {new rest : Block}
    (h0 : 0 ∉ new) (hpos : 0 < new.length) (hlen : new.length ≤ 2 ^ 31)
    (hroom : ¬ s.badFit new.length ∨ ∀ c, s.calcCapacity new.length = .ok c → new.length < c) :
    ∃ s', s.setCount al (some (new ++ 0 :: rest)) new.length = .ok (.ok, s') ∧ s'.Holds new := by
  obtain ⟨blk, hr, hlt, hblt, -⟩ := h.fit hal hpos hlen hroom
  refine ⟨⟨some (overwrite blk 0 (new ++ [0])), new.length, blk.length, s.minMem⟩, ?_,
    holds_overwrite (by omega) hblt rfl h0⟩
  have hcopy := @strncpy_eq new rest blk 0 new.length h0 (Nat.le_refl _) (by omega)
  have hstore : store (some (overwrite blk 0 new)) new.length [0] =
      .ok (some (overwrite (overwrite blk 0 new) (0 + new.length) [0])) := by
    rw [Nat.zero_add]
    exact store_some (by rw [length_overwrite (by omega)]; simp; omega)
  rw [List.take_length] at hcopy
  rw [setCount, if_neg (by simp), if_neg (by omega), load_terminator, ok_bind]
  dsimp only
  rw [if_neg (by simp), hr, ok_bind]
  dsimp only
  rw [hcopy, ok_bind, hstore, ok_bind, overwrite_append (by omega)]
  rfl

/-- A part of the text is stored one byte short: the byte behind it stays what it was. -/
theorem setCount_part_holds (hal : al.Succeeds) (h : s.Holds text) {new rest : Block}
    (h0 : 0 ∉ new) {count : Nat} (hpos : 0 < count) (hc : count < new.length)
    (hlen : count + 1 ≤ 2 ^ 31)
    (hroom : ¬ s.badFit (count + 1) ∨ ∀ c, s.calcCapacity (count + 1) = .ok c → count + 1 < c)
    (hold : count + 1 ≤ text.length) :
    ∃ s', s.setCount al (some (new ++ 0 :: rest)) count = .ok (.ok, s') ∧
      s'.Holds (new.take count ++ (text.drop count).take 1) := by
  obtain ⟨blk, hr, hlt, hblt, hkept⟩ := h.fit hal (Nat.succ_pos count) hlen hroom
  have htake : (new.take count).length = count := List.length_take_of_le (by omega)
  have hcopied : (overwrite blk 0 (new.take count)).length = blk.length :=
    length_overwrite (by omega)
  have hbyte : (blk.drop count).take 1 = (text.drop count).take 1 := by
    rw [List.take_drop, List.take_drop, hkept hold]
  have hnew : (overwrite blk 0 (new.take count)).take (count + 1) ++ [] =
      new.take count ++ (text.drop count).take 1 := by
    rw [List.append_nil, overwrite, List.take_zero, List.nil_append, htake, Nat.zero_add,
      List.take_append, htake, Nat.add_sub_cancel_left, List.take_of_length_le (by omega), hbyte]
  have hone : ((text.drop count).take 1).length = 1 := by simp; omega
  have hnot : 0 ∉ new.take count ++ (text.drop count).take 1 := by
    rw [List.mem_append, not_or]
    exact ⟨fun hm => h0 (List.mem_of_mem_take hm),
      fun hm => h.noZero (List.mem_of_mem_drop (List.mem_of_mem_take hm))⟩
  refine ⟨_, ?_, @holds_overwrite (overwrite blk 0 (new.take count)) (count + 1) [] _ s.minMem
    (by rw [hcopied]; exact hlt) (hcopied ▸ hblt) hnew hnot⟩
  obtain ⟨c, hlast, hne⟩ := @load_in_text new rest count h0 hc
  have hstore : store (some (overwrite blk 0 (new.take count))) (count + 1) [0] =
      .ok (some (overwrite (overwrite blk 0 (new.take count)) (count + 1) [0])) :=
    store_some (by rw [hcopied]; exact hlt)
  rw [setCount, if_neg (by simp), if_neg (by omega), hlast, ok_bind]
  dsimp only
  rw [if_pos hne, uintAdd_eq (show count + 1 < 2 ^ 32 by omega), hr, ok_bind]
  dsimp only
  rw [strncpy_eq h0 (by omega) (by omega), ok_bind, hstore, ok_bind, hcopied, List.length_append,
    htake, hone]
  rfl

theorem realSize_eq {new rest : Block} (h0 : 0 ∉ new) : ∀ (k it : Nat), it + k ≤ new.length →
    realSize (some (new ++ 0 :: rest)) it k = .ok k := by
  intro k
  induction k with
  | zero =>
    intro it h
    rcases Nat.lt_or_ge it new.length with hlt | hge
    · obtain ⟨c, hc, -⟩ := @load_in_text new rest it h0 hlt
      rw [realSize, hc]
      rfl
    · have he : it = new.length := Nat.le_antisymm h hge
      rw [realSize, he, load_terminator]
      rfl
  | succ k ih =>
    intro it h
    obtain ⟨c, hc, hne⟩ := @load_in_text new rest it h0 (by omega)
    rw [realSize, hc, ok_bind, if_neg hne, ih (it + 1) (by omega)]
    rfl

/-- The end of a text is moved back with its terminator, and new bytes are stored in front of it. -/
theorem parted_text {blk new : Block} {index k : Nat} (ht : blk.take (text.length + 1) = text ++ [0])
    (h : 0 ∉ text) (hi : index ≤ text.length) (hk : new.length = k)
    (hroom : text.length + k + 1 < blk.length) :
    ∃ blk', strncpyBack (some blk) (index + k) index (text.length - index : Nat) =
        .ok (some blk') ∧ blk'.length = blk.length ∧
      (overwrite blk' index new).take (text.length + k) =
        text.take index ++ new ++ text.drop index := by
  have hdlen : (text.drop index).length = text.length - index := List.length_drop
  -- what is moved is the end of the text with its terminator
  have hend : (blk.drop index).take (text.length - index + 1) = text.drop index ++ [0] := by
    rw [List.take_drop, show index + (text.length - index + 1) = text.length + 1 by omega, ht,
      List.drop_append_of_le_length hi]
  have hmoved : (blk.drop index).take (text.length - index) = text.drop index := by
    rw [List.take_drop, show index + (text.length - index) = text.length by omega, take_text ht]
  have hclean : 0 ∉ (blk.drop index).take (text.length - index) := by
    rw [hmoved]
    exact fun hm => h (List.mem_of_mem_drop hm)
  obtain ⟨blk', hback, hblen, hbtake⟩ := @strncpyBack_eq blk (index + k) index
    (text.length - index) (by omega) (by omega) hclean
  rw [hend] at hback
  have hpre : blk'.take index = text.take index := by
    have hle : index ≤ index + k + (text.length - index) + 1 := by omega
    rw [← Nat.min_eq_left hle, ← List.take_take, hbtake, List.take_take, Nat.min_eq_left hle,
      ← take_text ht, List.take_take, Nat.min_eq_left hi]
  have hplen : (text.drop index ++ [0]).length = text.length - index + 1 := by
    rw [List.length_append, hdlen, List.length_singleton]
  have hparted := @take_overwrite_part _ blk' _ _ _ index k hpre
    (show index + k + (text.drop index ++ [0]).length ≤ blk'.length by omega) hk
  have hlen : (text.take index ++ new ++ text.drop index).length = text.length + k := by
    simp only [List.length_append, hk, hdlen, List.length_take, Nat.min_eq_left hi]
    omega
  refine ⟨_, hback, by rw [length_overwrite (by omega), hblen], ?_⟩
  rw [← hlen]
  apply take_text
  rw [hlen, List.append_assoc, ← hparted, hplen]
  congr 1
  omega

/-- The text is parted at the index and the new text stored between the parts. -/
theorem insertCount_holds (hal : al.Succeeds) (h : s.Holds text) {mem : Block} (hm : 0 ∈ mem)
    {index k : Nat} (hi : index ≤ text.length) (hk : k ≤ (cstr mem).length)
    (hlen : text.length + k < 2 ^ 31)
    (hroom : ∀ c, s.calcCapacity (text.length + k + 1) = .ok c → text.length + k + 1 < c) :
    ∃ s', s.insertCount al (some mem) index k = .ok (.ok, s') ∧
      s'.Holds (text.take index ++ (cstr mem).take k ++ text.drop index) := by
  obtain ⟨rest, hmem, h0⟩ := exists_text hm
  generalize hn : cstr mem = new at *
  subst hmem
  have hg : s.Grows (text.length + k + 1) := h.grows hlen
  obtain ⟨c, blk, hc, hr, rfl, -, hblt, ht⟩ := h.makeRoom hal hg
  have hlt := hroom _ hc
  have hleq := h.length_eq
  have htake : (new.take k).length = k := List.length_take_of_le hk
  obtain ⟨blk', hback, hblen, htext⟩ := parted_text ht h.noZero hi htake hlt
  have hlen' : (text.take index ++ new.take k ++ text.drop index).length = text.length + k := by
    simp only [List.length_append, htake, List.length_drop, List.length_take, Nat.min_eq_left hi]
    omega
  have hblen' : (overwrite blk' index (new.take k)).length = blk.length := by
    rw [length_overwrite (by omega), hblen]
  have hnot : 0 ∉ text.take index ++ new.take k ++ text.drop index := by
    simp only [List.mem_append, not_or]
    exact ⟨⟨fun hm => h.noZero (List.mem_of_mem_take hm), fun hm => h0 (List.mem_of_mem_take hm)⟩,
      fun hm => h.noZero (List.mem_of_mem_drop hm)⟩
  refine ⟨_, ?_, @holds_overwrite (overwrite blk' index (new.take k)) (text.length + k) [] _
    s.minMem (by rw [hblen']; exact Nat.le_of_lt hlt) (hblen' ▸ hblt)
    (by rw [List.append_nil, htext]) hnot⟩
  have hstore : store (some (overwrite blk' index (new.take k))) (text.length + k) [0] =
      .ok (some (overwrite (overwrite blk' index (new.take k)) (text.length + k) [0])) :=
    store_some (by rw [hblen']; exact Nat.le_of_lt hlt)
  have hsize : uintAdd s.length k = text.length + k := by
    rw [hleq, uintAdd_eq (show text.length + k < 2 ^ 32 by omega)]
  have hsize' : uintAdd (text.length + k) 1 = text.length + k + 1 :=
    uintAdd_eq (show text.length + k + 1 < 2 ^ 32 by omega)
  have hrest : toInt32 (uintSub s.length index) = (text.length - index : Nat) := by
    rw [hleq, uintSub_eq (show text.length < 2 ^ 32 by omega) hi]
    exact toInt32_eq (by omega) (by omega)
  rw [insertCount, realSize_eq h0 k 0 (by omega), ok_bind, hsize, hsize', hr, ok_bind]
  dsimp only
  rw [hrest, hback, ok_bind, strncpy_eq h0 hk (by omega), ok_bind, hsize, hstore, ok_bind, hblen',
    hlen']
  rfl

end AlibC.StringObject
