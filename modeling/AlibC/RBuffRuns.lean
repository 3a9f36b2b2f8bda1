import AlibC.RBuffWindow

/-! Runs of an `RBuff` of any size and with any flags, and what is stored where nothing may be
overwritten. -/
namespace AlibC.RBuff

open CLang Ring Machine

variable {size count : Nat} {r : RBuff} {q data : Block}

/-- So many bytes of a push are stored. -/
def accepted (size : Nat) (r : RBuff) (count : Nat) : Nat :=
  if r.flags &&& rbuffNoOverwrite ≠ 0 then min count (size - r.count) else min count size

/-- What the caller answers for, and a push whose bytes are counted in an `int32_t` stores no more
than that. -/
def Fits (size : Nat) (r : RBuff) : Op → Prop
  | .pushback buff count => ∀ data, buff = some data →
      count ≤ data.length ∧ accepted size r count < 2 ^ 31
  | .popoff buff count | .copy buff count => ∀ blk, buff = some blk → min count r.count ≤ blk.length
  | _ => True

/-- Only an empty ring has its end iterator at the start. -/
def Ahead (r : RBuff) : Prop := r.count = 0 ∨ 0 < r.itEnd

theorem Popped.ahead {r' : RBuff} {q' : Block} (hp : Popped r r') (h : Stores size r q)
    (h' : Stores size r' q') (hle : q'.length ≤ q.length) (ha : Ahead r) : Ahead r' := by
  have hcount := h.count_eq
  have hcount' := h'.count_eq
  have hend := hp.itEnd_eq
  unfold Ahead at ha ⊢
  omega

/-- A push stores something or leaves the ring as it was. -/
theorem pushback_stores (h : Stores size r q) (hd : count ≤ data.length)
    (hint : accepted size r count < 2 ^ 31) :
    ∃ n r' q', r.pushback (some data) count = .ok (n, r') ∧ Stores size r' q' ∧
      r'.flags = r.flags ∧ (Ahead r → Ahead r') := by
  rw [accepted, h.count_eq] at hint
  by_cases hf : r.flags &&& rbuffNoOverwrite = 0
  · rw [if_neg (by rw [hf]; exact fun hne => hne rfl)] at hint
    obtain ⟨r', hr, hw, hflags, hend⟩ := pushback_overwrites h hf hd hint
    refine ⟨_, r', _, hr, hw, hflags, fun ha => ?_⟩
    by_cases hz : count = 0
    · subst hz
      cases hr
      exact ha
    · exact .inr (hend hz)
  · rw [if_pos hf] at hint
    obtain ⟨r', hr, hw, hflags, -, hend, hsame⟩ := pushback_keeps h hf hd hint
    refine ⟨_, r', _, hr, hw, hflags, fun ha => ?_⟩
    by_cases hz : min count (size - q.length) = 0
    · rw [hsame hz]
      exact ha
    · exact .inr (hend hz)

/-- Every call keeps a ring. -/
theorem step_stores {op : Op} (h : Stores size r q) (hok : Fits size r op) :
    ∃ reply r' q', step r op = .ok (reply, r') ∧ Stores size r' q' ∧ r'.flags = r.flags ∧
      (Ahead r → Ahead r') := by
  cases op with
  | pushback buff count =>
    cases buff with
    | none => exact ⟨.count 0, r, q, rfl, h, rfl, id⟩
    | some data =>
      obtain ⟨hd, hint⟩ := hok data rfl
      obtain ⟨n, r', q', hr, hw⟩ := pushback_stores h hd hint
      exact ⟨.count n, r', q', by rw [step, hr]; rfl, hw⟩
  | pushbackByte byte =>
    have hint : accepted size r 1 < 2 ^ 31 := by
      unfold accepted
      split <;> omega
    obtain ⟨n, r', q', hr, hw⟩ := pushback_stores h (show 1 ≤ [byte].length from Nat.le_refl 1) hint
    exact ⟨.byte (toInt32 n), r', q', by rw [step, pushbackByte, hr]; rfl, hw⟩
  | popoff buff count =>
    have hroom : HasRoom q count buff := fun blk hb => by
      rw [← h.count_eq]
      exact hok blk hb
    obtain ⟨r', hr, hw, hp⟩ := popoff_eq h hroom
    refine ⟨.copied _ _, r', _, by rw [step, hr]; rfl, hw, hp.flags_eq, hp.ahead h hw ?_⟩
    rw [List.length_drop]
    exact Nat.sub_le _ _
  | popoffByte =>
    obtain ⟨r', hr, hw, hp⟩ := popoffByte_eq h
    refine ⟨.byte _, r', _, by rw [step, hr]; rfl, hw, hp.flags_eq, hp.ahead h hw ?_⟩
    rw [List.length_drop]
    exact Nat.sub_le _ _
  | copy buff count =>
    have hroom : HasRoom q count buff := fun blk hb => by
      rw [← h.count_eq]
      exact hok blk hb
    exact ⟨.copied _ _, r, q, by rw [step, copy_eq h hroom]; rfl, h, rfl, id⟩
  | reset =>
    obtain ⟨hw, hf⟩ := reset_stores h
    exact ⟨.done, r.reset, [], rfl, hw, hf, fun _ => .inl hw.count_eq⟩

/-- Every run of such calls does. -/
theorem run_stores {flags : Nat} {blk : Block} (hblk : blk.length = size) (hs : size ≤ PTRDIFF_MAX)
    (hinit : init (some blk) size flags = some r) {ops : List Op}
    (hok : AllSteps step (Fits size) r ops) :
    ∃ replies r', run step r ops = .ok (replies, r') ∧ (∃ q, Stores size r' q) ∧
      r'.flags = flags ∧ Ahead r' := by
  obtain ⟨hw, hflags⟩ := init_stores hblk hs hinit
  exact @run_invariant _ _ _ step (Fits size)
    (fun r => (∃ q, Stores size r q) ∧ r.flags = flags ∧ Ahead r)
    (fun r op ⟨⟨q, h⟩, hf, ha⟩ hok => by
      obtain ⟨reply, r', q', hr, hw', hf', ha'⟩ := step_stores h hok
      exact ⟨reply, r', hr, ⟨q', hw'⟩, hf'.trans hf, ha' ha⟩) ops r
    ⟨⟨[], hw⟩, hflags, .inl hw.count_eq⟩ hok

section Prefix

/-- The first bytes of the data, as many as there is room for, are stored behind those that are there,
and counted. -/
def StoresPrefix (size : Nat) (r : RBuff) (q data : Block) (count : Nat) : Prop :=
  ∃ r', r.pushback (some data) count = .ok (min count (size - q.length), r') ∧
    r'.itBegin = r.itBegin ∧ Stores size r' (q ++ data.take (min count (size - q.length)))

/-- What is returned is a number that an `int32_t` has. -/
theorem pushPieces_returns {off n : Nat} {r' : RBuff}
    (hr : r.pushPieces data off count = .ok (n, r')) : ∃ k : Int, n = toSize (toInt32 k) := by
  rw [pushPieces] at hr
  dsimp only at hr
  split at hr
  · obtain ⟨p, -, hr⟩ := bind_eq_ok.mp hr
    obtain ⟨p', -, hr⟩ := bind_eq_ok.mp hr
    obtain ⟨blk, -, hr⟩ := bind_eq_ok.mp hr
    rw [pure_ok] at hr
    obtain ⟨hn, -⟩ := Prod.mk.inj (Except.ok.inj hr)
    exact ⟨_, hn.symm⟩
  · obtain ⟨p, -, hr⟩ := bind_eq_ok.mp hr
    obtain ⟨blk, -, hr⟩ := bind_eq_ok.mp hr
    rw [pure_ok] at hr
    obtain ⟨hn, -⟩ := Prod.mk.inj (Except.ok.inj hr)
    exact ⟨_, hn.symm⟩

theorem pushback_returns {n : Nat} {r' : RBuff}
    (hr : r.pushback (some data) count = .ok (n, r')) (hn : n ≤ PTRDIFF_MAX) : n < 2 ^ 31 := by
  rw [pushback] at hr
  dsimp only at hr
  split at hr
  · cases hr
    exact Nat.two_pow_pos 31
  · obtain ⟨⟨m, r₁⟩, -, hr⟩ := bind_eq_ok.mp hr
    obtain ⟨k, rfl⟩ := pushPieces_returns hr
    unfold PTRDIFF_MAX toSize toInt32 at hn
    unfold toSize toInt32
    omega

/-- They are where an `int32_t` can count them and either the data is no longer than the ring, or the
bytes that are stored instead are the same. -/
theorem storesPrefix_iff (h : Stores size r q) (hf : r.flags &&& rbuffNoOverwrite ≠ 0)
    (hd : count ≤ data.length) :
    StoresPrefix size r q data count ↔ min count (size - q.length) < 2 ^ 31 ∧
      (count ≤ size ∨ (data.drop (count - size)).take (min count (size - q.length)) =
        data.take (min count (size - q.length))) := by
  have hs := h.size_le
  constructor
  · rintro ⟨r', hr, -, hw⟩
    have hint := pushback_returns hr (by omega)
    obtain ⟨r₁, hr₁, hw₁, -⟩ := pushback_keeps h hf hd hint
    rw [hr] at hr₁
    cases hr₁
    exact ⟨hint, .inr (List.append_cancel_left (hw₁.unique hw))⟩
  · rintro ⟨hint, hsame⟩
    obtain ⟨r', hr, hw, -, hbegin, -⟩ := pushback_keeps h hf hd hint
    refine ⟨r', hr, hbegin, ?_⟩
    rcases hsame with hle | heq
    · rw [Nat.sub_eq_zero_of_le hle, List.drop_zero] at hw
      exact hw
    · rw [heq] at hw
      exact hw

/-- In every state that is reached, of every push. -/
theorem run_storesPrefix_iff {flags : Nat} {blk : Block} (hblk : blk.length = size)
    (hs : size ≤ PTRDIFF_MAX) (hf : flags &&& rbuffNoOverwrite ≠ 0)
    (hinit : init (some blk) size flags = some r) {ops : List Op}
    (hok : AllSteps step (Fits size) r ops) :
    ∃ replies r' q, run step r ops = .ok (replies, r') ∧ Stores size r' q ∧
      ∀ data count, count ≤ data.length →
        (StoresPrefix size r' q data count ↔ min count (size - q.length) < 2 ^ 31 ∧
          (count ≤ size ∨ (data.drop (count - size)).take (min count (size - q.length)) =
            data.take (min count (size - q.length)))) := by
  obtain ⟨replies, r', hr, ⟨q, hw⟩, hflags, -⟩ := run_stores hblk hs hinit hok
  refine ⟨replies, r', q, hr, hw, fun data count hd => storesPrefix_iff hw ?_ hd⟩
  rw [hflags]
  exact hf

theorem run_storesPrefix_two :
    ∃ replies r' q, run step { buff := [0, 0, 0, 0], buffEnd := 4, itBegin := 0, itEnd := 0, count := 0
                               flags := 2 } [.pushback (some [1, 2]) 2] = .ok (replies, r') ∧
      Stores 4 r' q ∧ ∀ data count, count ≤ data.length →
        (StoresPrefix 4 r' q data count ↔ min count (4 - q.length) < 2 ^ 31 ∧
          (count ≤ 4 ∨ (data.drop (count - 4)).take (min count (4 - q.length)) =
            data.take (min count (4 - q.length)))) :=
  @run_storesPrefix_iff 4 _ 2 [0, 0, 0, 0] rfl (by decide) (by decide) rfl
    [.pushback (some [1, 2]) 2] ⟨fun data hb => by cases hb; decide, fun _ _ _ => trivial⟩

/-- Six bytes for a ring of four in which two are stored: those in the middle are taken. -/
theorem pushback_skips_first :
    run step { buff := [0, 0, 0, 0], buffEnd := 4, itBegin := 0, itEnd := 0, count := 0, flags := 2 }
        [.pushback (some [8, 9]) 2, .pushback (some [1, 2, 3, 4, 5, 6]) 6,
          .copy (some [0, 0, 0, 0]) 4] =
      .ok ([.count 2, .count 2, .copied 4 (some [8, 9, 3, 4])],
        { buff := [8, 9, 3, 4], buffEnd := 4, itBegin := 0, itEnd := 4, count := 4, flags := 2 }) ∧
    ¬StoresPrefix 4 { buff := [8, 9, 0, 0], buffEnd := 4, itBegin := 0, itEnd := 2, count := 2
                      flags := 2 } [8, 9] [1, 2, 3, 4, 5, 6] 6 := by
  refine ⟨by decide, ?_⟩
  rintro ⟨r', hr, -, hw⟩
  have hrun : pushback { buff := [8, 9, 0, 0], buffEnd := 4, itBegin := 0, itEnd := 2, count := 2
                         flags := 2 } (some [1, 2, 3, 4, 5, 6]) 6 =
      .ok (2, { buff := [8, 9, 3, 4], buffEnd := 4, itBegin := 0, itEnd := 4, count := 4
                flags := 2 }) := by decide
  rw [hrun] at hr
  cases hr
  exact absurd (hw.holds.cell 2 (by decide)) (by decide)

end Prefix

end AlibC.RBuff
