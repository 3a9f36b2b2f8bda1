import AlibC.StringObject

/-! The growth rule of `StringObject_calc_and_resize` ends with enough memory. -/
namespace AlibC.StringObject

open CLang

/-- The loop ends, with at least the size asked for. -/
def LoopGrows (minMem minSize fuel capacity : Nat) : Prop :=
  ∃ c, growLoop minMem minSize fuel capacity = .ok c ∧ minSize ≤ c ∧ c < 2 ^ 32

/-- The rule gives at least the size asked for. -/
def Grows (s : StringObject) (minSize : Nat) : Prop :=
  ∃ c, s.calcCapacity minSize = .ok c ∧ minSize ≤ c ∧ c < 2 ^ 32

variable {s : StringObject} {minMem minSize fuel capacity : Nat}

/-- Below `2 ^ 31` no capacity wraps. -/
theorem loopGrows_of_le (hs : minSize ≤ 2 ^ 31) : ∀ (fuel capacity : Nat), 0 < capacity →
    capacity < 2 ^ 32 → minSize - capacity < fuel → LoopGrows minMem minSize fuel capacity := by
  intro fuel
  induction fuel with
  | zero => intro capacity _ _ h; cases h
  | succ fuel ih =>
    intro capacity hpos hlt hfuel
    by_cases hc : capacity < minSize
    · rw [LoopGrows, growLoop, if_pos hc, if_neg (by omega)]
      by_cases hk : capacity < 64 * 1024
      · rw [if_pos hk, uintMul_eq (by omega)]
        exact ih (capacity * 2) (by omega) (by omega) (by omega)
      · rw [if_neg hk, uintAdd_eq (by omega)]
        exact ih (capacity + 32 * 1024) (by omega) (by omega) (by omega)
    · exact ⟨capacity, by rw [growLoop, if_neg hc], by omega, hlt⟩

theorem loopGrows_enough (h : minSize ≤ capacity) (hlt : capacity < 2 ^ 32) (hfuel : 0 < fuel) :
    LoopGrows minMem minSize fuel capacity := by
  obtain ⟨fuel, rfl⟩ := Nat.exists_eq_succ_of_ne_zero (Nat.ne_of_gt hfuel)
  exact ⟨capacity, by rw [growLoop, if_neg (by omega)], h, hlt⟩

theorem loopGrows_zero (hs : minSize < 2 ^ 32) (hm : minMem < 2 ^ 32) (hfuel : 1 < fuel) :
    LoopGrows minMem minSize fuel 0 := by
  obtain ⟨fuel, rfl⟩ := Nat.exists_eq_add_of_lt hfuel
  by_cases hc : 0 < minSize
  · rw [LoopGrows, growLoop, if_pos hc, if_pos rfl]
    split
    · exact loopGrows_enough (by omega) hm (by omega)
    · exact loopGrows_enough (Nat.le_refl _) hs (by omega)
  · exact loopGrows_enough (by omega) (by omega) (by omega)

theorem loopGrows_double (hpos : 0 < capacity) (hlt : capacity < 64 * 1024)
    (h : LoopGrows minMem minSize fuel (capacity * 2)) :
    LoopGrows minMem minSize (fuel + 1) capacity := by
  by_cases hc : capacity < minSize
  · rw [LoopGrows, growLoop, if_pos hc, if_neg (by omega), if_pos hlt, uintMul_eq (by omega)]
    exact h
  · exact loopGrows_enough (by omega) (by omega) (Nat.succ_pos fuel)

theorem loopGrows_add (hge : 64 * 1024 ≤ capacity) (hlt : capacity < 2 ^ 32)
    (h : LoopGrows minMem minSize fuel (uintAdd capacity (32 * 1024))) :
    LoopGrows minMem minSize (fuel + 1) capacity := by
  by_cases hc : capacity < minSize
  · rw [LoopGrows, growLoop, if_pos hc, if_neg (by omega), if_neg (by omega)]
    exact h
  · exact loopGrows_enough (by omega) hlt (Nat.succ_pos fuel)

/-- From 64k on the capacity reaches the size or wraps, and stays a multiple of what it was one
of. -/
theorem loopGrows_high {m F : Nat} (hm : m ≤ 15)
    (hlow : ∀ c < 32 * 1024, 2 ^ m ∣ c → ∀ fuel, F ≤ fuel → LoopGrows minMem minSize fuel c)
    (n : Nat) : ∀ c, 64 * 1024 ≤ c → c < 2 ^ 32 → 2 ^ m ∣ c → 2 ^ 32 ≤ c + 32 * 1024 * n →
    ∀ fuel, F + n ≤ fuel → LoopGrows minMem minSize fuel c := by
  have hstep : 2 ^ m ∣ 32 * 1024 := Nat.pow_dvd_pow 2 hm
  have hword : 2 ^ m ∣ 2 ^ 32 := Nat.pow_dvd_pow 2 (by omega)
  induction n with
  | zero => intro c _ hlt _ hn; omega
  | succ n ih =>
    intro c hge hlt hdvd hn fuel hfuel
    obtain ⟨fuel, rfl⟩ := Nat.exists_eq_succ_of_ne_zero (show fuel ≠ 0 by omega)
    apply loopGrows_add hge hlt
    have hsum := Nat.dvd_add hdvd hstep
    by_cases hwrap : c + 32 * 1024 < 2 ^ 32
    · rw [uintAdd_eq hwrap]
      exact ih _ (by omega) hwrap hsum (by omega) fuel (by omega)
    · have hlower : uintAdd c (32 * 1024) = c + 32 * 1024 - 2 ^ 32 := by
        unfold uintAdd
        omega
      rw [hlower]
      exact hlow _ (by omega) (Nat.dvd_sub hsum hword) fuel (by omega)

/-- What wraps is doubled before it can wrap again, so that at last nothing but zero is left. -/
theorem loopGrows_of_dvd (hs : minSize < 2 ^ 32) (hm : minMem < 2 ^ 32) (j : Nat) : ∀ m,
    m + j = 15 → ∀ c < 2 ^ 32, 2 ^ m ∣ c → ∀ fuel, 131075 * (j + 1) ≤ fuel →
    LoopGrows minMem minSize fuel c := by
  induction j with
  | zero =>
    intro m hj c hlt hdvd fuel hfuel
    obtain rfl : m = 15 := hj
    have hhigh := @loopGrows_high minMem minSize 15 2 (Nat.le_refl _)
      (fun c hc h fuel hf => by
        obtain rfl : c = 0 := Nat.eq_zero_of_dvd_of_lt h hc
        exact loopGrows_zero hs hm hf) (2 ^ 17)
    rcases Nat.lt_or_ge c (64 * 1024) with hlow | hge
    · rcases Nat.eq_zero_or_pos c with rfl | hpos
      · exact loopGrows_zero hs hm (by omega)
      · obtain ⟨fuel, rfl⟩ := Nat.exists_eq_succ_of_ne_zero (show fuel ≠ 0 by omega)
        exact loopGrows_double hpos hlow (hhigh _ (by omega) (by omega)
          (Nat.dvd_mul_right_of_dvd hdvd 2) (by omega) fuel (by omega))
    · exact hhigh c hge hlt hdvd (by omega) fuel (by omega)
  | succ j ih =>
    intro m hj c hlt hdvd fuel hfuel
    have hdouble : ∀ c < 64 * 1024, 2 ^ m ∣ c → ∀ fuel, 131075 * (j + 1) + 1 ≤ fuel →
        LoopGrows minMem minSize fuel c := by
      intro c hlow h fuel hf
      rcases Nat.eq_zero_or_pos c with rfl | hpos
      · exact loopGrows_zero hs hm (by omega)
      · obtain ⟨fuel, rfl⟩ := Nat.exists_eq_succ_of_ne_zero (show fuel ≠ 0 by omega)
        refine loopGrows_double hpos hlow (ih (m + 1) (by omega) _ (by omega) ?_ fuel (by omega))
        exact Nat.mul_dvd_mul_right h 2
    rcases Nat.lt_or_ge c (64 * 1024) with hlow | hge
    · exact hdouble c hlow hdvd fuel (by omega)
    · exact loopGrows_high (by omega) (fun c hc h fuel hf => hdouble c (by omega) h fuel hf)
        (2 ^ 17) c hge hlt hdvd (by omega) fuel (by omega)

theorem grows_of_le (hs : minSize ≤ 2 ^ 31) (hpos : 0 < s.capacity) (hlt : s.capacity < 2 ^ 32) :
    s.Grows minSize := by
  unfold Grows calcCapacity
  split
  · exact ⟨minSize, rfl, Nat.le_refl _, by omega⟩
  · exact loopGrows_of_le hs _ _ hpos hlt (by omega)

theorem grows_of_lt (hs : minSize < 2 ^ 32) (hm : s.minMem < 2 ^ 32) (hlt : s.capacity < 2 ^ 32) :
    s.Grows minSize := by
  unfold Grows calcCapacity
  split
  · exact ⟨minSize, rfl, Nat.le_refl _, hs⟩
  · exact loopGrows_of_dvd hs hm 15 0 rfl _ hlt (Nat.one_dvd _) _ (by omega)

/-- More fuel changes nothing once the loop ends. -/
theorem growLoop_of_le {c : Nat} : ∀ {fuel fuel' capacity : Nat}, fuel ≤ fuel' →
    growLoop minMem minSize fuel capacity = .ok c →
    growLoop minMem minSize fuel' capacity = .ok c := by
  intro fuel
  induction fuel with
  | zero => intro fuel' capacity _ h; cases h
  | succ fuel ih =>
    intro fuel' capacity hle h
    obtain ⟨fuel', rfl⟩ := Nat.exists_eq_succ_of_ne_zero (show fuel' ≠ 0 by omega)
    rw [growLoop] at h ⊢
    by_cases hc : capacity < minSize
    · rw [if_pos hc] at h ⊢
      exact ih (Nat.le_of_succ_le_succ hle) h
    · rw [if_neg hc] at h ⊢
      exact h

/-- How an object with `size` bytes asked for may come out: with a block of that size, or with none
if there is no memory. -/
inductive Resized (al : Alloc UInt8) (size : Nat) (s' : StringObject) : Prop where
  | room (blk : Block) (str_eq : s'.str = some blk) (length_eq : blk.length = size)
      (capacity_eq : s'.capacity = size)
  | refused (block_eq : al.block size = none) (str_eq : s'.str = none)

theorem resize_resized (al : Alloc UInt8) (s : StringObject) {size : Nat} (hsize : 0 < size) :
    ∃ code s', s.resize al size = .ok (code, s') ∧ Resized al size s' := by
  rw [resize, if_neg (Nat.ne_of_gt hsize)]
  cases hb : al.block size with
  | none =>
    rw [Alloc.realloc_refused hb]
    exact ⟨_, _, rfl, .refused hb rfl⟩
  | some fresh =>
    obtain ⟨blk, hr, hblk, -⟩ := Alloc.realloc_granted hb s.str
    rw [hr]
    dsimp only
    split
    · exact ⟨_, _, rfl, .room blk rfl hblk rfl⟩
    · have hone : 0 + ([0] : Block).length ≤ blk.length := by rw [hblk]; exact hsize
      rw [store_some hone]
      exact ⟨_, _, rfl, .room _ rfl ((length_overwrite hone).trans hblk) rfl⟩

/-- Whatever wraps, the loop ends after a bounded number of steps with at least the size asked for,
and the resize asks for no less. -/
theorem growth_makes_room (al : Alloc UInt8) (s : StringObject) (minSize : Nat)
    (hpos : 0 < minSize) (hs : minSize < 2 ^ 32) (hm : s.minMem < 2 ^ 32)
    (hc : s.capacity < 2 ^ 32) :
    (∃ c, (∀ fuel, 2097200 ≤ fuel → growLoop s.minMem minSize fuel s.capacity = .ok c) ∧
      minSize ≤ c ∧ c < 2 ^ 32) ∧
    ∃ size s', s.calcCapacity minSize = .ok size ∧ minSize ≤ size ∧
      s.calcAndResize al minSize = .ok s' ∧ Resized al size s' := by
  refine ⟨?_, ?_⟩
  · obtain ⟨c, hloop, hle, hlt⟩ :=
      loopGrows_of_dvd hs hm 15 0 rfl s.capacity hc (Nat.one_dvd _) 2097200 (Nat.le_refl _)
    exact ⟨c, fun fuel hfuel => growLoop_of_le hfuel hloop, hle, hlt⟩
  · obtain ⟨size, hsize, hle, -⟩ := grows_of_lt hs hm hc
    obtain ⟨code, s', hr, hroom⟩ := resize_resized al s (Nat.lt_of_lt_of_le hpos hle)
    refine ⟨size, s', hsize, hle, ?_, hroom⟩
    rw [calcAndResize, if_neg (Nat.ne_of_gt hpos), hsize, ok_bind, hr]
    rfl

/-- A capacity that wraps at once. -/
theorem growth_makes_room_wraps :
    (0 < 4294967295 ∧ 4294967295 < 2 ^ 32 ∧ 64 < 2 ^ 32 ∧ 4294967294 < 2 ^ 32) ∧
    (∃ c, (∀ fuel, 2097200 ≤ fuel → growLoop 64 4294967295 fuel 4294967294 = .ok c) ∧
      4294967295 ≤ c ∧ c < 2 ^ 32) ∧
    ∃ size s', calcCapacity ⟨none, 0, 4294967294, 64⟩ 4294967295 = .ok size ∧
      4294967295 ≤ size ∧
      calcAndResize (Alloc.filled 0) ⟨none, 0, 4294967294, 64⟩ 4294967295 = .ok s' ∧
      Resized (Alloc.filled 0) size s' :=
  ⟨by decide, growth_makes_room (Alloc.filled 0) ⟨none, 0, 4294967294, 64⟩ 4294967295 (by decide)
    (by decide) (by decide) (by decide)⟩

end AlibC.StringObject
