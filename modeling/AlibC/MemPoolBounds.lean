import AlibC.MemPoolRuns

/-! How far a `MemPool` grows: its capacity is doubled and never cut off at the maximum. -/
namespace AlibC.MemPool

open CLang Machine
variable {δ : Type} {allocCb : Nat → Option δ × Nat} {pool : MemPool δ} {max : Nat}
  {s s' : MemPool δ × List Nat} {op : Op}

/-- The call leaves no more than `max` blocks, and gives none only if there are `max` blocks that are
all reserved. -/
def Bounded (allocCb : Nat → Option δ × Nat) (max : Nat) (s : MemPool δ × List Nat) (op : Op) :
    Prop :=
  ∃ block s', step allocCb s op = .ok (block, s') ∧ s'.1.blocks.fresh ≤ max ∧
    (op = .reserve → block = none →
      s.1.blocks.fresh = max ∧ ∀ a < max, isReserved s.1.blocks a = true)

/-- If the call has to make room below the maximum, twice the capacity is more than the capacity and
within the maximum. -/
def Doubles (s : MemPool δ × List Nat) (op : Op) : Prop :=
  op = .reserve → s.1.reservedCount = s.1.array.capacity →
    s.1.array.capacity ≠ s.1.array.maxCap →
      0 < s.1.array.capacity ∧ 2 * s.1.array.capacity ≤ s.1.array.maxCap

/-- A pool whose blocks are within the maximum. One that was made without blocks never has any. -/
structure Within (max : Nat) (s : MemPool δ × List Nat) : Prop where
  maxCap_eq : s.1.array.maxCap = max
  fresh_le : s.1.blocks.fresh ≤ max
  state : Holds s.1 s.2 ∨ s = (⟨⟨none, 0, 0, max, true⟩, 0, ⟨[]⟩⟩, [])

/-- A pool without blocks asks for twice as many and gives up. -/
theorem step_empty (hmax : 0 < max) :
    step allocCb ((⟨⟨none, 0, 0, max, true⟩, 0, ⟨[]⟩⟩, []) : MemPool δ × List Nat) .reserve =
      .ok (none, ⟨⟨none, 0, 0, max, true⟩, 0, ⟨[]⟩⟩, []) := by
  have hne : ¬(0 = max) := Nat.ne_of_lt hmax
  rw [step, reserveBlock, makeRoom, if_pos rfl, expand]
  dsimp only
  rw [if_neg hne]
  rfl

/-- A call that finds room or makes it. -/
theorem Within.reserve_holds {handles : List Nat} (hcb : ∀ k, (allocCb k).1 ≠ none)
    (hw : Within max (pool, handles)) (h : Holds pool handles)
    (hok : Admitted (pool, handles) .reserve)
    (hroom : handles.length = pool.blocks.fresh → pool.array.capacity ≠ pool.array.maxCap) :
    ∃ a s', step allocCb (pool, handles) .reserve = .ok (some a, s') ∧ Holds s'.1 s'.2 ∧
      s'.1.array.maxCap = max ∧
      (s'.1.blocks.fresh = pool.blocks.fresh ∨
        pool.blocks.fresh ≠ max ∧ s'.1.blocks.fresh = pool.blocks.fresh * 2) ∧
      (s'.1.blocks.fresh ≤ max ↔ Doubles (pool, handles) .reserve) := by
  have hcap := h.full.capacity_eq
  have hcount := h.count_eq
  have hmax := hw.maxCap_eq
  have hle := hw.fresh_le
  have hpos := h.full.pos
  dsimp only at hmax hle
  obtain ⟨a, pool', hr, h', -, hmax', hfresh⟩ := @reserveBlock_eq δ allocCb _ _ h
    fun hall => ⟨hroom hall, h.constructs hcb hok hall (hroom hall)⟩
  refine ⟨a, (pool', a :: handles), by rw [step, hr]; rfl, h', hmax'.trans hmax, ?_⟩
  dsimp only
  rw [Doubles, hfresh]
  dsimp only
  by_cases hall : handles.length = pool.blocks.fresh
  · have hne := hroom hall
    rw [if_pos hall]
    refine ⟨.inr ⟨by omega, by omega⟩, ?_⟩
    constructor
    · intro hle' _ _ _
      omega
    · intro hd
      have hd := hd rfl (by omega) hne
      omega
  · rw [if_neg hall]
    exact ⟨.inl rfl, iff_of_true hle fun _ hfull => absurd (by omega) hall⟩

/-- What a call does to a pool whose array is filled. -/
theorem Within.step_holds (hcb : ∀ k, (allocCb k).1 ≠ none) (hw : Within max s)
    (h : Holds s.1 s.2) (hok : Admitted s op) :
    ∃ block s', step allocCb s op = .ok (block, s') ∧ Holds s'.1 s'.2 ∧
      s'.1.array.maxCap = max ∧
      (s'.1.blocks.fresh = s.1.blocks.fresh ∨
        s.1.blocks.fresh ≠ max ∧ s'.1.blocks.fresh = s.1.blocks.fresh * 2) ∧
      (s'.1.blocks.fresh ≤ max ∧ (op = .reserve → block = none →
        s.1.blocks.fresh = max ∧ ∀ a < max, isReserved s.1.blocks a = true) ↔ Doubles s op) := by
  obtain ⟨pool, handles⟩ := s
  have hcap := h.full.capacity_eq
  have hmax := hw.maxCap_eq
  have hle := hw.fresh_le
  dsimp only at hcap hmax hle
  cases op with
  | reserve =>
    by_cases hroom : handles.length = pool.blocks.fresh → pool.array.capacity ≠ pool.array.maxCap
    · obtain ⟨a, s', hs, h', hmax', hfresh, hiff⟩ := hw.reserve_holds hcb h hok hroom
      refine ⟨some a, s', hs, h', hmax', hfresh, Iff.trans (and_iff_left ?_) hiff⟩
      exact fun _ hnone => absurd hnone (Option.some_ne_none a)
    · rw [Classical.not_imp, Ne, Classical.not_not] at hroom
      obtain ⟨hr, -⟩ := @reserveBlock_full δ allocCb _ _ h hroom.1 hroom.2
      have hall := h.all_reserved hroom.1
      have hfresh : pool.blocks.fresh = max := by omega
      rw [hfresh] at hall
      refine ⟨none, (pool, handles), by rw [step, hr]; rfl, h, hmax, .inl rfl, ?_⟩
      exact iff_of_true ⟨hle, fun _ _ => ⟨hfresh, hall⟩⟩ fun _ _ hne => absurd hroom.2 hne
  | unreserve a =>
    obtain ⟨n, blocks, hr, h', -⟩ := h.unreserve hok
    have hfresh : blocks.fresh = pool.blocks.fresh := h'.full.capacity_eq.symm.trans hcap
    have hno : Op.unreserve a ≠ .reserve := fun hop => by cases hop
    exact ⟨none, (⟨pool.array, n, blocks⟩, handles.erase a), by rw [step, hr]; rfl, h', hmax,
      .inl hfresh, iff_of_true ⟨Nat.le_trans (Nat.le_of_eq hfresh) hle, fun hop => absurd hop hno⟩
        fun hop => absurd hop hno⟩

/-- One call. -/
theorem bounded_step_iff (hcb : ∀ k, (allocCb k).1 ≠ none) (hmax : 0 < max) (hw : Within max s)
    (hok : Admitted s op) : Bounded allocCb max s op ↔ Doubles s op := by
  rcases hw.state with h | rfl
  · obtain ⟨block, s', hs, -, -, -, hiff⟩ := hw.step_holds hcb h hok
    rw [← hiff, Bounded, hs]
    constructor
    · rintro ⟨block₁, s₁, he, hb⟩
      cases he
      exact hb
    · intro hb
      exact ⟨block, s', rfl, hb⟩
  · cases op with
    | reserve =>
      rw [Bounded, step_empty hmax]
      constructor
      · rintro ⟨block, s', he, -, hnone⟩
        cases he
        exact absurd (hnone rfl rfl).1 (Nat.ne_of_lt hmax)
      · intro hd
        exact absurd (hd rfl rfl (Nat.ne_of_lt hmax)).1 (Nat.lt_irrefl 0)
    | unreserve a => cases hok

/-- What a bounded call keeps. -/
theorem within_step (hcb : ∀ k, (allocCb k).1 ≠ none) (hmax : 0 < max) {block : Option Nat}
    (hw : Within max s) (hok : Admitted s op) (hb : Bounded allocCb max s op)
    (hs : step allocCb s op = .ok (block, s')) : Within max s' := by
  obtain ⟨block₁, s₁, hs₁, hle, -⟩ := hb
  rw [hs] at hs₁
  cases hs₁
  rcases hw.state with h | rfl
  · obtain ⟨block₂, s₂, hs₂, h', hmax', -⟩ := hw.step_holds hcb h hok
    rw [hs] at hs₂
    cases hs₂
    exact ⟨hmax', hle, .inl h'⟩
  · cases op with
    | reserve =>
      rw [step_empty hmax] at hs
      cases hs
      exact ⟨rfl, hle, .inr rfl⟩
    | unreserve a => cases hok

theorem newEx_within {start : Nat} (hmax : 0 < max)
    (hnew : newEx allocCb start max = .ok (some pool)) : Within max (pool, []) := by
  have hne : max ≠ 0 := Nat.ne_of_gt hmax
  cases start with
  | zero =>
    rw [newEx, ArrayList.newEx, if_neg hne, if_neg (Nat.not_lt_zero max), if_pos rfl] at hnew
    cases hnew
    exact ⟨rfl, Nat.zero_le max, .inr rfl⟩
  | succ start =>
    obtain ⟨-, -, -, -, hfresh, -, -, hcap, hle⟩ := newEx_fills (Nat.succ_pos start) hnew
    rw [if_neg hne] at hcap
    exact ⟨hcap, by dsimp only; omega, .inl (newEx_holds (Nat.succ_pos start) hnew)⟩

/-- A run stays within the maximum and uses it fully exactly when every expansion does what doubling
has to do. -/
theorem run_bounded_iff (hcb : ∀ k, (allocCb k).1 ≠ none) {start : Nat} {ops : List Op}
    (hmax : 0 < max) (hnew : newEx allocCb start max = .ok (some pool))
    (hok : AllSteps (step allocCb) Admitted (pool, []) ops) :
    AllSteps (step allocCb) (Bounded allocCb max) (pool, []) ops ↔
      AllSteps (step allocCb) Doubles (pool, []) ops :=
  allSteps_congr (fun _ _ hw hok => bounded_step_iff hcb hmax hw hok)
    (fun _ _ _ _ hw hok hb hs => within_step hcb hmax hw hok hb hs) ops _
    (newEx_within hmax hnew) hok

theorem run_bounded_two :
    AllSteps (step fun k => (some k, 64)) (Bounded (fun k => (some k, 64)) 2)
        (⟨⟨some [some 0], 1, 1, 2, true⟩, 0, ⟨[some ⟨some 0, 64, false⟩]⟩⟩, [])
        [.reserve, .reserve] ↔
      AllSteps (step fun k => (some k, 64)) Doubles
        (⟨⟨some [some 0], 1, 1, 2, true⟩, 0, ⟨[some ⟨some 0, 64, false⟩]⟩⟩, [])
        [.reserve, .reserve] := by
  apply @run_bounded_iff Nat (fun k => (some k, 64)) _ 2 (fun k => Option.some_ne_none k) 1 _
    (by decide) rfl
  refine AllSteps.cons (fun h => absurd h (by decide)) (show step _ _ _ = .ok (some 0,
    ⟨⟨some [some 0], 1, 1, 2, true⟩, 1, ⟨[some ⟨some 0, 64, true⟩]⟩⟩, [0]) from rfl) ?_
  exact AllSteps.cons (fun _ _ => by decide) (show step _ _ _ = .ok (some 1,
    ⟨⟨some [some 0, some 1], 2, 2, 2, true⟩, 2,
      ⟨[some ⟨some 0, 64, true⟩, some ⟨some 1, 64, true⟩]⟩⟩, [1, 0]) from rfl) trivial

/-- With as many blocks as some doublings give, the next doubling does what it has to do. -/
theorem Within.doubles_of_ratio {start j k : Nat} (hstart : 1 ≤ start)
    (hw : Within (start * 2 ^ k) s) (h : Holds s.1 s.2) (hj : j ≤ k)
    (hfresh : s.1.blocks.fresh = start * 2 ^ j) : Doubles s op := by
  intro _ _ hne
  have hcap := h.full.capacity_eq
  rw [hw.maxCap_eq, hcap, hfresh] at hne ⊢
  have hlt : j < k := Nat.lt_of_le_of_ne hj fun heq => hne (by rw [heq])
  have hle : start * 2 ^ (j + 1) ≤ start * 2 ^ k :=
    Nat.mul_le_mul_left start (Nat.pow_le_pow_right (by decide) hlt)
  rw [Nat.pow_succ, ← Nat.mul_assoc, Nat.mul_comm _ 2] at hle
  exact ⟨Nat.mul_pos hstart (Nat.two_pow_pos j), hle⟩

/-- A maximum that is reached by doubling is neither exceeded nor left unused. -/
theorem run_bounded_of_ratio (hcb : ∀ k, (allocCb k).1 ≠ none) {start k : Nat} {ops : List Op}
    (hstart : 1 ≤ start) (hnew : newEx allocCb start (start * 2 ^ k) = .ok (some pool))
    (hok : AllSteps (step allocCb) Admitted (pool, []) ops) :
    AllSteps (step allocCb) (Bounded allocCb (start * 2 ^ k)) (pool, []) ops := by
  have hmax : 0 < start * 2 ^ k := Nat.mul_pos hstart (Nat.two_pow_pos k)
  have hnew' := newEx_fills hstart hnew
  refine (@allSteps_congr _ _ _ (step allocCb) Admitted Admitted (Bounded allocCb (start * 2 ^ k))
    (fun s => Within (start * 2 ^ k) s ∧ Holds s.1 s.2 ∧ ∃ j ≤ k, s.1.blocks.fresh = start * 2 ^ j)
    ?_ ?_ ops _ ⟨newEx_within hmax hnew, newEx_holds hstart hnew, 0, Nat.zero_le k, ?_⟩ hok).mp hok
  · rintro s op ⟨hw, h, j, hj, hfresh⟩ hok
    exact iff_of_true hok ((bounded_step_iff hcb hmax hw hok).mpr
      (hw.doubles_of_ratio hstart h hj hfresh))
  · rintro s op block s' ⟨hw, h, j, hj, hfresh⟩ hok - hs
    have hb := (bounded_step_iff hcb hmax hw hok).mpr (hw.doubles_of_ratio hstart h hj hfresh)
    obtain ⟨block₁, s₁, hs₁, h', -, hgrown, -⟩ := hw.step_holds hcb h hok
    rw [hs] at hs₁
    cases hs₁
    refine ⟨within_step hcb hmax hw hok hb hs, h', ?_⟩
    rcases hgrown with hsame | ⟨hne, hdouble⟩
    · exact ⟨j, hj, hsame.trans hfresh⟩
    · have hlt : j < k := Nat.lt_of_le_of_ne hj fun heq => hne (by rw [hfresh, heq])
      exact ⟨j + 1, hlt, by rw [hdouble, hfresh, Nat.pow_succ, Nat.mul_assoc]⟩
  · rw [Nat.pow_zero, Nat.mul_one]
    exact hnew'.2.2.2.2.1

/-- Three blocks are asked for where three are allowed, and four are made. Where none are there to
begin with, none is ever made. -/
theorem expand_overshoots :
    (do
      let pool ← deref (← newEx (fun k => (some k, 64)) 1 3)
      let (_, s) ← run (step fun k => (some k, 64)) (pool, []) [.reserve, .reserve, .reserve]
      return (s.2, s.1.blocks.fresh) : Outcome (List Nat × Nat)) = .ok ([2, 1, 0], 4) ∧
    (do
      let pool ← deref (← newEx (fun k => (some k, 64)) 0 3)
      let (blocks, _) ← run (step fun k => (some k, 64)) (pool, []) [.reserve]
      return blocks : Outcome (List (Option Nat))) = .ok [none] := by
  decide

end AlibC.MemPool
