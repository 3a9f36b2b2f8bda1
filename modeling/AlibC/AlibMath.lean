import AlibC.Lib.SizeT
import AlibC.Lib.Outcome
import Mathlib.Data.Nat.Prime.Basic

/-! `isPrime`: trial division by every number up to half of `x`. -/
namespace AlibC

open CLang

/-- The loop `for (i = 2; i < halfX; ++i)`, from `i` on. -/
def isPrimeLoop (x halfX : Int) : Nat → Int → Outcome Int
  | 0, _ => .error .diverges
  | fuel + 1, i =>
    if i < halfX then
      if x.tmod i = 0 then .ok 0
      else do
        let i ← checkLong (i + 1)
        isPrimeLoop x halfX fuel i
    else .ok 1

/-- `halfX` before one is added to it. -/
def absHalf (x : Int) : Outcome Int :=
  if x.tdiv 2 < 0 then checkLong (x.tdiv 2 * -1) else .ok (x.tdiv 2)

/-- `isPrime`. The loop checks its condition fewer than `halfX` times, or once. -/
def isPrime (x : Int) : Outcome Int := do
  let halfX ← absHalf x
  let halfX ← checkLong (halfX + 1)
  isPrimeLoop x halfX halfX.toNat 2

variable {x halfX : Int}

/-- A computation that answers 1 if `P`, and 0 otherwise. -/
def Answers (r : Outcome Int) (P : Prop) : Prop := ∃ c, r = .ok c ∧ (c = 0 ∨ c = 1) ∧ (c = 1 ↔ P)

theorem Answers.congr {r : Outcome Int} {P Q : Prop} (h : Answers r P) (hPQ : P ↔ Q) :
    Answers r Q := by
  obtain ⟨c, hr, hc, hP⟩ := h
  exact ⟨c, hr, hc, hP.trans hPQ⟩

/-- The loop tells whether a number from `i` on divides. -/
theorem isPrimeLoop_answers (hmax : halfX ≤ LONG_MAX) : ∀ {fuel : Nat} {i : Int}, 0 ≤ i →
    halfX - i < fuel → 0 < fuel →
    Answers (isPrimeLoop x halfX fuel i) (∀ d, i ≤ d → d < halfX → ¬ d ∣ x) := by
  intro fuel
  induction fuel with
  | zero => intro i _ _ h; cases h
  | succ fuel ih =>
    intro i hi hfuel _
    rw [isPrimeLoop]
    by_cases hlt : i < halfX
    · rw [if_pos hlt]
      by_cases hmod : x.tmod i = 0
      · refine ⟨0, if_pos hmod, .inl rfl, (fun h => absurd h (by decide)), fun h => ?_⟩
        exact absurd (Int.dvd_of_tmod_eq_zero hmod) (h i (Int.le_refl i) hlt)
      · have hnext : checkLong (i + 1) = .ok (i + 1) :=
          if_pos (by simp only [LONG_MAX] at hmax; omega)
        rw [if_neg hmod, hnext, ok_bind]
        refine (ih (by omega) (by omega) (by omega)).congr ⟨fun h d hd => ?_, fun h d hd => ?_⟩
        · rcases Int.lt_or_eq_of_le hd with hd | rfl
          · exact h d hd
          · exact fun _ hdvd => hmod (Int.tmod_eq_zero_of_dvd hdvd)
        · exact h d (by omega)
    · rw [if_neg hlt]
      exact ⟨1, rfl, .inr rfl, fun _ d hd hdlt => by omega, fun _ => rfl⟩

theorem absHalf_eq (hmin : -2 ^ 63 ≤ x) (hmax : x ≤ LONG_MAX) :
    absHalf x = .ok (x.natAbs / 2 : Nat) := by
  have hhalf : (x.tdiv 2).natAbs = x.natAbs / 2 := Int.natAbs_tdiv x 2
  simp only [LONG_MAX] at hmax
  rw [absHalf]
  split
  · rw [checkLong, if_pos (by omega)]
    congr 1
    omega
  · congr 1
    omega

/-- No step overflows, and the answer is about the divisors up to half of `x`. -/
theorem isPrime_answers (hmin : -2 ^ 63 ≤ x) (hmax : x ≤ LONG_MAX) :
    Answers (isPrime x) (∀ d, 2 ≤ d → d ≤ x.natAbs / 2 → ¬ d ∣ x.natAbs) := by
  have hsum : checkLong ((x.natAbs / 2 : Nat) + 1) = .ok ((x.natAbs / 2 : Nat) + 1) :=
    if_pos (by simp only [LONG_MAX] at hmax; omega)
  rw [isPrime, absHalf_eq hmin hmax, ok_bind, hsum, ok_bind]
  have hloop := @isPrimeLoop_answers x ((x.natAbs / 2 : Nat) + 1)
    (by simp only [LONG_MAX] at hmax ⊢; omega) ((x.natAbs / 2 : Nat) + 1 : Int).toNat 2 (by omega)
    (by omega) (by omega)
  refine hloop.congr ⟨fun h d hd hle hdvd => ?_, fun h d hd hlt hdvd => ?_⟩
  · exact h d (by omega) (by omega) (Int.ofNat_dvd_left.mpr hdvd)
  · obtain ⟨d, rfl⟩ := Int.eq_ofNat_of_zero_le (show 0 ≤ d by omega)
    exact h d (by omega) (by omega) (Int.ofNat_dvd_left.mp hdvd)

/-- A divisor of a composite number has a partner of at least two, so that one of them is found up
to the half. -/
theorem no_divisor_iff (n : Nat) :
    (∀ d, 2 ≤ d → d ≤ n / 2 → ¬ d ∣ n) ↔ n < 2 ∨ n.Prime := by
  constructor
  · intro h
    by_contra hc
    obtain ⟨hn, hp⟩ := not_or.mp hc
    have htwo := (Nat.minFac_prime (show n ≠ 1 by omega)).two_le
    have hle := Nat.minFac_le_div (by omega) hp
    exact h n.minFac htwo (hle.trans (Nat.div_le_div_left htwo (by omega))) (Nat.minFac_dvd n)
  · intro h d hd hle hdvd
    rcases h with hn | hp
    · omega
    · rcases (Nat.dvd_prime hp).mp hdvd with rfl | rfl
      · omega
      · omega

/-- Zero and one pass for primes. -/
theorem isPrime_passes (hmin : -2 ^ 63 ≤ x) (hmax : x ≤ LONG_MAX) :
    Answers (isPrime x) (x.natAbs < 2 ∨ x.natAbs.Prime) :=
  (isPrime_answers hmin hmax).congr (no_divisor_iff x.natAbs)

/-- `isPrime` says 1 exactly if `x` is prime. -/
def DecidesPrime (x : Int) : Prop := Answers (isPrime x) x.toNat.Prime

/-- `isPrime` decides primality from two on. -/
theorem decidesPrime_iff (x : Int) (hx : 0 ≤ x) (hmax : x ≤ LONG_MAX) :
    DecidesPrime x ↔ 2 ≤ x := by
  have h := @isPrime_passes x (by omega) hmax
  have habs : x.natAbs = x.toNat := by omega
  rw [habs] at h
  constructor
  · rintro ⟨c, hr, -, hprime⟩
    obtain ⟨c', hr', -, hone⟩ := h
    rw [hr] at hr'
    cases hr'
    by_contra hlt
    have hp := hprime.mp (hone.mpr (.inl (by omega)))
    have := hp.two_le
    omega
  · intro htwo
    exact h.congr (or_iff_right (by omega))

theorem decidesPrime_iff_nine :
    (0 : Int) ≤ 9 ∧ (9 : Int) ≤ LONG_MAX ∧ (DecidesPrime 9 ↔ (2 : Int) ≤ 9) :=
  ⟨by decide, by decide, decidesPrime_iff 9 (by decide) (by decide)⟩

/-- One has no divisor but itself, and is not prime. -/
theorem isPrime_of_one : isPrime 1 = .ok 1 ∧
    ¬ ∀ x : Int, 0 ≤ x → x ≤ LONG_MAX → DecidesPrime x := by
  refine ⟨by decide, fun h => ?_⟩
  obtain ⟨c, hr, -, hprime⟩ := h 1 (by decide) (by decide)
  have hone : isPrime 1 = .ok 1 := by decide
  rw [hone] at hr
  cases hr
  exact Nat.not_prime_one (hprime.mp rfl)

end AlibC
