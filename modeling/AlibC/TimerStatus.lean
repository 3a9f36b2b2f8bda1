import AlibC.AlibTime

/-! `Timer`: what is left to a ring and by how much it was missed, and the end time that a start
sets. -/
namespace AlibC

namespace Timespec

open CLang

variable {x y d s : Timespec}

theorem subtract_total (h : x.subtract y = .ok d) : d.total = x.total - y.total := by
  obtain ⟨sec, hsec, h⟩ := bind_eq_ok.mp h
  obtain ⟨nsec, hnsec, h⟩ := bind_eq_ok.mp h
  rw [(fixValuesFast_spec h).1, checkLong_inv hsec, checkLong_inv hnsec, total_eq, total_eq, total_eq]
  dsimp only
  omega

theorem add_total (h : x.add y = .ok s) : s.total = x.total + y.total := by
  obtain ⟨sec, hsec, h⟩ := bind_eq_ok.mp h
  obtain ⟨nsec, hnsec, h⟩ := bind_eq_ok.mp h
  rw [(fixValuesFast_spec h).1, checkLong_inv hsec, checkLong_inv hnsec, total_eq, total_eq, total_eq]
  dsimp only
  omega

theorem subtract_eq (h : NoOverflow (· - ·) x y) :
    ∃ d, x.subtract y = .ok d ∧ d.total = x.total - y.total := by
  obtain ⟨d, hd⟩ := h.carry.exists_fix
  have hsub : x.subtract y = .ok d := by
    rw [subtract, checkLong_eq h.sec, ok_bind, checkLong_eq h.nsec, ok_bind, hd]
  exact ⟨d, hsub, subtract_total hsub⟩

theorem add_eq (h : NoOverflow (· + ·) x y) :
    ∃ s, x.add y = .ok s ∧ s.total = x.total + y.total := by
  obtain ⟨s, hs⟩ := h.carry.exists_fix
  have hadd : x.add y = .ok s := by
    rw [add, checkLong_eq h.sec, ok_bind, checkLong_eq h.nsec, ok_bind, hs]
  exact ⟨s, hadd, add_total hadd⟩

/-- A difference that was computed has two members of one sign, and neither is too long to negate. -/
theorem subtract_nanos (h : x.subtract y = .ok d) :
    -NANOS_PER_SECOND ≤ d.nsec ∧ d.nsec ≤ NANOS_PER_SECOND := by
  obtain ⟨sec, -, h⟩ := bind_eq_ok.mp h
  obtain ⟨nsec, -, h⟩ := bind_eq_ok.mp h
  obtain ⟨d₁, hcarry, h⟩ := bind_eq_ok.mp h
  obtain ⟨hlow, hhigh⟩ := carry_bounds hcarry
  cases h
  rw [sameSign, nanos_eq] at *
  split
  · dsimp only
    omega
  · split
    · dsimp only
      omega
    · exact ⟨hlow, hhigh⟩

theorem subtract_signs (h : x.subtract y = .ok d) :
    d.sec ≤ 0 ∧ d.nsec ≤ 0 ∨ 0 ≤ d.sec ∧ 0 ≤ d.nsec := by
  obtain ⟨sec, -, h⟩ := bind_eq_ok.mp h
  obtain ⟨nsec, -, h⟩ := bind_eq_ok.mp h
  exact fixValuesFast_signs h

/-- Fixing the difference once more changes nothing. -/
theorem fixValues_subtract (h : x.subtract y = .ok d) :
    d.fixValues = .ok (.ok, d) := by
  obtain ⟨sec, -, h⟩ := bind_eq_ok.mp h
  obtain ⟨nsec, -, h⟩ := bind_eq_ok.mp h
  exact fixValues_eq (fixValuesFast_twice h)

end Timespec

namespace Timer

open CLang Timespec

variable {t t' : Timer} {now interval left : Timespec}

/-- Nothing overflows between the reading of the clock and the answer. -/
structure StatusFits (t : Timer) (now : Timespec) : Prop where
  diff : NoOverflow (· - ·) t.endTime now
  neg : ∀ left, t.endTime.subtract now = .ok left → -9223372036854775808 < left.sec

/-- `rTime` is left, or `oTime` has passed since. -/
structure Status (t : Timer) (now rTime oTime : Timespec) : Prop where
  one : rTime = ⟨0, 0⟩ ∨ oTime = ⟨0, 0⟩
  left_nonneg : 0 ≤ rTime.sec ∧ 0 ≤ rTime.nsec
  over_nonneg : 0 ≤ oTime.sec ∧ 0 ≤ oTime.nsec
  exact : rTime.total - oTime.total = t.endTime.total - now.total

/-- The flag after the clock was looked at. -/
def observe (t : Timer) (now : Timespec) : Timer :=
  if t.endTime.total ≤ now.total then { t with rang := true } else t

/-- An end time that was reached is reported with what has passed since. -/
theorem getTimeStatus_over (h : StatusFits t now) (hleft : t.endTime.subtract now = .ok left)
    (hsign : left.nsec ≤ 0 ∧ left.sec ≤ 0) :
    t.getTimeStatus now =
      .ok (.ok, ⟨0, 0⟩, ⟨-left.sec, -left.nsec⟩, { t with rang := true }) := by
  have hneg := h.neg left hleft
  have hnanos := subtract_nanos hleft
  rw [nanos_eq] at hnanos
  rw [getTimeStatus, hleft, ok_bind, fixValues_subtract hleft, ok_bind]
  dsimp only
  rw [if_pos hsign, checkLong_eq (by omega), ok_bind, checkLong_eq (by omega), ok_bind]
  rfl

/-- One that was not is reported with what is left to it. -/
theorem getTimeStatus_left (hleft : t.endTime.subtract now = .ok left)
    (hsign : ¬(left.nsec ≤ 0 ∧ left.sec ≤ 0)) :
    t.getTimeStatus now = .ok (.ok, left, ⟨0, 0⟩, t) := by
  have hsigns := subtract_signs hleft
  rw [getTimeStatus, hleft, ok_bind, fixValues_subtract hleft, ok_bind]
  dsimp only
  rw [if_neg hsign, if_pos (by omega)]
  rfl

/-- There is always an answer, and it is the distance to the end time to the nanosecond. The flag is
raised once that time is reached, and otherwise left alone. -/
theorem getTimeStatus_exact (t : Timer) (now : Timespec) (h : StatusFits t now) :
    ∃ rTime oTime, t.getTimeStatus now = .ok (.ok, rTime, oTime, t.observe now) ∧
      Status t now rTime oTime := by
  obtain ⟨left, hleft, htotal⟩ := subtract_eq h.diff
  have hsigns := subtract_signs hleft
  rw [total_eq] at htotal
  by_cases hsign : left.nsec ≤ 0 ∧ left.sec ≤ 0
  · have hover : 0 ≤ -left.sec ∧ 0 ≤ -left.nsec := by omega
    refine ⟨⟨0, 0⟩, ⟨-left.sec, -left.nsec⟩, ?_, .inl rfl, ⟨Int.le_refl 0, Int.le_refl 0⟩, hover, ?_⟩
    · rw [getTimeStatus_over h hleft hsign, observe, if_pos (by omega)]
    · rw [← htotal, total_eq, total_eq]
      dsimp only
      omega
  · refine ⟨left, ⟨0, 0⟩, ?_, .inr rfl, by omega, ⟨Int.le_refl 0, Int.le_refl 0⟩, ?_⟩
    · rw [getTimeStatus_left hleft hsign, observe, if_neg (by omega)]
    · rw [← htotal, total_eq, total_eq]
      dsimp only
      omega

/-- A ring that was missed by a second and a half. -/
theorem getTimeStatus_exact_missed : ∃ rTime oTime,
    getTimeStatus ⟨false, ⟨3, 0⟩, ⟨10, 700000000⟩⟩ ⟨12, 200000000⟩ =
      .ok (.ok, rTime, oTime, observe ⟨false, ⟨3, 0⟩, ⟨10, 700000000⟩⟩ ⟨12, 200000000⟩) ∧
    Status ⟨false, ⟨3, 0⟩, ⟨10, 700000000⟩⟩ ⟨12, 200000000⟩ rTime oTime := by
  refine getTimeStatus_exact _ _ ⟨⟨by decide, by decide, fun _ => by decide⟩, fun left hleft => ?_⟩
  cases hleft
  decide

section Status

variable {rTime oTime : Timespec}

theorem Status.left_iff (h : Status t now rTime oTime) :
    (rTime.nsec ≠ 0 ∨ rTime.sec ≠ 0) ↔ now.total < t.endTime.total := by
  obtain ⟨hone, hleft, hover, hexact⟩ := h
  rw [total_eq rTime, total_eq oTime] at hexact
  rcases hone with rfl | rfl
  · dsimp only at *
    omega
  · dsimp only at *
    omega

/-- Once the end time is reached, what has passed since is what is reported. -/
theorem Status.over_total (h : Status t now rTime oTime) (hover : t.endTime.total ≤ now.total) :
    oTime.total = now.total - t.endTime.total := by
  have hleft := mt h.left_iff.mp (by omega)
  have hexact := h.exact
  rw [total_eq rTime] at hexact
  omega

end Status

/-- A start sets the end time to a run time from now. -/
theorem beginAt_eq (h : NoOverflow (· + ·) t.runTime now) : ∃ endTime,
    t.runTime.add now = .ok endTime ∧ t.beginAt now = .ok { t with endTime, rang := false } ∧
      endTime.total = t.runTime.total + now.total := by
  obtain ⟨endTime, hadd, htotal⟩ := add_eq h
  refine ⟨endTime, hadd, ?_, htotal⟩
  rw [beginAt, hadd]
  rfl

/-- The start and the interval that is taken off both fit. -/
structure BeforeFits (t : Timer) (interval now : Timespec) : Prop where
  sum : NoOverflow (· + ·) t.runTime now
  diff : ∀ endTime, t.runTime.add now = .ok endTime → NoOverflow (· - ·) endTime interval

/-- A start before now sets it to a run time from then. -/
theorem beginBefore_eq (h : BeforeFits t interval now) : ∃ endTime,
    t.beginBefore interval now = .ok { t with endTime, rang := false } ∧
      endTime.total = t.runTime.total + now.total - interval.total := by
  obtain ⟨sum, hadd, hbegin, hsum⟩ := beginAt_eq h.sum
  obtain ⟨endTime, hsub, htotal⟩ := subtract_eq (h.diff sum hadd)
  refine ⟨endTime, ?_, by omega⟩
  rw [beginBefore, hbegin, ok_bind]
  dsimp only
  rw [hsub]
  rfl

end Timer

end AlibC
