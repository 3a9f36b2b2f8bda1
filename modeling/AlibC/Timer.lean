import AlibC.Error
import AlibC.Lib.Outcome

/-! `alib_time` and `Timer`: times on a clock, and timers that ring at one. -/
namespace AlibC

open CLang

/-- `struct timespec`. -/
structure Timespec where
  sec : Int
  nsec : Int
deriving DecidableEq, Repr

namespace Timespec

abbrev NANOS_PER_SECOND : Int := 1000000000

/-- The nanoseconds past a second are carried over. -/
def carry (t : Timespec) : Outcome Timespec :=
  if t.nsec > NANOS_PER_SECOND ∨ t.nsec < -NANOS_PER_SECOND then do
    let sec ← checkLong (t.sec + t.nsec.tdiv NANOS_PER_SECOND)
    return ⟨sec, t.nsec.tmod NANOS_PER_SECOND⟩
  else .ok t

/-- Both members are given the same sign. -/
def sameSign (t : Timespec) : Timespec :=
  if t.nsec < 0 ∧ t.sec > 0 then ⟨t.sec - 1, t.nsec + NANOS_PER_SECOND⟩
  else if t.nsec > 0 ∧ t.sec < 0 then ⟨t.sec + 1, t.nsec - NANOS_PER_SECOND⟩
  else t

/-- `timespec_fix_values_fast`. -/
def fixValuesFast (t : Timespec) : Outcome Timespec := do
  let t ← t.carry
  return t.sameSign

/-- `timespec_fix_values`. -/
def fixValues (t : Timespec) : Outcome (AlibError × Timespec) := do
  let t ← t.fixValuesFast
  if t.sec < 0 ∧ t.nsec > 0 ∨ t.sec > 0 ∧ t.nsec < 0 then return (.objCorruption, t)
  else return (.ok, t)

/-- `timespec_cmp_fast`. -/
def cmpFast (a b : Timespec) : Int :=
  if a.sec > b.sec then 1
  else if a.sec = b.sec then
    if a.nsec > b.nsec then 1 else if a.nsec = b.nsec then 0 else -1
  else -1

/-- `timespec_subtract`. -/
def subtract (a b : Timespec) : Outcome Timespec := do
  let sec ← checkLong (a.sec - b.sec)
  let nsec ← checkLong (a.nsec - b.nsec)
  fixValuesFast ⟨sec, nsec⟩

/-- `timespec_add`. -/
def add (a b : Timespec) : Outcome Timespec := do
  let sec ← checkLong (a.sec + b.sec)
  let nsec ← checkLong (a.nsec + b.nsec)
  fixValuesFast ⟨sec, nsec⟩

variable {a b c t t' : Timespec}

/-- `a` does not come after `b`. -/
def NotAfter (a b : Timespec) : Prop := cmpFast a b ≤ 0

instance (a b : Timespec) : Decidable (NotAfter a b) := inferInstanceAs (Decidable (_ ≤ _))

/-- Times are compared by their seconds first. -/
theorem notAfter_iff : NotAfter a b ↔ a.sec < b.sec ∨ a.sec = b.sec ∧ a.nsec ≤ b.nsec := by
  rw [NotAfter, cmpFast]
  split
  · omega
  · split
    · split
      · omega
      · split <;> omega
    · omega

theorem NotAfter.trans (hab : NotAfter a b) (hbc : NotAfter b c) : NotAfter a c := by
  rw [notAfter_iff] at hab hbc ⊢
  omega

theorem notAfter_total (a b : Timespec) : NotAfter a b ∨ NotAfter b a := by
  rw [notAfter_iff, notAfter_iff]
  omega

theorem carry_bounds (h : t.carry = .ok t') :
    -NANOS_PER_SECOND ≤ t'.nsec ∧ t'.nsec ≤ NANOS_PER_SECOND := by
  rw [carry] at h
  split at h
  · obtain ⟨sec, -, h⟩ := bind_eq_ok.mp h
    cases h
    have hlow := Int.lt_tmod_of_pos t.nsec (show (0 : Int) < NANOS_PER_SECOND by decide)
    have hhigh := Int.tmod_lt_of_pos t.nsec (show (0 : Int) < NANOS_PER_SECOND by decide)
    exact ⟨Int.le_of_lt hlow, Int.le_of_lt hhigh⟩
  · cases h
    omega

/-- After the values were fixed no sign differs from the other. -/
theorem sameSign_signs (hlow : -NANOS_PER_SECOND ≤ t.nsec) (hhigh : t.nsec ≤ NANOS_PER_SECOND) :
    t.sameSign.sec ≤ 0 ∧ t.sameSign.nsec ≤ 0 ∨ 0 ≤ t.sameSign.sec ∧ 0 ≤ t.sameSign.nsec := by
  rw [sameSign]
  split
  · dsimp only
    omega
  · split
    · dsimp only
      omega
    · omega

theorem fixValuesFast_signs (h : t.fixValuesFast = .ok t') :
    t'.sec ≤ 0 ∧ t'.nsec ≤ 0 ∨ 0 ≤ t'.sec ∧ 0 ≤ t'.nsec := by
  obtain ⟨t₁, hcarry, h⟩ := bind_eq_ok.mp h
  cases h
  obtain ⟨hlow, hhigh⟩ := carry_bounds hcarry
  exact sameSign_signs hlow hhigh

end Timespec

/-- `Timer`. -/
structure Timer where
  rang : Bool
  runTime : Timespec
  endTime : Timespec
deriving DecidableEq, Repr

namespace Timer

open Timespec

variable {t t' : Timer} {now rTime oTime : Timespec} {code : AlibError}

/-- `Timer_begin`, where the clock shows `now`. -/
def beginAt (t : Timer) (now : Timespec) : Outcome Timer := do
  let endTime ← t.runTime.add now
  return { t with endTime, rang := false }

/-- `Timer_begin_before`. -/
def beginBefore (t : Timer) (interval now : Timespec) : Outcome Timer := do
  let t ← t.beginAt now
  let endTime ← t.endTime.subtract interval
  return { t with endTime }

/-- `Timer_get_time_status`: the code, `*rTime` and `*oTime`. -/
def getTimeStatus (t : Timer) (now : Timespec) :
    Outcome (AlibError × Timespec × Timespec × Timer) := do
  let left ← t.endTime.subtract now
  let (_, left) ← left.fixValues
  if left.nsec ≤ 0 ∧ left.sec ≤ 0 then do
    let sec ← checkLong (-left.sec)
    let nsec ← checkLong (-left.nsec)
    return (.ok, ⟨0, 0⟩, ⟨sec, nsec⟩, { t with rang := true })
  else if left.sec ≥ 0 ∧ left.nsec ≥ 0 then return (.ok, left, ⟨0, 0⟩, t)
  else return (.unknownErr, ⟨0, 0⟩, ⟨0, 0⟩, t)

/-- There is always either time left or time overrun, and the end time stays. -/
theorem getTimeStatus_ok (h : t.getTimeStatus now = .ok (code, rTime, oTime, t')) :
    code = .ok ∧ t'.endTime = t.endTime := by
  obtain ⟨left, -, h⟩ := bind_eq_ok.mp h
  obtain ⟨⟨fixed, left'⟩, hfix, h⟩ := bind_eq_ok.mp h
  have hsigns : left'.sec ≤ 0 ∧ left'.nsec ≤ 0 ∨ 0 ≤ left'.sec ∧ 0 ≤ left'.nsec := by
    obtain ⟨left₁, hfast, hfix⟩ := bind_eq_ok.mp hfix
    have hleft : left' = left₁ := by
      split at hfix
      · cases hfix
        rfl
      · cases hfix
        rfl
    rw [hleft]
    exact fixValuesFast_signs hfast
  dsimp only at h
  split at h
  · obtain ⟨sec, -, h⟩ := bind_eq_ok.mp h
    obtain ⟨nsec, -, h⟩ := bind_eq_ok.mp h
    cases h
    exact ⟨rfl, rfl⟩
  · split at h
    · cases h
      exact ⟨rfl, rfl⟩
    · omega

end Timer

end AlibC
