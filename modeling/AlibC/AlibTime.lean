import AlibC.Timer
import AlibC.Lib.Heap

/-! What the functions of `alib_time` do to instants: the total of nanoseconds, its form as seconds
and nanoseconds, and the order. -/
namespace AlibC.Timespec

open CLang

/-- `timespec_init`. -/
def init (sec nsec : Int) : Outcome (AlibError × Timespec) := fixValues ⟨sec, nsec⟩

/-- `timespec_cmp`, which is given copies. -/
def cmp (a b : Timespec) : Outcome Int := do
  let (_, a) ← a.fixValues
  let (_, b) ← b.fixValues
  return cmpFast a b

/-- The members of `*out` are written one after the other, from those of `*a` and `*b` at that time,
and fixed then. -/
def combineTo (op : Int → Int → Int) (mem : Heap Timespec) (a b out : Option Nat) :
    Outcome (Heap Timespec) := do
  let x ← mem.get a
  let y ← mem.get b
  let sec ← checkLong (op x.sec y.sec)
  let mem ← mem.modify out fun t => { t with sec }
  let x ← mem.get a
  let y ← mem.get b
  let nsec ← checkLong (op x.nsec y.nsec)
  let mem ← mem.modify out fun t => { t with nsec }
  let t ← mem.get out
  let t ← t.fixValuesFast
  mem.modify out fun _ => t

/-- `timespec_subtract` on objects that may be the same. -/
def subtractTo (mem : Heap Timespec) (a b diff : Option Nat) : Outcome (Heap Timespec) :=
  combineTo (· - ·) mem a b diff

/-- `timespec_add` on objects that may be the same. -/
def addTo (mem : Heap Timespec) (a b sum : Option Nat) : Outcome (Heap Timespec) :=
  combineTo (· + ·) mem a b sum

/-- The instant as nanoseconds. -/
def total (t : Timespec) : Int := t.sec * NANOS_PER_SECOND + t.nsec

/-- Less than a second in the nanoseconds, and no two signs. -/
structure Canonical (t : Timespec) : Prop where
  lower : -NANOS_PER_SECOND < t.nsec
  upper : t.nsec < NANOS_PER_SECOND
  signs : ¬(t.sec < 0 ∧ t.nsec > 0) ∧ ¬(t.sec > 0 ∧ t.nsec < 0)

/-- The carry fits. -/
def Normalisable (t : Timespec) : Prop :=
  t.nsec > NANOS_PER_SECOND ∨ t.nsec < -NANOS_PER_SECOND →
    -9223372036854775808 ≤ t.sec + t.nsec.tdiv NANOS_PER_SECOND ∧
      t.sec + t.nsec.tdiv NANOS_PER_SECOND ≤ 9223372036854775807

/-- Exactly a second in the nanoseconds, of the sign of the seconds: it is not carried. -/
def Uncarried (t : Timespec) : Prop :=
  t.nsec = NANOS_PER_SECOND ∧ 0 ≤ t.sec ∨ t.nsec = -NANOS_PER_SECOND ∧ t.sec ≤ 0

instance (t : Timespec) : Decidable (Uncarried t) := inferInstanceAs (Decidable (_ ∨ _))

variable {a b c t t' : Timespec}

theorem total_eq (t : Timespec) : t.total = t.sec * 1000000000 + t.nsec := rfl

theorem nanos_eq : NANOS_PER_SECOND = 1000000000 := rfl

/-- There is one canonical form of an instant. -/
theorem Canonical.eq_of_total (ha : a.Canonical) (hb : b.Canonical) (h : a.total = b.total) :
    a = b := by
  obtain ⟨hal, hau, has⟩ := ha
  obtain ⟨hbl, hbu, hbs⟩ := hb
  rw [total_eq, total_eq] at h
  rw [nanos_eq] at hal hau hbl hbu
  have hsec : a.sec = b.sec := by omega
  have hnsec : a.nsec = b.nsec := by omega
  cases a
  cases b
  cases hsec
  cases hnsec
  rfl

theorem checkLong_eq {n : Int} (h : -9223372036854775808 ≤ n ∧ n ≤ 9223372036854775807) :
    checkLong n = .ok n := if_pos h

theorem checkLong_inv {n m : Int} (h : checkLong n = .ok m) : m = n := by
  rw [checkLong] at h
  split at h
  · cases h
    rfl
  · cases h

/-- Carrying changes no total, and leaves whole seconds only where it did not take place. -/
theorem carry_spec (h : t.carry = .ok t') : t'.total = t.total ∧
    (t.nsec > NANOS_PER_SECOND ∨ t.nsec < -NANOS_PER_SECOND →
      -NANOS_PER_SECOND < t'.nsec ∧ t'.nsec < NANOS_PER_SECOND) ∧
    (-NANOS_PER_SECOND ≤ t.nsec → t.nsec ≤ NANOS_PER_SECOND → t' = t) := by
  rw [carry] at h
  split at h
  case isTrue hout =>
    obtain ⟨sec, hsec, h⟩ := bind_eq_ok.mp h
    cases h
    have hsplit := Int.mul_tdiv_add_tmod t.nsec NANOS_PER_SECOND
    have hlow := Int.lt_tmod_of_pos t.nsec (show (0 : Int) < NANOS_PER_SECOND by decide)
    have hhigh := Int.tmod_lt_of_pos t.nsec (show (0 : Int) < NANOS_PER_SECOND by decide)
    refine ⟨?_, fun _ => ⟨hlow, hhigh⟩, fun hl hu => by omega⟩
    rw [checkLong_inv hsec, total, total, Int.add_mul, Int.mul_comm (Int.tdiv _ _)]
    dsimp only
    omega
  case isFalse hin =>
    cases h
    exact ⟨rfl, fun hout => absurd hout hin, fun _ _ => rfl⟩

/-- Borrowing a second changes no total. -/
theorem total_sameSign (t : Timespec) : t.sameSign.total = t.total := by
  rw [sameSign, total_eq, total_eq, nanos_eq]
  split
  · dsimp only
    omega
  · split
    · dsimp only
      omega
    · rfl

theorem sameSign_canonical (hlow : -NANOS_PER_SECOND ≤ t.nsec) (hhigh : t.nsec ≤ NANOS_PER_SECOND)
    (h : ¬t.Uncarried) : t.sameSign.Canonical := by
  rw [Uncarried] at h
  rw [sameSign]
  split
  · exact ⟨by dsimp only; omega, by dsimp only; omega, by dsimp only; omega⟩
  · split
    · exact ⟨by dsimp only; omega, by dsimp only; omega, by dsimp only; omega⟩
    · exact ⟨by omega, by omega, by omega⟩

/-- What is fixed keeps its total, and has the canonical form unless it is left as it is. -/
theorem fixValuesFast_spec (h : t.fixValuesFast = .ok t') : t'.total = t.total ∧
    (t.Uncarried → t' = t) ∧ (¬t.Uncarried → t'.Canonical) := by
  obtain ⟨t₁, hcarry, h⟩ := bind_eq_ok.mp h
  cases h
  obtain ⟨htotal, hout, hin⟩ := carry_spec hcarry
  refine ⟨(total_sameSign t₁).trans htotal, fun hleft => ?_, fun hleft => ?_⟩
  · rw [Uncarried] at hleft
    rw [hin (by omega) (by omega), sameSign, if_neg (by omega), if_neg (by omega)]
  · by_cases hcase : t.nsec > NANOS_PER_SECOND ∨ t.nsec < -NANOS_PER_SECOND
    · obtain ⟨hlow, hhigh⟩ := hout hcase
      refine sameSign_canonical (by omega) (by omega) ?_
      rw [Uncarried]
      omega
    · rw [hin (by omega) (by omega)]
      exact sameSign_canonical (by omega) (by omega) hleft

theorem Normalisable.exists_fix (h : t.Normalisable) : ∃ t', t.fixValuesFast = .ok t' := by
  rw [fixValuesFast, carry]
  split
  case isTrue hout => exact ⟨_, by rw [checkLong_eq (h hout)]; rfl⟩
  case isFalse => exact ⟨_, rfl⟩

/-- There is never a sign that differs. -/
theorem fixValues_eq (h : t.fixValuesFast = .ok t') : t.fixValues = .ok (.ok, t') := by
  have hsigns := fixValuesFast_signs h
  rw [fixValues, h, ok_bind, if_neg (by omega)]
  rfl

theorem fixValues_inv {code : AlibError} (h : t.fixValues = .ok (code, t')) :
    t.fixValuesFast = .ok t' := by
  obtain ⟨t₁, hfast, h⟩ := bind_eq_ok.mp h
  split at h
  · cases h
    exact hfast
  · cases h
    exact hfast

/-- A canonical form is left as it is, and so is what is not carried. -/
theorem fixValuesFast_self (h : t.Canonical ∨ t.Uncarried) : t.fixValuesFast = .ok t := by
  have hbounds : -NANOS_PER_SECOND ≤ t.nsec ∧ t.nsec ≤ NANOS_PER_SECOND ∧
      ¬(t.nsec < 0 ∧ t.sec > 0) ∧ ¬(t.nsec > 0 ∧ t.sec < 0) := by
    rcases h with ⟨hlow, hhigh, hsigns⟩ | h
    · omega
    · rw [Uncarried, nanos_eq] at h
      rw [nanos_eq]
      omega
  obtain ⟨hlow, hhigh, hneg, hpos⟩ := hbounds
  rw [fixValuesFast, carry, if_neg (by omega), ok_bind, sameSign, if_neg hneg, if_neg hpos]
  rfl

/-- Fixing twice is fixing once. -/
theorem fixValuesFast_twice (h : t.fixValuesFast = .ok t') : t'.fixValuesFast = .ok t' := by
  obtain ⟨-, hleft, hcanonical⟩ := fixValuesFast_spec h
  by_cases hu : t.Uncarried
  · rw [hleft hu]
    exact fixValuesFast_self (.inr hu)
  · exact fixValuesFast_self (.inl (hcanonical hu))

section Arithmetic

variable {op : Int → Int → Int} {mem : Heap Timespec} {i j out : Nat} {x y z r : Timespec}

/-- The members that are computed fit, and so does the carry. -/
structure NoOverflow (op : Int → Int → Int) (x y : Timespec) : Prop where
  sec : -9223372036854775808 ≤ op x.sec y.sec ∧ op x.sec y.sec ≤ 9223372036854775807
  nsec : -9223372036854775808 ≤ op x.nsec y.nsec ∧ op x.nsec y.nsec ≤ 9223372036854775807
  carry : Normalisable ⟨op x.sec y.sec, op x.nsec y.nsec⟩

/-- Where the first member was written the second one is still there. -/
theorem get_put_sec (hi : mem.cell i = some x) (ho : mem.cell out = some z) (sec : Int) :
    ∃ x', (mem.put out (some { z with sec })).get (some i) = .ok x' ∧ x'.nsec = x.nsec := by
  by_cases hio : i = out
  · subst hio
    cases hi.symm.trans ho
    exact ⟨{ x with sec }, Heap.get_eq (by rw [Heap.cell_put ho, Function.update_self]), rfl⟩
  · refine ⟨x, Heap.get_eq ?_, rfl⟩
    rw [Heap.cell_put ho, Function.update_of_ne hio, hi]

/-- Whichever of the objects are the same, the result is that of the values. -/
theorem combineTo_eq (h : NoOverflow op x y) (hi : mem.cell i = some x) (hj : mem.cell j = some y)
    (ho : mem.cell out = some z)
    (hr : fixValuesFast ⟨op x.sec y.sec, op x.nsec y.nsec⟩ = .ok r) :
    combineTo op mem (some i) (some j) (some out) = .ok (mem.put out (some r)) := by
  obtain ⟨x', hx, hxn⟩ := get_put_sec hi ho (op x.sec y.sec)
  obtain ⟨y', hy, hyn⟩ := get_put_sec hj ho (op x.sec y.sec)
  have h₁ : (mem.put out (some { z with sec := op x.sec y.sec })).cell out =
      some { z with sec := op x.sec y.sec } := by
    rw [Heap.cell_put ho, Function.update_self]
  have h₂ : (mem.put out (some ⟨op x.sec y.sec, op x.nsec y.nsec⟩)).cell out =
      some ⟨op x.sec y.sec, op x.nsec y.nsec⟩ := by
    rw [Heap.cell_put ho, Function.update_self]
  rw [combineTo, Heap.get_eq hi, ok_bind, Heap.get_eq hj, ok_bind, checkLong_eq h.sec, ok_bind,
    Heap.modify_eq ho, ok_bind, hx, ok_bind, hy, ok_bind, hxn, hyn, checkLong_eq h.nsec, ok_bind,
    Heap.modify_eq h₁, ok_bind, Heap.put_put, Heap.get_eq h₂, ok_bind, hr, ok_bind,
    Heap.modify_eq h₂, Heap.put_put]

theorem combineTo_exact (h : NoOverflow op x y) (hi : mem.cell i = some x)
    (hj : mem.cell j = some y) (ho : mem.cell out = some z) :
    ∃ mem' r, combineTo op mem (some i) (some j) (some out) = .ok mem' ∧
      mem'.cell out = some r ∧
      r.total = op x.sec y.sec * NANOS_PER_SECOND + op x.nsec y.nsec ∧
      ∀ c, c ≠ out → mem'.cell c = mem.cell c := by
  obtain ⟨r, hr⟩ := h.carry.exists_fix
  refine ⟨_, r, combineTo_eq h hi hj ho hr, ?_, (fixValuesFast_spec hr).1, fun c hc => ?_⟩
  · rw [Heap.cell_put ho, Function.update_self]
  · rw [Heap.cell_put ho, Function.update_of_ne hc]

/-- The total of the sum is the sum of the totals, and that of the difference the difference,
whichever of the objects are the same. What was added can be taken away again. -/
theorem arithmetic_exact (hi : mem.cell i = some x) (hj : mem.cell j = some y)
    (ho : mem.cell out = some z) :
    (NoOverflow (· + ·) x y → ∃ mem' r, addTo mem (some i) (some j) (some out) = .ok mem' ∧
      mem'.cell out = some r ∧ r.total = x.total + y.total ∧
      (∀ c, c ≠ out → mem'.cell c = mem.cell c) ∧
      ∀ {k diff : Nat} {w : Timespec}, mem'.cell k = some y → mem'.cell diff = some w →
        NoOverflow (· - ·) r y → ∃ mem'' d,
          subtractTo mem' (some out) (some k) (some diff) = .ok mem'' ∧
          mem''.cell diff = some d ∧ d.total = x.total) ∧
    (NoOverflow (· - ·) x y → ∃ mem' r, subtractTo mem (some i) (some j) (some out) = .ok mem' ∧
      mem'.cell out = some r ∧ r.total = x.total - y.total ∧
      ∀ c, c ≠ out → mem'.cell c = mem.cell c) := by
  constructor
  · intro h
    obtain ⟨mem', r, hadd, hr, htotal, hsame⟩ := combineTo_exact h hi hj ho
    have hsum : r.total = x.total + y.total := by
      rw [htotal, total, total, Int.add_mul]
      omega
    refine ⟨mem', r, hadd, hr, hsum, hsame, ?_⟩
    intro k diff w hk hdiff hfit
    obtain ⟨mem'', d, hsub, hd, htotal', -⟩ := combineTo_exact hfit hr hk hdiff
    refine ⟨mem'', d, hsub, hd, ?_⟩
    rw [total, total, total] at hsum
    rw [htotal', total, Int.sub_mul]
    omega
  · intro h
    obtain ⟨mem', r, hsub, hr, htotal, hsame⟩ := combineTo_exact h hi hj ho
    refine ⟨mem', r, hsub, hr, ?_, hsame⟩
    rw [htotal, total, total, Int.sub_mul]
    omega

/-- A sum that needs a carry and then a borrowed second, put where the second value was. -/
theorem arithmetic_exact_aliased : ∃ mem' r,
    addTo ⟨[some ⟨1, 700000000⟩, some ⟨-3, 600000000⟩]⟩ (some 0) (some 1) (some 1) = .ok mem' ∧
      mem'.cell 1 = some r ∧ r.total = total ⟨1, 700000000⟩ + total ⟨-3, 600000000⟩ := by
  obtain ⟨mem', r, hadd, hr, htotal, -⟩ := (@arithmetic_exact
    ⟨[some ⟨1, 700000000⟩, some ⟨-3, 600000000⟩]⟩ 0 1 1 _ _ _ rfl rfl rfl).1
    ⟨by decide, by decide, fun _ => by decide⟩
  exact ⟨mem', r, hadd, hr, htotal⟩

end Arithmetic

section Form

/-- The calls whose result is a timespec that was fixed. -/
inductive Call where
  | fixValues (t : Timespec)
  | init (sec nsec : Int)
  | add (a b : Timespec)
  | subtract (a b : Timespec)

/-- What is fixed. -/
def Call.raw : Call → Timespec
  | .fixValues t => t
  | .init sec nsec => ⟨sec, nsec⟩
  | .add a b => ⟨a.sec + b.sec, a.nsec + b.nsec⟩
  | .subtract a b => ⟨a.sec - b.sec, a.nsec - b.nsec⟩

def Call.result : Call → Outcome Timespec
  | .fixValues t => do
    let (_, t) ← t.fixValues
    return t
  | .init sec nsec => do
    let (_, t) ← Timespec.init sec nsec
    return t
  | .add a b => a.add b
  | .subtract a b => a.subtract b

variable {x y : Call} {r s : Timespec}

theorem Call.fixed (h : x.result = .ok r) : x.raw.fixValuesFast = .ok r := by
  cases x with
  | fixValues t =>
    obtain ⟨⟨code, t'⟩, hfix, h⟩ := bind_eq_ok.mp h
    cases h
    exact fixValues_inv hfix
  | init sec nsec =>
    obtain ⟨⟨code, t'⟩, hfix, h⟩ := bind_eq_ok.mp h
    cases h
    exact fixValues_inv hfix
  | add a b =>
    obtain ⟨sec, hsec, h⟩ := bind_eq_ok.mp h
    obtain ⟨nsec, hnsec, h⟩ := bind_eq_ok.mp h
    rw [checkLong_inv hsec, checkLong_inv hnsec] at h
    exact h
  | subtract a b =>
    obtain ⟨sec, hsec, h⟩ := bind_eq_ok.mp h
    obtain ⟨nsec, hnsec, h⟩ := bind_eq_ok.mp h
    rw [checkLong_inv hsec, checkLong_inv hnsec] at h
    exact h

/-- What fixing has to do: the canonical form of the same instant, which is fixed to itself. -/
def FixesWell (t : Timespec) : Prop :=
  ∃ t', t.fixValues = .ok (.ok, t') ∧ t'.Canonical ∧ t'.total = t.total ∧
    t'.fixValues = .ok (.ok, t')

theorem Uncarried.not_canonical (h : t.Uncarried) : ¬t.Canonical := by
  rintro ⟨hlow, hhigh, -⟩
  rw [Uncarried] at h
  omega

/-- An instant is left uncarried in one way at most. -/
theorem Uncarried.eq_of_total (ha : a.Uncarried) (hb : b.Uncarried) (h : a.total = b.total) :
    a = b := by
  rw [Uncarried, nanos_eq] at ha hb
  rw [total_eq, total_eq] at h
  have hsec : a.sec = b.sec := by omega
  have hnsec : a.nsec = b.nsec := by omega
  cases a
  cases b
  cases hsec
  cases hnsec
  rfl

theorem uncarried_fixed (h : t.fixValuesFast = .ok t') : t'.Uncarried ↔ t.Uncarried := by
  obtain ⟨-, hleft, hcanonical⟩ := fixValuesFast_spec h
  by_cases hu : t.Uncarried
  · rw [hleft hu]
  · exact iff_of_false (fun hu' => hu'.not_canonical (hcanonical hu)) hu

theorem fixed_canonical (h : t.fixValuesFast = .ok t') (hu : ¬t'.Uncarried) : t'.Canonical :=
  (fixValuesFast_spec h).2.2 (mt (uncarried_fixed h).mpr hu)

/-- Two results of one total are equal when both or none of them come from a value whose nanoseconds
are left alone. -/
theorem result_eq_iff {x y : Call} {r s : Timespec} (hr : x.result = .ok r) (hs : y.result = .ok s)
    (htotal : r.total = s.total) : r = s ↔ (x.raw.Uncarried ↔ y.raw.Uncarried) := by
  have hr := Call.fixed hr
  have hs := Call.fixed hs
  rw [← uncarried_fixed hr, ← uncarried_fixed hs]
  constructor
  · rintro rfl
    exact Iff.rfl
  · intro hboth
    by_cases hu : r.Uncarried
    · exact hu.eq_of_total (hboth.mp hu) htotal
    · exact (fixed_canonical hr hu).eq_of_total (fixed_canonical hs (mt hboth.mpr hu)) htotal

/-- Fixing works but for exactly a second in the nanoseconds, and two results of one total are equal
exactly when both or none of them come from such a value. -/
theorem fixesWell_iff (t : Timespec) (ht : t.Normalisable) :
    (FixesWell t ↔ ¬t.Uncarried) ∧
    ∀ (x y : Call) (r s : Timespec), x.result = .ok r → y.result = .ok s → r.total = s.total →
      (r = s ↔ (x.raw.Uncarried ↔ y.raw.Uncarried)) := by
  refine ⟨?_, fun x y r s => result_eq_iff⟩
  obtain ⟨t', hfix⟩ := ht.exists_fix
  obtain ⟨htotal, hleft, hcanonical⟩ := fixValuesFast_spec hfix
  constructor
  · rintro ⟨t₁, h₁, hc, -⟩ hu
    cases (hfix.symm.trans (fixValues_inv h₁))
    rw [hleft hu] at hc
    exact hu.not_canonical hc
  · intro hu
    exact ⟨t', fixValues_eq hfix, hcanonical hu, htotal, fixValues_eq (fixValuesFast_twice hfix)⟩

/-- Several seconds in the nanoseconds, against the sign of the seconds. -/
theorem fixesWell_carried : FixesWell ⟨1, -2500000000⟩ ∧ ∀ r s,
    Call.result (.fixValues ⟨1, -2500000000⟩) = .ok r →
      Call.result (.subtract ⟨1, 0⟩ ⟨2, 500000000⟩) = .ok s → r.total = s.total → r = s := by
  have h := fixesWell_iff ⟨1, -2500000000⟩ fun _ => by decide
  exact ⟨h.1.mpr (by decide), fun r s hr hs htotal => (h.2 _ _ r s hr hs htotal).mpr (by decide)⟩

/-- A second in the nanoseconds stays there, so that one second has two forms. -/
theorem fix_leaves_second :
    fixValues ⟨0, 1000000000⟩ = .ok (.ok, ⟨0, 1000000000⟩) ∧ ¬FixesWell ⟨0, 1000000000⟩ ∧
      Call.result (.init 0 1000000000) = .ok ⟨0, 1000000000⟩ ∧
      Call.result (.init 1 0) = .ok ⟨1, 0⟩ ∧
      total ⟨0, 1000000000⟩ = total ⟨1, 0⟩ := by
  refine ⟨by decide, ?_, by decide, by decide, by decide⟩
  rintro ⟨t', hfix, ⟨-, hupper, -⟩, -⟩
  cases hfix
  exact absurd hupper (by decide)

end Form

section Order

/-- What fixing leaves. -/
structure Fixed (t : Timespec) : Prop where
  lower : -NANOS_PER_SECOND ≤ t.nsec
  upper : t.nsec ≤ NANOS_PER_SECOND
  signs : t.sec ≤ 0 ∧ t.nsec ≤ 0 ∨ 0 ≤ t.sec ∧ 0 ≤ t.nsec

theorem fixed_of_fix (h : t.fixValuesFast = .ok t') : t'.Fixed := by
  have hsigns := fixValuesFast_signs h
  by_cases hu : t'.Uncarried
  · rw [Uncarried, nanos_eq] at hu
    exact ⟨by rw [nanos_eq]; omega, by rw [nanos_eq]; omega, hsigns⟩
  · obtain ⟨hlow, hhigh, -⟩ := fixed_canonical h hu
    exact ⟨by omega, by omega, hsigns⟩

/-- Fewer seconds are an earlier instant, or the same one written in the other way. -/
theorem Fixed.total_lt (ha : a.Fixed) (hb : b.Fixed) (h : a.sec < b.sec) :
    a.total < b.total ∨ a.total = b.total ∧ ¬(a.Uncarried ↔ b.Uncarried) := by
  obtain ⟨hal, hau, has⟩ := ha
  obtain ⟨hbl, hbu, hbs⟩ := hb
  rw [total_eq, total_eq, Uncarried, Uncarried]
  rw [nanos_eq] at *
  omega

/-- The lexicographic order of fixed values is that of the instants, but for two ways to write one. -/
theorem Fixed.cmpFast_iff (ha : a.Fixed) (hb : b.Fixed) :
    cmpFast a b = (a.total - b.total).sign ↔ (a.total = b.total → (a.Uncarried ↔ b.Uncarried)) := by
  rw [cmpFast]
  split
  case isTrue hsec =>
    rcases hb.total_lt ha hsec with hlt | ⟨heq, hone⟩
    · rw [Int.sign_eq_one_of_pos (by omega)]
      exact iff_of_true rfl fun heq => by omega
    · rw [heq, Int.sub_self]
      exact iff_of_false (by decide) fun hboth => hone (hboth rfl).symm
  case isFalse hsec =>
    split
    case isTrue hsame =>
      have hdiff : a.total - b.total = a.nsec - b.nsec := by
        rw [total, total, hsame]
        omega
      rw [hdiff]
      split
      · rw [Int.sign_eq_one_of_pos (by omega)]
        exact iff_of_true rfl fun heq => by omega
      · split
        case isTrue hnsec =>
          rw [hnsec, Int.sub_self, Uncarried, Uncarried, hsame, hnsec]
          exact iff_of_true rfl fun _ => Iff.rfl
        · rw [Int.sign_eq_neg_one_of_neg (by omega)]
          exact iff_of_true rfl fun heq => by omega
    case isFalse hother =>
      rcases ha.total_lt hb (by omega) with hlt | ⟨heq, hone⟩
      · rw [Int.sign_eq_neg_one_of_neg (by omega)]
        exact iff_of_true rfl fun heq => by omega
      · rw [heq, Int.sub_self]
        exact iff_of_false (by decide) fun hboth => hone (hboth rfl)

theorem cmp_eq {a' b' : Timespec} (ha : a.fixValuesFast = .ok a') (hb : b.fixValuesFast = .ok b') :
    cmp a b = .ok (cmpFast a' b') := by
  rw [cmp, fixValues_eq ha, ok_bind]
  dsimp only
  rw [fixValues_eq hb, ok_bind]
  rfl

theorem cmpFast_swap (a b : Timespec) : cmpFast b a = -cmpFast a b := by
  rcases Int.lt_trichotomy a.sec b.sec with hsec | hsec | hsec
  · rw [cmpFast, cmpFast, if_pos hsec, if_neg (by omega), if_neg (by omega), Int.neg_neg]
  · rw [cmpFast, cmpFast, if_neg (show ¬b.sec > a.sec by omega), if_pos hsec.symm,
      if_neg (show ¬a.sec > b.sec by omega), if_pos hsec]
    rcases Int.lt_trichotomy a.nsec b.nsec with hnsec | hnsec | hnsec
    · rw [if_pos hnsec, if_neg (by omega), if_neg (by omega), Int.neg_neg]
    · rw [if_neg (by omega), if_pos hnsec.symm, if_neg (by omega), if_pos hnsec, Int.neg_zero]
    · rw [if_neg (by omega), if_neg (by omega), if_pos hnsec]
  · rw [cmpFast, cmpFast, if_neg (by omega), if_neg (by omega), if_pos hsec]

theorem cmp_inv {i : Int} (h : cmp a b = .ok i) : ∃ a' b', a.fixValuesFast = .ok a' ∧
    b.fixValuesFast = .ok b' ∧ i = cmpFast a' b' := by
  obtain ⟨⟨code, a'⟩, ha, h⟩ := bind_eq_ok.mp h
  obtain ⟨⟨code', b'⟩, hb, h⟩ := bind_eq_ok.mp h
  cases h
  exact ⟨a', b', fixValues_inv ha, fixValues_inv hb, rfl⟩

theorem cmp_trans {i j k : Int} (hi : cmp a b = .ok i) (hj : cmp b c = .ok j)
    (hk : cmp a c = .ok k) (hij : i ≤ 0) (hjk : j ≤ 0) : k ≤ 0 := by
  obtain ⟨a', b', ha, hb, rfl⟩ := cmp_inv hi
  obtain ⟨b₁, c', hb₁, hc, rfl⟩ := cmp_inv hj
  obtain ⟨a₁, c₁, ha₁, hc₁, rfl⟩ := cmp_inv hk
  cases hb.symm.trans hb₁
  cases ha.symm.trans ha₁
  cases hc.symm.trans hc₁
  exact NotAfter.trans hij hjk

/-- Comparing tells the sign of the difference of the totals unless one instant is written in two
ways. In any case it is an order in which nothing differs in sign when turned around, and what the
arithmetic returns need not be fixed again. -/
theorem cmp_orders_iff (a b : Timespec) (ha : a.Normalisable) (hb : b.Normalisable) :
    (cmp a b = .ok (a.total - b.total).sign ↔
      (a.total = b.total → (a.Uncarried ↔ b.Uncarried))) ∧
    (∃ i, cmp a b = .ok i ∧ cmp b a = .ok (-i)) ∧
    (∀ (c : Timespec) (i j k : Int), cmp a b = .ok i → cmp b c = .ok j → cmp a c = .ok k →
      i ≤ 0 → j ≤ 0 → k ≤ 0) ∧
    ∀ (x y : Call) (r s : Timespec), x.result = .ok r → y.result = .ok s →
      cmp r s = .ok (cmpFast r s) := by
  obtain ⟨a', ha'⟩ := ha.exists_fix
  obtain ⟨b', hb'⟩ := hb.exists_fix
  refine ⟨?_, ?_, fun c i j k => cmp_trans, fun x y r s hr hs => ?_⟩
  · rw [cmp_eq ha' hb', Except.ok.injEq, ← (fixValuesFast_spec ha').1, ← (fixValuesFast_spec hb').1,
      (fixed_of_fix ha').cmpFast_iff (fixed_of_fix hb'), uncarried_fixed ha', uncarried_fixed hb']
  · exact ⟨cmpFast a' b', cmp_eq ha' hb', by rw [cmp_eq hb' ha', cmpFast_swap a' b']⟩
  · exact cmp_eq (fixValuesFast_twice (Call.fixed hr)) (fixValuesFast_twice (Call.fixed hs))

/-- Two ways to write an instant that both are fixed to its canonical form. -/
theorem cmp_orders_carried : cmp ⟨1, -2500000000⟩ ⟨-1, -500000000⟩ = .ok 0 := by
  have h := cmp_orders_iff ⟨1, -2500000000⟩ ⟨-1, -500000000⟩ (fun _ => by decide) fun _ => by decide
  exact h.1.mpr (by decide)

/-- A second in the nanoseconds is taken for less than a second. -/
theorem cmp_splits_second :
    cmp ⟨0, 1000000000⟩ ⟨1, 0⟩ = .ok (-1) ∧ total ⟨0, 1000000000⟩ = total ⟨1, 0⟩ ∧
      cmp ⟨0, 1000000000⟩ ⟨1, 0⟩ ≠ .ok (total ⟨0, 1000000000⟩ - total ⟨1, 0⟩).sign := by
  refine ⟨by decide, by decide, by decide⟩

end Order

end AlibC.Timespec
