import AlibC.BinaryBufferInvariant

/-! How far a `BinaryBuffer` grows, when it is given a target and when it is not. -/
namespace AlibC.BinaryBuffer

open CLang

variable {al : Alloc UInt8} {b : BinaryBuffer} {c target newCap : Nat}

/-- With a target the growth ends with enough room, and goes past the target by less than one step
of `maxExpand`. -/
theorem expandToTarget_suffices (hal : al.Succeeds) (h : b.WF) (ht : target ≤ ULONG_MAX) :
    ∃ b', expandToTarget al b target = .ok (.ok, b') ∧ target ≤ b'.capacity ∧
      b.capacity ≤ b'.capacity ∧ b.minCap ≤ b'.capacity ∧
      (b'.capacity < target + b.maxExpand ∨ b'.capacity = b.minCap ∨
        b'.capacity = b.capacity ∨ b'.capacity = ULONG_MAX) ∧
      b'.contents = b.contents ∧ b'.len = b.len := by
  obtain ⟨b', hr, -, htarget, hcap, hcont, hlen, -, hbound⟩ :=
    expandToTarget_eq hal h (lt_of_le_max ht)
  exact ⟨b', hr, htarget, by omega, by omega, hbound, hcont, hlen⟩

/-- Four bytes of five. -/
def fourOfFive : BinaryBuffer where
  buff := some [1, 2, 3, 4, 0]
  len := 4
  capacity := 5
  minCap := 2
  maxExpand := 3

theorem fourOfFive_wf : fourOfFive.WF :=
  ⟨rfl, by decide, by decide, by decide, by decide, by decide⟩

theorem expandToTarget_suffices_nine : ∃ b',
    expandToTarget (.filled 0) fourOfFive 9 = .ok (.ok, b') ∧ 9 ≤ b'.capacity ∧
      b'.capacity < 12 ∧ b'.contents = [1, 2, 3, 4] := by
  obtain ⟨b', hr, htarget, -, -, hbound, hcont, -⟩ := expandToTarget_suffices
    (Alloc.filled_succeeds 0) fourOfFive_wf (show 9 ≤ ULONG_MAX by decide)
  have hr' : expandToTarget (.filled 0) fourOfFive 9 =
      .ok (.ok, ⟨some [1, 2, 3, 4, 0, 0, 0, 0, 0, 0, 0], 4, 11, 2, 3⟩) := by decide
  rw [hr'] at hr
  cases hr
  exact ⟨_, hr', htarget, by decide, hcont⟩

section Expand

/-- The documented step: twice the size, or `maxExpand` more, whichever is smaller. -/
def expanded (b : BinaryBuffer) (c : Nat) : Nat := if c = 0 then 1 else c + min c b.maxExpand

/-- The step is cut off at the largest `size_t`. -/
theorem calculateExpansion_eq (hmax : b.maxExpand ≤ ULONG_MAX) (hc : c ≤ ULONG_MAX) :
    b.calculateExpansion c = min ULONG_MAX (b.expanded c) := by
  have hadd : sizeAdd c b.maxExpand = (c + b.maxExpand) % 2 ^ 64 := rfl
  have hmul : sizeMul c 2 = (c * 2) % 2 ^ 64 := rfl
  unfold ULONG_MAX at hmax hc
  unfold calculateExpansion expanded ULONG_MAX
  split
  · rfl
  · dsimp only
    split <;> split <;> omega

/-- Two sizes have the same step only if they are the same. -/
theorem expanded_inj (hpos : 0 < b.maxExpand) {d : Nat} (h : b.expanded c = b.expanded d) :
    c = d := by
  unfold expanded at h
  split at h <;> split at h <;> omega

theorem le_expanded (b : BinaryBuffer) (c : Nat) : c ≤ b.expanded c := by
  unfold expanded
  split <;> omega

/-- The buffer grows by the documented step and keeps what it stores. -/
def Grows (al : Alloc UInt8) (b : BinaryBuffer) (newCap : Nat) : Prop :=
  ∃ b', expand al b newCap = (.ok, b') ∧
    b'.capacity = max b.minCap (min ULONG_MAX (b.expanded b.capacity)) ∧
    b'.contents = b.contents ∧ b'.len = b.len

/-- The step is taken from whatever `new_cap` contains. It is the documented one when that is the
capacity, and when the difference is lost in the bounds. -/
theorem expand_grows_iff (hal : al.Succeeds) (h : b.WF) (hmax : b.maxExpand ≤ ULONG_MAX)
    (hcap : b.capacity < ULONG_MAX) (hnew : newCap ≤ ULONG_MAX) :
    Grows al b newCap ↔ newCap = b.capacity ∨ b.minCap = ULONG_MAX ∨
      (ULONG_MAX ≤ b.expanded newCap ∧ ULONG_MAX ≤ b.expanded b.capacity) ∨
      (b.expanded newCap ≤ b.minCap ∧ b.expanded b.capacity ≤ b.minCap) := by
  have hlast : ULONG_MAX = 2 ^ 64 - 1 := rfl
  have hminCap := h.minCap_lt
  have hexpand : expand al b newCap = resize al b (min ULONG_MAX (b.expanded newCap)) := by
    rw [expand, if_neg (Nat.ne_of_lt hcap), calculateExpansion_eq hmax hnew]
  have hinj := @expanded_inj b newCap h.maxExpand_pos b.capacity
  constructor
  · intro ⟨b', hr, hcap', _⟩
    obtain ⟨b'', hr'', -, hcap'', -⟩ :=
      resize_eq hal h (show min ULONG_MAX (b.expanded newCap) < 2 ^ 64 by omega)
    rw [hexpand, hr''] at hr
    cases hr
    omega
  · intro hcond
    have hsame : max b.minCap (min ULONG_MAX (b.expanded b.capacity)) =
        max (min ULONG_MAX (b.expanded newCap)) b.minCap := by
      rcases hcond with rfl | hcond
      · rw [Nat.max_comm]
      · omega
    have hle := b.le_expanded b.capacity
    have hlen := h.len_le
    obtain ⟨b', hr, -, hcap', hcont, hlen', -⟩ := resize_keeps hal h
      (show min ULONG_MAX (b.expanded newCap) < 2 ^ 64 by omega) (by omega)
    exact ⟨b', hexpand.trans hr, hcap'.trans hsame.symm, hcont, hlen'⟩

/-- With the capacity in the variable. -/
theorem expand_grows_five : Grows (.filled 0) fourOfFive 5 :=
  (expand_grows_iff (Alloc.filled_succeeds 0) fourOfFive_wf (by decide) (by decide)
    (by decide)).mpr (.inl rfl)

/-- With nothing in the variable the buffer shrinks to its least capacity, and two bytes are
lost. -/
theorem expand_shrinks : fourOfFive.WF ∧ ¬Grows (.filled 0) fourOfFive 0 ∧
    expand (.filled 0) fourOfFive 0 = (.ok, ⟨some [1, 2], 2, 2, 2, 3⟩) := by
  have hr : expand (.filled 0) fourOfFive 0 = (.ok, ⟨some [1, 2], 2, 2, 2, 3⟩) := by decide
  refine ⟨fourOfFive_wf, fun ⟨b', hr', _, _, hlen⟩ => ?_, hr⟩
  rw [hr] at hr'
  cases hr'
  exact absurd hlen (by decide)

end Expand

end AlibC.BinaryBuffer
