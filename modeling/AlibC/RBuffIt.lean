import AlibC.RBuffRuns

/-! `RBuffIt`: walking over an `RBuff` that is left alone. -/
namespace AlibC

open CLang Ring Machine

/-- The iterator is an offset into the memory of the ring; `none` is `NULL`. -/
structure RBuffIt where
  rbuff : RBuff
  it : Option Nat
deriving DecidableEq, Repr

namespace RBuffIt

/-- The offset is converted to `int`. -/
def getIndex (it : RBuffIt) : Int :=
  match it.it with
  | none => -1
  | some p =>
    if p < it.rbuff.itBegin then toInt32 (it.rbuff.buffEnd - it.rbuff.itBegin + p : Nat)
    else toInt32 (p - it.rbuff.itBegin : Nat)

def next (it : RBuffIt) : Bool × RBuffIt :=
  match it.it with
  | none =>
    if it.rbuff.count = 0 then (false, it) else (true, { it with it := some it.rbuff.itBegin })
  | some p =>
    let p := if p + 1 ≥ it.rbuff.buffEnd then 0 else p + 1
    if p = it.rbuff.itEnd then (false, { it with it := none }) else (true, { it with it := some p })

/-- In front of the first byte of the memory is its last one. -/
def prev (it : RBuffIt) : Bool × RBuffIt :=
  match it.it with
  | none =>
    if it.rbuff.count = 0 then (false, it) else (true, { it with it := some it.rbuff.itEnd })
  | some p =>
    if p = it.rbuff.itBegin then (false, { it with it := none })
    else (true, { it with it := some (if p = 0 then it.rbuff.buffEnd - 1 else p - 1) })

def reset (it : RBuffIt) : RBuffIt := { it with it := none }

def init (rbuff : RBuff) : RBuffIt := ⟨rbuff, none⟩

/-- The byte the iterator points to, if that is one of the memory. -/
def byte (it : RBuffIt) : Option UInt8 := it.it.bind fun p => it.rbuff.buff[p]?

/-- The iterator after `k` calls. -/
def after (move : RBuffIt → Bool × RBuffIt) (it : RBuffIt) : Nat → RBuffIt
  | 0 => it
  | k + 1 => (move (after move it k)).2

/-- The bytes are visited in order, each with its index, and then there are no more. -/
structure Forward (it : RBuffIt) (q : Block) : Prop where
  visited : ∀ k < q.length, (next (after next it.reset k)).1 = true ∧
    (after next it.reset (k + 1)).getIndex = k ∧ (after next it.reset (k + 1)).byte = q[k]?
  ended : (next (after next it.reset q.length)).1 = false

/-- The bytes are visited from the last one on, and then there are no more. -/
structure Backward (it : RBuffIt) (q : Block) : Prop where
  visited : ∀ k < q.length, (prev (after prev it.reset k)).1 = true ∧
    (after prev it.reset (k + 1)).byte = q[q.length - 1 - k]?
  ended : (prev (after prev it.reset q.length)).1 = false

variable {size k : Nat} {r : RBuff} {q : Block}

section Next

/-- One call from the byte `k` on. -/
theorem next_slot (h : r.Stores size q) (hk : k < size) :
    next ⟨r, some (slot size r.itBegin k)⟩ =
      if slot size r.itBegin (k + 1) = r.itEnd then (false, ⟨r, none⟩)
      else (true, ⟨r, some (slot size r.itBegin (k + 1))⟩) := by
  have hb := h.begin_lt
  have hstep : (if slot size r.itBegin k + 1 ≥ r.buffEnd then 0 else slot size r.itBegin k + 1) =
      slot size r.itBegin (k + 1) := by
    have hslot := slot_cases size r.itBegin k
    have hslot' := slot_cases size r.itBegin (k + 1)
    rw [h.buffEnd_eq]
    split <;> omega
  rw [next]
  dsimp only
  rw [hstep]

theorem slot_ne_end (h : r.Stores size q) (hk : k + 1 < q.length) :
    slot size r.itBegin (k + 1) ≠ r.itEnd := by
  have hb := h.begin_lt
  have hl := h.length_le
  have hend := h.itEnd_eq
  have hslot := slot_cases size r.itBegin (k + 1)
  omega

/-- Behind the last byte is the end iterator, unless that rests behind the memory. -/
theorem slot_length_iff (h : r.Stores size q) :
    slot size r.itBegin q.length = r.itEnd ↔ r.itEnd ≠ size := by
  have hb := h.begin_lt
  have hl := h.length_le
  have hle := h.itEnd_le
  have hend := h.itEnd_eq
  have hslot := slot_cases size r.itBegin q.length
  omega

theorem after_next (h : r.Stores size q) : ∀ k < q.length,
    (next (after next ⟨r, none⟩ k)).1 = true ∧
      after next ⟨r, none⟩ (k + 1) = ⟨r, some (slot size r.itBegin k)⟩ := by
  intro k
  have hb := h.begin_lt
  have hl := h.length_le
  induction k with
  | zero =>
    intro hk
    have hne : ¬(r.count = 0) := by
      rw [h.count_eq]
      omega
    have hslot := slot_cases size r.itBegin 0
    have hzero : slot size r.itBegin 0 = r.itBegin := by omega
    have hnext : next (after next ⟨r, none⟩ 0) = (true, ⟨r, some (slot size r.itBegin 0)⟩) := by
      rw [hzero]
      exact if_neg hne
    exact ⟨by rw [hnext], by rw [after, hnext]⟩
  | succ k ih =>
    intro hk
    obtain ⟨-, hat⟩ := ih (by omega)
    have hnext : next (after next ⟨r, none⟩ (k + 1)) =
        (true, ⟨r, some (slot size r.itBegin (k + 1))⟩) := by
      rw [hat, next_slot h (by omega), if_neg (slot_ne_end h hk)]
    exact ⟨by rw [hnext], by rw [after, hnext]⟩

theorem getIndex_slot (h : r.Stores size q) (hk : k < size) :
    getIndex ⟨r, some (slot size r.itBegin k)⟩ = toInt32 k := by
  have hb := h.begin_lt
  have hslot := slot_cases size r.itBegin k
  rw [getIndex]
  dsimp only
  rw [h.buffEnd_eq]
  by_cases hlt : slot size r.itBegin k < r.itBegin
  · have hindex : size - r.itBegin + slot size r.itBegin k = k := by omega
    rw [if_pos hlt, hindex]
  · have hindex : slot size r.itBegin k - r.itBegin = k := by omega
    rw [if_neg hlt, hindex]

theorem byte_slot (h : r.Stores size q) (hk : k < q.length) :
    byte ⟨r, some (slot size r.itBegin k)⟩ = q[k]? := by
  have hcell := h.holds.cell k hk
  rw [h.length_buff] at hcell
  exact hcell

/-- `RBuffIt_next` goes over an empty ring, and over one whose end iterator does not rest behind the
memory and whose indices an `int` has. -/
theorem forward_iff (h : r.Stores size q) (it : Option Nat) :
    Forward ⟨r, it⟩ q ↔ q.length = 0 ∨ r.itEnd ≠ size ∧ q.length ≤ 2 ^ 31 := by
  have hl := h.length_le
  by_cases hz : q.length = 0
  · refine iff_of_true ⟨fun k hk => by omega, ?_⟩ (.inl hz)
    have hcount : r.count = 0 := by rw [h.count_eq, hz]
    rw [hz, after, reset, next]
    dsimp only
    rw [if_pos hcount]
  · obtain ⟨n, hn⟩ : ∃ n, q.length = n + 1 := ⟨q.length - 1, by omega⟩
    obtain ⟨-, hlast⟩ := after_next h n (by omega)
    have hend : (next (after next ⟨r, none⟩ q.length)).1 = false ↔ r.itEnd ≠ size := by
      rw [hn, hlast, next_slot h (by omega), ← slot_length_iff h, hn]
      by_cases he : slot size r.itBegin (n + 1) = r.itEnd
      · rw [if_pos he]
        exact iff_of_true rfl he
      · rw [if_neg he]
        exact iff_of_false Bool.noConfusion he
    constructor
    · intro hf
      refine .inr ⟨hend.mp hf.ended, ?_⟩
      obtain ⟨-, hindex, -⟩ := hf.visited n (by omega)
      rw [reset, hlast, getIndex_slot h (by omega)] at hindex
      unfold toInt32 at hindex
      omega
    · rintro (hzero | ⟨hne, hint⟩)
      · exact absurd hzero hz
      · refine ⟨fun k hk => ?_, hend.mpr hne⟩
        obtain ⟨hmore, hat⟩ := after_next h k hk
        refine ⟨hmore, ?_, ?_⟩
        · rw [reset, hat, getIndex_slot h (by omega)]
          exact toInt32_eq (by omega) (by omega)
        · rw [reset, hat, byte_slot h hk]

end Next

section Prev

/-- The walk back starts at the end iterator, which is one step too far. -/
theorem after_prev (h : r.Stores size q) (hpos : 0 < q.length) (hne : r.itEnd ≠ r.itBegin) :
    ∀ k ≤ q.length, (prev (after prev ⟨r, none⟩ k)).1 = true ∧
      ∃ p ≤ size, after prev ⟨r, none⟩ (k + 1) = ⟨r, some p⟩ ∧
        (p = r.itBegin + (q.length - k) ∨ p + size = r.itBegin + (q.length - k) ∨
          p = r.itBegin + (q.length - k) + size) ∧ (k = 0 → p = r.itEnd) := by
  intro k
  have hb := h.begin_lt
  have hl := h.length_le
  induction k with
  | zero =>
    intro _
    have hcount : ¬(r.count = 0) := by
      rw [h.count_eq]
      omega
    have hprev : prev (after prev ⟨r, none⟩ 0) = (true, ⟨r, some r.itEnd⟩) := if_neg hcount
    exact ⟨by rw [hprev], r.itEnd, h.itEnd_le, by rw [after, hprev], h.itEnd_eq, fun _ => rfl⟩
  | succ k ih =>
    intro hk
    obtain ⟨-, p, hp, hat, hplace, hfirst⟩ := ih (by omega)
    have hbegin : ¬(p = r.itBegin) := by
      by_cases hz : k = 0
      · rw [hfirst hz]
        exact hne
      · omega
    have hprev : prev (after prev ⟨r, none⟩ (k + 1)) =
        (true, ⟨r, some (if p = 0 then size - 1 else p - 1)⟩) := by
      rw [hat, ← h.buffEnd_eq]
      exact if_neg hbegin
    refine ⟨by rw [hprev], if p = 0 then size - 1 else p - 1, ?_, by rw [after, hprev], ?_,
      fun hz => absurd hz (by omega)⟩
    · split <;> omega
    · split <;> omega

/-- So it goes over none but an empty ring. -/
theorem backward_iff (h : r.Stores size q) (ha : r.Ahead) (it : Option Nat) :
    Backward ⟨r, it⟩ q ↔ q.length = 0 := by
  have hb := h.begin_lt
  have hl := h.length_le
  have hcount := h.count_eq
  constructor
  · intro hback
    by_contra hz
    by_cases hne : r.itEnd = r.itBegin
    · -- a full ring: the second call already ends the walk
      have hend := h.itEnd_eq
      have hfull : 1 < q.length := by
        unfold RBuff.Ahead at ha
        omega
      obtain ⟨hmore, -⟩ := hback.visited 1 hfull
      have hstart : ¬(r.count = 0) := by omega
      have hfirst : prev ⟨r, none⟩ = (true, ⟨r, some r.itEnd⟩) := if_neg hstart
      have hsecond : prev ⟨r, some r.itEnd⟩ = (false, ⟨r, none⟩) := if_pos hne
      rw [reset, after, after, hfirst, hsecond] at hmore
      cases hmore
    · have hmore := (after_prev h (by omega) hne q.length (Nat.le_refl _)).1
      have hended := hback.ended
      rw [reset, hmore] at hended
      cases hended
  · intro hz
    refine ⟨fun k hk => by omega, ?_⟩
    have hcount : r.count = 0 := by rw [h.count_eq, hz]
    rw [hz, after, reset, prev]
    dsimp only
    rw [if_pos hcount]

end Prev

/-- Of every ring that is reached: both walks go over none but an empty one, and the walk forward
over those of which the end iterator does not rest behind the memory. -/
theorem run_enumerates_iff {flags : Nat} {blk : Block} (hblk : blk.length = size)
    (hs : size ≤ PTRDIFF_MAX) (hinit : RBuff.init (some blk) size flags = some r)
    {ops : List RBuff.Op} (hok : AllSteps RBuff.step (RBuff.Fits size) r ops) (it : Option Nat) :
    ∃ replies r' q, run RBuff.step r ops = .ok (replies, r') ∧ r'.Stores size q ∧
      (Forward ⟨r', it⟩ q ∧ Backward ⟨r', it⟩ q ↔ r'.count = 0) ∧
      (Forward ⟨r', it⟩ q ↔ r'.count = 0 ∨ r'.itEnd ≠ size ∧ r'.count ≤ 2 ^ 31) := by
  obtain ⟨replies, r', hr, ⟨q, h⟩, -, ha⟩ := RBuff.run_stores hblk hs hinit hok
  have hf := forward_iff h it
  have hb := backward_iff h ha it
  rw [← h.count_eq] at hf hb
  refine ⟨replies, r', q, hr, h, ?_, hf⟩
  rw [hf, hb]
  exact ⟨fun hc => hc.2, fun hz => ⟨.inl hz, hz⟩⟩

theorem run_enumerates_two :
    ∃ replies r' q, run RBuff.step { buff := [0, 0, 0, 0], buffEnd := 4, itBegin := 0, itEnd := 0
                                     count := 0, flags := 1 }
        [.pushback (some [1, 2, 3]) 3, .popoffByte] = .ok (replies, r') ∧ r'.Stores 4 q ∧
      (Forward ⟨r', none⟩ q ∧ Backward ⟨r', none⟩ q ↔ r'.count = 0) ∧
      (Forward ⟨r', none⟩ q ↔ r'.count = 0 ∨ r'.itEnd ≠ 4 ∧ r'.count ≤ 2 ^ 31) :=
  @run_enumerates_iff 4 _ 1 [0, 0, 0, 0] rfl (by decide) rfl
    [.pushback (some [1, 2, 3]) 3, .popoffByte]
    ⟨fun data hb => by cases hb; decide, fun _ _ _ => ⟨trivial, fun _ _ _ => trivial⟩⟩ none

/-- Three bytes in a ring of four: the first one of the walk back is the one behind them. With a
fourth byte the walk forward does not end. -/
theorem prev_starts_behind :
    run RBuff.step { buff := [0, 0, 0, 0], buffEnd := 4, itBegin := 0, itEnd := 0, count := 0
                     flags := 1 }
        [.pushback (some [1, 2, 3]) 3] =
      .ok ([.count 3],
        { buff := [1, 2, 3, 0], buffEnd := 4, itBegin := 0, itEnd := 3, count := 3, flags := 1 }) ∧
    ¬Backward ⟨{ buff := [1, 2, 3, 0], buffEnd := 4, itBegin := 0, itEnd := 3, count := 3
                 flags := 1 }, none⟩ [1, 2, 3] ∧
    run RBuff.step { buff := [0, 0, 0, 0], buffEnd := 4, itBegin := 0, itEnd := 0, count := 0
                     flags := 1 }
        [.pushback (some [1, 2, 3]) 3, .pushbackByte 4] =
      .ok ([.count 3, .byte 1],
        { buff := [1, 2, 3, 4], buffEnd := 4, itBegin := 0, itEnd := 4, count := 4, flags := 1 }) ∧
    ¬Forward ⟨{ buff := [1, 2, 3, 4], buffEnd := 4, itBegin := 0, itEnd := 4, count := 4
                flags := 1 }, none⟩ [1, 2, 3, 4] := by
  refine ⟨by decide, fun hb => ?_, by decide, fun hf => ?_⟩
  · exact absurd (hb.visited 0 (by decide)).2 (by decide)
  · exact absurd hf.ended (by decide)

end RBuffIt

end AlibC
