import AlibC.RBuffRuns

/-! Bytes that the caller writes into the memory of an `RBuff` himself. -/
namespace AlibC.RBuff

open CLang Ring Machine

variable {size count : Nat} {r : RBuff} {q d : Block}

/-- `RBuff_increment_it`. -/
def rbuffIncrementIt (r : RBuff) (count : Nat) : RBuff :=
  if count = 0 then r
  else
    let buffSize := r.getSize
    let r :=
      if sizeAdd r.count count > buffSize then
        { r with itBegin := r.incrementIt r.itBegin count, count := buffSize }
      else { r with count := sizeAdd r.count count }
    { r with itEnd := r.incrementIt r.itEnd count }

/-- What the caller does before: he writes at the end iterator, and around the end of the memory. -/
def writeEnd (r : RBuff) (d : Block) : RBuff := { r with buff := write r.buff r.itEnd d }

/-- What an increment has to leave of a ring behind whose bytes `d` was written. -/
structure Incremented (size : Nat) (r r' : RBuff) (q d : Block) : Prop where
  count_eq : r'.count = min (r.count + d.length) size
  itBegin_eq : r'.itBegin = (r.itBegin + (r.count + d.length - size)) % size
  itEnd_eq : r'.itEnd % size = (r'.itBegin + r'.count) % size
  copy_eq : ∀ dst : Block, r'.count ≤ dst.length → r'.copy (some dst) r'.count =
    .ok (r'.count, some ((q ++ d).rtake size ++ dst.drop r'.count))

/-- A ring that stores the newest bytes from there on is one. -/
theorem Stores.incremented {r' : RBuff} (h : Stores size r q)
    (h' : Stores size r' ((q ++ d).rtake size))
    (hb : r'.itBegin = slot size r.itBegin (q.length + d.length - size))
    (hd : d.length ≤ size) : Incremented size r r' q d := by
  have hcount : r'.count = min (q.length + d.length) size := by
    rw [h'.count_eq, List.rtake, List.length_drop, List.length_append]
    omega
  refine ⟨by rw [hcount, h.count_eq], ?_, ?_, fun dst hdst => ?_⟩
  · have hl := h.length_le
    rw [hb, slot_eq_mod h.begin_lt (by omega), h.count_eq]
  · rw [h'.count_eq]
    rcases h'.itEnd_eq with heq | heq | heq
    · rw [heq]
    · rw [← heq, Nat.add_mod_right]
    · rw [heq, Nat.add_mod_right]
  · have hroom : HasRoom ((q ++ d).rtake size) r'.count (some dst) := fun blk hblk => by
      cases hblk
      rw [← h'.count_eq]
      omega
    rw [RBuff.copy_eq h' hroom, h'.count_eq, Nat.min_self, handOut, List.take_length]
    simp [overwrite]

/-- The ring that is left, in either case. -/
theorem rbuffIncrementIt_eq (h : Stores size r q) (hpos : 0 < d.length) (hd : d.length ≤ size) :
    rbuffIncrementIt (writeEnd r d) d.length =
      { buff := write r.buff r.itEnd d, buffEnd := r.buffEnd
        itBegin := if size < q.length + d.length then slot size r.itBegin d.length else r.itBegin
        itEnd := slot size r.itEnd d.length
        count := min (q.length + d.length) size, flags := r.flags } := by
  have hs := h.size_le
  unfold PTRDIFF_MAX at hs
  have hl := h.length_le
  have hend := h.buffEnd_eq
  have hadd : sizeAdd q.length d.length = q.length + d.length := sizeAdd_eq (by omega)
  have hincr : ∀ it, slot size it d.length = r.incrementIt it d.length :=
    fun it => (incrementIt_eq hend hd it).symm
  have hcount : (writeEnd r d).count = q.length := h.count_eq
  have hsize : (writeEnd r d).getSize = size := hend
  rw [rbuffIncrementIt, if_neg (Nat.ne_of_gt hpos), hcount, hsize, hadd]
  dsimp only
  by_cases hover : q.length + d.length > size
  · rw [if_pos hover, if_pos hover, Nat.min_eq_right (Nat.le_of_lt hover), hincr, hincr]
    rfl
  · rw [if_neg hover, if_neg hover, Nat.min_eq_left (by omega), hincr]
    rfl

/-- What was written is stored where the begin iterator is moved as it should be. -/
theorem rbuffIncrementIt_stores (h : Stores size r q) (hpos : 0 < d.length) (hd : d.length ≤ size)
    (hc : q.length + d.length ≤ size ∨ q.length = size) :
    Stores size (rbuffIncrementIt (writeEnd r d) d.length) ((q ++ d).rtake size) ∧
      (rbuffIncrementIt (writeEnd r d) d.length).itBegin =
        slot size r.itBegin (q.length + d.length - size) := by
  have hb := h.begin_lt
  have hl := h.length_le
  have hlen := h.length_buff
  have hle := h.itEnd_le
  have hend := h.itEnd_eq
  have hbegin : (if size < q.length + d.length then slot size r.itBegin d.length else r.itBegin) =
      slot size r.itBegin (q.length + d.length - size) := by
    by_cases hover : size < q.length + d.length
    · have hall : q.length + d.length - size = d.length := by omega
      rw [if_pos hover, hall]
    · have hslot := slot_cases size r.itBegin (q.length + d.length - size)
      rw [if_neg hover]
      omega
  have hwrite := h.holds.write (e := r.itEnd) (d := d) (by omega) (by rw [hlen]; exact hend)
    (by omega)
  rw [hlen] at hwrite
  have hq : ((q ++ d).rtake size).length = min (q.length + d.length) size := by
    rw [List.rtake, List.length_drop, List.length_append]
    omega
  rw [rbuffIncrementIt_eq h hpos hd, hbegin]
  refine ⟨⟨?_, ?_, h.buffEnd_eq, h.size_le, hq.symm, ?_, ?_⟩, rfl⟩
  · rw [List.rtake, List.length_append]
    exact hwrite
  · rw [length_write (by omega) (by omega), hlen]
  · dsimp only
    unfold slot
    split <;> omega
  · have hslot := slot_cases size r.itBegin (q.length + d.length - size)
    have hslot' := slot_cases size r.itEnd d.length
    rw [hq]
    dsimp only
    omega

/-- An increment leaves the ring as it has to exactly when it does not run over its begin, or does so
from the first byte on. -/
theorem incremented_iff (h : Stores size r q) (hpos : 0 < d.length) (hd : d.length ≤ size) :
    Incremented size r (rbuffIncrementIt (writeEnd r d) d.length) q d ↔
      r.count + d.length ≤ size ∨ r.count = size := by
  have hb := h.begin_lt
  have hl := h.length_le
  rw [h.count_eq]
  constructor
  · intro hi
    have hbegin := hi.itBegin_eq
    rw [h.count_eq, ← slot_eq_mod hb (by omega), rbuffIncrementIt_eq h hpos hd] at hbegin
    dsimp only at hbegin
    by_contra hno
    rw [if_pos (by omega)] at hbegin
    unfold slot at hbegin
    split at hbegin <;> split at hbegin <;> omega
  · intro hc
    obtain ⟨h', hbegin⟩ := rbuffIncrementIt_stores h hpos hd hc
    exact h.incremented h' hbegin hd

section Runs

/-- A call, or bytes that the caller writes behind the ring and tells of. -/
inductive Action where
  | call (op : Op)
  | increment (d : Block)

def act (r : RBuff) : Action → Outcome (Reply × RBuff)
  | .call op => step r op
  | .increment d => .ok (.done, rbuffIncrementIt (writeEnd r d) d.length)

/-- No more bytes are written than the ring has. -/
def Allowed (size : Nat) (r : RBuff) : Action → Prop
  | .call op => Fits size r op
  | .increment d => 0 < d.length ∧ d.length ≤ size

/-- What an increment has to leave. -/
def Consistent (size : Nat) (r : RBuff) : Action → Prop
  | .call _ => True
  | .increment d => ∃ q, Stores size r q ∧
      Incremented size r (rbuffIncrementIt (writeEnd r d) d.length) q d

/-- The ring has room for the bytes, or it is full. -/
def RoomOrFull (size : Nat) (r : RBuff) : Action → Prop
  | .call _ => True
  | .increment d => r.count + d.length ≤ size ∨ r.count = size

theorem consistent_iff {a : Action} (h : Stores size r q) (hok : Allowed size r a) :
    Consistent size r a ↔ RoomOrFull size r a := by
  cases a with
  | call op => exact Iff.rfl
  | increment d =>
    constructor
    · rintro ⟨q', h', hi⟩
      exact (incremented_iff h' hok.1 hok.2).mp hi
    · intro hc
      exact ⟨q, h, (incremented_iff h hok.1 hok.2).mpr hc⟩

theorem act_stores {a : Action} (h : Stores size r q) (hok : Allowed size r a)
    (hc : RoomOrFull size r a) : ∃ reply r' q', act r a = .ok (reply, r') ∧ Stores size r' q' := by
  cases a with
  | call op =>
    obtain ⟨reply, r', q', hs, h', -⟩ := step_stores h hok
    exact ⟨reply, r', q', hs, h'⟩
  | increment d =>
    rw [RoomOrFull, h.count_eq] at hc
    exact ⟨.done, _, _, rfl, (rbuffIncrementIt_stores h hok.1 hok.2 hc).1⟩

/-- Of every run, also through earlier increments. -/
theorem run_consistent_iff {flags : Nat} {blk : Block} (hblk : blk.length = size)
    (hs : size ≤ PTRDIFF_MAX) (hinit : init (some blk) size flags = some r) {actions : List Action}
    (hok : AllSteps act (Allowed size) r actions) :
    AllSteps act (Consistent size) r actions ↔ AllSteps act (RoomOrFull size) r actions := by
  refine @allSteps_congr _ _ _ act (Allowed size) (Consistent size) (RoomOrFull size)
    (fun r => ∃ q, Stores size r q) (fun r a ⟨q, h⟩ hok => consistent_iff h hok) ?_ actions r
    ⟨[], (init_stores hblk hs hinit).1⟩ hok
  rintro r a reply r' ⟨q, h⟩ hok hc hr
  obtain ⟨reply₁, r₁, q₁, hr₁, h₁⟩ := act_stores h hok ((consistent_iff h hok).mp hc)
  rw [hr] at hr₁
  cases hr₁
  exact ⟨q₁, h₁⟩

/-- A ring of four is filled and two bytes of it are written anew. -/
theorem run_consistent_two :
    AllSteps act (Consistent 4) { buff := [0, 0, 0, 0], buffEnd := 4, itBegin := 0, itEnd := 0
                                  count := 0, flags := 1 }
        [.increment [1, 2, 3, 4], .increment [5, 6]] ↔
      AllSteps act (RoomOrFull 4) { buff := [0, 0, 0, 0], buffEnd := 4, itBegin := 0, itEnd := 0
                                    count := 0, flags := 1 }
        [.increment [1, 2, 3, 4], .increment [5, 6]] :=
  @run_consistent_iff 4 _ 1 [0, 0, 0, 0] rfl (by decide) rfl
    [.increment [1, 2, 3, 4], .increment [5, 6]]
    ⟨show 0 < 4 ∧ 4 ≤ 4 by decide, fun _ _ _ => ⟨show 0 < 2 ∧ 2 ≤ 4 by decide, fun _ _ _ => trivial⟩⟩

/-- Three bytes are stored, and two are written: one byte more is lost. -/
theorem increment_loses_byte :
    run act { buff := [0, 0, 0, 0], buffEnd := 4, itBegin := 0, itEnd := 0, count := 0, flags := 1 }
        [.call (.pushback (some [1, 2, 3]) 3), .increment [4, 5],
          .call (.copy (some [0, 0, 0, 0]) 4)] =
      .ok ([.count 3, .done, .copied 4 (some [3, 4, 5, 2])],
        { buff := [5, 2, 3, 4], buffEnd := 4, itBegin := 2, itEnd := 1, count := 4, flags := 1 }) ∧
    ¬Incremented 4 { buff := [1, 2, 3, 0], buffEnd := 4, itBegin := 0, itEnd := 3, count := 3
                     flags := 1 }
      { buff := [5, 2, 3, 4], buffEnd := 4, itBegin := 2, itEnd := 1, count := 4, flags := 1 }
      [1, 2, 3] [4, 5] :=
  ⟨by decide, fun hi => absurd hi.itBegin_eq (by decide)⟩

end Runs

end AlibC.RBuff
