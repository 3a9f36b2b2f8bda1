import AlibC.RBuffStores
import AlibC.Lib.Machine

/-! An `RBuff` that may overwrite holds the last bytes that were pushed: a window of
fixed size that slides over the data. -/
namespace AlibC.RBuff

open CLang Ring

/-- The ring holds the queue. The end iterator may rest behind the last cell instead of
at the first one, and also where an empty ring begins. -/
structure Window (size : Nat) (r : RBuff) (q : Block) : Prop where
  holds : Holds r.buff r.itBegin q
  length_buff : r.buff.length = size
  buffEnd_eq : r.buffEnd = size
  size_lt : size < 2 ^ 31
  count_eq : r.count = q.length
  itEnd_le : r.itEnd ≤ size
  itEnd_eq : r.itEnd = r.itBegin + q.length ∨ r.itEnd + size = r.itBegin + q.length ∨
    r.itEnd = r.itBegin + q.length + size
  overwrites : r.flags &&& rbuffNoOverwrite = 0

section

variable {size count : Nat} {r : RBuff} {q : Block}

theorem Window.stores (h : Window size r q) : Stores size r q := by
  have hs := h.size_lt
  exact ⟨h.holds, h.length_buff, h.buffEnd_eq, by unfold PTRDIFF_MAX; omega, h.count_eq, h.itEnd_le,
    h.itEnd_eq⟩

theorem Stores.window (h : Stores size r q) (hs : size < 2 ^ 31)
    (hf : r.flags &&& rbuffNoOverwrite = 0) : Window size r q :=
  ⟨h.holds, h.length_buff, h.buffEnd_eq, hs, h.count_eq, h.itEnd_le, h.itEnd_eq, hf⟩

/-- What an operation leaves that keeps the flags. -/
theorem Window.keep (h : Window size r q) {r' : RBuff} {q' : Block} (h' : Stores size r' q')
    (hf : r'.flags = r.flags) : Window size r' q' :=
  h'.window h.size_lt (by rw [hf]; exact h.overwrites)

/-- Pushing keeps the newest bytes. -/
theorem pushback_eq (h : Window size r q) {data : Block} (hd : count ≤ data.length) :
    ∃ r', r.pushback (some data) count = .ok (min count size, r') ∧
      Window size r' ((q ++ data.take count).rtake size) := by
  have hs := h.size_lt
  obtain ⟨r', hr, hw, hf, -⟩ := pushback_overwrites h.stores h.overwrites hd
    (show min count size < 2 ^ 31 by omega)
  exact ⟨r', hr, h.keep hw hf⟩

/-- An initialised ring is empty. -/
theorem init_window {blk : Block} {flags : Nat} (hblk : blk.length = size) (hs : size < 2 ^ 31)
    (hf : flags &&& rbuffNoOverwrite = 0) (hinit : init (some blk) size flags = some r) :
    Window size r [] := by
  obtain ⟨hw, hflags⟩ := init_stores hblk (show size ≤ PTRDIFF_MAX by unfold PTRDIFF_MAX; omega) hinit
  exact hw.window hs (by rw [hflags]; exact hf)

/-- `newRBuff` is `RBuff_init` on its own memory. -/
theorem new_window {al : Alloc UInt8} (hs : size < 2 ^ 31) (hnew : new al size = some r) :
    Window size r [] := by
  unfold new at hnew
  split at hnew
  · cases hnew
  · cases hb : al.block size with
    | none => simp [hb, init] at hnew
    | some blk =>
      rw [hb] at hnew
      exact init_window (al.length_block hb) hs (by decide) hnew

end

/-- A call on the ring. `none` is a `NULL` argument. -/
inductive Op where
  | pushback (buff : Option Block) (count : Nat)
  | pushbackByte (byte : UInt8)
  | popoff (buff : Option Block) (count : Nat)
  | popoffByte
  | copy (buff : Option Block) (count : Nat)
  | reset

/-- What a call returns, with the caller's memory where the call writes to it. -/
inductive Reply where
  | count (n : Nat)
  | copied (n : Nat) (buff : Option Block)
  | byte (n : Int)
  | done
deriving DecidableEq, Repr

def step (r : RBuff) : Op → Outcome (Reply × RBuff)
  | .pushback buff count => do
    let (n, r) ← r.pushback buff count
    return (.count n, r)
  | .pushbackByte byte => do
    let (n, r) ← r.pushbackByte byte
    return (.byte n, r)
  | .popoff buff count => do
    let ((n, buff), r) ← r.popoff buff count
    return (.copied n buff, r)
  | .popoffByte => do
    let (n, r) ← r.popoffByte
    return (.byte n, r)
  | .copy buff count => do
    let (n, buff) ← r.copy buff count
    return (.copied n buff, r)
  | .reset => .ok (.done, r.reset)

/-- The same on a queue that keeps its last `size` bytes. -/
def queueStep (size : Nat) (q : Block) : Op → Reply × Block
  | .pushback none _ => (.count 0, q)
  | .pushback (some data) count =>
    (.count (min count size), (q ++ data.take count).rtake size)
  | .pushbackByte byte => (.byte 1, (q ++ [byte]).rtake size)
  | .popoff buff count =>
    (.copied (min count q.length) (handOut q (min count q.length) buff), q.drop count)
  | .popoffByte =>
    match q with
    | [] => (.byte AlibError.badArg.code, [])
    | c :: q => (.byte c.toNat, q)
  | .copy buff count =>
    (.copied (min count q.length) (handOut q (min count q.length) buff), q)
  | .reset => (.done, [])

/-- What the caller answers for: the data is as long as he says, and his own memory has
room for the bytes he gets. -/
def Admissible (q : Block) : Op → Prop
  | .pushback buff count => ∀ data, buff = some data → count ≤ data.length
  | .popoff buff count | .copy buff count => HasRoom q count buff
  | _ => True

theorem step_simulates {size : Nat} (r : RBuff) (q : Block) (op : Op) (h : Window size r q)
    (hok : Admissible q op) :
    ∃ r', step r op = .ok ((queueStep size q op).1, r') ∧
      Window size r' (queueStep size q op).2 := by
  cases op with
  | pushback buff count =>
    cases buff with
    | none => exact ⟨r, rfl, h⟩
    | some data =>
      obtain ⟨r', hr, hw⟩ := pushback_eq h (hok data rfl)
      exact ⟨r', by simp [step, queueStep, hr], hw⟩
  | pushbackByte byte =>
    have hb := h.stores.begin_lt
    obtain ⟨r', hr, hw⟩ := pushback_eq h (show 1 ≤ [byte].length from Nat.le_refl 1)
    have hone : toInt32 ((1 : Nat) : Int) = 1 := toInt32_eq (by omega) (by omega)
    rw [Nat.min_eq_left (by omega)] at hr
    refine ⟨r', ?_, hw⟩
    rw [step, pushbackByte, hr]
    simp only [ok_bind, pure_ok, hone, queueStep]
  | popoff buff count =>
    obtain ⟨r', hr, hw, hp⟩ := popoff_eq h.stores hok
    exact ⟨r', by simp [step, queueStep, hr], h.keep hw hp.flags_eq⟩
  | popoffByte =>
    obtain ⟨r', hr, hw, hp⟩ := popoffByte_eq h.stores
    have hw := h.keep hw hp.flags_eq
    cases q <;> exact ⟨r', by simp [step, queueStep, hr], hw⟩
  | copy buff count => exact ⟨r, by simp [step, queueStep, copy_eq h.stores hok], h⟩
  | reset =>
    obtain ⟨hw, hf⟩ := reset_stores h.stores
    exact ⟨_, rfl, h.keep hw hf⟩

/-- Every run on a fresh ring behaves as on the sliding window, at the end and at every
point on the way. An access outside the memory would be a fault, so that there is none. -/
theorem overwrite_refines_window {size flags : Nat} {blk : Block} {r : RBuff}
    (hblk : blk.length = size) (hs : size < 2 ^ 31) (hf : flags &&& rbuffNoOverwrite = 0)
    (hinit : init (some blk) size flags = some r) (ops : List Op)
    (hops : Machine.AllTrace (queueStep size) Admissible [] ops) (pre post : List Op)
    (hpre : ops = pre ++ post) :
    ∃ r', Machine.run step r pre = .ok ((Machine.trace (queueStep size) [] pre).1, r') ∧
      r'.count = (Machine.trace (queueStep size) [] pre).2.length ∧
      (∀ dst : Block, r'.count ≤ dst.length → r'.copy (some dst) r'.count =
        .ok (r'.count, some ((Machine.trace (queueStep size) [] pre).2 ++ dst.drop r'.count))) := by
  subst hpre
  obtain ⟨r', hr, hw⟩ := Machine.run_simulates step_simulates pre r []
    (init_window hblk hs hf hinit) hops.of_append
  refine ⟨r', hr, hw.count_eq, ?_⟩
  intro dst hd
  have hcopy := @copy_eq size r'.count r' _ hw.stores (some dst)
    (fun blk hb => by cases hb; rw [← hw.count_eq]; omega)
  rw [hcopy, hw.count_eq]
  simp [handOut, overwrite]

/-- Five bytes go through a ring of three, which then holds the last three of them. -/
theorem overwrite_refines_window_wrapped :
    ∃ r', Machine.run step { buff := [0, 0, 0], buffEnd := 3, itBegin := 0, itEnd := 0, count := 0
                             flags := 1 }
        [.pushback (some [1, 2]) 2, .pushback (some [3, 4, 5]) 3] =
          .ok ([.count 2, .count 3], r') ∧
      r'.count = 3 ∧
      (∀ dst : Block, r'.count ≤ dst.length → r'.copy (some dst) r'.count =
        .ok (r'.count, some ([3, 4, 5] ++ dst.drop r'.count))) :=
  @overwrite_refines_window 3 1 [0, 0, 0] _ rfl (by decide) rfl rfl
    [.pushback (some [1, 2]) 2, .pushback (some [3, 4, 5]) 3]
    ⟨by simp [Admissible], by simp [Admissible], trivial⟩ _ [] (List.append_nil _).symm

end AlibC.RBuff
