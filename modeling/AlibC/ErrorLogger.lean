import AlibC.AlibString
import AlibC.Error
import AlibC.Lib.SizeT
import Mathlib.Data.Nat.Find

/-! `ErrorLogger_log_error`: an error is written to the end of the log under the mutex of the logger. -/
namespace AlibC

open CLang

/-- The numbers and texts in an object of the log. -/
inductive LogValue where
  | int (n : Int)
  | string (s : Block)
deriving DecidableEq, Repr

/-- What the file holds is part of the logger. -/
structure ErrorLogger where
  appName : Option Block
  timeOption : Nat
  startupTime : Int
  logCount : Nat
  timeout : Int
  /-- It is an `int`. -/
  timeout_range : -2 ^ 31 ≤ timeout ∧ timeout < 2 ^ 31
  content : Block

/-- What a call meets: at which tries somebody else has the mutex, whether the file opens, the time and
its text, the callbacks that truncate the file, and how an object is printed. -/
structure LogCall where
  busy : Nat → Bool
  opens : Bool
  now : Int
  ctime : Block
  truncateReady : Block → Bool
  truncate : Block → Block
  toJson : List (String × LogValue) → Block

/-- What a call comes to: whether it ever had the mutex, and whether it still has it. -/
structure LogResult where
  code : AlibError
  logger : ErrorLogger
  acquired : Bool
  held : Bool

/-- `while(pthread_mutex_trylock(&logger->mutex))`, from try `i` on. -/
def acquireLoop (busy : Nat → Bool) : Nat → Nat → Int → Outcome (Bool × Int)
  | 0, _, _ => .error .diverges
  | fuel + 1, i, timeout =>
    if busy i then do
      let timeout ← checkInt (timeout - 1)
      if timeout = 0 then return (false, timeout) else acquireLoop busy fuel (i + 1) timeout
    else .ok (true, timeout)

/-- The members of the object that is written. -/
def logMembers (c : LogCall) (logger : ErrorLogger) (loc : Option Block) (errCode : Int)
    (errMsg : Option Block) : List (String × LogValue) :=
  (if logger.timeOption &&& 1 ≠ 0 then [("runTime", .int (c.now - logger.startupTime))] else []) ++
  (if logger.timeOption &&& 2 ≠ 0 then [("currentTime", .string c.ctime)] else []) ++
  (logger.appName.map fun s => ("appName", .string s)).toList ++
  (loc.map fun s => ("location", .string s)).toList ++
  [("errCode", .int errCode)] ++
  (errMsg.map fun s => ("errMsg", .string s)).toList

def logError (c : LogCall) (logger : ErrorLogger) (loc : Option Block) (errCode : Int)
    (errMsg : Option Block) : Outcome LogResult := do
  let (acquired, timeout) ← acquireLoop c.busy (2 ^ 32) 0 logger.timeout
  if timeout = 0 then return ⟨.mutexErr, logger, acquired, acquired⟩
  else if !c.opens then return ⟨.fileOpenErr, logger, acquired, acquired⟩
  else
    let content := if c.truncateReady logger.content then c.truncate logger.content else logger.content
    let content := content ++ c.toJson (logMembers c logger loc errCode errMsg) ++ [10]
    let logger := { logger with content, logCount := sizeAdd logger.logCount 1 }
    return ⟨.ok, logger, acquired, if timeout ≠ 0 then false else acquired⟩

/-- The mutex is not held any more, and what a call that had it returns is not that it had not. -/
structure LogResult.Balanced (r : LogResult) : Prop where
  released : r.held = false
  mutexErr : r.code = .mutexErr → r.acquired = false
  hadIt : r.acquired = true → r.code ≠ .mutexErr

/-- The call returns, and is balanced then. -/
def LogBalanced (c : LogCall) (logger : ErrorLogger) (loc : Option Block) (errCode : Int)
    (errMsg : Option Block) : Prop :=
  ∃ r, logError c logger loc errCode errMsg = .ok r ∧ r.Balanced

/-- `n` is the first try at which nobody has the mutex. -/
def FirstFree (busy : Nat → Bool) (n : Nat) : Prop := busy n = false ∧ ∀ i < n, busy i = true

/-- A positive timeout runs out before the mutex is free. Or it is free in time, but not at the first try
with a timeout of zero, and the file opens. A timeout that is not positive is over where the `int` would
overflow. -/
def LockReturned (busy : Nat → Bool) (timeout : Int) (opens : Bool) : Prop :=
  (0 < timeout ∧ ∀ i : Nat, (i : Int) < timeout → busy i = true) ∨
    (opens = true ∧ ∃ n, FirstFree busy n ∧ (timeout = 0 → 0 < n) ∧
      if 0 < timeout then (n : Int) < timeout else (n : Int) ≤ timeout + 2 ^ 31)

variable {busy : Nat → Bool} {timeout : Int}

theorem checkInt_range {n : Int} (hl : -2 ^ 31 ≤ n) (hu : n < 2 ^ 31) : checkInt n = .ok n :=
  if_pos ⟨hl, by omega⟩

/-- The next tries after the one at `i`. -/
theorem busy_succ {n i : Nat} (h : ∀ k < n + 1, busy (i + k) = true) :
    busy i = true ∧ ∀ k < n, busy (i + 1 + k) = true := by
  refine ⟨h 0 (Nat.succ_pos n), fun k hk => ?_⟩
  rw [Nat.add_assoc, Nat.add_comm 1]
  exact h (k + 1) (by omega)

/-- One more try. -/
theorem acquireLoop_busy {fuel i : Nat} (h : busy i = true) (hl : -2 ^ 31 ≤ timeout - 1)
    (hu : timeout - 1 < 2 ^ 31) (hne : timeout - 1 ≠ 0) :
    acquireLoop busy (fuel + 1) i timeout = acquireLoop busy fuel (i + 1) (timeout - 1) := by
  rw [acquireLoop, if_pos h, checkInt_range hl hu, ok_bind, if_neg hne]

/-- The mutex becomes free after `n` tries. -/
theorem acquireLoop_free (n : Nat) : ∀ {fuel i : Nat} {timeout : Int}, n < fuel →
    (∀ k < n, busy (i + k) = true) → busy (i + n) = false → (0 < timeout → (n : Int) < timeout) →
    -2 ^ 31 ≤ timeout - n → timeout < 2 ^ 31 →
    acquireLoop busy fuel i timeout = .ok (true, timeout - n) := by
  induction n with
  | zero =>
    intro fuel i timeout hfuel _ hfree _ _ _
    obtain ⟨fuel, rfl⟩ := Nat.exists_eq_succ_of_ne_zero (Nat.ne_of_gt hfuel)
    rw [Nat.add_zero] at hfree
    rw [acquireLoop, if_neg (by rw [hfree]; decide), Int.natCast_zero, Int.sub_zero]
  | succ n ih =>
    intro fuel i timeout hfuel hbusy hfree hpos hlow hhigh
    obtain ⟨fuel, rfl⟩ := Nat.exists_eq_succ_of_ne_zero (Nat.ne_of_gt (Nat.zero_lt_of_lt hfuel))
    obtain ⟨hfirst, hrest⟩ := busy_succ hbusy
    rw [Nat.add_comm n, ← Nat.add_assoc] at hfree
    rw [acquireLoop_busy hfirst (by omega) (by omega) (by omega),
      ih (by omega) hrest hfree (by omega) (by omega) (by omega)]
    congr 2
    omega

/-- A positive timeout runs out. -/
theorem acquireLoop_timeout (n : Nat) : ∀ {fuel i : Nat} {timeout : Int}, n < fuel →
    timeout = n + 1 → timeout < 2 ^ 31 → (∀ k < n + 1, busy (i + k) = true) →
    acquireLoop busy fuel i timeout = .ok (false, 0) := by
  induction n with
  | zero =>
    intro fuel i timeout hfuel heq _ hbusy
    obtain ⟨fuel, rfl⟩ := Nat.exists_eq_succ_of_ne_zero (Nat.ne_of_gt hfuel)
    rw [acquireLoop, if_pos (busy_succ hbusy).1, heq]
    rfl
  | succ n ih =>
    intro fuel i timeout hfuel heq hhigh hbusy
    obtain ⟨fuel, rfl⟩ := Nat.exists_eq_succ_of_ne_zero (Nat.ne_of_gt (Nat.zero_lt_of_lt hfuel))
    obtain ⟨hfirst, hrest⟩ := busy_succ hbusy
    rw [acquireLoop_busy hfirst (by omega) (by omega) (by omega)]
    exact ih (by omega) (by omega) (by omega) hrest

/-- A timeout that is not positive is counted down as far as an `int` goes. -/
theorem acquireLoop_overflow (n : Nat) : ∀ {fuel i : Nat} {timeout : Int}, n < fuel →
    timeout ≤ 0 → timeout = n - 2 ^ 31 → (∀ k < n + 1, busy (i + k) = true) →
    acquireLoop busy fuel i timeout = .error .overflow := by
  induction n with
  | zero =>
    intro fuel i timeout hfuel _ heq hbusy
    obtain ⟨fuel, rfl⟩ := Nat.exists_eq_succ_of_ne_zero (Nat.ne_of_gt hfuel)
    rw [acquireLoop, if_pos (busy_succ hbusy).1, heq]
    rfl
  | succ n ih =>
    intro fuel i timeout hfuel hneg heq hbusy
    obtain ⟨fuel, rfl⟩ := Nat.exists_eq_succ_of_ne_zero (Nat.ne_of_gt (Nat.zero_lt_of_lt hfuel))
    obtain ⟨hfirst, hrest⟩ := busy_succ hbusy
    rw [acquireLoop_busy hfirst (by omega) (by omega) (by omega)]
    exact ih (by omega) (by omega) (by omega) hrest

/-- How the wait for the mutex ends. -/
inductive Waits (busy : Nat → Bool) (timeout : Int) : Outcome (Bool × Int) → Prop
  | free (n : Nat) : FirstFree busy n → (if 0 < timeout then (n : Int) < timeout else
      (n : Int) ≤ timeout + 2 ^ 31) → Waits busy timeout (.ok (true, timeout - n))
  | timedOut : 0 < timeout → (∀ i : Nat, (i : Int) < timeout → busy i = true) →
      Waits busy timeout (.ok (false, 0))
  | overflow : timeout ≤ 0 → (∀ i : Nat, (i : Int) ≤ timeout + 2 ^ 31 → busy i = true) →
      Waits busy timeout (.error .overflow)

theorem exists_firstFree {m : Nat} (h : ¬∀ i < m, busy i = true) : ∃ n < m, FirstFree busy n := by
  push Not at h
  have hex : ∃ n, n < m ∧ busy n = false := h.imp fun n hn => ⟨hn.1, Bool.not_eq_true _ ▸ hn.2⟩
  obtain ⟨hlt, hfree⟩ := Nat.find_spec hex
  refine ⟨Nat.find hex, hlt, hfree, fun i hi => ?_⟩
  have hmin := Nat.find_min hex hi
  rw [not_and] at hmin
  exact Bool.not_eq_false _ ▸ hmin (by omega)

theorem waits (busy : Nat → Bool) {timeout : Int} (hl : -2 ^ 31 ≤ timeout) (hu : timeout < 2 ^ 31) :
    Waits busy timeout (acquireLoop busy (2 ^ 32) 0 timeout) := by
  by_cases hpos : 0 < timeout
  · by_cases hall : ∀ i < timeout.toNat, busy i = true
    · rw [acquireLoop_timeout (timeout.toNat - 1) (by omega) (by omega) hu
        fun k hk => by rw [Nat.zero_add]; exact hall k (by omega)]
      exact .timedOut hpos fun i hi => hall i (by omega)
    · obtain ⟨n, hn, hfree⟩ := exists_firstFree hall
      rw [acquireLoop_free n (by omega) (fun k hk => by rw [Nat.zero_add]; exact hfree.2 k hk)
        (by rw [Nat.zero_add]; exact hfree.1) (by omega) (by omega) hu]
      exact .free n hfree (by rw [if_pos hpos]; omega)
  · by_cases hall : ∀ i < (timeout + 2 ^ 31).toNat + 1, busy i = true
    · rw [acquireLoop_overflow (timeout + 2 ^ 31).toNat (by omega) (by omega) (by omega)
        fun k hk => by rw [Nat.zero_add]; exact hall k hk]
      exact .overflow (by omega) fun i hi => hall i (by omega)
    · obtain ⟨n, hn, hfree⟩ := exists_firstFree hall
      rw [acquireLoop_free n (by omega) (fun k hk => by rw [Nat.zero_add]; exact hfree.2 k hk)
        (by rw [Nat.zero_add]; exact hfree.1) (by omega) (by omega) hu]
      exact .free n hfree (by rw [if_neg hpos]; omega)

theorem FirstFree.unique {n m : Nat} (hn : FirstFree busy n) (hm : FirstFree busy m) : n = m := by
  rcases Nat.lt_trichotomy n m with hlt | heq | hgt
  · have := hm.2 n hlt
    rw [hn.1] at this
    cases this
  · exact heq
  · have := hn.2 m hgt
    rw [hm.1] at this
    cases this

variable {c : LogCall} {logger : ErrorLogger} {loc errMsg : Option Block} {errCode : Int}

/-- The rest of a call that has or has not got the mutex. -/
def afterWait (c : LogCall) (logger : ErrorLogger) (loc : Option Block) (errCode : Int)
    (errMsg : Option Block) (r : Bool × Int) : LogResult :=
  if r.2 = 0 then ⟨.mutexErr, logger, r.1, r.1⟩
  else if !c.opens then ⟨.fileOpenErr, logger, r.1, r.1⟩
  else
    let content := if c.truncateReady logger.content then c.truncate logger.content else logger.content
    let content := content ++ c.toJson (logMembers c logger loc errCode errMsg) ++ [10]
    ⟨.ok, { logger with content, logCount := sizeAdd logger.logCount 1 }, r.1,
      if r.2 ≠ 0 then false else r.1⟩

theorem logError_eq : logError c logger loc errCode errMsg =
    (acquireLoop c.busy (2 ^ 32) 0 logger.timeout).map (afterWait c logger loc errCode errMsg) := by
  rw [logError]
  cases acquireLoop c.busy (2 ^ 32) 0 logger.timeout with
  | error e => rfl
  | ok r =>
    rw [ok_bind, Except.map, afterWait]
    dsimp only
    split
    · rfl
    · split <;> rfl

/-- A call that gives up must not have the mutex. -/
theorem afterWait_balanced_iff (acquired : Bool) (timeout : Int) :
    (afterWait c logger loc errCode errMsg (acquired, timeout)).Balanced ↔
      acquired = false ∨ timeout ≠ 0 ∧ c.opens = true := by
  rw [afterWait]
  by_cases hzero : timeout = 0
  · rw [if_pos hzero, or_iff_left fun h => h.1 hzero]
    refine ⟨fun h => h.released, ?_⟩
    rintro rfl
    exact ⟨rfl, fun _ => rfl, nofun⟩
  · rw [if_neg hzero]
    cases hopens : c.opens with
    | false =>
      rw [if_pos (by decide), or_iff_left fun h => Bool.noConfusion h.2]
      refine ⟨fun h => h.released, ?_⟩
      rintro rfl
      exact ⟨rfl, nofun, nofun⟩
    | true =>
      rw [if_neg (by decide)]
      refine iff_of_true ⟨if_pos hzero, nofun, fun _ => nofun⟩ (.inr ⟨hzero, rfl⟩)

/-- The mutex is given back exactly where a call had it in time and the file opened, or did not get it
before a positive timeout ran out. -/
theorem logBalanced_iff (c : LogCall) (logger : ErrorLogger) (loc : Option Block) (errCode : Int)
    (errMsg : Option Block) : LogBalanced c logger loc errCode errMsg ↔
      LockReturned c.busy logger.timeout c.opens := by
  have hrange := logger.timeout_range
  have hwaits := waits c.busy hrange.1 hrange.2
  rw [LogBalanced, logError_eq]
  generalize acquireLoop c.busy (2 ^ 32) 0 logger.timeout = r at hwaits
  cases hwaits with
  | free n hfree hlt =>
    have hreturned : (∃ r, (Except.ok (true, logger.timeout - n)).map
        (afterWait c logger loc errCode errMsg) = (.ok r : Outcome LogResult) ∧ r.Balanced) ↔
          (afterWait c logger loc errCode errMsg (true, logger.timeout - n)).Balanced :=
      ⟨fun ⟨_, hr, hb⟩ => Except.ok.inj hr ▸ hb, fun hb => ⟨_, rfl, hb⟩⟩
    rw [hreturned, afterWait_balanced_iff, or_iff_right (by decide)]
    constructor
    · rintro ⟨hne, hopens⟩
      exact .inr ⟨hopens, n, hfree, fun hzero => by omega, hlt⟩
    · rintro (⟨hpos, hall⟩ | ⟨hopens, m, hm, hzero, -⟩)
      · rw [if_pos hpos] at hlt
        have hbusy := hall n hlt
        rw [hfree.1] at hbusy
        cases hbusy
      · obtain rfl := hfree.unique hm
        refine ⟨?_, hopens⟩
        split at hlt <;> omega
  | timedOut hpos hall =>
    exact iff_of_true ⟨_, rfl, (afterWait_balanced_iff _ _).mpr (.inl rfl)⟩ (.inl ⟨hpos, hall⟩)
  | overflow hneg hall =>
    refine iff_of_false ?_ ?_
    · rintro ⟨r, hr, -⟩
      cases hr
    · rintro (⟨hpos, -⟩ | ⟨-, m, hm, -, hle⟩)
      · omega
      · rw [if_neg (by omega)] at hle
        have hbusy := hall m hle
        rw [hm.1] at hbusy
        cases hbusy

/-- A call that finds the mutex free. -/
def freeCall (opens : Bool) : LogCall :=
  ⟨fun _ => false, opens, 0, [], fun _ => false, id, fun _ => [123, 125]⟩

/-- A logger with a timeout. -/
def emptyLogger (timeout : Int) (h : -2 ^ 31 ≤ timeout ∧ timeout < 2 ^ 31) : ErrorLogger :=
  ⟨none, 0, 0, 0, timeout, h, []⟩

/-- A mutex that nobody has is kept where the file does not open, and where the timeout is zero. -/
theorem logError_keeps_mutex :
    (logError (freeCall false) (emptyLogger 500 (by decide)) none 0 none).map
        (fun r => (r.code, r.acquired, r.held)) = .ok (.fileOpenErr, true, true) ∧
      (logError (freeCall true) (emptyLogger 0 (by decide)) none 0 none).map
        (fun r => (r.code, r.acquired, r.held)) = .ok (.mutexErr, true, true) ∧
      ¬LogBalanced (freeCall true) (emptyLogger 0 (by decide)) none 0 none := by
  refine ⟨by decide, by decide, ?_⟩
  rintro ⟨r, hr, hb⟩
  have hheld : (logError (freeCall true) (emptyLogger 0 (by decide)) none 0 none).map LogResult.held =
      .ok true := by decide
  rw [hr] at hheld
  have hreleased := hb.released
  rw [Except.ok.inj hheld] at hreleased
  cases hreleased

end AlibC
