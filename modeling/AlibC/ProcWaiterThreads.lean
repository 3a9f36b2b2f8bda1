import AlibC.ProcWaiter
import AlibC.ArrayListRuns
import AlibC.Lib.Machine

/-! The process waiter: the thread that runs `thread_proc`, the one that starts and stops it, and those
that register callbacks. A step of a thread reads or writes once what the threads share. -/
namespace AlibC

open CLang Machine

/-- The waits on `PROC_WAITER_T_COND` in `thread_proc`. -/
inductive CondWait where
  /-- In the loop for an empty list. -/
  | empty
  /-- `pthread_cond_wait` for a child. -/
  | untimed
  /-- `pthread_cond_timedwait`. -/
  | timed
deriving DecidableEq, Repr

/-- Where a thread that runs `thread_proc` is. -/
inductive WaiterPlace where
  /-- `pthread_create` was called, and `THREAD_IS_RUNNING` is not raised yet. -/
  | starting
  /-- Before the condition of the loop. -/
  | testing
  /-- In `wait`. -/
  | waiting
  /-- `wait` has failed. -/
  | childless
  /-- `PROC_WAITER_MUTEX` is locked. -/
  | locked
  /-- Before the condition of the loop for an empty list. -/
  | emptyTest
  /-- In that condition, where the list was found empty and `THREAD_STOP` is still to be read. -/
  | counted
  /-- Before it waits on the condition, and there. -/
  | dozing (w : CondWait)
  | asleep (w : CondWait)
  /-- Woken, without the mutex. -/
  | woken (w : CondWait)
  /-- `wait` has returned a child. -/
  | collected (pid status : Int)
  /-- Behind the loop. -/
  | leaving
  /-- `THREAD_IS_RUNNING` is lowered. -/
  | left
deriving DecidableEq, Repr

structure WaiterThread where
  id : Nat
  place : WaiterPlace
  /-- `pthread_cancel` was called. -/
  cancelled : Bool
deriving DecidableEq, Repr

/-- The functions that start and stop the thread. -/
inductive Control where
  | start | stop | stopWait | stopNow
deriving DecidableEq, Repr

/-- Who calls `pthread_join`. -/
inductive Joiner where
  | start | stopWait | stopNow
deriving DecidableEq, Repr

/-- Where the thread is that starts and stops the other one. -/
inductive Controller where
  | idle
  /-- In `proc_waiter_stop`, before `pthread_cond_broadcast`. -/
  | broadcasting (f : Control)
  /-- In `proc_waiter_stop_now`, before `pthread_cancel`, and behind it. -/
  | cancelling
  | lowering
  | joining (id : Nat) (f : Joiner)
  /-- In `proc_waiter_start`, before `pthread_mutex_lock`, and behind it. -/
  | locking
  | locked
  /-- Before the first test of `THREAD_IS_RUNNING`. -/
  | testing
  /-- Before `pthread_create`. -/
  | creating
deriving DecidableEq, Repr

/-- `broadcasts` are the threads that have changed the list and are about to wake the waiter. `children`
run, and `zombies` have exited and are not collected. -/
structure ProcWaiterThreads (C D : Type) where
  threadIsRunning : Bool
  threadStop : Bool
  threadCreated : Bool
  thread : Nat
  cbList : ArrayList (ProcWaiter C D)
  sleepTime : Int
  broadcasts : Nat
  children : List Int
  zombies : List (Int × Int)
  threads : List WaiterThread
  nextId : Nat
  caller : Controller
deriving DecidableEq, Repr

/-- What happens next. -/
inductive WaiterMove (C D : Type) where
  /-- One of the functions is called. -/
  | control (f : Control)
  /-- The function that was called goes on, and `created` says whether `pthread_create` succeeds. -/
  | resume (created : Bool)
  /-- A thread of `thread_proc` takes a step; `wait` returns the `k`th of the children that exited. -/
  | thread (id k : Nat)
  /-- `pthread_cond_timedwait` has waited long enough. -/
  | timeout (id : Nat)
  /-- A wait on the condition ends for no reason. -/
  | spurious (id : Nat)
  | register (pw : ProcWaiter C D)
  | deregister (pid : Int) (procExited : Option C) (userData : Option D)
  | deregisterAll
  /-- A thread that has changed the list calls `pthread_cond_broadcast`. -/
  | broadcast
  | wakeup
  | setSleepTime (sleepTime : Int)
  | fork (pid : Int)
  | exit (pid status : Int)
deriving DecidableEq, Repr

/-- What a step lets others see. -/
inductive WaiterEvent (C D : Type) where
  | calls (cs : List (ProcWaiter.Call C D))
  /-- `proc_waiter_start` returns. -/
  | started (err : AlibError)
deriving DecidableEq, Repr

/-- Does the thread have `PROC_WAITER_MUTEX`? -/
def WaiterPlace.holds : WaiterPlace → Bool
  | .locked | .emptyTest | .counted | .dozing _ => true
  | _ => false

def Controller.holds : Controller → Bool
  | .locked | .testing | .creating | .joining _ .start | .broadcasting .start => true
  | _ => false

/-- A broadcast is due. -/
def Controller.owes : Controller → Bool
  | .broadcasting _ => true
  | _ => false

namespace ProcWaiterThreads

variable {C D : Type}

/-- The thread goes to another place. -/
def goTo (s : ProcWaiterThreads C D) (t : WaiterThread) (place : WaiterPlace) : ProcWaiterThreads C D :=
  { s with threads := s.threads.map fun u => if u.id = t.id then { u with place } else u }

/-- A thread that sleeps goes on. -/
def wake (t : WaiterThread) : WaiterThread :=
  match t.place with
  | .asleep w => { t with place := .woken w }
  | _ => t

/-- `pthread_cond_broadcast`. -/
def wakeAll (s : ProcWaiterThreads C D) : ProcWaiterThreads C D := { s with threads := s.threads.map wake }

/-- A step of `thread_proc`. A thread that waits for the mutex or a child, or sleeps, stays where it is. -/
def threadProc (s : ProcWaiterThreads C D) (t : WaiterThread) (k : Nat) :
    Outcome (WaiterEvent C D × ProcWaiterThreads C D) :=
  match t.place with
  | .starting => .ok (.calls [], { s.goTo t .testing with threadIsRunning := true })
  | .testing => .ok (.calls [], s.goTo t (if s.threadStop then .leaving else .waiting))
  | .waiting =>
    match s.zombies[k]? with
    | some (pid, status) =>
      .ok (.calls [], { s.goTo t (.collected pid status) with zombies := s.zombies.eraseIdx k })
    | none =>
      .ok (.calls [],
        if t.cancelled then { s with threads := s.threads.erase t }
        else if s.zombies = [] ∧ s.children = [] then s.goTo t .childless
        else s)
  | .childless => .ok (.calls [], if s.caller.holds then s else s.goTo t .locked)
  | .locked =>
    .ok (.calls [], s.goTo t
      (if s.cbList.count = 0 then .emptyTest
        else .dozing (if s.sleepTime < 0 then .untimed else .timed)))
  | .emptyTest => .ok (.calls [], s.goTo t (if s.cbList.count = 0 then .counted else .testing))
  | .counted => .ok (.calls [], s.goTo t (if s.threadStop then .testing else .dozing .empty))
  | .dozing w => .ok (.calls [], s.goTo t (.asleep w))
  | .asleep _ => .ok (.calls [], s)
  | .woken w =>
    .ok (.calls [], if s.caller.holds then s else s.goTo t (if w = .empty then .emptyTest else .testing))
  | .collected pid status => do
    let (calls, cbList) ← ProcWaiter.threadProc s.cbList pid status
    return (.calls calls, { s.goTo t .testing with cbList })
  | .leaving => .ok (.calls [], { s.goTo t .left with threadIsRunning := false })
  | .left => .ok (.calls [], wakeAll { s with threads := s.threads.erase t })

/-- A function is called: what it does first. -/
def control (s : ProcWaiterThreads C D) : Control → ProcWaiterThreads C D
  | .start => { s with caller := .locking }
  | f => { s with threadStop := true, caller := .broadcasting f }

/-- `pthread_create` in `proc_waiter_start`. -/
def create (s : ProcWaiterThreads C D) (created : Bool) : WaiterEvent C D × ProcWaiterThreads C D :=
  if created then
    (.started .ok,
      { s with
        threadIsRunning := true, threadCreated := true, thread := s.nextId, caller := .idle
        threads := ⟨s.nextId, .starting, false⟩ :: s.threads
        nextId := s.nextId + 1 })
  else
    (.started .threadErr, { s with threadIsRunning := false, threadCreated := false, caller := .idle })

/-- What comes after `proc_waiter_stop`. `proc_waiter_start` gets there with `THREAD_CREATED` lowered. -/
def afterStop (s : ProcWaiterThreads C D) : Control → Controller
  | .start => .creating
  | .stop => .idle
  | .stopWait => if s.threadCreated then .joining s.thread .stopWait else .idle
  | .stopNow => if s.threadCreated then .cancelling else .idle

/-- `pthread_join` has returned. -/
def joined (s : ProcWaiterThreads C D) : Joiner → ProcWaiterThreads C D
  | .start => { s with caller := .creating }
  | .stopWait => { s with threadIsRunning := false, threadCreated := false, caller := .idle }
  | .stopNow => { s with threadCreated := false, caller := .idle }

/-- The function that was called goes on, as far as it can. -/
def resume (s : ProcWaiterThreads C D) (created : Bool) : WaiterEvent C D × ProcWaiterThreads C D :=
  match s.caller with
  | .idle => (.calls [], s)
  | .broadcasting f => (.calls [], { s.wakeAll with caller := s.afterStop f })
  | .cancelling =>
    (.calls [],
      { s with
        threads := s.threads.map fun t => if t.id = s.thread then { t with cancelled := true } else t
        caller := .lowering })
  | .lowering => (.calls [], { s with threadIsRunning := false, caller := .joining s.thread .stopNow })
  | .joining id f => (.calls [], if s.threads.any (·.id = id) then s else s.joined f)
  | .locking => (.calls [], if s.threads.any (·.place.holds) then s else { s with caller := .locked })
  | .locked => (.calls [], { s with threadStop := false, caller := .testing })
  | .testing =>
    if s.threadIsRunning && s.threadCreated then (.started .ok, { s with caller := .idle })
    else if s.threadIsRunning then
      (.calls [], { s with threadStop := true, caller := .broadcasting .start })
    else if s.threadCreated then (.calls [], { s with caller := .joining s.thread .start })
    else (.calls [], { s with caller := .creating })
  | .creating => s.create created

/-- One move. What is not possible does nothing. -/
def step [DecidableEq C] [DecidableEq D] (s : ProcWaiterThreads C D) :
    WaiterMove C D → Outcome (WaiterEvent C D × ProcWaiterThreads C D)
  | .control f => .ok (.calls [], if s.caller = .idle then s.control f else s)
  | .resume created => .ok (s.resume created)
  | .thread id k =>
    match s.threads.find? (·.id = id) with
    | none => .ok (.calls [], s)
    | some t => s.threadProc t k
  | .timeout id =>
    .ok (.calls [], { s with
      threads := s.threads.map fun t => if t.id = id ∧ t.place = .asleep .timed then wake t else t })
  | .spurious id =>
    .ok (.calls [], { s with threads := s.threads.map fun t => if t.id = id then wake t else t })
  | .register pw => do
    let (added, cbList) ← s.cbList.add (some pw)
    return (.calls [], { s with cbList, broadcasts := s.broadcasts + if added then 1 else 0 })
  | .deregister pid procExited userData => do
    let (_, cbList) ← s.cbList.visit (ProcWaiter.deregisterBody s.cbList.freeItem pid procExited userData)
    return (.calls [], { s with cbList, broadcasts := s.broadcasts + 1 })
  | .deregisterAll => do
    let (_, cbList) ← s.cbList.resize 0
    return (.calls [], { s with cbList, broadcasts := s.broadcasts + 1 })
  | .broadcast =>
    .ok (.calls [], if s.broadcasts = 0 then s else { s.wakeAll with broadcasts := s.broadcasts - 1 })
  | .wakeup => .ok (.calls [], s.wakeAll)
  | .setSleepTime sleepTime => .ok (.calls [], { s with sleepTime })
  | .fork pid => .ok (.calls [], { s with children := pid :: s.children })
  | .exit pid status =>
    .ok (.calls [], if pid ∈ s.children then
      { s with children := s.children.erase pid, zombies := s.zombies ++ [(pid, status)] } else s)

/-- `allocate_globals`: `newArrayList_ex(free, 0, 0, 1)`. -/
def new : ProcWaiterThreads C D :=
  ⟨false, false, false, 0, ⟨none, 0, 0, ULONG_MAX, true⟩, -1, 0, [], [], [], 0, .idle⟩

/-- There is memory for another callback. -/
def Fits (s : ProcWaiterThreads C D) : WaiterMove C D → Prop
  | .register _ => 8 * s.cbList.nextCap < 2 ^ 64
  | _ => True

/-- Has `proc_waiter_stop` told the thread to stop, and is the call not over? -/
def Stops : Controller → Prop
  | .broadcasting _ | .cancelling | .lowering | .joining _ .stopWait | .joining _ .stopNow => True
  | _ => False

/-- What is true of the thread while it is there. -/
structure Alive (s : ProcWaiterThreads C D) (t : WaiterThread) : Prop where
  id : t.id = s.thread
  created : s.threadCreated = true
  running : s.threadIsRunning = true ∨ t.place = .left ∨ s.caller = .joining t.id .stopNow
  left : t.place = .left → s.threadIsRunning = false
  cancelled : t.cancelled = true → s.caller = .lowering ∨ s.caller = .joining t.id .stopNow
  mutex : t.place.holds = true → s.caller.holds = false
  joined : ∀ id f, s.caller = .joining id f → id = t.id ∧ (f = .start → t.place = .left)
  stopped : s.caller = .joining t.id .stopNow → s.threadIsRunning = true →
    t.place = .testing ∨ t.place = .leaving
  caller : s.caller ≠ .creating

/-- At most one thread runs `thread_proc`, and the flags tell of it. -/
structure Inv (s : ProcWaiterThreads C D) : Prop where
  list : s.cbList.WF
  capacity : s.cbList.capacity ≤ s.cbList.maxCap
  stops : Stops s.caller → s.threadStop = true
  caller : s.caller ≠ .broadcasting .start
  started : s.caller = .testing → s.threadStop = false
  threads : s.threads = [] ∧ (s.threadIsRunning = true → s.caller = .lowering) ∨
    ∃ t, s.threads = [t] ∧ Alive s t

theorem new_inv : Inv (new : ProcWaiterThreads C D) :=
  ⟨.mk_null, Nat.zero_le _, (fun h => by cases h), (fun h => by cases h), (fun _ => rfl), .inl ⟨rfl, fun h => by cases h⟩⟩

variable {s : ProcWaiterThreads C D} {t : WaiterThread}

theorem Inv.length_le (h : Inv s) : s.threads.length ≤ 1 := by
  rcases h.threads with ⟨hnil, -⟩ | ⟨t, ht, -⟩
  · rw [hnil]
    exact Nat.zero_le 1
  · rw [ht]
    exact Nat.le_refl 1

theorem goTo_singleton (ht : s.threads = [t]) (place : WaiterPlace) :
    s.goTo t place = { s with threads := [{ t with place }] } := by
  simp [goTo, ht]

/-- What the thread and its controller do not own changes. -/
theorem Inv.outside (h : Inv s) {cbList : ArrayList (ProcWaiter C D)} (hwf : cbList.WF)
    (hcap : cbList.capacity ≤ cbList.maxCap) (broadcasts : Nat) (sleepTime : Int) (children : List Int)
    (zombies : List (Int × Int)) : Inv { s with cbList, broadcasts, sleepTime, children, zombies } := by
  refine ⟨hwf, hcap, h.stops, h.caller, h.started, h.threads.imp_right ?_⟩
  rintro ⟨t, ht, ha⟩
  exact ⟨t, ht, ha.id, ha.created, ha.running, ha.left, ha.cancelled, ha.mutex, ha.joined, ha.stopped,
    ha.caller⟩

/-- Where the thread goes next, and when. -/
inductive Goes (s : ProcWaiterThreads C D) (t : WaiterThread) : WaiterPlace → Prop where
  | start (h : t.place = .starting) : Goes s t .testing
  | leave (h : t.place = .testing) (hstop : s.threadStop = true) : Goes s t .leaving
  | wait (h : t.place = .testing) (hstop : s.threadStop = false) : Goes s t .waiting
  | collect (h : t.place = .waiting) (pid status : Int) : Goes s t (.collected pid status)
  | fail (h : t.place = .waiting) : Goes s t .childless
  | lock (h : t.place = .childless) (hfree : s.caller.holds = false) : Goes s t .locked
  | doze (h : t.place = .locked) (hcount : s.cbList.count ≠ 0) (w : CondWait) (hw : w ≠ .empty)
      (htimed : w = .untimed ↔ s.sleepTime < 0) : Goes s t (.dozing w)
  | empty (h : t.place = .locked) (hcount : s.cbList.count = 0) : Goes s t .emptyTest
  | filled (h : t.place = .emptyTest) (hcount : s.cbList.count ≠ 0) : Goes s t .testing
  | count (h : t.place = .emptyTest) (hcount : s.cbList.count = 0) : Goes s t .counted
  | stopped (h : t.place = .counted) (hstop : s.threadStop = true) : Goes s t .testing
  | dozeEmpty (h : t.place = .counted) (hstop : s.threadStop = false) : Goes s t (.dozing .empty)
  | sleep (w : CondWait) (h : t.place = .dozing w) : Goes s t (.asleep w)
  | recheck (h : t.place = .woken .empty) (hfree : s.caller.holds = false) : Goes s t .emptyTest
  | wake (w : CondWait) (h : t.place = .woken w) (hw : w ≠ .empty) : Goes s t .testing
  | deliver (pid status : Int) (h : t.place = .collected pid status) : Goes s t .testing
  | lower (h : t.place = .leaving) : Goes s t .left

/-- What a step of the thread does: it waits, it goes on, or it is gone. -/
inductive ThreadStep (s : ProcWaiterThreads C D) (t : WaiterThread) :
    WaiterEvent C D → ProcWaiterThreads C D → Prop where
  | stays : ThreadStep s t (.calls []) s
  | goes {place : WaiterPlace} {running : Bool} {cbList : ArrayList (ProcWaiter C D)}
      {zombies : List (Int × Int)} {cs : List (ProcWaiter.Call C D)} (h : Goes s t place)
      (hrunning : t.place = .starting ∧ running = true ∨ place = .left ∧ running = false ∨
        place ≠ .left ∧ running = s.threadIsRunning)
      (hlist : cbList = s.cbList ∨ (∃ pid status, t.place = .collected pid status) ∧ cbList.WF ∧
        cbList.capacity ≤ cbList.maxCap) :
      ThreadStep s t (.calls cs)
        { s with threadIsRunning := running, cbList, zombies, threads := [{ t with place }] }
  | ends (h : t.place = .left ∨ t.place = .waiting ∧ t.cancelled = true) :
      ThreadStep s t (.calls []) { s with threads := [] }

theorem Goes.threadStep (ht : s.threads = [t]) {place : WaiterPlace} (h : Goes s t place)
    (hplace : place ≠ .left) : ThreadStep s t (.calls []) (s.goTo t place) := by
  rw [goTo_singleton ht]
  exact .goes h (.inr (.inr ⟨hplace, rfl⟩)) (.inl rfl)

theorem Inv.delivers (h : Inv s) (pid status : Int) :
    ∃ calls cbList, ProcWaiter.threadProc s.cbList pid status = .ok (calls, cbList) ∧
      cbList.WF ∧ cbList.capacity ≤ cbList.maxCap := by
  rw [ProcWaiter.threadProc]
  split
  · exact ⟨_, _, rfl, h.list, h.capacity⟩
  · exact ArrayList.visit_keeps h.list h.capacity _

theorem threadProc_cases (h : Inv s) (ht : s.threads = [t]) (k : Nat) :
    ∃ o s', s.threadProc t k = .ok (o, s') ∧ ThreadStep s t o s' := by
  have hgone : s.threads.erase t = [] := by
    rw [ht]
    exact List.erase_cons_head _ _
  unfold threadProc
  cases hp : t.place with
  | starting =>
    refine ⟨_, _, rfl, ?_⟩
    rw [goTo_singleton ht]
    exact .goes (.start hp) (.inl ⟨hp, rfl⟩) (.inl rfl)
  | testing =>
    refine ⟨_, _, rfl, ?_⟩
    split
    · exact (Goes.leave hp ‹_›).threadStep ht (by decide)
    · exact (Goes.wait hp (Bool.eq_false_iff.mpr ‹_›)).threadStep ht (by decide)
  | waiting =>
    dsimp only
    split
    · refine ⟨_, _, rfl, ?_⟩
      rw [goTo_singleton ht]
      exact .goes (.collect hp _ _) (.inr (.inr ⟨by simp, rfl⟩)) (.inl rfl)
    · refine ⟨_, _, rfl, ?_⟩
      split
      · rw [hgone]
        exact .ends (.inr ⟨hp, ‹_›⟩)
      · split
        · exact (Goes.fail hp).threadStep ht (by decide)
        · exact .stays
  | childless =>
    refine ⟨_, _, rfl, ?_⟩
    split
    · exact .stays
    · exact (Goes.lock hp (Bool.eq_false_iff.mpr ‹_›)).threadStep ht (by decide)
  | locked =>
    refine ⟨_, _, rfl, ?_⟩
    split
    · exact (Goes.empty hp ‹_›).threadStep ht (by decide)
    · split
      · exact (Goes.doze hp ‹_› .untimed (by decide) (iff_of_true rfl ‹_›)).threadStep ht (by decide)
      · exact (Goes.doze hp ‹_› .timed (by decide) (iff_of_false (by decide) ‹_›)).threadStep ht (by decide)
  | emptyTest =>
    refine ⟨_, _, rfl, ?_⟩
    split
    · exact (Goes.count hp ‹_›).threadStep ht (by decide)
    · exact (Goes.filled hp ‹_›).threadStep ht (by decide)
  | counted =>
    refine ⟨_, _, rfl, ?_⟩
    split
    · exact (Goes.stopped hp ‹_›).threadStep ht (by decide)
    · exact (Goes.dozeEmpty hp (Bool.eq_false_iff.mpr ‹_›)).threadStep ht (by decide)
  | dozing w => exact ⟨_, _, rfl, (Goes.sleep w hp).threadStep ht (by simp)⟩
  | asleep w => exact ⟨_, _, rfl, .stays⟩
  | woken w =>
    refine ⟨_, _, rfl, ?_⟩
    split
    · exact .stays
    · split
      · rename_i hw
        exact (Goes.recheck (hw ▸ hp) (Bool.eq_false_iff.mpr ‹_›)).threadStep ht (by decide)
      · exact (Goes.wake w hp ‹_›).threadStep ht (by decide)
  | collected pid status =>
    obtain ⟨calls, cbList, hrun, hwf, hcap⟩ := h.delivers pid status
    dsimp only
    rw [hrun]
    refine ⟨.calls calls, _, rfl, ?_⟩
    rw [goTo_singleton ht]
    exact .goes (.deliver pid status hp) (.inr (.inr ⟨by decide, rfl⟩)) (.inr ⟨⟨pid, status, hp⟩, hwf, hcap⟩)
  | leaving =>
    refine ⟨_, _, rfl, ?_⟩
    rw [goTo_singleton ht]
    exact .goes (.lower hp) (.inr (.inl ⟨rfl, rfl⟩)) (.inl rfl)
  | left =>
    refine ⟨_, _, rfl, ?_⟩
    rw [hgone]
    exact .ends (.inl hp)

theorem Goes.place_ne {place : WaiterPlace} (h : Goes s t place) : t.place ≠ .left := by
  cases h with
  | _ => simp [*]

theorem Goes.started {place : WaiterPlace} (h : Goes s t place) (hplace : t.place = .starting) :
    place = .testing := by
  cases h with
  | _ => simp_all

/-- The mutex is locked only where it is free. -/
theorem Goes.holds {place : WaiterPlace} (h : Goes s t place) (hplace : place.holds = true) :
    t.place.holds = true ∨ s.caller.holds = false := by
  cases h with
  | lock _ hfree | recheck _ hfree => exact .inr hfree
  | _ => simp_all [WaiterPlace.holds]

/-- A thread that was told to stop does not wait for children again. -/
theorem Goes.stops {place : WaiterPlace} (h : Goes s t place) (hstop : s.threadStop = true)
    (hplace : t.place = .testing ∨ t.place = .leaving) : place = .leaving ∨ place = .left := by
  cases h with
  | _ => simp_all

/-- A step of the thread. -/
theorem ThreadStep.inv {o : WaiterEvent C D} {s' : ProcWaiterThreads C D} (hs : ThreadStep s t o s')
    (h : Inv s) (ha : Alive s t) : Inv s' := by
  cases hs with
  | stays => exact h
  | @goes place running cbList zombies cs hgoes hrunning hlist =>
    have hkept : cbList.WF ∧ cbList.capacity ≤ cbList.maxCap := by
      rcases hlist with rfl | ⟨-, hlist⟩
      · exact ⟨h.list, h.capacity⟩
      · exact hlist
    refine ⟨hkept.1, hkept.2, h.stops, h.caller, h.started, .inr ⟨_, rfl, ha.id, ha.created, ?_, ?_, ha.cancelled,
      fun hp => (hgoes.holds hp).elim ha.mutex id, fun id f hc => ⟨(ha.joined id f hc).1, fun hf =>
        absurd ((ha.joined id f hc).2 hf) hgoes.place_ne⟩, ?_, ha.caller⟩⟩
    · rcases hrunning with ⟨-, hr⟩ | ⟨hp, -⟩ | ⟨-, hr⟩
      · exact .inl hr
      · exact .inr (.inl hp)
      · rw [hr]
        exact (ha.running.imp_right fun hl => hl.resolve_left hgoes.place_ne).imp id .inr
    · intro hp
      rcases hrunning with ⟨hstart, -⟩ | ⟨-, hr⟩ | ⟨hne, -⟩
      · rw [hgoes.started hstart] at hp
        cases hp
      · exact hr
      · exact absurd hp hne
    · intro hc hr
      rcases hrunning with ⟨hstart, -⟩ | ⟨-, hr'⟩ | ⟨hne, hr'⟩
      · exact .inl (hgoes.started hstart)
      · cases hr'.symm.trans hr
      · have hstop := h.stops (by rw [hc]; trivial)
        exact .inr ((hgoes.stops hstop (ha.stopped hc (hr'.symm.trans hr))).resolve_right hne)
  | ends hplace =>
    refine ⟨h.list, h.capacity, h.stops, h.caller, h.started, .inl ⟨rfl, fun hr => ?_⟩⟩
    rcases hplace with hp | ⟨hp, hcancelled⟩
    · rw [ha.left hp] at hr
      cases hr
    · refine (ha.cancelled hcancelled).resolve_right fun hc => ?_
      have hp' := ha.stopped hc hr
      simp [hp] at hp'

/-- Threads that sleep are woken. -/
theorem Inv.woken (h : Inv s) {f : WaiterThread → WaiterThread} (hf : ∀ t, f t = t ∨ f t = wake t) :
    Inv { s with threads := s.threads.map f } := by
  refine ⟨h.list, h.capacity, h.stops, h.caller, h.started, ?_⟩
  rcases h.threads with ⟨hnil, hr⟩ | ⟨t, ht, ha⟩
  · exact .inl ⟨by rw [hnil]; rfl, hr⟩
  · have hsame : f t = t ∨ ∃ w, t.place = .asleep w ∧ f t = { t with place := .woken w } := by
      rcases hf t with he | he
      · exact .inl he
      · unfold wake at he
        split at he
        · exact .inr ⟨_, ‹_›, he⟩
        · exact .inl he
    refine .inr ⟨f t, by rw [ht]; rfl, ?_⟩
    rcases hsame with he | ⟨w, hp, he⟩
    · rw [he]
      exact ⟨ha.id, ha.created, ha.running, ha.left, ha.cancelled, ha.mutex, ha.joined, ha.stopped, ha.caller⟩
    · rw [he]
      refine ⟨ha.id, ha.created, ?_, (fun hl => by cases hl), ha.cancelled, (fun hh => by cases hh), ?_, ?_,
        ha.caller⟩
      · refine ha.running.imp_right fun hl => ?_
        exact .inr (hl.resolve_left (by rw [hp]; exact fun hl => by cases hl))
      · intro id f hc
        refine ⟨(ha.joined id f hc).1, fun hf => ?_⟩
        have hl := (ha.joined id f hc).2 hf
        rw [hp] at hl
        cases hl
      · intro hc hr
        have hl := ha.stopped hc hr
        simp [hp] at hl

/-- The controller is neither cancelling the thread nor joining it. -/
def Apart (caller : Controller) : Prop := caller ≠ .lowering ∧ ∀ id f, caller ≠ .joining id f

theorem Alive.runs (ha : Alive s t) (hapart : Apart s.caller) :
    (s.threadIsRunning = true ∨ t.place = .left) ∧ t.cancelled ≠ true := by
  refine ⟨ha.running.imp_right fun h => h.resolve_right (hapart.2 _ _), fun hc => ?_⟩
  rcases ha.cancelled hc with h | h
  · exact hapart.1 h
  · exact hapart.2 _ _ h

theorem Alive.recalled (ha : Alive s t) (hapart : Apart s.caller) {stop : Bool} {caller : Controller}
    (hmutex : t.place.holds = true → caller.holds = false)
    (hjoined : ∀ id f, caller = .joining id f → id = t.id ∧ f ≠ .stopNow ∧ (f = .start → t.place = .left))
    (hcaller : caller ≠ .creating) : Alive { s with threadStop := stop, caller } t := by
  obtain ⟨hrun, hnot⟩ := ha.runs hapart
  exact ⟨ha.id, ha.created, hrun.imp_right .inl, ha.left, fun hc => absurd hc hnot, hmutex,
    fun id f hc => ⟨(hjoined id f hc).1, (hjoined id f hc).2.2⟩,
    fun hc => absurd rfl (hjoined _ _ hc).2.1, hcaller⟩

/-- The controller goes to another place. -/
theorem Inv.recalled (h : Inv s) (hapart : Apart s.caller) {stop : Bool} {caller : Controller}
    (hstops : Stops caller → stop = true) (hcaller : caller ≠ .broadcasting .start)
    (hstarted : caller = .testing → stop = false)
    (halive : ∀ t, s.threads = [t] → Alive s t → Alive { s with threadStop := stop, caller } t) :
    Inv { s with threadStop := stop, caller } := by
  refine ⟨h.list, h.capacity, hstops, hcaller, hstarted, ?_⟩
  rcases h.threads with ⟨hnil, hr⟩ | ⟨t, ht, ha⟩
  · exact .inl ⟨hnil, fun hrun => absurd (hr hrun) hapart.1⟩
  · exact .inr ⟨t, ht, halive t ht ha⟩

/-- A function is called. -/
theorem Inv.control (h : Inv s) (hcaller : s.caller = .idle) (f : Control) : Inv (s.control f) := by
  have hapart : Apart s.caller := by
    rw [hcaller]
    exact ⟨by decide, fun _ _ h => by cases h⟩
  cases f with
  | start =>
    exact h.recalled hapart (fun hs => by cases hs) (by decide) (fun h => by cases h) fun t _ ha =>
      ha.recalled hapart (fun _ => rfl) (fun _ _ h => by cases h) (by decide)
  | stop | stopWait | stopNow =>
    exact h.recalled hapart (fun _ => rfl) (by decide) (fun h => by cases h) fun t _ ha =>
      ha.recalled hapart (fun _ => rfl) (fun _ _ h => by cases h) (by decide)

/-- The function that was called goes on. -/
theorem Inv.resume (h : Inv s) (created : Bool) : Inv (s.resume created).2 := by
  rw [ProcWaiterThreads.resume]
  have hapart : s.caller ≠ .lowering → (∀ id f, s.caller ≠ .joining id f) → Apart s.caller := .intro
  cases hc : s.caller with
  | idle => exact h
  | broadcasting f =>
    have hw : Inv s.wakeAll := h.woken fun t => .inr rfl
    have hapart : Apart s.wakeAll.caller := hapart (by simp [hc]) (by simp [hc])
    have hstop := h.stops (by rw [hc]; trivial)
    cases f with
    | start => exact absurd hc h.caller
    | stop =>
      exact hw.recalled hapart (fun hs => by cases hs) (by simp [afterStop]) (fun h => by cases h) fun t _ ha =>
        ha.recalled hapart (fun _ => rfl) (fun _ _ h => by cases h) (by simp [afterStop])
    | stopWait =>
      dsimp only [afterStop]
      split
      · refine hw.recalled hapart (fun _ => hstop) (by simp) (fun h => by cases h) fun t _ ha =>
          ha.recalled hapart (fun _ => rfl) (fun _ _ h => ?_) (by simp)
        cases h
        exact ⟨ha.id.symm, by decide, fun h => by cases h⟩
      · exact hw.recalled hapart (fun hs => by cases hs) (by decide) (fun h => by cases h) fun t _ ha =>
          ha.recalled hapart (fun _ => rfl) (fun _ _ h => by cases h) (by decide)
    | stopNow =>
      dsimp only [afterStop]
      split
      · exact hw.recalled hapart (fun _ => hstop) (by decide) (fun h => by cases h) fun t _ ha =>
          ha.recalled hapart (fun _ => rfl) (fun _ _ h => by cases h) (by decide)
      · exact hw.recalled hapart (fun hs => by cases hs) (by decide) (fun h => by cases h) fun t _ ha =>
          ha.recalled hapart (fun _ => rfl) (fun _ _ h => by cases h) (by decide)
  | cancelling =>
    refine ⟨h.list, h.capacity, fun _ => h.stops (by rw [hc]; trivial), by simp, (fun h => by cases h), ?_⟩
    rcases h.threads with ⟨hnil, hr⟩ | ⟨t, ht, ha⟩
    · exact .inl ⟨by simp [hnil], fun _ => rfl⟩
    · obtain ⟨hrun, -⟩ := ha.runs (hapart (by simp [hc]) (by simp [hc]))
      exact .inr ⟨{ t with cancelled := true }, by simp [ht, ha.id], ha.id, ha.created, hrun.imp_right .inl,
        ha.left, fun _ => .inl rfl, fun _ => rfl, (fun _ _ h => by cases h), (fun h => by cases h), by simp⟩
  | lowering =>
    refine ⟨h.list, h.capacity, fun _ => h.stops (by rw [hc]; trivial), by simp, (fun h => by cases h), ?_⟩
    rcases h.threads with ⟨hnil, hr⟩ | ⟨t, ht, ha⟩
    · exact .inl ⟨hnil, fun h => by cases h⟩
    · refine .inr ⟨t, ht, ha.id, ha.created, .inr (.inr (by rw [ha.id])), fun _ => rfl,
        fun _ => .inr (by rw [ha.id]), fun _ => rfl, fun _ _ h => ?_, (fun _ h => by cases h), by simp⟩
      cases h
      exact ⟨ha.id.symm, fun h => by cases h⟩
  | joining id f =>
    dsimp only
    split
    · exact h
    · rename_i hgone
      rcases h.threads with ⟨hnil, hr⟩ | ⟨t, ht, ha⟩
      · have hrun : s.threadIsRunning ≠ true := fun hrun => by simpa [hc] using hr hrun
        cases f with
        | start =>
          exact ⟨h.list, h.capacity, (fun h => by cases h), by simp [joined], (fun h => by cases h), .inl ⟨hnil, fun hr => absurd hr hrun⟩⟩
        | stopWait =>
          exact ⟨h.list, h.capacity, (fun h => by cases h), by simp [joined], (fun h => by cases h), .inl ⟨hnil, fun h => by cases h⟩⟩
        | stopNow =>
          exact ⟨h.list, h.capacity, (fun h => by cases h), by simp [joined], (fun h => by cases h), .inl ⟨hnil, fun hr => absurd hr hrun⟩⟩
      · exact absurd (by simp [ht, (ha.joined id f hc).1]) hgone
  | locking =>
    dsimp only
    split
    · exact h
    · rename_i hfree
      have hapart := hapart (by simp [hc]) (by simp [hc])
      refine h.recalled hapart (fun hs => by cases hs) (by decide) (fun h => by cases h) fun t ht ha =>
        ha.recalled hapart (fun hh => ?_) (fun _ _ h => by cases h) (by decide)
      exact absurd (by simp [ht, hh]) hfree
  | locked =>
    have hapart := hapart (by simp [hc]) (by simp [hc])
    refine h.recalled hapart (fun hs => by cases hs) (by decide) (fun _ => rfl) fun t ht ha =>
      ha.recalled hapart (fun hh => ?_) (fun _ _ h => by cases h) (by decide)
    have hno := ha.mutex hh
    rw [hc] at hno
    cases hno
  | testing =>
    have hapart := hapart (by simp [hc]) (by simp [hc])
    have hmutex : ∀ t, Alive s t → t.place.holds ≠ true := fun t ha hh => by
      have hno := ha.mutex hh
      rw [hc] at hno
      cases hno
    dsimp only
    split
    · exact h.recalled hapart (fun hs => by cases hs) (by decide) (fun h => by cases h) fun t _ ha =>
        ha.recalled hapart (fun _ => rfl) (fun _ _ h => by cases h) (by decide)
    · rename_i hnot
      split
      · rename_i hrun
        rcases h.threads with ⟨-, hr⟩ | ⟨t, -, ha⟩
        · exact absurd (hr hrun) hapart.1
        · exact absurd (by simp [hrun, ha.created]) hnot
      · rename_i hrun
        split
        · refine h.recalled hapart (fun hs => by cases hs) (by simp) (fun h => by cases h) fun t _ ha =>
            ha.recalled hapart (fun hh => absurd hh (hmutex t ha)) (fun _ _ h => ?_) (by simp)
          cases h
          exact ⟨ha.id.symm, by decide, fun _ => ((ha.runs hapart).1).resolve_left hrun⟩
        · rename_i hcreated
          exact h.recalled hapart (fun hs => by cases hs) (by decide) (fun h => by cases h) fun t _ ha => absurd ha.created hcreated
  | creating =>
    rcases h.threads with ⟨hnil, hr⟩ | ⟨t, -, ha⟩
    · dsimp only [create]
      split
      · refine ⟨h.list, h.capacity, (fun h => by cases h), by simp, (fun h => by cases h), .inr ⟨⟨s.nextId, .starting, false⟩, ?_,
          rfl, rfl, .inl rfl, (fun h => by cases h), (fun h => by cases h), (fun h => by cases h),
          (fun _ _ h => by cases h), (fun h => by cases h), by simp⟩⟩
        simp [hnil]
      · exact ⟨h.list, h.capacity, (fun h => by cases h), by simp, (fun h => by cases h), .inl ⟨hnil, fun h => by cases h⟩⟩
    · exact absurd hc ha.caller

theorem resize_zero_keeps {l : ArrayList (ProcWaiter C D)} (h : l.WF) :
    ∃ dropped l', l.resize 0 = .ok (dropped, l') ∧ l'.WF ∧ l'.capacity ≤ l'.maxCap := by
  by_cases h0 : l.capacity = 0
  · have hres : l.resize 0 = .ok ([], l) := by rw [← h0, ArrayList.resize_same]
    exact ⟨_, _, hres, h, by rw [h0]; exact Nat.zero_le _⟩
  · exact ⟨_, _, ArrayList.resize_zero h (Nat.pos_of_ne_zero h0), .mk_null, Nat.zero_le _⟩

/-- A broadcast that is due is made. -/
def Broadcasts (s : ProcWaiterThreads C D) : WaiterMove C D → Prop
  | .broadcast => 0 < s.broadcasts
  | .resume _ => s.caller.owes = true
  | _ => False

/-- The controller does not go on, and no broadcast that is due is made. -/
def Silent (s : ProcWaiterThreads C D) (m : WaiterMove C D) : Prop :=
  ¬Broadcasts s m ∧ ∀ created, m ≠ .resume created

/-- What a move does: nothing, or something to the controller, to the thread, or outside of both. -/
inductive Moves (s : ProcWaiterThreads C D) :
    WaiterMove C D → WaiterEvent C D → ProcWaiterThreads C D → Prop where
  | stays {m : WaiterMove C D} (hm : Silent s m) : Moves s m (.calls []) s
  | control {f : Control} (h : s.caller = .idle) : Moves s (.control f) (.calls []) (s.control f)
  | resume (created : Bool) : Moves s (.resume created) (s.resume created).1 (s.resume created).2
  | thread {t : WaiterThread} {k : Nat} {o : WaiterEvent C D} {s' : ProcWaiterThreads C D}
      (ht : s.threads = [t]) (h : ThreadStep s t o s') : Moves s (.thread t.id k) o s'
  | wakes {m : WaiterMove C D} {f : WaiterThread → WaiterThread} (hm : Silent s m)
      (h : ∀ t, f t = t ∨ f t = wake t) : Moves s m (.calls []) { s with threads := s.threads.map f }
  | broadcast (h : 0 < s.broadcasts) :
      Moves s .broadcast (.calls []) { s.wakeAll with broadcasts := s.broadcasts - 1 }
  /-- Who changes the list will wake the thread. -/
  | outside {m : WaiterMove C D} {cbList : ArrayList (ProcWaiter C D)} {broadcasts : Nat} {sleepTime : Int}
      {children : List Int} {zombies : List (Int × Int)} (hm : Silent s m) (hwf : cbList.WF)
      (hcap : cbList.capacity ≤ cbList.maxCap)
      (h : cbList = s.cbList ∧ broadcasts = s.broadcasts ∨ broadcasts = s.broadcasts + 1) :
      Moves s m (.calls []) { s with cbList, broadcasts, sleepTime, children, zombies }

theorem step_moves [DecidableEq C] [DecidableEq D] (h : Inv s) (m : WaiterMove C D) (hfits : Fits s m) :
    ∃ o s', step s m = .ok (o, s') ∧ Moves s m o s' := by
  cases m with
  | control f =>
    refine ⟨_, _, rfl, ?_⟩
    split
    · exact .control ‹_›
    · exact .stays ⟨fun hb => hb, by simp⟩
  | resume created => exact ⟨_, _, rfl, .resume created⟩
  | thread id k =>
    have hm : Silent s (.thread id k) := ⟨fun hb => hb, by simp⟩
    rcases h.threads with ⟨hnil, -⟩ | ⟨t, ht, -⟩
    · exact ⟨.calls [], s, by rw [step, hnil]; rfl, .stays hm⟩
    · by_cases hid : t.id = id
      · obtain ⟨o, s', hrun, hs⟩ := threadProc_cases h ht k
        refine ⟨o, s', ?_, hid ▸ .thread ht hs⟩
        rw [step, ht, List.find?_cons_of_pos (by simpa using hid)]
        exact hrun
      · refine ⟨.calls [], s, ?_, .stays hm⟩
        rw [step, ht, List.find?_cons_of_neg (by simpa using hid)]
        rfl
  | timeout id | spurious id =>
    refine ⟨_, _, rfl, .wakes ⟨fun hb => hb, by simp⟩ fun t => ?_⟩
    split
    · exact .inr rfl
    · exact .inl rfl
  | register pw =>
    have hm : Silent s (.register pw) := ⟨fun hb => hb, by simp⟩
    rcases ArrayList.add_item h.list h.capacity hfits pw with
      ⟨-, hadd⟩ | ⟨-, l', pre, post, hadd, hwf, hcap, -⟩
    · exact ⟨_, _, by rw [step, hadd]; rfl, .stays hm⟩
    · exact ⟨_, _, by rw [step, hadd]; rfl, .outside hm hwf hcap (.inr rfl)⟩
  | deregister pid procExited userData =>
    obtain ⟨freed, l', hvisit, hwf, hcap⟩ := ArrayList.visit_keeps h.list h.capacity
      (ProcWaiter.deregisterBody s.cbList.freeItem pid procExited userData)
    exact ⟨_, _, by rw [step, hvisit]; rfl, .outside ⟨fun hb => hb, by simp⟩ hwf hcap (.inr rfl)⟩
  | deregisterAll =>
    obtain ⟨dropped, l', hres, hwf, hcap⟩ := resize_zero_keeps h.list
    exact ⟨_, _, by rw [step, hres]; rfl, .outside ⟨fun hb => hb, by simp⟩ hwf hcap (.inr rfl)⟩
  | broadcast =>
    by_cases h0 : s.broadcasts = 0
    · refine ⟨_, _, by rw [step, if_pos h0], .stays ⟨fun hb => ?_, by simp⟩⟩
      rw [Broadcasts, h0] at hb
      exact absurd hb (Nat.lt_irrefl 0)
    · exact ⟨_, _, by rw [step, if_neg h0], .broadcast (Nat.pos_of_ne_zero h0)⟩
  | wakeup => exact ⟨_, _, rfl, .wakes ⟨fun hb => hb, by simp⟩ fun t => .inr rfl⟩
  | setSleepTime sleepTime =>
    exact ⟨_, _, rfl, .outside ⟨fun hb => hb, by simp⟩ h.list h.capacity (.inl ⟨rfl, rfl⟩)⟩
  | fork pid => exact ⟨_, _, rfl, .outside ⟨fun hb => hb, by simp⟩ h.list h.capacity (.inl ⟨rfl, rfl⟩)⟩
  | exit pid status =>
    refine ⟨_, _, rfl, ?_⟩
    split
    · exact .outside ⟨fun hb => hb, by simp⟩ h.list h.capacity (.inl ⟨rfl, rfl⟩)
    · exact .stays ⟨fun hb => hb, by simp⟩

theorem Moves.inv {m : WaiterMove C D} {o : WaiterEvent C D} {s' : ProcWaiterThreads C D}
    (hm : Moves s m o s') (h : Inv s) : Inv s' := by
  cases hm with
  | stays => exact h
  | control hc => exact h.control hc _
  | resume created => exact h.resume created
  | thread ht hs =>
    rcases h.threads with ⟨hnil, -⟩ | ⟨t, ht', ha⟩
    · rw [hnil] at ht
      cases ht
    · cases ht.symm.trans ht'
      exact hs.inv h ha
  | wakes _ hf => exact h.woken hf
  | broadcast =>
    have hw := h.woken (f := wake) fun t => .inr rfl
    exact hw.outside hw.list hw.capacity _ _ _ _
  | outside _ hwf hcap => exact h.outside hwf hcap _ _ _ _

theorem step_inv [DecidableEq C] [DecidableEq D] (h : Inv s) (m : WaiterMove C D) (hfits : Fits s m) :
    ∃ o s', step s m = .ok (o, s') ∧ Inv s' := by
  obtain ⟨o, s', hs, hm⟩ := step_moves h m hfits
  exact ⟨o, s', hs, hm.inv h⟩

/-- Broadcasts that are due. -/
def owed (s : ProcWaiterThreads C D) : Nat := s.broadcasts + if s.caller.owes then 1 else 0

/-- Does a thread at this place go to sleep, or sleep, in the loop for an empty list although there is
something to do? -/
def Overlooks (s : ProcWaiterThreads C D) : WaiterPlace → Prop
  | .counted => s.cbList.count ≠ 0
  | .dozing .empty | .asleep .empty => s.cbList.count ≠ 0 ∨ s.threadStop = true
  | _ => False

/-- If it does, it will be woken. -/
def Heard (s : ProcWaiterThreads C D) : Prop := ∀ t ∈ s.threads, Overlooks s t.place → 0 < s.owed

/-- The last broadcast that is due does not come while the thread is on its way to sleep. -/
def InTime (s : ProcWaiterThreads C D) (m : WaiterMove C D) : Prop :=
  Broadcasts s m → s.owed = 1 → ∀ t ∈ s.threads, Overlooks s t.place → t.place = .asleep .empty

theorem Heard.of (h : Heard s) {s' : ProcWaiterThreads C D}
    (hwork : ∀ place, Overlooks s' place → Overlooks s place)
    (hthreads : ∀ t ∈ s'.threads, Overlooks s' t.place → ∃ u ∈ s.threads, u.place = t.place)
    (howed : s.owed ≤ s'.owed) : Heard s' := by
  intro t ht hover
  obtain ⟨u, hu, hp⟩ := hthreads t ht hover
  exact Nat.lt_of_lt_of_le (h u hu (by rw [hp]; exact hwork _ hover)) howed

theorem Heard.woken (h : Heard s) {f : WaiterThread → WaiterThread} (hf : ∀ t, f t = t ∨ f t = wake t) :
    Heard { s with threads := s.threads.map f } := by
  refine h.of (fun _ hw => hw) (fun t ht hover => ?_) (Nat.le_refl _)
  obtain ⟨u, hu, rfl⟩ := List.mem_map.mp ht
  refine ⟨u, hu, ?_⟩
  rcases hf u with he | he
  · rw [he]
  · rw [he] at hover ⊢
    unfold wake at hover ⊢
    split
    · rw [show u.place = .asleep _ from ‹_›] at hover
      cases hover
    · rfl

/-- A broadcast. -/
theorem heard_wakeAll_iff (h : Heard s) {s' : ProcWaiterThreads C D} (hthreads : s'.threads = s.threads.map wake)
    (hcount : s'.cbList.count = s.cbList.count) (hstop : s'.threadStop = s.threadStop)
    (howed : s.owed = s'.owed + 1) :
    Heard s' ↔ (s.owed = 1 → ∀ t ∈ s.threads, Overlooks s t.place → t.place = .asleep .empty) := by
  have hwork : ∀ place, Overlooks s' place ↔ Overlooks s place := fun place => by
    cases place with
    | dozing w | asleep w => cases w <;> simp [Overlooks, hcount, hstop]
    | _ => simp [Overlooks, hcount]
  constructor
  · intro hs' hone t ht hover
    by_contra hne
    have hstays : wake t = t := by
      unfold wake
      split
      · rename_i w hp
        cases w with
        | empty => exact absurd hp hne
        | untimed | timed =>
          rw [hp] at hover
          cases hover
      · rfl
    have hpos := hs' t (by rw [hthreads]; exact List.mem_map.mpr ⟨t, ht, hstays⟩) ((hwork _).mpr hover)
    omega
  · intro hone t ht hover
    rw [hthreads] at ht
    obtain ⟨u, hu, rfl⟩ := List.mem_map.mp ht
    rw [hwork] at hover
    unfold wake at hover
    split at hover
    · cases hover
    · rename_i hp
      have hpos := h u hu hover
      have hne : s.owed ≠ 1 := fun he => hp _ (hone he u hu hover)
      omega

theorem ThreadStep.heard {o : WaiterEvent C D} {s' : ProcWaiterThreads C D} (hs : ThreadStep s t o s')
    (h : Heard s) (ht : s.threads = [t]) : Heard s' := by
  have hin : t ∈ s.threads := by
    rw [ht]
    exact List.mem_singleton_self t
  cases hs with
  | stays => exact h
  | @goes place running cbList zombies cs hgoes hrunning hlist =>
    intro u hu hover
    rw [List.mem_singleton] at hu
    subst hu
    refine h t hin ?_
    have hsame : (∀ pid status, t.place ≠ .collected pid status) → cbList = s.cbList := fun hne =>
      hlist.resolve_right fun ⟨⟨pid, status, hp⟩, _⟩ => hne pid status hp
    cases hgoes with
    | doze hp hcount w hw =>
      cases w with
      | empty => exact absurd rfl hw
      | untimed | timed => cases hover
    | count hp hcount =>
      rw [hsame (by simp [hp])] at hover
      exact absurd hcount hover
    | dozeEmpty hp hstop =>
      rw [hsame (by simp [hp])] at hover
      rw [hp]
      exact Or.resolve_right hover (by simp [hstop])
    | sleep w hp =>
      rw [hsame (by simp [hp])] at hover
      rw [hp]
      cases w with
      | empty => exact hover
      | untimed | timed => cases hover
    | _ => cases hover
  | ends => exact fun _ hu => by cases hu

/-- The function that was called goes on, and no broadcast is due from it. -/
theorem Heard.resume (h : Heard s) (hcaller : s.caller.owes = false) (created : Bool) :
    Heard (s.resume created).2 := by
  have howed : s.owed = s.broadcasts := by
    rw [owed, hcaller]
    rfl
  have hkeep : ∀ caller : Controller, Heard { s with caller } := fun caller =>
    h.of (fun _ hw => hw) (fun t ht _ => ⟨t, ht, rfl⟩) (by rw [howed]; exact Nat.le_add_right _ _)
  rw [ProcWaiterThreads.resume]
  cases hc : s.caller with
  | idle => exact h
  | broadcasting f =>
    rw [hc] at hcaller
    cases hcaller
  | cancelling =>
    refine h.of (fun _ hw => hw) (fun t ht _ => ?_) (by rw [howed]; exact Nat.le_add_right _ _)
    obtain ⟨u, hu, rfl⟩ := List.mem_map.mp ht
    refine ⟨u, hu, ?_⟩
    split <;> rfl
  | lowering =>
    exact h.of (fun _ hw => hw) (fun t ht _ => ⟨t, ht, rfl⟩) (by rw [howed]; exact Nat.le_add_right _ _)
  | joining id f =>
    dsimp only
    split
    · exact h
    · cases f with
      | start => exact hkeep _
      | stopWait | stopNow =>
        exact h.of (fun _ hw => hw) (fun t ht _ => ⟨t, ht, rfl⟩) (by rw [howed]; exact Nat.le_add_right _ _)
  | locking =>
    dsimp only
    split
    · exact h
    · exact hkeep _
  | locked =>
    refine h.of (fun place hw => ?_) (fun t ht _ => ⟨t, ht, rfl⟩) (by rw [howed]; exact Nat.le_add_right _ _)
    cases place with
    | dozing w | asleep w =>
      cases w with
      | empty => exact .inl (hw.resolve_right (by simp))
      | untimed | timed => exact hw
    | _ => exact hw
  | testing =>
    dsimp only
    split
    · exact hkeep _
    · split
      · exact fun _ _ _ => Nat.lt_of_lt_of_le Nat.one_pos (Nat.le_add_left _ _)
      · split
        · exact hkeep _
        · exact hkeep _
  | creating =>
    dsimp only [create]
    split
    · refine h.of (fun _ hw => hw) (fun t ht hover => ?_) (by rw [howed]; exact Nat.le_add_right _ _)
      rcases List.mem_cons.mp ht with rfl | ht
      · cases hover
      · exact ⟨t, ht, rfl⟩
    · exact h.of (fun _ hw => hw) (fun t ht _ => ⟨t, ht, rfl⟩) (by rw [howed]; exact Nat.le_add_right _ _)

/-- Once `proc_waiter_start` has returned `ALIB_OK`, and until the thread is told to stop, it stays in its
loop. -/
def Serves (s : ProcWaiterThreads C D) : Prop :=
  s.threadStop = false → s.threadCreated = true → s.caller = .idle ∨ s.caller = .locking →
    ∃ t ∈ s.threads, t.place ≠ .leaving ∧ t.place ≠ .left

/-- `proc_waiter_start` does not find `THREAD_IS_RUNNING` raised by a thread that is behind its loop. -/
def NotLeaving (s : ProcWaiterThreads C D) : WaiterMove C D → Prop
  | .resume _ => s.caller = .testing → s.threadIsRunning = true → ∀ t ∈ s.threads, t.place ≠ .leaving
  | _ => True

theorem ThreadStep.serves {o : WaiterEvent C D} {s' : ProcWaiterThreads C D} (hs : ThreadStep s t o s')
    (h : Serves s) (ht : s.threads = [t]) (ha : Alive s t) : Serves s' := by
  have hplace : s.threadStop = false → s.threadCreated = true → s.caller = .idle ∨ s.caller = .locking →
      (t.place ≠ .leaving ∧ t.place ≠ .left) ∧ t.cancelled ≠ true := by
    intro hstop hcreated hcaller
    obtain ⟨u, hu, hp⟩ := h hstop hcreated hcaller
    rw [ht, List.mem_singleton] at hu
    rw [hu] at hp
    refine ⟨hp, (ha.runs ?_).2⟩
    rcases hcaller with hc | hc
    · rw [hc]
      exact ⟨by decide, fun _ _ h => by cases h⟩
    · rw [hc]
      exact ⟨by decide, fun _ _ h => by cases h⟩
  intro hstop hcreated hcaller
  cases hs with
  | stays => exact h hstop hcreated hcaller
  | @goes place running cbList zombies cs hgoes hrunning hlist =>
    refine ⟨_, List.mem_singleton_self _, ?_⟩
    obtain ⟨⟨hleaving, -⟩, -⟩ := hplace hstop hcreated hcaller
    cases hgoes with
    | leave hp hstop' => cases hstop.symm.trans hstop'
    | lower hp => exact absurd hp hleaving
    | _ => simp
  | ends hend =>
    obtain ⟨⟨-, hleft⟩, hnot⟩ := hplace hstop hcreated hcaller
    rcases hend with hp | ⟨-, hc⟩
    · exact absurd hp hleft
    · exact absurd hc hnot

theorem Serves.woken (h : Serves s) {f : WaiterThread → WaiterThread} (hf : ∀ t, f t = t ∨ f t = wake t) :
    Serves { s with threads := s.threads.map f } := by
  intro hstop hcreated hcaller
  obtain ⟨t, ht, hp⟩ := h hstop hcreated hcaller
  refine ⟨f t, List.mem_map.mpr ⟨t, ht, rfl⟩, ?_⟩
  rcases hf t with he | he
  · rw [he]
    exact hp
  · rw [he]
    unfold wake
    split
    · exact ⟨by simp, by simp⟩
    · exact hp

/-- The function that was called goes on. -/
theorem serves_resume_iff (h : Inv s) (hserves : Serves s) (created : Bool) :
    NotLeaving s (.resume created) ↔ Serves (s.resume created).2 := by
  have hother : s.caller ≠ .testing → ∀ {s' : ProcWaiterThreads C D}, Serves s' →
      (NotLeaving s (.resume created) ↔ Serves s') := fun hc _ hs => iff_of_true (fun he => absurd he hc) hs
  have hnot : ∀ {s' : ProcWaiterThreads C D}, s'.caller ≠ .idle → s'.caller ≠ .locking → Serves s' :=
    fun hi hl _ _ hc => (hc.elim hi hl).elim
  have hstopped : ∀ {s' : ProcWaiterThreads C D}, s'.threadStop = true → Serves s' :=
    fun hs hstop => by cases hs.symm.trans hstop
  have huncreated : ∀ {s' : ProcWaiterThreads C D}, s'.threadCreated = false → Serves s' :=
    fun hs _ hcreated => by cases hs.symm.trans hcreated
  rw [ProcWaiterThreads.resume]
  cases hc : s.caller with
  | idle => exact hother (by simp [hc]) hserves
  | broadcasting f =>
    exact hother (by simp [hc]) (hstopped (h.stops (by rw [hc]; trivial)))
  | cancelling | lowering =>
    exact hother (by simp [hc]) (hstopped (h.stops (by rw [hc]; trivial)))
  | joining id f =>
    refine hother (by simp [hc]) ?_
    dsimp only
    split
    · exact hserves
    · cases f with
      | start => exact hnot (by simp [joined]) (by simp [joined])
      | stopWait | stopNow => exact huncreated rfl
  | locking =>
    refine hother (by simp [hc]) ?_
    dsimp only
    split
    · exact hserves
    · exact hnot (by simp) (by simp)
  | locked =>
    exact hother (by simp [hc]) (hnot (by simp) (by simp))
  | creating =>
    refine hother (by simp [hc]) ?_
    dsimp only [create]
    split
    · exact fun _ _ _ => ⟨_, List.mem_cons_self, by simp, by simp⟩
    · exact huncreated rfl
  | testing =>
    dsimp only
    split
    · rename_i hflags
      obtain ⟨hrun, hcreated⟩ := Bool.and_eq_true_iff.mp hflags
      rcases h.threads with ⟨-, hr⟩ | ⟨t, ht, ha⟩
      · have hcall := hr hrun
        rw [hc] at hcall
        cases hcall
      · have hleft : t.place ≠ .left := fun hl => by cases (ha.left hl).symm.trans hrun
        have hin : t ∈ s.threads := by
          rw [ht]
          exact List.mem_singleton_self t
        refine ⟨fun hn _ _ _ => ⟨t, hin, hn hc hrun t hin, hleft⟩, fun hs _ _ u hu => ?_⟩
        obtain ⟨v, hv, hp, -⟩ := hs (h.started hc) hcreated (.inl rfl)
        rw [ht, List.mem_singleton] at hu
        replace hv : v ∈ s.threads := hv
        rw [ht, List.mem_singleton] at hv
        rw [hu, ← hv]
        exact hp
    · rename_i hflags
      split
      · rename_i hrun
        rcases h.threads with ⟨-, hr⟩ | ⟨t, ht, ha⟩
        · have hcall := hr hrun
          rw [hc] at hcall
          cases hcall
        · exact absurd (by rw [hrun, ha.created]; rfl) hflags
      · rename_i hrun
        refine iff_of_true (fun _ hr => absurd hr hrun) ?_
        split
        · exact hnot (by simp) (by simp)
        · exact hnot (by simp) (by simp)

/-- A move keeps it that every wake-up is heard exactly when it comes in time. -/
theorem Moves.heard_iff {m : WaiterMove C D} {o : WaiterEvent C D} {s' : ProcWaiterThreads C D}
    (hm : Moves s m o s') (h : Heard s) : InTime s m ↔ Heard s' := by
  have hquiet : ¬Broadcasts s m → Heard s' → (InTime s m ↔ Heard s') := fun hno hs =>
    iff_of_true (fun hb => absurd hb hno) hs
  have hbroadcast : Broadcasts s m → s'.threads = s.threads.map wake → s'.cbList = s.cbList →
      s'.threadStop = s.threadStop → s.owed = s'.owed + 1 → (InTime s m ↔ Heard s') :=
    fun hb hthreads hlist hstop howed =>
      (forall_prop_of_true hb).trans (heard_wakeAll_iff h hthreads (by rw [hlist]) hstop howed).symm
  cases hm with
  | stays hm => exact hquiet hm.1 h
  | @control f hc =>
    refine hquiet (fun hb => hb) ?_
    cases f with
    | start =>
      refine h.of (fun _ hw => hw) (fun t ht _ => ⟨t, ht, rfl⟩) ?_
      simp [owed, hc, ProcWaiterThreads.control, Controller.owes]
    | stop | stopWait | stopNow =>
      exact fun _ _ _ => Nat.lt_of_lt_of_le Nat.one_pos (Nat.le_add_left _ _)
  | resume created =>
    cases hc : s.caller.owes with
    | false => exact hquiet (fun hb => by cases hc.symm.trans hb) (h.resume hc created)
    | true =>
      obtain ⟨f, hf⟩ : ∃ f, s.caller = .broadcasting f := by
        cases hcaller : s.caller with
        | broadcasting f => exact ⟨f, rfl⟩
        | _ => simp [hcaller, Controller.owes] at hc
      have hafter : (s.afterStop f).owes = false := by
        cases f with
        | start | stop => rfl
        | stopWait | stopNow =>
          rw [afterStop]
          split <;> rfl
      have hresume : (s.resume created).2 = { s.wakeAll with caller := s.afterStop f } := by
        simp only [ProcWaiterThreads.resume, hf]
      rw [hresume] at hbroadcast ⊢
      exact hbroadcast hc rfl rfl rfl (by simp [owed, hc, hafter, wakeAll])
  | thread ht hs => exact hquiet (fun hb => hb) (hs.heard h ht)
  | wakes hm hf => exact hquiet hm.1 (h.woken hf)
  | broadcast hpos =>
    refine hbroadcast hpos rfl rfl rfl ?_
    change s.broadcasts + _ = s.broadcasts - 1 + (if s.caller.owes then 1 else 0) + 1
    omega
  | outside hm _ _ hlist =>
    refine hquiet hm.1 ?_
    rcases hlist with ⟨rfl, rfl⟩ | rfl
    · exact h
    · intro _ _ _
      change 0 < s.broadcasts + 1 + _
      omega

theorem Moves.serves_iff {m : WaiterMove C D} {o : WaiterEvent C D} {s' : ProcWaiterThreads C D}
    (hm : Moves s m o s') (h : Inv s) (hserves : Serves s) : NotLeaving s m ↔ Serves s' := by
  have hsilent : Silent s m → NotLeaving s m := fun hm => by
    cases m with
    | resume created => exact absurd rfl (hm.2 created)
    | _ => trivial
  cases hm with
  | stays hm => exact iff_of_true (hsilent hm) hserves
  | @control f hc =>
    refine iff_of_true trivial ?_
    cases f with
    | start => exact fun hstop hcreated _ => hserves hstop hcreated (.inl hc)
    | stop | stopWait | stopNow => exact fun hstop => by cases hstop
  | resume created => exact serves_resume_iff h hserves created
  | thread ht hs =>
    rcases h.threads with ⟨hnil, -⟩ | ⟨t, ht', ha⟩
    · rw [hnil] at ht
      cases ht
    · cases ht.symm.trans ht'
      exact iff_of_true trivial (hs.serves hserves ht ha)
  | wakes hm hf => exact iff_of_true (hsilent hm) (hserves.woken hf)
  | broadcast => exact iff_of_true trivial (hserves.woken fun t => .inr rfl)
  | outside hm => exact iff_of_true (hsilent hm) hserves

/-- The thread sleeps, or is about to, until someone else wakes it. -/
def Doomed (s : ProcWaiterThreads C D) (t : WaiterThread) : Prop :=
  match t.place with
  | .dozing w | .asleep w => w ≠ .timed
  | .childless | .locked => s.cbList.count ≠ 0 ∧ s.sleepTime < 0
  | _ => False

/-- The thread takes a step, or its controller, or a child, or time passes. -/
def Unaided : WaiterMove C D → Prop
  | .resume _ | .thread _ _ | .timeout _ | .fork _ | .exit _ _ => True
  | _ => False

/-- `pthread_join` waits for a thread that is doomed. -/
structure Stuck (s : ProcWaiterThreads C D) : Prop where
  inv : Inv s
  joining : ∃ id f, s.caller = .joining id f
  doomed : ∃ t ∈ s.threads, Doomed s t

theorem ThreadStep.doomed {o : WaiterEvent C D} {s' : ProcWaiterThreads C D} (hs : ThreadStep s t o s')
    (ht : s.threads = [t]) (h : Doomed s t) : s'.caller = s.caller ∧ ∃ t' ∈ s'.threads, Doomed s' t' := by
  cases hs with
  | stays => exact ⟨rfl, t, by rw [ht]; exact List.mem_singleton_self t, h⟩
  | @goes place running cbList zombies cs hgoes hrunning hlist =>
    refine ⟨rfl, _, List.mem_singleton_self _, ?_⟩
    have hsame : (∀ pid status, t.place ≠ .collected pid status) → cbList = s.cbList := fun hne =>
      hlist.resolve_right fun ⟨⟨pid, status, hp⟩, _⟩ => hne pid status hp
    cases hgoes with
    | lock hp =>
      rw [Doomed, hp] at h
      rw [hsame (by simp [hp])]
      exact h
    | doze hp _ w _ htimed =>
      rw [Doomed, hp] at h
      rw [htimed.mpr h.2]
      exact fun hw => by cases hw
    | empty hp hcount =>
      rw [Doomed, hp] at h
      exact absurd hcount h.1
    | sleep w hp =>
      rw [Doomed, hp] at h
      exact h
    | start hp | leave hp | wait hp | collect hp | fail hp | filled hp | count hp | stopped hp
    | dozeEmpty hp | recheck hp | wake _ hp | deliver _ _ hp | lower hp =>
      rw [Doomed, hp] at h
      exact h.elim
  | ends hend =>
    rcases hend with hp | ⟨hp, -⟩
    · rw [Doomed, hp] at h
      exact h.elim
    · rw [Doomed, hp] at h
      exact h.elim

section Runs
variable [DecidableEq C] [DecidableEq D]

/-- The first calls of a run, and the first steps of the thread. -/
def started (k : Nat) : List (WaiterMove Nat Nat) :=
  .control .start :: List.replicate 4 (.resume true) ++ List.replicate k (.thread 0 0)

theorem allSteps_fits (moves : List (WaiterMove C D)) (h : ∀ m ∈ moves, ∀ pw, m ≠ .register pw) :
    ∀ s, AllSteps step Fits s moves := by
  induction moves with
  | nil => exact fun _ => trivial
  | cons m moves ih =>
    obtain ⟨hm, hmoves⟩ := List.forall_mem_cons.mp h
    refine fun s => ⟨?_, fun _ s' _ => ih hmoves s'⟩
    cases m with
    | register pw => exact absurd rfl (hm pw)
    | _ => trivial

theorem kept_iff {P : ProcWaiterThreads C D → Prop} {Q : ProcWaiterThreads C D → WaiterMove C D → Prop}
    (hmoves : ∀ {s m o s'}, Moves s m o s' → Inv s → P s → (Q s m ↔ P s')) (hnew : P new)
    (moves : List (WaiterMove C D)) (hfits : AllSteps step Fits new moves) :
    AllSteps step Q new moves ↔
      AllSteps step (fun s m => ∀ o s', step s m = .ok (o, s') → P s') new moves := by
  refine allSteps_kept_iff (fun s m hs hp hm => ?_) moves new new_inv hnew hfits
  obtain ⟨o, s', he, hmove⟩ := step_moves hs m hm
  exact ⟨o, s', he, hmove.inv hs, hmoves hmove hs hp⟩

/-- A callback is registered while the thread is on its way to sleep: it is not woken. -/
example : (run step new (started 7 ++ [.register ⟨5, some 0, none⟩, .broadcast, .thread 0 0])).map
    (fun r => (r.2.threads, r.2.cbList.count, r.2.owed)) = .ok ([⟨0, .asleep .empty, false⟩], 1, 0) := by
  rfl

/-- The thread is leaving while it is started again: nothing is left of it. -/
example : (run step new (started 1 ++ [.control .stop, .resume true, .thread 0 0] ++ started 2)).map
    (fun r => (r.1.drop 12 |>.head?, r.2.threads, r.2.threadStop, r.2.threadCreated)) =
      .ok (some (.started .ok), [], false, true) := by
  rfl

/-- Nothing but a wake-up helps a thread that is doomed. -/
theorem Stuck.step (h : Stuck s) {m : WaiterMove C D} (hm : Unaided m) {o : WaiterEvent C D}
    {s' : ProcWaiterThreads C D} (hs : step s m = .ok (o, s')) : Stuck s' := by
  obtain ⟨hinv, ⟨id, f, hcaller⟩, t, ht, hdoomed⟩ := h
  obtain ⟨t', hthreads, ha⟩ := hinv.threads.resolve_left fun hnil => by
    rw [hnil.1] at ht
    cases ht
  rw [hthreads, List.mem_singleton] at ht
  subst ht
  obtain ⟨o₁, s₁, hs₁, hinv'⟩ := step_inv hinv m (by cases m <;> trivial)
  rw [hs] at hs₁
  cases hs₁
  have hend : s'.caller = s.caller ∧ (∃ t ∈ s'.threads, Doomed s' t) → Stuck s' := fun he =>
    ⟨hinv', ⟨id, f, he.1.trans hcaller⟩, he.2⟩
  have hin : t ∈ s.threads := by
    rw [hthreads]
    exact List.mem_singleton_self t
  apply hend
  cases m with
  | resume created =>
    have hstays : s.resume created = (.calls [], s) := by
      have hany : s.threads.any (·.id = id) = true := by simp [hthreads, (ha.joined id f hcaller).1]
      rw [ProcWaiterThreads.resume, hcaller]
      simp [hany]
    cases (congrArg Prod.snd (Except.ok.inj hs)).symm
    rw [hstays]
    exact ⟨rfl, t, hin, hdoomed⟩
  | thread id k =>
    rw [ProcWaiterThreads.step] at hs
    by_cases hid : t.id = id
    · rw [hthreads, List.find?_cons_of_pos (by simpa using hid)] at hs
      obtain ⟨o₁, s₁, hrun, hstep⟩ := threadProc_cases hinv hthreads k
      cases hrun.symm.trans hs
      exact hstep.doomed hthreads hdoomed
    · rw [hthreads, List.find?_cons_of_neg (by simpa using hid)] at hs
      cases hs
      exact ⟨rfl, t, hin, hdoomed⟩
  | timeout id =>
    cases hs
    refine ⟨rfl, t, List.mem_map.mpr ⟨t, hin, if_neg fun hp => ?_⟩, hdoomed⟩
    rw [Doomed, hp.2] at hdoomed
    exact hdoomed rfl
  | fork pid =>
    cases hs
    exact ⟨rfl, t, hin, hdoomed⟩
  | exit pid status =>
    cases hs
    split
    · exact ⟨rfl, t, hin, hdoomed⟩
    · exact ⟨rfl, t, hin, hdoomed⟩
  | control | spurious | register | deregister | deregisterAll | broadcast | wakeup | setSleepTime => cases hm

/-- From one state to another without a wake-up. -/
def Reaches (s s' : ProcWaiterThreads C D) : Prop :=
  ∃ moves os, (∀ m ∈ moves, Unaided m) ∧ run step s moves = .ok (os, s')

theorem Reaches.cons {m : WaiterMove C D} {o : WaiterEvent C D} {s₁ s₂ : ProcWaiterThreads C D}
    (hm : Unaided m) (hs : step s m = .ok (o, s₁)) (h : Reaches s₁ s₂) : Reaches s s₂ := by
  obtain ⟨moves, os, hmoves, hrun⟩ := h
  exact ⟨m :: moves, o :: os, List.forall_mem_cons.mpr ⟨hm, hmoves⟩, run_cons hs hrun⟩

theorem Reaches.refl (s : ProcWaiterThreads C D) : Reaches s s :=
  ⟨[], [], (fun _ hm => by cases hm), rfl⟩

theorem Stuck.reaches (h : Stuck s) {s' : ProcWaiterThreads C D} (hs : Reaches s s') : Stuck s' := by
  obtain ⟨moves, os, hmoves, hrun⟩ := hs
  exact @run_preserves _ _ _ _ Unaided _ (fun s m o s' hs hm he => hs.step hm he) moves s os s' h hmoves hrun

/-- How far the thread is from its end. -/
def rank : WaiterPlace → Nat
  | .left => 1
  | .leaving => 2
  | .testing => 3
  | .starting | .collected _ _ | .counted => 4
  | .emptyTest | .waiting => 5
  | .woken _ => 6
  | .asleep _ => 7
  | .dozing _ => 8
  | .locked => 9
  | .childless => 10

/-- One step further, the thread is gone or nearer to its end. -/
structure Nearer (s s' : ProcWaiterThreads C D) (n : Nat) : Prop where
  inv : Inv s'
  caller : s'.caller = s.caller
  threads : s'.threads = [] ∨ ∃ t, s'.threads = [t] ∧ ¬Doomed s' t ∧ rank t.place < n

/-- A thread that was told to stop and is not doomed comes nearer to its end. -/
theorem nearer (h : Inv s) (ht : s.threads = [t]) {id : Nat} {f : Joiner} (hcaller : s.caller = .joining id f)
    (hdoomed : ¬Doomed s t) : ∃ s', Reaches s s' ∧ Nearer s s' (rank t.place) := by
  obtain ⟨t', ht', ha⟩ := h.threads.resolve_left fun hnil => by
    rw [hnil.1] at ht
    cases ht
  cases ht.symm.trans ht'
  have hstop : t.place ≠ .left → s.threadStop = true ∧ s.caller.holds = false := by
    intro hne
    have hf : f ≠ .start := fun hf => hne ((ha.joined id f hcaller).2 hf)
    rw [hcaller]
    refine ⟨h.stops ?_, ?_⟩
    · rw [hcaller]
      cases f with
      | start => exact absurd rfl hf
      | stopWait | stopNow => trivial
    · cases f with
      | start => exact absurd rfl hf
      | stopWait | stopNow => rfl
  -- One step of the thread that leads to `place`.
  have hgoes : ∀ {o : WaiterEvent C D} {s' : ProcWaiterThreads C D} {place : WaiterPlace},
      s.threadProc t 0 = .ok (o, s') → s'.caller = s.caller → s'.threads = [{ t with place }] →
        ¬Doomed s' { t with place } → rank place < rank t.place →
          ∃ s', Reaches s s' ∧ Nearer s s' (rank t.place) := by
    intro o s' place hs hc hthreads hnot hrank
    have hstep : step s (.thread t.id 0) = .ok (o, s') := by
      rw [step, ht, List.find?_cons_of_pos (by simp)]
      exact hs
    obtain ⟨o₁, s₁, hs₁, hinv⟩ := step_inv h (.thread t.id 0) trivial
    rw [hstep] at hs₁
    cases hs₁
    exact ⟨s', .cons (m := .thread t.id 0) trivial hstep (.refl s'), hinv, hc, .inr ⟨_, hthreads, hnot, hrank⟩⟩
  have hgoto : ∀ {place : WaiterPlace}, s.threadProc t 0 = .ok (.calls [], s.goTo t place) →
      ¬Doomed s { t with place } → rank place < rank t.place →
        ∃ s', Reaches s s' ∧ Nearer s s' (rank t.place) := fun hs hnot hrank =>
    hgoes hs rfl (by rw [goTo_singleton ht]) hnot hrank
  cases hp : t.place with
  | starting =>
    rw [hp] at hgoes
    have hs : s.threadProc t 0 = .ok (.calls [], { s.goTo t .testing with threadIsRunning := true }) := by
      rw [threadProc, hp]
    exact @hgoes _ _ .testing hs rfl (by rw [goTo_singleton ht]) (fun h => h) (by decide)
  | testing =>
    rw [hp] at hgoto hstop
    have hs : s.threadProc t 0 = .ok (.calls [], s.goTo t .leaving) := by
      rw [threadProc, hp]
      simp [(hstop (by decide)).1]
    exact hgoto hs (fun h => h) (by decide)
  | waiting =>
    -- Some child exits, and is collected.
    have hfork : step s (.fork 1) = .ok (.calls [], { s with children := 1 :: s.children }) := rfl
    have hexit : step { s with children := 1 :: s.children } (.exit 1 0) =
        .ok (.calls [], { s with zombies := s.zombies ++ [(1, 0)] }) := by
      simp [step]
    have hs : step { s with zombies := s.zombies ++ [(1, 0)] } (.thread t.id s.zombies.length) =
        .ok (.calls [], { s with
          zombies := (s.zombies ++ [(1, 0)]).eraseIdx s.zombies.length
          threads := [{ t with place := .collected 1 0 }] }) := by
      rw [step]
      dsimp only
      rw [ht, List.find?_cons_of_pos (by simp)]
      simp [threadProc, hp, goTo]
    obtain ⟨o₁, s₁, hs₁, hinv₁⟩ := step_inv h (.fork 1) trivial
    cases hfork.symm.trans hs₁
    obtain ⟨o₁, s₁, hs₁, hinv₂⟩ := step_inv hinv₁ (.exit 1 0) trivial
    cases hexit.symm.trans hs₁
    obtain ⟨o₁, s₁, hs₁, hinv₃⟩ := step_inv hinv₂ (.thread t.id s.zombies.length) trivial
    cases hs.symm.trans hs₁
    exact ⟨_, .cons (m := .fork 1) trivial hfork (.cons (m := .exit 1 0) trivial hexit
      (.cons (m := .thread t.id s.zombies.length) trivial hs (.refl _))), hinv₃, rfl,
        .inr ⟨_, rfl, fun h => h, by simp [rank]⟩⟩
  | childless =>
    rw [hp] at hgoto hstop
    rw [Doomed, hp] at hdoomed
    have hs : s.threadProc t 0 = .ok (.calls [], s.goTo t .locked) := by
      rw [threadProc, hp]
      simp [(hstop (by decide)).2]
    exact hgoto hs hdoomed (by decide)
  | locked =>
    rw [hp] at hgoto
    rw [Doomed, hp] at hdoomed
    by_cases hcount : s.cbList.count = 0
    · have hs : s.threadProc t 0 = .ok (.calls [], s.goTo t .emptyTest) := by
        rw [threadProc, hp]
        simp [hcount]
      exact hgoto hs (fun h => h) (by decide)
    · have htimed : ¬s.sleepTime < 0 := fun hlt => hdoomed ⟨hcount, hlt⟩
      have hs : s.threadProc t 0 = .ok (.calls [], s.goTo t (.dozing .timed)) := by
        rw [threadProc, hp]
        simp [hcount, htimed]
      exact hgoto hs (fun hne => hne rfl) (by decide)
  | emptyTest =>
    rw [hp] at hgoto
    by_cases hcount : s.cbList.count = 0
    · have hs : s.threadProc t 0 = .ok (.calls [], s.goTo t .counted) := by
        rw [threadProc, hp]
        simp [hcount]
      exact hgoto hs (fun h => h) (by decide)
    · have hs : s.threadProc t 0 = .ok (.calls [], s.goTo t .testing) := by
        rw [threadProc, hp]
        simp [hcount]
      exact hgoto hs (fun h => h) (by decide)
  | counted =>
    rw [hp] at hgoto hstop
    have hs : s.threadProc t 0 = .ok (.calls [], s.goTo t .testing) := by
      rw [threadProc, hp]
      simp [(hstop (by decide)).1]
    exact hgoto hs (fun h => h) (by decide)
  | dozing w =>
    rw [hp] at hgoto
    rw [Doomed, hp] at hdoomed
    have hs : s.threadProc t 0 = .ok (.calls [], s.goTo t (.asleep w)) := by rw [threadProc, hp]
    exact hgoto hs hdoomed (by simp [rank])
  | asleep w =>
    rw [Doomed, hp] at hdoomed
    have hs : step s (.timeout t.id) = .ok (.calls [], { s with threads := [{ t with place := .woken w }] }) := by
      simp [step, ht, wake, hp, Classical.not_not.mp hdoomed]
    obtain ⟨o₁, s₁, hs₁, hinv⟩ := step_inv h (.timeout t.id) trivial
    cases hs.symm.trans hs₁
    exact ⟨_, .cons (m := .timeout t.id) trivial hs (.refl _), hinv, rfl,
      .inr ⟨_, rfl, fun h => h, by simp [rank]⟩⟩
  | woken w =>
    rw [hp] at hgoto hstop
    have hfree := (hstop (by simp)).2
    by_cases hw : w = .empty
    · have hs : s.threadProc t 0 = .ok (.calls [], s.goTo t .emptyTest) := by
        rw [threadProc, hp]
        simp [hfree, hw]
      exact hgoto hs (fun h => h) (by simp [rank])
    · have hs : s.threadProc t 0 = .ok (.calls [], s.goTo t .testing) := by
        rw [threadProc, hp]
        simp [hfree, hw]
      exact hgoto hs (fun h => h) (by simp [rank])
  | collected pid status =>
    rw [hp] at hgoes
    obtain ⟨calls, cbList, hrun, -⟩ := h.delivers pid status
    have hs : s.threadProc t 0 = .ok (.calls calls, { s.goTo t .testing with cbList }) := by
      rw [threadProc, hp]
      dsimp only
      rw [hrun]
      rfl
    exact @hgoes _ _ .testing hs rfl (by rw [goTo_singleton ht]) (fun h => h) (by simp [rank])
  | leaving =>
    rw [hp] at hgoes
    have hs : s.threadProc t 0 = .ok (.calls [], { s.goTo t .left with threadIsRunning := false }) := by
      rw [threadProc, hp]
    exact @hgoes _ _ .left hs rfl (by rw [goTo_singleton ht]) (fun h => h) (by decide)
  | left =>
    have hs : step s (.thread t.id 0) = .ok (.calls [], { s with threads := [] }) := by
      rw [step, ht, List.find?_cons_of_pos (by simp)]
      simp [threadProc, hp, ht, wakeAll]
    obtain ⟨o₁, s₁, hs₁, hinv⟩ := step_inv h (.thread t.id 0) trivial
    cases hs.symm.trans hs₁
    exact ⟨_, .cons (m := .thread t.id 0) trivial hs (.refl _), hinv, rfl, .inl rfl⟩

theorem Reaches.trans {s₁ s₂ : ProcWaiterThreads C D} (h : Reaches s s₁) (h' : Reaches s₁ s₂) : Reaches s s₂ := by
  obtain ⟨moves, os, hmoves, hrun⟩ := h
  obtain ⟨moves', os', hmoves', hrun'⟩ := h'
  refine ⟨moves ++ moves', os ++ os', fun m hm => ?_, ?_⟩
  · exact (List.mem_append.mp hm).elim (hmoves m) (hmoves' m)
  · rw [run_append moves' hrun, hrun']
    rfl

/-- A thread that is joined and not doomed comes to its end. -/
theorem ends (n : Nat) : ∀ {s : ProcWaiterThreads C D} {t : WaiterThread} {id : Nat} {f : Joiner}, Inv s →
    s.threads = [t] → s.caller = .joining id f → ¬Doomed s t → rank t.place ≤ n →
      ∃ s', Reaches s s' ∧ s'.caller = s.caller ∧ s'.threads = [] := by
  induction n with
  | zero =>
    intro s t id f h ht hc hnot hrank
    have hpos : ∀ place, 0 < rank place := fun place => by cases place <;> simp [rank]
    exact absurd (hpos t.place) (Nat.not_lt.mpr hrank)
  | succ n ih =>
    intro s t id f h ht hc hnot hrank
    obtain ⟨s₁, hreach, hinv, hcaller, hnil | ⟨t₁, ht₁, hnot₁, hlt⟩⟩ := nearer h ht hc hnot
    · exact ⟨s₁, hreach, hcaller, hnil⟩
    · obtain ⟨s₂, hreach₂, hcaller₂, hnil⟩ :=
        ih hinv ht₁ (hcaller.trans hc) hnot₁ (Nat.le_of_lt_succ (Nat.lt_of_lt_of_le hlt hrank))
      exact ⟨s₂, hreach.trans hreach₂, hcaller₂.trans hcaller, hnil⟩

/-- `pthread_join` has returned, and the function it was called in comes to its end. -/
theorem joined_reaches {id : Nat} {f : Joiner} (hc : s.caller = .joining id f) (hnil : s.threads = []) :
    ∃ s', Reaches s s' ∧ s'.caller = .idle := by
  have hs : step s (.resume true) = .ok (.calls [], s.joined f) := by
    simp [step, ProcWaiterThreads.resume, hc, hnil]
  cases f with
  | start =>
    have hs' : step (s.joined .start) (.resume true) = .ok (create (s.joined .start) true) := rfl
    exact ⟨_, .cons (m := .resume true) trivial hs (.cons (m := .resume true) trivial hs' (.refl _)), rfl⟩
  | stopWait | stopNow => exact ⟨_, .cons (m := .resume true) trivial hs (.refl _), rfl⟩

end Runs

end ProcWaiterThreads

end AlibC
