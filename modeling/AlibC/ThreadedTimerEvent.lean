import AlibC.Lib.Machine

/-! `ThreadedTimerEvent`: the thread that runs `timer_loop`, the thread that starts, stops and frees the
event, and what the callback of the event does. A step of a thread reads or writes the flags once. -/
namespace AlibC

open CLang Machine

/-- Where a thread that runs `timer_loop` is. -/
inductive Place where
  /-- `pthread_create` was called, and `THREAD_IS_RUNNING` is not raised yet. -/
  | starting
  /-- Before `while(!(event->fp & THREAD_STOP))`. -/
  | testing
  /-- In `TimerEvent_check`, before the callback. -/
  | checking
  | calling
  /-- `TimerEvent_check` has returned. -/
  | checked
  /-- In `pthread_cond_timedwait`. -/
  | waiting
  /-- Behind the loop. -/
  | leaving
deriving DecidableEq, Repr

/-- How many steps a thread that was told to stop still takes. -/
def Place.steps : Place → Nat
  | .leaving => 1
  | .testing => 2
  | .starting | .waiting => 3
  | .checked => 4
  | .calling => 5
  | .checking => 6

structure LoopThread where
  id : Nat
  place : Place
deriving DecidableEq, Repr

/-- The flags of `fp` are fields of their own. `destroyed` says that the mutex and the condition are, and
`freed` that the memory is. -/
structure ThreadedTimerEvent where
  threadIsRunning : Bool
  threadStop : Bool
  threadCreated : Bool
  callbackState : Bool
  deleteState : Bool
  thread : Nat
  destroyed : Bool
  freed : Bool
deriving DecidableEq, Repr

/-- The functions of the event. `locks` says whether `pthread_mutex_lock` succeeds. -/
inductive Request where
  | start (locks : Bool)
  | stop
  | stopAsync
  | free
deriving DecidableEq, Repr

/-- What a function does after `pthread_join`. -/
inductive Joined where
  | start | stop | free
deriving DecidableEq, Repr

/-- Where the thread is that calls the functions. -/
inductive Caller where
  | idle
  /-- In `pthread_join` of `ThreadedTimerEvent_stop`. -/
  | joining (id : Nat) (next : Joined)
  /-- In the loop of `ThreadedTimerEvent_start`. -/
  | awaiting
  /-- Before `Timer_begin` in `ThreadedTimerEvent_start`. -/
  | creating
  /-- Before `pthread_mutex_destroy` in `freeThreadedTimerEvent`. -/
  | freeing
deriving DecidableEq, Repr

/-- `loops` are the threads of `timer_loop` that have not returned. -/
structure TimerThreads where
  event : ThreadedTimerEvent
  caller : Caller
  loops : List LoopThread
  nextId : Nat
deriving DecidableEq, Repr

/-- What happens next. -/
inductive TimerMove where
  /-- The caller calls a function. -/
  | request (r : Request)
  /-- The function that was called goes on, and `created` says whether `pthread_create` succeeds. -/
  | resume (created : Bool)
  /-- A thread of `timer_loop` takes a step: `rings` says whether there is a callback to call, and `locks`
  whether `pthread_mutex_lock` succeeds. -/
  | loop (id : Nat) (rings locks : Bool)
  /-- The callback that a thread has called calls a function. -/
  | callback (id : Nat) (r : Request)
deriving DecidableEq, Repr

namespace ThreadedTimerEvent

/-- `ThreadedTimerEvent_stop_async`. -/
def stopAsync (event : ThreadedTimerEvent) : ThreadedTimerEvent :=
  if event.threadCreated then { event with threadStop := true, threadCreated := false } else event

end ThreadedTimerEvent

namespace TimerThreads

/-- `ThreadedTimerEvent_stop`, and where its caller goes on. -/
def stop (s : TimerThreads) (next : Joined) (after : Caller) : TimerThreads :=
  if s.event.callbackState then { s with event := s.event.stopAsync, caller := after }
  else if s.event.threadCreated then
    { s with event := { s.event with threadStop := true }, caller := .joining s.event.thread next }
  else { s with caller := after }

/-- `Timer_begin` and what follows in `ThreadedTimerEvent_start`. -/
def create (s : TimerThreads) (created : Bool) : TimerThreads :=
  if created then
    { s with
      event := { s.event with threadStop := false, threadCreated := true, thread := s.nextId }
      loops := ⟨s.nextId, .starting⟩ :: s.loops
      nextId := s.nextId + 1 }
  else { s with event := { s.event with threadStop := false, threadCreated := false } }

/-- `(event->fp & THREAD_IS_RUNNING) && !(event->fp & THREAD_STOP)` -/
def runs (s : TimerThreads) : Bool := s.event.threadIsRunning && !s.event.threadStop

/-- The caller calls a function. -/
def request (s : TimerThreads) : Request → TimerThreads
  | .start locks =>
    if s.runs then s
    else if s.event.threadCreated then s.stop .start .creating
    else if locks then { s with caller := .awaiting }
    else s
  | .stop => s.stop .stop .idle
  | .stopAsync => { s with event := s.event.stopAsync }
  | .free => stop { s with event := { s.event with deleteState := true } } .free .freeing

/-- The end of `freeThreadedTimerEvent`: `freeTimerEvent` leaves an event whose callback is running. -/
def destroy (event : ThreadedTimerEvent) : ThreadedTimerEvent :=
  { event with destroyed := true, deleteState := true, freed := !event.callbackState }

/-- The function that was called goes on, as far as it can. -/
def resume (s : TimerThreads) (created : Bool) : TimerThreads :=
  match s.caller with
  | .idle => s
  | .joining id next =>
    if s.loops.any (·.id = id) then s
    else
      { s with
        event := { s.event with threadCreated := false }
        caller := match next with
          | .start => .creating
          | .stop => .idle
          | .free => .freeing }
  | .awaiting =>
    if s.event.threadIsRunning && s.event.threadStop then s else { s with caller := .creating }
  | .creating => { s.create created with caller := .idle }
  | .freeing => { s with event := destroy s.event, caller := .idle }

/-- The thread `t`, which is one of the loops, goes to another place. -/
def goTo (s : TimerThreads) (t : LoopThread) (place : Place) : TimerThreads :=
  { s with loops := s.loops.map fun u => if u = t then { t with place } else u }

/-- The end of the callback: an event that is to be deleted is freed. -/
def endCallback (event : ThreadedTimerEvent) : ThreadedTimerEvent :=
  { event with callbackState := false, freed := event.freed || event.deleteState }

/-- A step of `timer_loop`. -/
def loopStep (s : TimerThreads) (t : LoopThread) (rings locks : Bool) : Outcome TimerThreads :=
  if s.event.freed then .error .dangling
  else
    match t.place with
    | .starting => .ok { s.goTo t .testing with event := { s.event with threadIsRunning := true } }
    | .testing => .ok (s.goTo t (if s.event.threadStop then .leaving else .checking))
    | .checking =>
      .ok (if rings then { s.goTo t .calling with event := { s.event with callbackState := true } }
        else s.goTo t .checked)
    | .calling => .ok { s.goTo t .checked with event := endCallback s.event }
    | .checked =>
      if s.event.destroyed then .error .dangling
      else .ok { s.goTo t .waiting with
        event := { s.event with threadStop := s.event.threadStop || !locks } }
    | .waiting => if s.event.destroyed then .error .dangling else .ok (s.goTo t .testing)
    | .leaving => .ok { s with
        event := { s.event with threadIsRunning := false }
        loops := s.loops.erase t }

/-- The callback calls a function. `ThreadedTimerEvent_start` may wait for the thread it is called on, and
otherwise creates a thread. -/
def callbackRequest (s : TimerThreads) : Request → Outcome TimerThreads
  | .start locks =>
    if s.runs then .ok s
    else if s.event.threadCreated then
      .ok (create { s with event := s.event.stopAsync } true)
    else if locks && s.event.threadIsRunning && s.event.threadStop then .error .deadlock
    else if locks then .ok (s.create true)
    else .ok s
  | .stop | .stopAsync => .ok { s with event := s.event.stopAsync }
  | .free => .ok { s with event := destroy s.event.stopAsync }

/-- One move. A thread that is not there, or not where the move is possible, does nothing. -/
def step (s : TimerThreads) : TimerMove → Outcome (Unit × TimerThreads)
  | .request r =>
    if s.caller = .idle then
      if s.event.freed then .error .dangling else .ok ((), s.request r)
    else .ok ((), s)
  | .resume created => .ok ((), s.resume created)
  | .loop id rings locks =>
    match s.loops.find? (·.id = id) with
    | none => .ok ((), s)
    | some t => do
      let s ← s.loopStep t rings locks
      return ((), s)
  | .callback id r =>
    match s.loops.find? (·.id = id) with
    | none => .ok ((), s)
    | some t =>
      if t.place = .calling then
        if s.event.freed then .error .dangling
        else do
          let s ← s.callbackRequest r
          return ((), s)
      else .ok ((), s)

/-- `newThreadedTimerEvent`. -/
def new : TimerThreads :=
  ⟨⟨false, false, false, false, false, 0, false, false⟩, .idle, [], 0⟩

/-- What the functions need: a thread that was detached has come as far as raising its flag before another
one is started, and is gone before the event is freed, and no callback is running or about to be called
then. The callback does not free its event. -/
def Ok (s : TimerThreads) : TimerMove → Prop
  | .request r => s.caller = .idle → s.event.freed = false ∧
      match r with
      | .start true => s.event.threadCreated = true ∨ ∀ t ∈ s.loops, t.place ≠ .starting
      | .free => (s.event.threadCreated = true ∨ s.loops = []) ∧
          ∀ t ∈ s.loops, t.place ≠ .checking ∧ t.place ≠ .calling
      | _ => True
  | .callback id r => (∃ t ∈ s.loops, t.id = id ∧ t.place = .calling) →
      match r with
      | .start locks => s.runs = true ∨ s.event.threadCreated = false ∧ locks = false
      | .free => False
      | _ => True
  | _ => True

/-- No thread is left. -/
structure Quiet (s : TimerThreads) : Prop where
  loops : s.loops = []
  running : s.event.threadIsRunning = false
  callback : s.event.callbackState = false
  destroyed : s.event.destroyed = s.event.freed
  freed : s.event.freed = true → s.caller = .idle
  deleting : s.event.deleteState = true →
    s.event.freed = true ∨ s.caller = .freeing ∨ ∃ id, s.caller = .joining id .free

/-- What the caller may be about to do while the thread `t` is there. -/
def CallerFits (s : TimerThreads) (t : LoopThread) : Prop :=
  match s.caller with
  | .idle => s.event.threadCreated = true → s.event.threadStop = true →
      t.place = .waiting ∨ t.place = .testing ∨ t.place = .leaving
  | .joining id _ => t.id = id ∧ s.event.threadStop = true
  | .awaiting => s.event.threadCreated = false ∧ t.place ≠ .starting
  | .creating | .freeing => False

/-- One thread is left. It has to stop if it is detached. -/
structure Looping (s : TimerThreads) (t : LoopThread) : Prop where
  loops : s.loops = [t]
  destroyed : s.event.destroyed = false
  freed : s.event.freed = false
  running : s.event.threadIsRunning = true ↔ t.place ≠ .starting
  callback : s.event.callbackState = true ↔ t.place = .calling
  thread : s.event.threadCreated = true → t.id = s.event.thread
  detached : s.event.threadCreated = false → s.event.threadStop = true
  leaving : t.place = .leaving → s.event.threadStop = true
  caller : s.CallerFits t
  deleting : s.event.deleteState = true → s.event.threadStop = true ∧ t.place ≠ .checking ∧
    t.place ≠ .calling ∧ ∃ id, s.caller = .joining id .free

/-- At most one thread runs the loop, and what it uses is there. -/
inductive Inv (s : TimerThreads) : Prop where
  | quiet (h : Quiet s) : Inv s
  | looping {t : LoopThread} (h : Looping s t) : Inv s

theorem new_inv : Inv new :=
  .quiet ⟨rfl, rfl, rfl, rfl, fun _ => rfl, fun h => by cases h⟩

variable {s : TimerThreads} {t : LoopThread}

theorem Inv.length_le (h : Inv s) : s.loops.length ≤ 1 := by
  cases h with
  | quiet h => rw [h.loops]; exact Nat.zero_le 1
  | looping h => rw [h.loops]; exact Nat.le_refl 1

theorem Looping.find (h : Looping s t) (id : Nat) :
    s.loops.find? (·.id = id) = if t.id = id then some t else none := by
  rw [h.loops, List.find?_singleton]
  simp

theorem Looping.goTo (h : Looping s t) (place : Place) :
    s.goTo t place = { s with loops := [⟨t.id, place⟩] } := by
  rw [TimerThreads.goTo, h.loops]
  simp

/-- What a step of the thread may change. -/
theorem Looping.moved (h : Looping s t) (running stop callback : Bool) {place : Place}
    (hrunning : running = true) (hplace : place ≠ .starting) (hcallback : callback = true ↔ place = .calling)
    (hstop : s.event.threadStop = true → stop = true) (hleaving : place = .leaving → stop = true)
    (hidle : s.caller = .idle → s.event.threadCreated = true → stop = true →
      place = .waiting ∨ place = .testing ∨ place = .leaving)
    (hdeleting : s.event.deleteState = true → place ≠ .checking ∧ place ≠ .calling) :
    Inv { s with
      event := { s.event with threadIsRunning := running, threadStop := stop, callbackState := callback }
      loops := [⟨t.id, place⟩] } := by
  refine .looping (t := ⟨t.id, place⟩) ⟨rfl, h.destroyed, h.freed, iff_of_true hrunning hplace, hcallback,
    h.thread, fun hc => hstop (h.detached hc), hleaving, ?_, fun hd => ?_⟩
  · have hcaller := h.caller
    unfold CallerFits at hcaller ⊢
    cases hc : s.caller with
    | idle => exact hidle hc
    | joining id next =>
      rw [hc] at hcaller
      exact ⟨hcaller.1, hstop hcaller.2⟩
    | awaiting =>
      rw [hc] at hcaller
      exact ⟨hcaller.1, hplace⟩
    | creating | freeing =>
      rw [hc] at hcaller
      exact hcaller
  · obtain ⟨hs, -, -, hfree⟩ := h.deleting hd
    exact ⟨hstop hs, (hdeleting hd).1, (hdeleting hd).2, hfree⟩

/-- A thread that the caller does not join, and that goes on, has not been told to stop. -/
theorem Looping.goes_on (h : Looping s t) (hcaller : s.caller = .idle)
    (hcreated : s.event.threadCreated = true)
    (hplace : t.place ≠ .waiting ∧ t.place ≠ .testing ∧ t.place ≠ .leaving) :
    s.event.threadStop = false := by
  have hfits := h.caller
  rw [CallerFits, hcaller] at hfits
  by_contra hstop
  rw [Bool.not_eq_false] at hstop
  rcases hfits hcreated hstop with hp | hp | hp
  · exact hplace.1 hp
  · exact hplace.2.1 hp
  · exact hplace.2.2 hp

/-- A step of the thread. -/
theorem Looping.loopStep (h : Looping s t) (rings locks : Bool) :
    ∃ s', s.loopStep t rings locks = .ok s' ∧ Inv s' := by
  obtain ⟨i, place⟩ := t
  have hrun : place ≠ .starting → s.event.threadIsRunning = true := h.running.mpr
  have hcall : place ≠ .calling → s.event.callbackState ≠ true := mt h.callback.mp
  have hstop : s.event.deleteState = true → s.event.threadStop = true := fun hd => (h.deleting hd).1
  have hgoes : place ≠ .waiting ∧ place ≠ .testing ∧ place ≠ .leaving → s.caller = .idle →
      s.event.threadCreated = true → s.event.threadStop ≠ true := fun hp hc hcr => by
    rw [h.goes_on hc hcr hp]
    decide
  rw [TimerThreads.loopStep, if_neg (by rw [h.freed]; decide)]
  cases place with
  | starting =>
    refine ⟨_, rfl, ?_⟩
    rw [h.goTo]
    exact h.moved true s.event.threadStop s.event.callbackState rfl (by decide)
      (iff_of_false (hcall (by decide)) (by decide)) (fun hs => hs) (fun hp => by cases hp)
      (fun _ _ _ => .inr (.inl rfl)) fun _ => ⟨by decide, by decide⟩
  | testing =>
    refine ⟨_, rfl, ?_⟩
    rw [h.goTo]
    cases hs : s.event.threadStop with
    | true =>
      exact h.moved s.event.threadIsRunning s.event.threadStop s.event.callbackState (hrun (by decide))
        (by decide) (iff_of_false (hcall (by decide)) (by decide)) (fun hs => hs) (fun _ => hs)
        (fun _ _ _ => .inr (.inr rfl)) fun _ => ⟨by decide, by decide⟩
    | false =>
      have hgoes : s.event.threadStop ≠ true := by rw [hs]; decide
      exact h.moved s.event.threadIsRunning s.event.threadStop s.event.callbackState (hrun (by decide))
        (by decide) (iff_of_false (hcall (by decide)) (by decide)) (fun hs => hs) (fun hp => by cases hp)
        (fun _ _ hstop => absurd hstop hgoes) fun hd => absurd (hstop hd) hgoes
  | checking =>
    have hgoes := hgoes (by decide)
    have hkept : s.event.deleteState ≠ true := fun hd => (h.deleting hd).2.1 rfl
    refine ⟨_, rfl, ?_⟩
    cases rings with
    | true =>
      rw [if_pos rfl, h.goTo]
      exact h.moved s.event.threadIsRunning s.event.threadStop true (hrun (by decide)) (by decide)
        (iff_of_true rfl rfl) (fun hs => hs) (fun hp => by cases hp)
        (fun hc hcr hstop => absurd hstop (hgoes hc hcr)) fun hd => absurd hd hkept
    | false =>
      rw [if_neg (by decide), h.goTo]
      exact h.moved s.event.threadIsRunning s.event.threadStop s.event.callbackState (hrun (by decide))
        (by decide) (iff_of_false (hcall (by decide)) (by decide)) (fun hs => hs) (fun hp => by cases hp)
        (fun hc hcr hstop => absurd hstop (hgoes hc hcr)) fun hd => absurd hd hkept
  | calling =>
    have hgoes := hgoes (by decide)
    have hkept : s.event.deleteState ≠ true := fun hd => (h.deleting hd).2.2.1 rfl
    have hend : endCallback s.event = { s.event with callbackState := false } := by
      simp only [endCallback, Bool.eq_false_iff.mpr hkept, Bool.or_false]
    refine ⟨_, rfl, ?_⟩
    rw [h.goTo, hend]
    exact h.moved s.event.threadIsRunning s.event.threadStop false (hrun (by decide)) (by decide)
      (iff_of_false (by decide) (by decide)) (fun hs => hs) (fun hp => by cases hp)
      (fun hc hcr hstop => absurd hstop (hgoes hc hcr)) fun hd => absurd hd hkept
  | checked =>
    dsimp only
    rw [if_neg (by rw [h.destroyed]; decide), h.goTo]
    refine ⟨_, rfl, ?_⟩
    exact h.moved s.event.threadIsRunning (s.event.threadStop || !locks) s.event.callbackState
      (hrun (by decide)) (by decide) (iff_of_false (hcall (by decide)) (by decide))
      (fun hs => by rw [hs]; rfl) (fun hp => by cases hp) (fun _ _ _ => .inl rfl)
      fun _ => ⟨by decide, by decide⟩
  | waiting =>
    dsimp only
    rw [if_neg (by rw [h.destroyed]; decide), h.goTo]
    refine ⟨_, rfl, ?_⟩
    exact h.moved s.event.threadIsRunning s.event.threadStop s.event.callbackState (hrun (by decide))
      (by decide) (iff_of_false (hcall (by decide)) (by decide)) (fun hs => hs) (fun hp => by cases hp)
      (fun _ _ _ => .inr (.inl rfl)) fun _ => ⟨by decide, by decide⟩
  | leaving =>
    refine ⟨_, rfl, .quiet ⟨?_, rfl, ?_, ?_, ?_, fun hd => .inr (.inr (h.deleting hd).2.2.2)⟩⟩
    · change s.loops.erase ⟨i, .leaving⟩ = []
      rw [h.loops]
      exact List.erase_cons_head _ _
    · exact Bool.eq_false_iff.mpr (hcall (by decide))
    · exact h.destroyed.trans h.freed.symm
    · exact fun hf => absurd (h.freed.symm.trans hf) (by decide)

theorem Quiet.keeps (h : Quiet s) (hfreed : s.event.freed = false) {stop created delete : Bool}
    {caller : Caller}
    (hdelete : delete = true → caller = .freeing ∨ ∃ id, caller = .joining id .free) :
    Inv { s with
      event := { s.event with threadStop := stop, threadCreated := created, deleteState := delete }
      caller := caller } :=
  .quiet ⟨h.loops, h.running, h.callback, h.destroyed,
    fun hf => absurd (hfreed.symm.trans hf) (by decide), fun hd => .inr (hdelete hd)⟩

/-- No event is being deleted while the caller is elsewhere. -/
theorem Quiet.not_deleting (h : Quiet s) (hfreed : s.event.freed = false) (hcaller : s.caller ≠ .freeing)
    (hjoin : ∀ id, s.caller ≠ .joining id .free) : s.event.deleteState = false := by
  by_contra hd
  rw [Bool.not_eq_false] at hd
  rcases h.deleting hd with hf | hf | ⟨id, hf⟩
  · rw [hf] at hfreed
    cases hfreed
  · exact hcaller hf
  · exact hjoin id hf

theorem Looping.not_deleting (h : Looping s t) (hjoin : ∀ id, s.caller ≠ .joining id .free) :
    s.event.deleteState = false := by
  by_contra hd
  rw [Bool.not_eq_false] at hd
  obtain ⟨-, -, -, id, hf⟩ := h.deleting hd
  exact hjoin id hf

/-- A thread that is detached is told to stop. -/
theorem Looping.stopAsync (h : Looping s t) : Looping { s with event := s.event.stopAsync } t := by
  have hcaller := h.caller
  unfold CallerFits at hcaller
  unfold ThreadedTimerEvent.stopAsync
  cases hcr : s.event.threadCreated with
  | false => exact ⟨h.loops, h.destroyed, h.freed, h.running, h.callback, h.thread, h.detached, h.leaving,
      h.caller, h.deleting⟩
  | true =>
    refine ⟨h.loops, h.destroyed, h.freed, h.running, h.callback, (fun hc => by cases hc),
      fun _ => rfl, fun _ => rfl, ?_, fun hd => ⟨rfl, (h.deleting hd).2⟩⟩
    unfold CallerFits
    cases hc : s.caller with
    | idle => exact fun hcr => by cases hcr
    | joining id next =>
      rw [hc] at hcaller
      exact ⟨hcaller.1, rfl⟩
    | awaiting =>
      rw [hc] at hcaller
      exact ⟨rfl, hcaller.2⟩
    | creating | freeing =>
      rw [hc] at hcaller
      exact hcaller

/-- The caller tells the thread to stop, and joins it. -/
theorem Looping.join (h : Looping s t) (hcreated : s.event.threadCreated = true) {delete : Bool}
    {next : Joined}
    (hdelete : delete = true → t.place ≠ .checking ∧ t.place ≠ .calling ∧ next = .free) :
    Inv { s with
      event := { s.event with threadStop := true, deleteState := delete }
      caller := .joining s.event.thread next } := by
  refine .looping (t := t) ⟨h.loops, h.destroyed, h.freed, h.running, h.callback, h.thread, fun _ => rfl,
    fun _ => rfl, ⟨h.thread hcreated, rfl⟩, fun hd => ?_⟩
  obtain ⟨hchecking, hcalling, rfl⟩ := hdelete hd
  exact ⟨rfl, hchecking, hcalling, _, rfl⟩

theorem Quiet.stop (h : Quiet s) (hfreed : s.event.freed = false) (next : Joined) (after : Caller)
    (hdelete : s.event.deleteState = true → after = .freeing ∧ next = .free) :
    Inv (s.stop next after) := by
  rw [TimerThreads.stop, if_neg (by rw [h.callback]; decide)]
  split
  · exact h.keeps hfreed fun hd => .inr ⟨_, by rw [(hdelete hd).2]⟩
  · exact h.keeps hfreed fun hd => .inl (hdelete hd).1

/-- A function that is called by a caller who keeps to the conditions. -/
theorem Quiet.request (h : Quiet s) (hfreed : s.event.freed = false) (hcaller : s.caller = .idle)
    (r : Request) : Inv (s.request r) := by
  have hkept : s.event.deleteState ≠ true := by
    rw [h.not_deleting hfreed (by rw [hcaller]; decide) fun id hc => by rw [hcaller] at hc; cases hc]
    decide
  cases r with
  | start locks =>
    rw [TimerThreads.request]
    split
    · exact .quiet h
    · split
      · exact h.stop hfreed _ _ fun hd => absurd hd hkept
      · split
        · exact h.keeps hfreed fun hd => absurd hd hkept
        · exact .quiet h
  | stop => exact h.stop hfreed _ _ fun hd => absurd hd hkept
  | stopAsync =>
    rw [TimerThreads.request, ThreadedTimerEvent.stopAsync]
    split
    · exact h.keeps hfreed fun hd => absurd hd hkept
    · exact .quiet h
  | free =>
    have hd : Quiet { s with event := { s.event with deleteState := true }, caller := .freeing } :=
      ⟨h.loops, h.running, h.callback, h.destroyed, fun hf => absurd (hfreed.symm.trans hf) (by decide),
        fun _ => .inr (.inl rfl)⟩
    exact hd.stop hfreed .free .freeing fun _ => ⟨rfl, rfl⟩

theorem Looping.request (h : Looping s t) (hcaller : s.caller = .idle) (r : Request)
    (hok : Ok s (.request r)) : Inv (s.request r) := by
  have hkept : s.event.deleteState ≠ true := by
    rw [h.not_deleting fun id hc => by rw [hcaller] at hc; cases hc]
    decide
  -- In a callback the flags say that the thread runs.
  have hcall : s.event.callbackState = true → s.event.threadCreated = true → s.runs = true := by
    intro hc hcr
    have hp := h.callback.mp hc
    rw [runs, h.running.mpr (by rw [hp]; decide), h.goes_on hcaller hcr (by rw [hp]; decide)]
    rfl
  have hjoin : s.event.threadCreated = true → ∀ next, Inv { s with
      event := { s.event with threadStop := true }, caller := .joining s.event.thread next } :=
    fun hcr _ => h.join hcr fun hd => absurd hd hkept
  obtain ⟨-, hok⟩ := hok hcaller
  cases r with
  | start locks =>
    rw [TimerThreads.request]
    split
    · exact .looping h
    · rename_i hruns
      split
      · rename_i hcr
        rw [TimerThreads.stop, if_neg fun hc => hruns (hcall hc hcr), if_pos hcr]
        exact hjoin hcr .start
      · rename_i hcr
        cases locks with
        | false => exact .looping h
        | true =>
          have hplace := hok.resolve_left hcr t (by rw [h.loops]; exact List.mem_singleton_self t)
          rw [if_pos rfl]
          exact .looping (t := t) ⟨h.loops, h.destroyed, h.freed, h.running, h.callback, h.thread, h.detached,
            h.leaving, ⟨Bool.eq_false_iff.mpr hcr, hplace⟩, fun hd => absurd hd hkept⟩
  | stop =>
    rw [TimerThreads.request, TimerThreads.stop, ← hcaller]
    split
    · exact .looping h.stopAsync
    · split
      · exact hjoin ‹_› .stop
      · exact .looping h
  | stopAsync => exact .looping h.stopAsync
  | free =>
    obtain ⟨hcr, hplace⟩ := hok
    have hplace := hplace t (by rw [h.loops]; exact List.mem_singleton_self t)
    have hcr := hcr.resolve_right fun hnil => by rw [h.loops] at hnil; cases hnil
    rw [TimerThreads.request, TimerThreads.stop, if_neg (mt h.callback.mp hplace.2), if_pos hcr]
    exact h.join hcr fun _ => ⟨hplace.1, hplace.2, rfl⟩

/-- The function that was called goes on. -/
theorem Inv.resume (h : Inv s) (created : Bool) : Inv (s.resume created) := by
  rw [TimerThreads.resume]
  cases h with
  | quiet h =>
    have hfreed : s.caller ≠ .idle → s.event.freed = false := fun hc => by
      rw [← Bool.not_eq_true]
      exact mt h.freed hc
    cases hc : s.caller with
    | idle => exact .quiet h
    | joining id next =>
      have hfreed := hfreed (by simp [hc])
      dsimp only
      rw [if_neg (by simp [h.loops])]
      cases next with
      | start =>
        have hkept := h.not_deleting hfreed (by simp [hc]) (by simp [hc])
        exact h.keeps hfreed fun hd => absurd (hkept.symm.trans hd) (by decide)
      | stop =>
        have hkept := h.not_deleting hfreed (by simp [hc]) (by simp [hc])
        exact h.keeps hfreed fun hd => absurd (hkept.symm.trans hd) (by decide)
      | free => exact h.keeps hfreed fun _ => .inl rfl
    | awaiting =>
      have hfreed := hfreed (by simp [hc])
      have hkept := h.not_deleting hfreed (by simp [hc]) (by simp [hc])
      dsimp only
      rw [h.running]
      exact h.keeps hfreed fun hd => absurd (hkept.symm.trans hd) (by decide)
    | creating =>
      have hfreed := hfreed (by simp [hc])
      have hkept := h.not_deleting hfreed (by simp [hc]) (by simp [hc])
      dsimp only
      rw [create]
      cases created with
      | false => exact h.keeps hfreed fun hd => absurd (hkept.symm.trans hd) (by decide)
      | true =>
        refine .looping (t := ⟨s.nextId, .starting⟩) ⟨?_, h.destroyed.trans hfreed, hfreed, ?_, ?_,
          fun _ => rfl, (fun hcr => by cases hcr), (fun hp => by cases hp), (fun _ hs => by cases hs),
          fun hd => absurd (hkept.symm.trans hd) (by decide)⟩
        · change _ :: s.loops = _
          rw [h.loops]
        · exact iff_of_false (by rw [if_pos rfl]; exact Bool.eq_false_iff.mp h.running) (by simp)
        · exact iff_of_false (by rw [if_pos rfl]; exact Bool.eq_false_iff.mp h.callback) (by simp)
    | freeing =>
      have hgone : (destroy s.event).freed = true := by
        rw [destroy, h.callback]
        rfl
      exact .quiet ⟨h.loops, h.running, h.callback, hgone.symm, fun _ => rfl, fun _ => .inl hgone⟩
  | @looping t h =>
    have hfits := h.caller
    unfold CallerFits at hfits
    cases hc : s.caller with
    | idle => exact .looping h
    | joining id next =>
      rw [hc] at hfits
      dsimp only
      rw [if_pos (by rw [h.loops]; simp [hfits.1])]
      exact .looping h
    | awaiting =>
      rw [hc] at hfits
      dsimp only
      rw [h.running.mpr hfits.2, h.detached hfits.1]
      exact .looping h
    | creating | freeing =>
      rw [hc] at hfits
      exact hfits.elim

theorem Looping.callbackRequest (h : Looping s t) (hplace : t.place = .calling) (r : Request)
    (hok : Ok s (.callback t.id r)) : ∃ s', s.callbackRequest r = .ok s' ∧ Inv s' := by
  have hok := hok ⟨t, by rw [h.loops]; exact List.mem_singleton_self t, rfl, hplace⟩
  cases r with
  | start locks =>
    rw [TimerThreads.callbackRequest]
    by_cases hruns : s.runs = true
    · rw [if_pos hruns]
      exact ⟨s, rfl, .looping h⟩
    · obtain ⟨hcr, rfl⟩ := hok.resolve_left hruns
      rw [if_neg hruns, hcr]
      exact ⟨s, rfl, .looping h⟩
  | stop | stopAsync => exact ⟨_, rfl, .looping h.stopAsync⟩
  | free => exact hok.elim

/-- A move that keeps to the conditions does no harm. -/
theorem step_inv (h : Inv s) (i : TimerMove) (hok : Ok s i) :
    ∃ o s', step s i = .ok (o, s') ∧ Inv s' := by
  cases i with
  | request r =>
    by_cases hcaller : s.caller = .idle
    · have hfreed := (hok hcaller).1
      rw [step, if_pos hcaller, if_neg (by rw [hfreed]; decide)]
      refine ⟨_, _, rfl, ?_⟩
      cases h with
      | quiet h => exact h.request hfreed hcaller r
      | looping h => exact h.request hcaller r hok
    · exact ⟨_, s, if_neg hcaller, h⟩
  | resume created => exact ⟨_, _, rfl, h.resume created⟩
  | loop id rings locks =>
    rw [step]
    cases h with
    | quiet h =>
      rw [h.loops]
      exact ⟨_, s, rfl, .quiet h⟩
    | looping h =>
      obtain ⟨s', hs', hinv⟩ := h.loopStep rings locks
      rw [h.find]
      split
      · exact ⟨_, s, rfl, .looping h⟩
      · rename_i t' hfound
        have ht : t' = _ := (Option.some.inj (Option.ite_none_right_eq_some.mp hfound).2).symm
        rw [ht, hs']
        exact ⟨_, s', rfl, hinv⟩
  | callback id r =>
    rw [step]
    cases h with
    | quiet h =>
      rw [h.loops]
      exact ⟨_, s, rfl, .quiet h⟩
    | looping h =>
      rw [h.find]
      split
      · exact ⟨_, s, rfl, .looping h⟩
      · rename_i t' hfound
        obtain ⟨hid, ht⟩ := Option.ite_none_right_eq_some.mp hfound
        cases Option.some.inj ht
        split
        · rename_i hplace
          obtain ⟨s', hs', hinv⟩ := h.callbackRequest hplace r (hid ▸ hok)
          rw [if_neg (by rw [h.freed]; decide), hs']
          exact ⟨_, s', rfl, hinv⟩
        · exact ⟨_, s, rfl, .looping h⟩

/-- The event is started, stopped and freed. -/
def once : List TimerMove :=
  [.request (.start true), .resume true, .resume true, .loop 0 true true, .request .stop,
    .loop 0 true true, .loop 0 true true, .resume true, .request .free, .resume true]

theorem once_ok : AllSteps step Ok new once :=
  .cons (fun _ => ⟨rfl, .inr fun _ ht => by cases ht⟩) rfl <| .cons trivial rfl <| .cons trivial rfl <|
    .cons trivial rfl <| .cons (fun _ => ⟨rfl, trivial⟩) rfl <| .cons trivial rfl <| .cons trivial rfl <|
    .cons trivial rfl <| .cons (fun _ => ⟨rfl, .inr rfl, fun _ ht => by cases ht⟩) rfl <|
    .cons trivial rfl trivial

/-- A run that leaves what the language defines, or has two threads in the loop. -/
inductive GoesWrong (s : TimerThreads) (moves : List TimerMove) : Prop where
  | fault {e : Fault} (h : run step s moves = .error e)
  | two {os : List Unit} {s' : TimerThreads} (h : run step s moves = .ok (os, s'))
    (hlen : 2 ≤ s'.loops.length)

/-- What the threads do by themselves. -/
def Own : TimerMove → Prop
  | .resume _ | .loop .. => True
  | _ => False

theorem Looping.start_wrong (h : Looping s t) (hcaller : s.caller = .idle)
    (hcreated : s.event.threadCreated = false) (hplace : t.place = .starting) :
    GoesWrong s [.request (.start true), .resume true, .resume true] := by
  obtain ⟨i, place⟩ := t
  obtain ⟨⟨running, stop, created, callback, delete, thread, destroyed, freed⟩, caller, loops, nextId⟩ := s
  obtain ⟨rfl, rfl, rfl, hrunning, -⟩ := h
  dsimp only at hcaller hcreated hplace hrunning
  subst hcaller hcreated hplace
  obtain rfl : running = false := by simpa using hrunning
  exact .two rfl (Nat.le_refl 2)

/-- The thread is about to call the callback, or in it, and frees the event behind that. -/
theorem Looping.free_wrong (h : Looping s t) (hcaller : s.caller = .idle)
    (hnot : t.place = .checking ∨ t.place = .calling ∨ s.event.threadCreated = false) :
    ∃ moves, (∀ i ∈ moves, Own i) ∧ GoesWrong s (.request .free :: moves) := by
  obtain ⟨i, place⟩ := t
  obtain ⟨⟨running, stop, created, callback, delete, thread, destroyed, freed⟩, caller, loops, nextId⟩ := s
  obtain ⟨rfl, rfl, rfl, -, hcallback, -⟩ := h
  dsimp only at hcaller hcallback hnot
  subst hcaller
  have hcall : place ≠ .calling → callback = false := fun hne => by
    rw [← Bool.not_eq_true]
    exact mt hcallback.mp hne
  by_cases hchecking : place = .checking
  · subst hchecking
    obtain rfl := hcall (by decide)
    refine ⟨[.loop i true true, .loop i true true, .loop i true true], by simp [Own],
      .fault (e := .dangling) ?_⟩
    cases created <;>
      simp [run, step, TimerThreads.request, TimerThreads.stop, TimerThreads.loopStep, TimerThreads.goTo,
        endCallback]
  · by_cases hcalling : place = .calling
    · subst hcalling
      obtain rfl : callback = true := hcallback.mpr rfl
      refine ⟨[.loop i true true, .loop i true true], by simp [Own], .fault (e := .dangling) ?_⟩
      cases created <;>
        simp [run, step, TimerThreads.request, TimerThreads.stop, ThreadedTimerEvent.stopAsync,
          TimerThreads.loopStep, TimerThreads.goTo, endCallback]
    · obtain rfl := (hnot.resolve_left hchecking).resolve_left hcalling
      obtain rfl := hcall hcalling
      refine ⟨[.resume true, .loop i true true], by simp [Own], .fault (e := .dangling) ?_⟩
      simp [run, step, TimerThreads.request, TimerThreads.stop, TimerThreads.resume, destroy,
        TimerThreads.loopStep]

/-- A callback that frees its event, or starts it where it was told to stop. -/
theorem Looping.callback_wrong (h : Looping s t) (hplace : t.place = .calling) (r : Request)
    (hnot : ¬Ok s (.callback t.id r)) :
    ∃ moves, (∀ i ∈ moves, Own i) ∧ GoesWrong s (.callback t.id r :: moves) := by
  obtain ⟨i, place⟩ := t
  obtain ⟨⟨running, stop, created, callback, delete, thread, destroyed, freed⟩, caller, loops, nextId⟩ := s
  obtain ⟨rfl, rfl, rfl, hrunning, hcallback, -⟩ := h
  dsimp only at hplace hcallback hrunning
  subst hplace
  obtain rfl : callback = true := hcallback.mpr rfl
  obtain rfl : running = true := hrunning.mpr (by decide)
  cases r with
  | start locks =>
    have hnot : ¬(stop = false ∨ created = false ∧ locks = false) := by simpa [Ok, runs] using hnot
    cases stop with
    | false => exact absurd (.inl rfl) hnot
    | true =>
      cases created with
      | true =>
        refine ⟨[], by simp, @GoesWrong.two _ _ [()] (create ⟨ThreadedTimerEvent.stopAsync
          ⟨true, true, true, true, delete, thread, false, false⟩, caller, [⟨i, .calling⟩], nextId⟩ true) ?_
          (Nat.le_refl 2)⟩
        simp [run, step, TimerThreads.callbackRequest, runs]
      | false =>
        obtain rfl : locks = true := by simpa using hnot
        refine ⟨[], by simp, .fault (e := .deadlock) ?_⟩
        simp [run, step, TimerThreads.callbackRequest, runs]
  | stop | stopAsync => exact absurd (fun _ => trivial) hnot
  | free =>
    refine ⟨[.loop i true true, .loop i true true], by simp [Own], .fault (e := .dangling) ?_⟩
    cases created <;>
      simp [run, step, TimerThreads.callbackRequest, ThreadedTimerEvent.stopAsync, destroy,
        TimerThreads.loopStep, TimerThreads.goTo, endCallback]

/-- A call that does not keep to the conditions may go wrong without any other call. -/
theorem goes_wrong (h : Inv s) {i : TimerMove} (hnot : ¬Ok s i) :
    ∃ moves, (∀ j ∈ moves, Own j) ∧ GoesWrong s (i :: moves) := by
  cases i with
  | resume | loop => exact absurd trivial hnot
  | request r =>
    obtain ⟨hcaller, hnot⟩ := Classical.not_imp.mp hnot
    by_cases hfreed : s.event.freed = true
    · exact ⟨[], by simp, .fault (by rw [run, step, if_pos hcaller, if_pos hfreed]; rfl)⟩
    · have hnot := fun h => hnot ⟨Bool.eq_false_iff.mpr hfreed, h⟩
      cases r with
      | stop | stopAsync => exact absurd trivial hnot
      | start locks =>
        cases locks with
        | false => exact absurd trivial hnot
        | true =>
          obtain ⟨hcr, hstarts⟩ := not_or.mp hnot
          cases h with
          | quiet h => exact absurd (by simp [h.loops]) hstarts
          | looping h =>
            rw [h.loops] at hstarts
            exact ⟨[.resume true, .resume true], by simp [Own],
              h.start_wrong hcaller (Bool.eq_false_iff.mpr hcr) (by simpa using hstarts)⟩
      | free =>
        cases h with
        | quiet h => exact absurd ⟨.inr h.loops, by simp [h.loops]⟩ hnot
        | @looping t h =>
          refine h.free_wrong hcaller ?_
          by_contra hall
          rw [not_or, not_or] at hall
          exact hnot ⟨.inl (by simpa using hall.2.2), by simpa [h.loops] using ⟨hall.1, hall.2.1⟩⟩
  | callback id r =>
    obtain ⟨⟨t, hmem, rfl, hplace⟩, -⟩ := Classical.not_imp.mp hnot
    cases h with
    | quiet h =>
      rw [h.loops] at hmem
      cases hmem
    | looping h =>
      rw [h.loops] at hmem
      obtain rfl := List.mem_singleton.mp hmem
      exact h.callback_wrong hplace r hnot

/-- The thread was created, and has not come further. -/
def started : TimerThreads := ⟨⟨false, false, true, false, false, 0, false, false⟩, .idle, [⟨0, .starting⟩], 1⟩

theorem started_ok :
    AllSteps step Ok new [.request (.start true), .resume true, .resume true] ∧
      run step new [.request (.start true), .resume true, .resume true] = .ok ([(), (), ()], started) :=
  ⟨.cons (fun _ => ⟨rfl, .inr fun _ ht => by cases ht⟩) rfl <| .cons trivial rfl <|
    .cons trivial rfl trivial, rfl⟩

/-- What the caller, who waits in `pthread_join`, finds: no thread, or one that still takes `n` steps. -/
def Joins (s : TimerThreads) (id : Nat) (next : Joined) (n : Nat) : Prop :=
  s.caller = .joining id next ∧ ∀ t ∈ s.loops, t.place.steps ≤ n

theorem Looping.loopStep_joins (h : Looping s t) {id : Nat} {next : Joined} {n : Nat}
    (hjoins : Joins s id next (n + 1)) {rings locks : Bool} {s' : TimerThreads}
    (hs' : s.loopStep t rings locks = .ok s') : Joins s' id next n := by
  obtain ⟨hcaller, hsteps⟩ := hjoins
  have hstop : s.event.threadStop = true := by
    have hfits := h.caller
    rw [CallerFits, hcaller] at hfits
    exact hfits.2
  have hsteps := hsteps t (by rw [h.loops]; exact List.mem_singleton_self t)
  have hone : ∀ place : Place, place.steps ≤ n → ∀ u ∈ [(⟨t.id, place⟩ : LoopThread)], u.place.steps ≤ n :=
    fun place hle u hu => by rw [List.mem_singleton.mp hu]; exact hle
  rw [TimerThreads.loopStep, if_neg (by rw [h.freed]; decide)] at hs'
  cases hp : t.place with
  | leaving =>
    rw [hp] at hs'
    cases hs'
    refine ⟨hcaller, ?_⟩
    change ∀ u ∈ s.loops.erase t, _
    rw [h.loops, List.erase_cons_head]
    exact fun u hu => by cases hu
  | starting =>
    rw [hp] at hs' hsteps
    cases hs'
    rw [h.goTo]
    exact ⟨hcaller, hone _ (Nat.le_of_succ_le_succ hsteps)⟩
  | testing =>
    rw [hp] at hs' hsteps
    dsimp only at hs'
    rw [hstop, if_pos rfl] at hs'
    cases hs'
    rw [h.goTo]
    exact ⟨hcaller, hone _ (Nat.le_of_succ_le_succ hsteps)⟩
  | checking =>
    rw [hp] at hs' hsteps
    cases hs'
    rw [h.goTo, h.goTo]
    cases rings with
    | true => exact ⟨hcaller, hone _ (Nat.le_of_succ_le_succ hsteps)⟩
    | false => exact ⟨hcaller, hone _ (Nat.le_trans (by decide) (Nat.le_of_succ_le_succ hsteps))⟩
  | calling =>
    rw [hp] at hs' hsteps
    cases hs'
    rw [h.goTo]
    exact ⟨hcaller, hone _ (Nat.le_of_succ_le_succ hsteps)⟩
  | checked =>
    rw [hp] at hs' hsteps
    dsimp only at hs'
    rw [if_neg (by rw [h.destroyed]; decide)] at hs'
    cases hs'
    rw [h.goTo]
    exact ⟨hcaller, hone _ (Nat.le_of_succ_le_succ hsteps)⟩
  | waiting =>
    rw [hp] at hs' hsteps
    dsimp only at hs'
    rw [if_neg (by rw [h.destroyed]; decide)] at hs'
    cases hs'
    rw [h.goTo]
    exact ⟨hcaller, hone _ (Nat.le_of_succ_le_succ hsteps)⟩

/-- A move of another one leaves the thread where it is, and the caller waits. -/
def Waits (id : Nat) : TimerMove → Prop
  | .resume _ => False
  | .loop j _ _ => j ≠ id
  | _ => True

theorem Looping.callbackRequest_joins (h : Looping s t) {id : Nat} {next : Joined} {n : Nat}
    (hjoins : Joins s id next n) (hplace : t.place = .calling) {r : Request}
    (hok : Ok s (.callback t.id r)) {s' : TimerThreads} (hs' : s.callbackRequest r = .ok s') :
    Joins s' id next n := by
  have hok := hok ⟨t, by rw [h.loops]; exact List.mem_singleton_self t, rfl, hplace⟩
  cases r with
  | start locks =>
    rw [TimerThreads.callbackRequest] at hs'
    by_cases hruns : s.runs = true
    · rw [if_pos hruns] at hs'
      cases hs'
      exact hjoins
    · obtain ⟨hcr, rfl⟩ := hok.resolve_left hruns
      rw [if_neg hruns, hcr] at hs'
      cases hs'
      exact hjoins
  | stop | stopAsync =>
    cases hs'
    exact hjoins
  | free => exact hok.elim

theorem joins_keeps (h : Inv s) {id : Nat} {next : Joined} {n : Nat} (hjoins : Joins s id next n)
    {i : TimerMove} (hok : Ok s i) (hwaits : Waits id i) {o : Unit} {s' : TimerThreads}
    (hs' : step s i = .ok (o, s')) : Joins s' id next n := by
  cases i with
  | request r =>
    rw [step, if_neg (by simp [hjoins.1])] at hs'
    cases hs'
    exact hjoins
  | resume created => exact hwaits.elim
  | loop j rings locks =>
    rw [step] at hs'
    cases h with
    | quiet h =>
      rw [h.loops] at hs'
      cases hs'
      exact hjoins
    | @looping t h =>
      have hid : t.id = id := by
        have hfits := h.caller
        rw [CallerFits, hjoins.1] at hfits
        exact hfits.1
      rw [h.find, if_neg (by rw [hid]; exact Ne.symm hwaits)] at hs'
      cases hs'
      exact hjoins
  | callback j r =>
    rw [step] at hs'
    cases h with
    | quiet h =>
      rw [h.loops] at hs'
      cases hs'
      exact hjoins
    | @looping t h =>
      rw [h.find] at hs'
      by_cases hid : t.id = j
      · subst hid
        rw [if_pos rfl] at hs'
        dsimp only at hs'
        by_cases hplace : t.place = .calling
        · rw [if_pos hplace, if_neg (by rw [h.freed]; decide)] at hs'
          obtain ⟨s₁, hs₁, hr⟩ := bind_eq_ok.mp hs'
          cases hr
          exact h.callbackRequest_joins hjoins hplace hok hs₁
        · rw [if_neg hplace] at hs'
          cases hs'
          exact hjoins
      · rw [if_neg hid] at hs'
        cases hs'
        exact hjoins

theorem joins_step (h : Inv s) {id : Nat} {next : Joined} {n : Nat} (hjoins : Joins s id next (n + 1))
    {rings locks : Bool} {o : Unit} {s' : TimerThreads} (hs' : step s (.loop id rings locks) = .ok (o, s')) :
    Joins s' id next n := by
  rw [step] at hs'
  cases h with
  | quiet h =>
    rw [h.loops] at hs'
    cases hs'
    exact ⟨hjoins.1, fun t ht => by rw [h.loops] at ht; cases ht⟩
  | @looping t h =>
    have hid : t.id = id := by
      have hfits := h.caller
      rw [CallerFits, hjoins.1] at hfits
      exact hfits.1
    rw [h.find, if_pos hid] at hs'
    obtain ⟨s₁, hs₁, hr⟩ := bind_eq_ok.mp hs'
    cases hr
    exact h.loopStep_joins hjoins hs₁

/-- A step of the thread `id`. -/
def stepOf (id : Nat) : TimerMove → Bool
  | .loop j _ _ => j = id
  | _ => false

theorem run_joins {id : Nat} {next : Joined} (moves : List TimerMove) : ∀ {s : TimerThreads} {n : Nat},
    Inv s → Joins s id next n → AllSteps step Ok s moves → (∀ created, .resume created ∉ moves) →
      ∃ os s', run step s moves = .ok (os, s') ∧ Joins s' id next (n - moves.countP (stepOf id)) := by
  induction moves with
  | nil => exact fun _ hjoins _ _ => ⟨_, _, rfl, hjoins⟩
  | cons i moves ih =>
    intro s n h hjoins hok hno
    obtain ⟨o, s₁, hs₁, h₁⟩ := step_inv h i hok.1
    have hno' : ∀ created, .resume created ∉ moves := fun c hc => hno c (List.mem_cons_of_mem i hc)
    have hone : Joins s₁ id next (n - if stepOf id i then 1 else 0) := by
      by_cases hwaits : Waits id i
      · have hnot : stepOf id i = false := by
          cases i with
          | loop j => exact decide_eq_false hwaits
          | _ => rfl
        rw [hnot]
        exact joins_keeps h hjoins hok.1 hwaits hs₁
      · cases i with
        | resume created => exact absurd List.mem_cons_self (hno created)
        | loop j rings locks =>
          obtain rfl : j = id := Classical.not_not.mp hwaits
          rw [show stepOf j (.loop j rings locks) = true from decide_eq_true rfl, if_pos rfl]
          cases n with
          | zero => exact joins_step h ⟨hjoins.1, fun t ht => Nat.le_succ_of_le (hjoins.2 t ht)⟩ hs₁
          | succ n => exact joins_step h hjoins hs₁
        | request | callback => exact absurd trivial hwaits
    obtain ⟨os, s', hr, hend⟩ := ih h₁ hone (hok.2 o s₁ hs₁) hno'
    refine ⟨_, s', run_cons hs₁ hr, ?_⟩
    rw [List.countP_cons, Nat.add_comm, ← Nat.sub_sub]
    exact hend

end TimerThreads

end AlibC
