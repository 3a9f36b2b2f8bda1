import AlibC.TimerEventHandlerRing
import AlibC.TimerStatus
import Mathlib.Algebra.Ring.Int.Defs

/-! `TimerEvent_check` on an event by itself: the end times of a repeating event follow its run time,
however late the checks are. -/
namespace AlibC.TimerEvent

open CLang Timespec Timer

variable {σ : Type}

/-- What is called back. A callback acts on the event and on the rest of the program. -/
structure Callbacks (σ : Type) where
  rangParentCb : σ → TimerEvent → Outcome (σ × TimerEvent)
  rangCb : σ → TimerEvent → Outcome (σ × TimerEvent)
  prepFreeCb : σ → TimerEvent → Outcome σ

/-- `if(event->rang_parent_cb)event->rang_parent_cb(event);else if(event->rang_cb)
event->rang_cb(event);`, where one of the two is set. -/
def callback (cb : Callbacks σ) (w : σ) (e : TimerEvent) : Outcome (σ × TimerEvent) :=
  if e.rangParentCb then cb.rangParentCb w e else cb.rangCb w e

/-- `freeTimerEvent`. The event stays while one of its callbacks runs. -/
def free (cb : Callbacks σ) (w : σ) (e : TimerEvent) : Outcome (σ × Option TimerEvent) :=
  if e.callbackState then .ok (w, some { e with deleteState := true })
  else do
    let w ← if e.prepFreeCb then
        cb.prepFreeCb w { e with deleteState := true, callbackState := true }
      else .ok w
    return (w, none)

/-- `TimerEvent_check`, where `rang` was in `*rang` before and the clock is read as `now` first and as
`now'` then. -/
def check (cb : Callbacks σ) (w : σ) (e : TimerEvent) (now now' : Timespec) (rang : Bool) :
    Outcome ((Timespec × Bool) × σ × Option TimerEvent) := do
  let (code, rTime, oTime, timer) ← e.timer.getTimeStatus now
  if code ≠ .ok then do
    let timer ← timer.beginAt now'
    return ((timer.endTime, false), w, some { e with timer })
  else if rTime.nsec ≠ 0 ∨ rTime.sec ≠ 0 then
    return ((timer.endTime, false), w, some { e with timer })
  else do
    let timer ← timer.beginBefore oTime now'
    if e.rangParentCb ∨ e.rangCb then do
      let (w, e) ← callback cb w { e with timer, callbackState := true }
      let e := { e with callbackState := false }
      if e.deleteState then do
        let (w, e) ← free cb w e
        return ((⟨0, 0⟩, true), w, e)
      else return ((e.timer.endTime, true), w, some e)
    else return ((timer.endTime, rang), w, some { e with timer })

/-- The two readings of the clock that a check makes. -/
abbrev Readings := Timespec × Timespec

/-- A check, if the event is still there. -/
def step (cb : Callbacks σ) : σ × Option TimerEvent → Readings →
    Outcome ((Timespec × Bool) × σ × Option TimerEvent)
  | (_, none), _ => .error .dangling
  | (w, some e), (now, now') => e.check cb w now now' false

/-- A callback that neither starts the timer anew nor frees the event, and leaves a callback set. -/
structure Keeps (e e' : TimerEvent) : Prop where
  timer : e'.timer = e.timer
  deleteState : e'.deleteState = e.deleteState
  registered : e'.rangParentCb ∨ e'.rangCb

def Quiet (cb : Callbacks σ) : Prop :=
  ∀ w e, (e.rangParentCb ∨ e.rangCb) → ∃ w' e', callback cb w e = .ok (w', e') ∧ Keeps e e'

/-- Nothing overflows in a check. -/
structure CheckFits (e : TimerEvent) (now now' : Timespec) : Prop where
  status : StatusFits e.timer now
  before : ∀ rTime oTime t, e.timer.endTime.total ≤ now.total →
    e.timer.getTimeStatus now = .ok (.ok, rTime, oTime, t) → BeforeFits e.timer oTime now'

/-- A state in which a check may take place. -/
def Fits : σ × Option TimerEvent → Readings → Prop
  | (_, none), _ => False
  | (_, some e), (now, now') => CheckFits e now now'

/-- The event with a callback set, that was not freed. -/
structure Live (e : TimerEvent) : Prop where
  registered : e.rangParentCb ∨ e.rangCb
  deleteState : e.deleteState = false

variable {cb : Callbacks σ} {w w' : σ} {e e' : TimerEvent} {now now' endTime : Timespec} {rang : Bool}

/-- The event while it is told that it rang. -/
def ringing (e : TimerEvent) (endTime : Timespec) : TimerEvent :=
  { e with timer := { e.timer with endTime, rang := false }, callbackState := true }

/-- Before its end time nothing happens to an event. -/
theorem check_before (h : CheckFits e now now') (hbefore : now.total < e.timer.endTime.total) :
    e.check cb w now now' rang = .ok ((e.timer.endTime, false), w, some e) := by
  obtain ⟨rTime, oTime, hstatus, hspec⟩ := getTimeStatus_exact e.timer now h.status
  rw [observe, if_neg (by omega)] at hstatus
  rw [check, hstatus, ok_bind]
  dsimp only
  rw [if_neg (fun hne => hne rfl), if_pos (hspec.left_iff.mpr hbefore)]
  rfl

/-- From its end time on the callback is called, once, and the next end time is a run time later. -/
theorem check_after (h : CheckFits e now now') (hcb : Quiet cb) (he : Live e)
    (hafter : e.timer.endTime.total ≤ now.total) : ∃ endTime w' e',
    callback cb w (e.ringing endTime) = .ok (w', e') ∧ Keeps (e.ringing endTime) e' ∧
      (∀ rang, e.check cb w now now' rang =
        .ok ((endTime, true), w', some { e' with callbackState := false })) ∧
      endTime.total = e.timer.endTime.total + e.timer.runTime.total + (now'.total - now.total) := by
  obtain ⟨rTime, oTime, hstatus, hspec⟩ := getTimeStatus_exact e.timer now h.status
  have hbefore := h.before rTime oTime _ hafter hstatus
  rw [observe, if_pos hafter] at hstatus
  obtain ⟨endTime, hbegin, htotal⟩ := @beginBefore_eq { e.timer with rang := true } now' oTime
    ⟨hbefore.sum, hbefore.diff⟩
  obtain ⟨w', e', hcall, hkeeps⟩ := hcb w (e.ringing endTime) he.registered
  have hover := hspec.over_total hafter
  refine ⟨endTime, w', e', hcall, hkeeps, fun rang => ?_, ?_⟩
  · have hdelete : ¬e'.deleteState = true := by
      rw [hkeeps.deleteState]
      exact fun hd => by cases he.deleteState.symm.trans hd
    have hend : e'.timer.endTime = endTime := by rw [hkeeps.timer, ringing]
    rw [check, hstatus, ok_bind]
    dsimp only
    rw [if_neg (fun hne => hne rfl), if_neg (mt hspec.left_iff.mp (by omega)), hbegin, ok_bind,
      if_pos he.registered]
    rw [ringing] at hcall
    rw [hcall, ok_bind]
    dsimp only
    rw [if_neg hdelete, hend]
    rfl
  · dsimp only at htotal
    omega

/-- What a check does to the event and to the rest of the program. -/
def Checked (cb : Callbacks σ) : σ × Option TimerEvent → Readings → Prop
  | (_, none), _ => False
  | (w, some e), (now, now') =>
    (now.total < e.timer.endTime.total → ∀ rang,
      e.check cb w now now' rang = .ok ((e.timer.endTime, false), w, some e)) ∧
    (e.timer.endTime.total ≤ now.total → ∃ endTime w' e',
      callback cb w (e.ringing endTime) = .ok (w', e') ∧ e'.timer.endTime = endTime ∧
        (∀ rang, e.check cb w now now' rang =
          .ok ((endTime, true), w', some { e' with callbackState := false })) ∧
        endTime.total =
          e.timer.endTime.total + e.timer.runTime.total + (now'.total - now.total))

/-- The rings among what the checks returned. -/
def rings (os : List (Timespec × Bool)) : Nat := os.countP (·.2)

/-- What passed between the two readings of the checks that rang. -/
def delays (os : List (Timespec × Bool)) (rs : List Readings) : Int :=
  ((os.zip rs).map fun (o, now, now') => if o.2 then now'.total - now.total else 0).sum

/-- Where checks have led: the end time is as many run times later as there were rings, and later by
what passed while the clock was read. -/
structure Led (e e' : TimerEvent) (os : List (Timespec × Bool)) (rs : List Readings) : Prop where
  live : Live e'
  runTime : e'.timer.runTime = e.timer.runTime
  endTime : e'.timer.endTime.total =
    e.timer.endTime.total + rings os * e.timer.runTime.total + delays os rs

theorem Led.refl (he : Live e) : Led e e [] [] := ⟨he, rfl, by simp [rings, delays]⟩

/-- A check that came too early adds nothing. -/
theorem Led.waits {os : List (Timespec × Bool)} {rs : List Readings} {t : Timespec}
    (h : Led e e' os rs) : Led e e' ((t, false) :: os) ((now, now') :: rs) := by
  refine ⟨h.live, h.runTime, ?_⟩
  rw [h.endTime]
  simp [rings, delays]

/-- A ring adds a run time, and what passed between its readings. -/
theorem Led.rings {e₁ : TimerEvent} {os : List (Timespec × Bool)} {rs : List Readings} {t : Timespec}
    (hrun : e₁.timer.runTime = e.timer.runTime)
    (hend : e₁.timer.endTime.total =
      e.timer.endTime.total + e.timer.runTime.total + (now'.total - now.total))
    (h : Led e₁ e' os rs) : Led e e' ((t, true) :: os) ((now, now') :: rs) := by
  have hcount : TimerEvent.rings ((t, true) :: os) = TimerEvent.rings os + 1 := by
    rw [TimerEvent.rings, List.countP_cons_of_pos rfl, TimerEvent.rings]
  have hdelay : delays ((t, true) :: os) ((now, now') :: rs) =
      now'.total - now.total + delays os rs := by
    simp [delays]
  refine ⟨h.live, h.runTime.trans hrun, ?_⟩
  rw [h.endTime, hrun, hend, hcount, hdelay, Int.natCast_succ, Int.add_mul]
  omega

theorem checked (hcb : Quiet cb) (he : Live e) (hfit : CheckFits e now now') :
    Checked cb (w, some e) (now, now') := by
  refine ⟨fun hbefore rang => check_before hfit hbefore, fun hafter => ?_⟩
  obtain ⟨endTime, w', e', hcall, hkeeps, hcheck, htotal⟩ := @check_after σ cb w e now now' hfit hcb he hafter
  exact ⟨endTime, w', e', hcall, by rw [hkeeps.timer, ringing], hcheck, htotal⟩

/-- However late the checks are, none of that is in the end times: each check that rings calls back
once, and sets the end time to a run time after the one before, later only by what passed between its
two readings. -/
theorem check_does_not_drift (cb : Callbacks σ) (hcb : Quiet cb) (rs : List Readings) :
    ∀ (w : σ) (e : TimerEvent), Live e → Machine.AllSteps (step cb) Fits (w, some e) rs →
      Machine.AllSteps (step cb) (Checked cb) (w, some e) rs ∧ ∃ os w' e',
        Machine.run (step cb) (w, some e) rs = .ok (os, w', some e') ∧ Led e e' os rs := by
  induction rs with
  | nil => exact fun w e he _ => ⟨trivial, [], w, e, rfl, Led.refl he⟩
  | cons r rs ih =>
    obtain ⟨now, now'⟩ := r
    rintro w e he ⟨hfit, hrest⟩
    have hhead := @checked σ cb w e now now' hcb he hfit
    by_cases hbefore : now.total < e.timer.endTime.total
    · have hstep : step cb (w, some e) (now, now') = .ok ((e.timer.endTime, false), w, some e) :=
        check_before hfit hbefore
      obtain ⟨hall, os, w', e', hrun, hled⟩ := ih w e he (hrest _ _ hstep)
      exact ⟨hall.cons hhead hstep, _, w', e', Machine.run_cons hstep hrun, hled.waits⟩
    · obtain ⟨endTime, w₁, e₁, -, hkeeps, hcheck, htotal⟩ :=
        @check_after σ cb w e now now' hfit hcb he (by omega)
      have hstep : step cb (w, some e) (now, now') =
          .ok ((endTime, true), w₁, some { e₁ with callbackState := false }) := hcheck false
      have hlive : Live { e₁ with callbackState := false } :=
        ⟨hkeeps.registered, hkeeps.deleteState.trans he.deleteState⟩
      obtain ⟨hall, os, w', e', hrun, hled⟩ := ih w₁ _ hlive (hrest _ _ hstep)
      have htimer : e₁.timer = { e.timer with endTime, rang := false } := hkeeps.timer
      refine ⟨hall.cons hhead hstep, _, w', e', Machine.run_cons hstep hrun,
        Led.rings ?_ ?_ hled⟩
      · dsimp only
        rw [htimer]
      · dsimp only
        rw [htimer]
        exact htotal

/-- Callbacks that count their calls. -/
def counting : Callbacks Nat :=
  ⟨fun n e => .ok (n + 1, e), fun n e => .ok (n + 1, e), fun n _ => .ok n⟩

theorem counting_quiet : Quiet counting := by
  intro n e he
  refine ⟨n + 1, e, ?_, rfl, rfl, he⟩
  rw [callback]
  split
  · rfl
  · rfl

/-- A check that is early and one that is late by half a second, on an event of three seconds. -/
theorem check_does_not_drift_late :
    Machine.AllSteps (step counting) (Checked counting)
      (0, some ⟨⟨false, ⟨3, 0⟩, ⟨10, 0⟩⟩, true, false, false, none, false, false⟩)
      [(⟨9, 0⟩, ⟨9, 0⟩), (⟨10, 500000000⟩, ⟨10, 500000100⟩)] ∧ ∃ os w' e',
      Machine.run (step counting)
        (0, some ⟨⟨false, ⟨3, 0⟩, ⟨10, 0⟩⟩, true, false, false, none, false, false⟩)
        [(⟨9, 0⟩, ⟨9, 0⟩), (⟨10, 500000000⟩, ⟨10, 500000100⟩)] = .ok (os, w', some e') ∧
      Led ⟨⟨false, ⟨3, 0⟩, ⟨10, 0⟩⟩, true, false, false, none, false, false⟩ e' os
        [(⟨9, 0⟩, ⟨9, 0⟩), (⟨10, 500000000⟩, ⟨10, 500000100⟩)] := by
  refine check_does_not_drift counting counting_quiet _ 0 _ ⟨.inr rfl, rfl⟩
    ⟨⟨⟨⟨by decide, by decide, fun _ => by decide⟩, fun left h => ?_⟩, fun _ _ _ hlate => ?_⟩,
      fun o s' h => ?_⟩
  · cases h
    decide
  · exact absurd hlate (by decide)
  · cases h
    refine ⟨⟨⟨⟨by decide, by decide, fun _ => by decide⟩, fun left h => ?_⟩,
      fun rTime oTime t _ h => ?_⟩, fun _ _ _ => trivial⟩
    · cases h
      decide
    · cases h
      refine ⟨⟨by decide, by decide, fun _ => by decide⟩, fun endTime h => ?_⟩
      cases h
      exact ⟨by decide, by decide, fun _ => by decide⟩

section Handler

/-- The callbacks of an event that has a callback of the user and may have a handler. -/
def quiet : Callbacks Unit :=
  ⟨fun w e => .ok (w, e), fun w e => .ok (w, e), fun w _ => .ok w⟩

variable {h : TimerEventHandler} {event : Nat} {time : Timespec} {rang' : Bool}

open TimerEventHandler in
/-- A handler checks its events as if each were by itself. -/
theorem handler_check_eq (he : h.events.cell event = some e) (huser : e.rangCb = true)
    (hparent : e.rangParentCb = true → ∃ p, e.parent = some p) (hdel : e.deleteState = false)
    (hc : e.check quiet () now now' rang = .ok ((time, rang'), (), some e')) :
    h.check event now now' false rang = .ok (time, rang', h.withEvent event e') := by
  rw [check] at hc
  obtain ⟨⟨code, rTime, oTime, timer⟩, hstatus, hc⟩ := bind_eq_ok.mp hc
  rw [TimerEventHandler.check, Heap.get_eq he, ok_bind, hstatus, ok_bind]
  dsimp only at hc ⊢
  rw [setTimer, setEvent_eq he, ok_bind]
  obtain ⟨hcode, -⟩ := getTimeStatus_ok hstatus
  rw [if_neg (fun hne => hne hcode)] at hc ⊢
  split at hc
  · rw [if_pos ‹_›]
    cases hc
    rfl
  · rw [if_neg ‹_›]
    obtain ⟨timer', hbegin, hc⟩ := bind_eq_ok.mp hc
    rw [if_pos (.inr huser)] at hc
    obtain ⟨⟨w, e₁⟩, hcall, hc⟩ := bind_eq_ok.mp hc
    have hsame : e₁ = { e with timer := timer', callbackState := true } := by
      rw [callback] at hcall
      split at hcall
      · cases hcall
        rfl
      · cases hcall
        rfl
    cases hsame
    dsimp only at hc
    rw [if_neg (fun hd => by cases hdel.symm.trans hd)] at hc
    cases hc
    rw [hbegin, ok_bind, setTimer, setEvent_withEvent he, ok_bind, if_pos (.inr huser),
      setEvent_withEvent he, ok_bind]
    split
    case isTrue hset =>
      obtain ⟨p, hp⟩ := hparent hset
      have hrang := @timerRang_eq (h.withEvent event { e with timer := timer', callbackState := true })
        event _ false (cell_withEvent_self he _) huser p hp rfl
      rw [hrang, ok_bind, withEvent_withEvent, setEvent_withEvent he, ok_bind, get_withEvent he,
        ok_bind]
      dsimp only
      rw [Bool.or_false, if_neg (fun hd => by cases hdel.symm.trans hd)]
      rfl
    case isFalse =>
      rw [rangCallback, get_withEvent he, ok_bind, if_pos huser, callIf,
        if_neg (fun hf => by cases hf), ok_bind, setEvent_withEvent he, ok_bind, get_withEvent he,
        ok_bind]
      dsimp only
      rw [if_neg (fun hd => by cases hdel.symm.trans hd)]
      rfl

end Handler

end AlibC.TimerEvent
