import AlibC.DListItemValues
import AlibC.Timer

/-! `TimerEventHandler`: a list of timer events, and the loop that rings the first of them. -/
namespace AlibC

open CLang

/-- `TimerEvent`. The callbacks of its handler are `event_prep_to_free` and `timer_rang`, or not
set. -/
structure TimerEvent where
  timer : Timer
  rangCb : Bool
  prepFreeCb : Bool
  rangParentCb : Bool
  parent : Option Nat
  deleteState : Bool
  callbackState : Bool
deriving DecidableEq, Repr

/-- `TimerEvent_set_prep_free_cb`. -/
def TimerEvent.setPrepFreeCb (e : TimerEvent) (prepFreeCb : Bool) : TimerEvent :=
  { e with prepFreeCb }

/-- `TimerEvent_set_rang_parent_cb`. -/
def TimerEvent.setRangParentCb (e : TimerEvent) (parent : Option Nat) (rangParentCb : Bool) :
    TimerEvent :=
  { e with parent, rangParentCb }

/-- `if(!*((uint64_t*)Timer_get_end_time(t)))Timer_begin(t);`, which looks at the seconds. -/
def Timer.start (t : Timer) (now : Timespec) : Outcome Timer :=
  if t.endTime.sec = 0 then t.beginAt now else .ok t

/-- The handler with the events in memory. `self` is its address. -/
structure TimerEventHandler where
  self : Nat
  running : Bool
  list : DList Nat
  events : Heap TimerEvent
deriving DecidableEq, Repr

namespace TimerEventHandler

open DListItem

/-- An assignment to members of an event. -/
def setEvent (h : TimerEventHandler) (event : Nat) (f : TimerEvent → TimerEvent) :
    Outcome TimerEventHandler := do
  let events ← h.events.modify (some event) f
  return { h with events }

def setTimer (h : TimerEventHandler) (event : Nat) (timer : Timer) : Outcome TimerEventHandler :=
  h.setEvent event fun e => { e with timer }

/-- `if(c)f(event);` -/
def callIf (c : Bool) (f : TimerEventHandler → Nat → Outcome TimerEventHandler)
    (h : TimerEventHandler) (event : Nat) : Outcome TimerEventHandler :=
  if c then f h event else .ok h

section Free

-- what `prep_free_cb` does if it is set
variable (prepFree : TimerEventHandler → Nat → Outcome TimerEventHandler)

/-- `freeTimerEvent`. -/
def freeTimerEvent (h : TimerEventHandler) (event : Nat) : Outcome TimerEventHandler := do
  let h ← h.setEvent event fun e => { e with deleteState := true }
  let e ← h.events.get (some event)
  if e.callbackState then return h
  else do
    let h ← h.setEvent event fun e => { e with callbackState := true }
    let h ← callIf e.prepFreeCb prepFree h event
    let h ← h.setEvent event fun e => { e with callbackState := false }
    return { h with events := h.events.put event none }

/-- `remove_event`, given a pointer to the handler. The item that is removed gives its value to
`freeTimerEvent`. -/
def removeEvent (h : TimerEventHandler) (handler : Option Nat) (event : Nat) :
    Outcome TimerEventHandler := do
  let _ ← deref handler
  let first ← h.list.get 0
  let item ← getByValue h.list.items first event
  let (_, list) ← h.list.removeItem item
  (list.dropped.drop h.list.dropped.length).foldlM (freeTimerEvent prepFree) { h with list }

end Free

/-- `event_prep_to_free`, which removes the event from its handler. -/
def eventPrepToFree : Nat → TimerEventHandler → Nat → Outcome TimerEventHandler
  | 0, _, _ => .error .diverges
  | fuel + 1, h, event => do
    let e ← h.events.get (some event)
    h.removeEvent (eventPrepToFree fuel) e.parent event

/-- An event calls back no deeper than there are items. -/
def prepFree (h : TimerEventHandler) : TimerEventHandler → Nat → Outcome TimerEventHandler :=
  eventPrepToFree (fuel h.list.items)

/-- The time that the handler goes by. -/
def timeOf (h : TimerEventHandler) (t : Timer) : Timespec :=
  if h.running then t.endTime else t.runTime

/-- The search for the first event that the time does not come after. -/
def searchLoop (h : TimerEventHandler) (time : Timespec) : Nat → Nat → Outcome (Option Nat)
  | 0, _ => .error .diverges
  | fuel + 1, it => do
    let itEvent ← getValue h.list.items (some it)
    let e ← h.events.get (some itEvent)
    if time.cmpFast (h.timeOf e.timer) > 0 then do
      let next ← member next h.list.items (some it)
      match next with
      | none => return none
      | some it => searchLoop h time fuel it
    else return some it

/-- `if(!itm)itm = newDListItem(event, freeTimerEvent, NULL);` -/
def itemFor (h : TimerEventHandler) (event : Nat) : Option Nat → Nat × TimerEventHandler
  | some itm => (itm, h)
  | none =>
    let (itm, items) := DListItem.new h.list.items event
    (itm, { h with list := { h.list with items } })

/-- If the handler is running, so is the timer of the event. -/
def startEvent (h : TimerEventHandler) (event : Nat) (now : Timespec) :
    Outcome TimerEventHandler :=
  if h.running then do
    let e ← h.events.get (some event)
    let timer ← e.timer.start now
    h.setTimer event timer
  else .ok h

/-- The item is put before `it`, or at the end. -/
def place (h : TimerEventHandler) (it : Option Nat) (itm : Nat) :
    Outcome (AlibError × TimerEventHandler) := do
  let (code, list) ←
    if it ≠ none then h.list.insertBefore it (some itm) else h.list.pushBack (some itm)
  return (code, { h with list })

/-- The item with the event is put where it belongs. -/
def insertItem (h : TimerEventHandler) (event itm : Nat) (now : Timespec) :
    Outcome (AlibError × TimerEventHandler) := do
  let first ← h.list.get 0
  match first with
  | none => h.place none itm
  | some first => do
    let h ← h.startEvent event now
    let e ← h.events.get (some event)
    let it ← h.searchLoop (h.timeOf e.timer) (fuel h.list.items) first
    h.place it itm

/-- `add_event`. -/
def addEvent (h : TimerEventHandler) (event : Nat) (itm : Option Nat) (now : Timespec) :
    Outcome (AlibError × TimerEventHandler) :=
  let (itm, h) := h.itemFor event itm
  h.insertItem event itm now

/-- `extract_event`. The value object is not freed. -/
def extractEvent (h : TimerEventHandler) (event : Nat) : Outcome TimerEventHandler := do
  let item ← getByValue h.list.items h.list.beginItem event
  let index ← DListItem.index h.list.items item
  let (itm, list) ← h.list.pullOut (toSize index)
  let (val, items) ← extractValue list.items itm
  -- `val->value = NULL`
  let _ ← deref val
  let (_, _, items) ← del items itm
  return { h with list := { list with items } }

/-- The callback of the user, which may free the event. -/
def rangCallback (frees : Bool) (h : TimerEventHandler) (event : Nat) :
    Outcome TimerEventHandler := do
  let e ← h.events.get (some event)
  if e.rangCb then callIf frees (freeTimerEvent h.prepFree) h event else .error .nullDeref

/-- `timer_rang`. -/
def timerRang (frees : Bool) (h : TimerEventHandler) (event : Nat) :
    Outcome TimerEventHandler := do
  let e ← h.events.get (some event)
  let _ ← deref e.parent
  rangCallback frees h event

/-- `TimerEvent_check`: the time, what is in `*rang`, where `rang` was in it before. The clock is
read twice. -/
def check (h : TimerEventHandler) (event : Nat) (now now' : Timespec) (frees rang : Bool) :
    Outcome (Timespec × Bool × TimerEventHandler) := do
  let e ← h.events.get (some event)
  let (code, rTime, oTime, timer) ← e.timer.getTimeStatus now
  let h ← h.setTimer event timer
  if code ≠ .ok then do
    let timer ← timer.beginAt now'
    let h ← h.setTimer event timer
    return (timer.endTime, false, h)
  else if rTime.nsec ≠ 0 ∨ rTime.sec ≠ 0 then return (timer.endTime, false, h)
  else do
    let timer ← timer.beginBefore oTime now'
    let h ← h.setTimer event timer
    if e.rangParentCb ∨ e.rangCb then do
      let h ← h.setEvent event fun e => { e with callbackState := true }
      let h ← if e.rangParentCb then timerRang frees h event else rangCallback frees h event
      let h ← h.setEvent event fun e => { e with callbackState := false }
      let e ← h.events.get (some event)
      if e.deleteState then do
        let h ← freeTimerEvent h.prepFree h event
        return (⟨0, 0⟩, true, h)
      else return (e.timer.endTime, true, h)
    else return (timer.endTime, rang, h)

/-- One round of `timer_loop`. While there is no event it waits. -/
def timerLoop (h : TimerEventHandler) (now now' : Timespec) (frees rang : Bool) :
    Outcome TimerEventHandler :=
  if h.list.count = 0 then .ok h
  else do
    let itm ← h.list.get 0
    match itm with
    | none => return h
    | some itm => do
      let event ← getValue h.list.items (some itm)
      let (eTime, rang, h) ← h.check event now now' frees rang
      if eTime.sec = 0 then return h
      else if rang then do
        let index ← DListItem.index h.list.items (some itm)
        let (itm, list) ← h.list.pullOut (toSize index)
        let event ← getValue list.items itm
        let (code, h) ← addEvent { h with list } event itm now'
        -- after an error the loop is left
        if code = .ok then return h else return { h with running := false }
      else return h

/-- `TimerEventHandler_add_tsafe`. -/
def addTsafe (h : TimerEventHandler) (event : Option Nat) (now : Timespec) :
    Outcome (AlibError × TimerEventHandler) :=
  match event with
  | none => .ok (.badArg, h)
  | some event => do
    let e ← h.events.get (some event)
    if e.parent ≠ none then return (.badArg, h)
    else do
      let h ← h.setEvent event fun e =>
        (e.setPrepFreeCb true).setRangParentCb (some h.self) true
      h.addEvent event none now

/-- `TimerEventHandler_remove_tsafe`. -/
def removeTsafe (h : TimerEventHandler) (event : Option Nat) : Outcome TimerEventHandler :=
  match event with
  | none => .ok h
  | some event => do
    let h ← h.setEvent event fun e => e.setRangParentCb none false
    h.removeEvent h.prepFree (some h.self) event

/-- `TimerEventHandler_extract_tsafe`. -/
def extractTsafe (h : TimerEventHandler) (event : Option Nat) :
    Outcome (Option Nat × TimerEventHandler) :=
  match event with
  | none => .ok (none, h)
  | some event => do
    let h ← h.setEvent event fun e => e.setRangParentCb none false
    let h ← h.extractEvent event
    return (some event, h)

/-- `newTimerEventHandler`. -/
def new (self : Nat) (list : DList Nat) (events : Heap TimerEvent) : TimerEventHandler :=
  ⟨self, false, list, events⟩

end TimerEventHandler

end AlibC
