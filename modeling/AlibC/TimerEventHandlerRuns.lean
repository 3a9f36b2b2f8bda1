import AlibC.TimerEventHandlerRing

/-! Runs of a `TimerEventHandler`: how long it keeps its events in order and loses none. -/
namespace AlibC.TimerEventHandler

open CLang Function Linked Machine DListItem

variable {h : TimerEventHandler} {vs evs : List Nat} {event : Nat} {ev : TimerEvent}

/-- The calls, and the rounds of the loop. The clock shows what it likes. -/
inductive Call where
  | add (event : Nat) (now : Timespec)
  | remove (event : Nat)
  | extract (event : Nat)
  /-- The clock is read twice, and the callback may free the event. -/
  | ring (now now' : Timespec) (frees rang : Bool)
deriving DecidableEq, Repr

inductive Reply where
  | code (code : AlibError)
  | event (event : Option Nat)
  | done
deriving DecidableEq, Repr

def call (h : TimerEventHandler) : Call → Outcome (Reply × TimerEventHandler)
  | .add event now => do
    let (code, h) ← h.addTsafe (some event) now
    return (.code code, h)
  | .remove event => do
    let h ← h.removeTsafe (some event)
    return (.done, h)
  | .extract event => do
    let (event, h) ← h.extractTsafe (some event)
    return (.event event, h)
  | .ring now now' frees rang => do
    let h ← h.timerLoop now now' frees rang
    return (.done, h)

/-- What each call is to return: every event is accepted. -/
def Call.answer : Call → Reply
  | .add _ _ => .code .ok
  | .extract event => .event (some event)
  | .remove _ | .ring _ _ _ _ => .done

/-- The events that were added and not removed or extracted since. -/
def tracked (evs : List Nat) : Call → List Nat
  | .add event _ => evs ++ [event]
  | .remove event | .extract event => evs.filter (· != event)
  | .ring _ _ _ _ => evs

/-- An event that is added belongs to no handler, one that is removed or extracted is in the
handler, and the loop runs only while the handler does. There are never more items than
addresses. -/
def Call.Admitted (h : TimerEventHandler) (c : Call) : Prop :=
  DList.Fits h.list.items ∧
  match c with
  | .add event _ => ∃ ev, h.events.cell event = some ev ∧ ev.parent = none
  | .remove event | .extract event => ∃ vs, h.Lists vs ∧ event ∈ vs
  | .ring _ _ _ _ => h.running = true

/-- The calls that keep the events in order. An event that is added comes after the first one, and
one that is removed is in one of its callbacks. -/
def Call.Keeps (h : TimerEventHandler) : Call → Prop
  | .add event now => ∃ vs ev, h.Lists vs ∧ h.events.cell event = some ev ∧
      ∀ first ∈ vs.head?, ∃ timer, h.started ev.timer now = .ok timer ∧
        ¬(h.timeOf timer).NotAfter (h.due first)
  | .remove event => ∃ ev, h.events.cell event = some ev ∧ ev.callbackState = true
  | .extract event => ∃ vs, h.Lists vs ∧ vs.idxOf event ≤ INT32_MAX
  | .ring now now' frees _ => ∃ vs, h.Lists vs ∧ ∀ first rest ev, vs = first :: rest →
      h.events.cell first = some ev → h.RingKeeps ev rest.head? now now' frees

/-- An event that belongs to no handler is not in this one. -/
theorem Scheduled.not_mem (hs : h.Scheduled vs) (he : h.events.cell event = some ev)
    (hparent : ev.parent = none) : event ∉ vs := by
  intro hmem
  obtain ⟨ev', he', how, -⟩ := hs.owned event hmem
  cases he.symm.trans he'
  rw [hparent] at how
  cases how

/-- A change of an event that is not in the handler. -/
theorem Scheduled.withOther (hs : h.Scheduled vs) (he : h.events.cell event = some ev)
    (hnew : event ∉ vs) (ev' : TimerEvent) : (h.withEvent event ev').Scheduled vs := by
  have hne : ∀ c ∈ vs, c ≠ event := by
    rintro c hc rfl
    exact hnew hc
  refine ⟨hs.lists, hs.nodup, fun c hc => ?_, hs.sorted_congr (List.Sublist.refl vs) fun c hc =>
    due_withEvent he ev' (hne c hc)⟩
  rw [cell_withEvent_ne he ev' (hne c hc)]
  exact hs.owned c hc

/-- The handler has the events that it was given and that were not freed. -/
structure Tracks (running : Bool) (h : TimerEventHandler) (evs : List Nat) : Prop where
  running_eq : h.running = running
  exists_scheduled : ∃ vs, h.Scheduled vs ∧ vs.Perm (evs.filter h.alive)

variable {running frees rang : Bool} {now now' : Timespec}

theorem add_tracks (ht : Tracks running h evs) (hok : Call.Admitted h (.add event now))
    (hkeeps : Call.Keeps h (.add event now)) :
    ∃ h', call h (.add event now) = .ok (.code .ok, h') ∧ Tracks running h' (evs ++ [event]) := by
  obtain ⟨hrun, vs, hs, hperm⟩ := ht
  obtain ⟨hfit, ev, he, hparent⟩ := hok
  obtain ⟨ws, ev', hws, he', hfirst⟩ := hkeeps
  cases hs.lists.unique hws
  cases he.symm.trans he'
  have hnew := hs.not_mem he hparent
  have hs₁ := hs.withOther he hnew
    ((ev.setPrepFreeCb true).setRangParentCb (some h.self) true)
  obtain ⟨xs, hl, hv⟩ := hs.lists
  obtain ⟨h', hadd, -, hrun', halive, hs'⟩ := @addEvent_scheduled
    (h.withEvent event ((ev.setPrepFreeCb true).setRangParentCb (some h.self) true))
    vs event _ none now hs₁ (hv.length_eq ▸ hl.length_lt hfit) hnew
    (cell_withEvent_self he _) ⟨rfl, rfl, rfl⟩ (fun a ha => by cases ha)
    (fun first hmem => by
      obtain ⟨timer, hstart, hafter⟩ := hfirst first hmem
      have hne : first ≠ event := fun heq => hnew (heq ▸ List.mem_of_head? hmem)
      exact ⟨timer, hstart, by rw [due_withEvent he _ hne]; exact hafter⟩)
  have halive : h'.alive = h.alive := funext fun c => (halive c).trans (alive_withEvent he _ c)
  have hlive : h.alive event = true := by
    rw [alive, he]
    rfl
  refine ⟨h', ?_, hrun'.trans hrun, _, hs', ?_⟩
  · rw [call, addTsafe, Heap.get_eq he, ok_bind, if_neg (by rw [hparent]; exact fun hne => hne rfl),
      setEvent_eq he, ok_bind, hadd]
    rfl
  · rw [List.filter_append, halive, List.filter_cons_of_pos hlive, List.filter_nil]
    exact (List.perm_orderedInsert _ event vs).trans
      ((hperm.cons event).trans (List.perm_append_singleton event _).symm)

/-- What is left after an event was taken out is tracked. -/
theorem Scheduled.tracks (hs : h.Scheduled vs) (hperm : vs.Perm (evs.filter h.alive))
    {h' : TimerEventHandler} (hl : h'.Lists (vs.erase event)) (hself : h'.self = h.self)
    (hrun : h'.running = h.running) (hcell : ∀ c, c ≠ event → h'.events.cell c = h.events.cell c)
    (halive : h'.alive event = h.alive event) :
    Tracks h.running h' (evs.filter (· != event)) := by
  refine ⟨hrun, _, hs.taken hl hself hrun hcell, ?_⟩
  have hsame : h'.alive = h.alive := by
    funext c
    by_cases hc : c = event
    · rw [hc, halive]
    · rw [alive, hcell c hc, alive]
  rw [hsame, List.filter_comm, hs.nodup.erase_eq_filter]
  exact hperm.filter _

theorem remove_tracks (ht : Tracks running h evs) (hok : Call.Admitted h (.remove event))
    (hkeeps : Call.Keeps h (.remove event)) :
    ∃ h', call h (.remove event) = .ok (.done, h') ∧
      Tracks running h' (evs.filter (· != event)) := by
  obtain ⟨rfl, vs, hs, hperm⟩ := ht
  obtain ⟨hfit, ws, hws, hmem⟩ := hok
  cases hs.lists.unique hws
  obtain ⟨ev, he, hcb⟩ := hkeeps
  obtain ⟨list', hremove, hl'⟩ := @removeEvent_marks
    (h.withEvent event (ev.setRangParentCb none false)) vs event
    (ev.setRangParentCb none false)
    (prepFree (h.withEvent event (ev.setRangParentCb none false)))
    hs.lists hs.nodup hfit hmem (cell_withEvent_self he _) hcb h.self
  have hmark := hremove.trans (congrArg Except.ok (@withEvent_withEvent { h with list := list' }
    event (ev.setRangParentCb none false)
    { ev.setRangParentCb none false with deleteState := true }))
  have hcall : h.removeTsafe (some event) = .ok ({ h with list := list' }.withEvent event
      { ev.setRangParentCb none false with deleteState := true }) := by
    rw [removeTsafe, setEvent_eq he, ok_bind]
    exact hmark
  have hl : Lists ({ h with list := list' }.withEvent event
      { ev.setRangParentCb none false with deleteState := true }) (vs.erase event) := hl'
  refine ⟨_, ?_, hs.tracks hperm hl rfl rfl (fun c hc => ?_) ?_⟩
  · rw [call, hcall]
    rfl
  · exact (congrFun (Heap.cell_put he _) c).trans (update_of_ne hc _ _)
  · exact alive_withEvent he _ event

theorem extract_tracks (ht : Tracks running h evs) (hok : Call.Admitted h (.extract event))
    (hkeeps : Call.Keeps h (.extract event)) :
    ∃ h', call h (.extract event) = .ok (.event (some event), h') ∧
      Tracks running h' (evs.filter (· != event)) := by
  obtain ⟨rfl, vs, hs, hperm⟩ := ht
  obtain ⟨hfit, ws, hws, hmem⟩ := hok
  cases hs.lists.unique hws
  obtain ⟨ws, hws, hidx⟩ := hkeeps
  cases hs.lists.unique hws
  obtain ⟨ev, he, -⟩ := hs.owned event hmem
  obtain ⟨list', hextract, hl'⟩ := @extractEvent_eq
    (h.withEvent event (ev.setRangParentCb none false)) vs event hs.lists hs.nodup
    hfit hmem hidx
  refine ⟨_, ?_, hs.tracks hperm hl' rfl rfl (fun c hc => ?_) (alive_withEvent he _ event)⟩
  · rw [call, extractTsafe, setEvent_eq he, ok_bind, hextract]
    rfl
  · exact cell_withEvent_ne he _ hc

theorem ring_tracks (ht : Tracks running h evs) (hok : Call.Admitted h (.ring now now' frees rang))
    (hkeeps : Call.Keeps h (.ring now now' frees rang)) :
    ∃ h', call h (.ring now now' frees rang) = .ok (.done, h') ∧ Tracks running h' evs := by
  obtain ⟨rfl, vs, hs, hperm⟩ := ht
  obtain ⟨ws, hws, hkeeps⟩ := hkeeps
  cases hs.lists.unique hws
  obtain ⟨h', vs', hloop, hturn⟩ := @timerLoop_turns h vs now now' frees rang hs hok.2 hok.1 hkeeps
  have hfilter : evs.filter h'.alive = (evs.filter h.alive).filter h'.alive := by
    rw [List.filter_filter]
    refine List.filter_congr fun c _ => ?_
    cases hc : h'.alive c with
    | false => rfl
    | true => exact (hturn.alive_of c hc).symm
  refine ⟨h', ?_, hturn.running_eq, vs', hturn.scheduled, ?_⟩
  · rw [call, hloop]
    rfl
  · rw [hfilter]
    exact hturn.perm.trans (hperm.filter _)

/-- An event that does not come after the first one is never added. -/
theorem add_faults {first : Nat} {rest : List Nat} {timer : Timer} (hs : h.Scheduled (first :: rest))
    (hfit : DList.Fits h.list.items) (he : h.events.cell event = some ev) (hparent : ev.parent = none)
    (hstart : h.started ev.timer now = .ok timer) (hle : (h.timeOf timer).NotAfter (h.due first)) :
    call h (.add event now) = .error .nullDeref := by
  obtain ⟨ev₁, hev₁, -⟩ := hs.owned first List.mem_cons_self
  have hne : first ≠ event := fun heq => hs.not_mem he hparent (heq ▸ List.mem_cons_self)
  obtain ⟨xs, hl, hv⟩ := hs.lists
  have hlt := hl.length_lt hfit
  obtain ⟨a, items, hitem, hl, hv, ha, -⟩ := @itemFor_eq
    (h.withEvent event ((ev.setPrepFreeCb true).setRangParentCb (some h.self) true))
    (first :: rest) event xs none hl hv fun a ha => by cases ha
  cases xs with
  | nil => cases hv
  | cons x xs =>
    obtain ⟨first', rest', heq, hval, -⟩ := hv.cons
    cases heq
    have hadd := @insertItem_front { h.withEvent event
        ((ev.setPrepFreeCb true).setRangParentCb (some h.self) true) with
        list := { h.list with items } } event _ xs a timer now first x hl hlt hval hne
      ⟨ev₁, (cell_withEvent_ne he _ hne).trans hev₁⟩ (cell_withEvent_self he _) hstart
      (by
        have hdue := due_withEvent he
          ((ev.setPrepFreeCb true).setRangParentCb (some h.self) true) hne
        exact hdue.symm ▸ hle) ha
    rw [call, addTsafe, Heap.get_eq he, ok_bind, if_neg (by rw [hparent]; exact fun hne => hne rfl),
      setEvent_eq he, ok_bind, addEvent, hitem]
    exact congrArg (· >>= _) hadd

/-- Outside of its callbacks an event is never removed. -/
theorem remove_faults (hs : h.Scheduled vs) (hfit : DList.Fits h.list.items) (hmem : event ∈ vs)
    (he : h.events.cell event = some ev) (hcb : ev.callbackState = false) :
    call h (.remove event) = .error .nullDeref := by
  obtain ⟨ev', he', how⟩ := hs.owned event hmem
  cases he.symm.trans he'
  obtain ⟨list', hstep, -⟩ := @removeEvent_step
    (h.withEvent event (ev.setRangParentCb none false)) vs event
    (prepFree (h.withEvent event (ev.setRangParentCb none false)))
    hs.lists hs.nodup hfit hmem h.self
  have hfree := @freeTimerEvent_faults
    { h.withEvent event (ev.setRangParentCb none false) with list := list' } event
    (ev.setRangParentCb none false) (cell_withEvent_self he _) hcb
    how.2.1 rfl (h.withEvent event (ev.setRangParentCb none false))
  rw [call, removeTsafe, setEvent_eq he, ok_bind]
  exact congrArg (· >>= _) (hstep.trans hfree)

/-- From a new handler on, stopped or running, a run of such calls ends: every event was accepted,
and the handler has each event once that was added and not taken out or freed since, in the order
of the times it goes by. -/
theorem run_keeps_scheduled {items : Items Nat} {events : Heap TimerEvent} {self list : Nat}
    {flag : Bool} {calls : List Call}
    (hok : AllSteps call (fun h c => c.Admitted h ∧ c.Keeps h)
      { new self (DList.new items list flag) events with running } calls) :
    ∃ h vs, run call { new self (DList.new items list flag) events with running } calls =
        .ok (calls.map Call.answer, h) ∧ h.running = running ∧ h.Scheduled vs ∧
      vs.Perm ((calls.foldl tracked []).filter h.alive) := by
  obtain ⟨h, hr, hrun, vs, hs, hperm⟩ := @run_simulates_steps _ _ _ _ call
    (fun evs c => (c.answer, tracked evs c)) (Tracks running) _ (fun h evs c ht hok => by
      cases c with
      | add event now => exact add_tracks ht hok.1 hok.2
      | remove event => exact remove_tracks ht hok.1 hok.2
      | extract event => exact extract_tracks ht hok.1 hok.2
      | ring now now' frees rang => exact ring_tracks ht hok.1 hok.2) calls _ []
    ⟨rfl, [], ⟨⟨[], (DList.new_deque items list flag).holds, rfl⟩, List.nodup_nil,
      fun e he => absurd he List.not_mem_nil, List.Pairwise.nil⟩, List.Perm.refl []⟩ hok
  rw [trace_map_foldl] at hr hperm
  exact ⟨h, vs, hr, hrun, hs, hperm⟩

/-- Events that ring after ten seconds and after five. -/
def tenAndFive : Heap TimerEvent :=
  ⟨[some ⟨⟨true, ⟨10, 0⟩, ⟨0, 0⟩⟩, true, false, false, none, false, false⟩,
    some ⟨⟨true, ⟨5, 0⟩, ⟨0, 0⟩⟩, true, false, false, none, false, false⟩]⟩

/-- The ten seconds come after the five. -/
theorem run_keeps_scheduled_two : ∃ h vs,
    run call { new 1 (DList.new ⟨[]⟩ 2 false) tenAndFive with running := false }
        [.add 1 ⟨100, 0⟩, .add 0 ⟨100, 0⟩, .extract 1] =
      .ok ([.code .ok, .code .ok, .event (some 1)], h) ∧ h.running = false ∧ h.Scheduled vs ∧
    vs.Perm ([0].filter h.alive) := by
  refine @run_keeps_scheduled false ⟨[]⟩ tenAndFive 1 2 false
    [.add 1 ⟨100, 0⟩, .add 0 ⟨100, 0⟩, .extract 1] ?_
  refine AllSteps.cons ⟨⟨show 0 ≤ PTRDIFF_MAX by decide, _, rfl, rfl⟩, [], _,
    ⟨[], (DList.new_deque ⟨[]⟩ 2 false).holds, rfl⟩, rfl, fun first hfirst => by cases hfirst⟩
    (show call _ _ = .ok (.code .ok, ⟨1, false,
      ⟨⟨[some ⟨some 1, some 2, false, none, none⟩]⟩, 2, some 0, some 0, 1, false, []⟩,
      ⟨[some ⟨⟨true, ⟨10, 0⟩, ⟨0, 0⟩⟩, true, false, false, none, false, false⟩,
        some ⟨⟨true, ⟨5, 0⟩, ⟨0, 0⟩⟩, true, true, true, some 1, false, false⟩]⟩⟩) by rfl) ?_
  have hone : DList.Holds (⟨⟨[some ⟨some 1, some 2, false, none, none⟩]⟩, 2, some 0, some 0, 1, false,
      []⟩ : DList Nat) [0] := by
    refine ⟨⟨⟨⟨rfl, trivial⟩, rfl, trivial⟩, fun a ha => ?_⟩, rfl, rfl, rfl⟩
    cases List.mem_singleton.mp ha
    rfl
  refine AllSteps.cons ⟨⟨show 1 ≤ PTRDIFF_MAX by decide, _, rfl, rfl⟩, [1], _, ⟨[0], hone, rfl⟩, rfl,
    fun first hfirst => by cases hfirst; exact ⟨_, rfl, by decide⟩⟩
    (show call _ _ = .ok (.code .ok, ⟨1, false,
      ⟨⟨[some ⟨some 1, some 2, false, some 1, none⟩, some ⟨some 0, some 2, false, none, some 0⟩]⟩,
        2, some 0, some 1, 2, false, []⟩,
      ⟨[some ⟨⟨true, ⟨10, 0⟩, ⟨0, 0⟩⟩, true, true, true, some 1, false, false⟩,
        some ⟨⟨true, ⟨5, 0⟩, ⟨0, 0⟩⟩, true, true, true, some 1, false, false⟩]⟩⟩) by rfl) ?_
  have htwo : DList.Holds (⟨⟨[some ⟨some 1, some 2, false, some 1, none⟩,
      some ⟨some 0, some 2, false, none, some 0⟩]⟩, 2, some 0, some 1, 2, false, []⟩ : DList Nat)
      [0, 1] := by
    refine ⟨⟨⟨⟨rfl, rfl, trivial⟩, rfl, rfl, trivial⟩, fun a ha => ?_⟩, rfl, rfl, rfl⟩
    rcases List.mem_cons.mp ha with rfl | ha
    · rfl
    · cases List.mem_singleton.mp ha
      rfl
  exact ⟨⟨⟨show 2 ≤ PTRDIFF_MAX by decide, [1, 0], ⟨[0, 1], htwo, rfl⟩, by simp⟩, [1, 0],
    ⟨[0, 1], htwo, rfl⟩, by decide⟩, fun _ _ _ => trivial⟩

/-- An event that is due before the first one cannot be added, one that is in the handler cannot be
removed, and one that rings again before the second one cannot be put back. -/
theorem run_faults :
    run call (new 1 (DList.new ⟨[]⟩ 2 false) tenAndFive) [.add 0 ⟨100, 0⟩, .add 1 ⟨100, 0⟩] =
      .error .nullDeref ∧
    run call (new 1 (DList.new ⟨[]⟩ 2 false) tenAndFive) [.add 0 ⟨100, 0⟩, .remove 0] =
      .error .nullDeref ∧
    run call { new 1 (DList.new ⟨[]⟩ 2 false) tenAndFive with running := true }
      [.add 1 ⟨100, 0⟩, .add 0 ⟨100, 0⟩, .ring ⟨100, 0⟩ ⟨100, 0⟩ false false] =
      .error .nullDeref :=
  ⟨by rfl, by rfl, by rfl⟩

end AlibC.TimerEventHandler
