import AlibC.TimerEventHandlerRemoval
import AlibC.TimerStatus

/-! Which events of a running handler have their timers started. -/
namespace AlibC

open CLang Timespec

/-- The timer has an end time. -/
def Timer.Begun (t : Timer) : Prop := t.endTime ≠ ⟨0, 0⟩

instance (t : Timer) : Decidable t.Begun := inferInstanceAs (Decidable (¬_))

/-- The timer runs as before, or from now on. -/
def Timer.StartedAt (t t' : Timer) (now : Timespec) : Prop :=
  t.Begun ∧ t' = t ∨ t'.Begun ∧ t'.endTime.total = t.runTime.total + now.total

namespace TimerEventHandler

open Function Linked DListItem

variable {h h' : TimerEventHandler} {vs rest xs : List Nat} {event first a : Nat} {ev : TimerEvent}
  {now : Timespec} {timer : Timer}

/-- A running handler whose events all have started timers. -/
structure Started (h : TimerEventHandler) (vs : List Nat) : Prop where
  running : h.running = true
  lists : h.Lists vs
  begun : ∀ e ∈ vs, ∃ ev, h.events.cell e = some ev ∧ h.Owned ev ∧ ev.timer.Begun

/-- What adding an event is to do: it joins the events of the handler, and its timer runs. -/
def AddStarts (h : TimerEventHandler) (vs : List Nat) (event : Nat) (timer : Timer)
    (now : Timespec) : Prop :=
  ∃ h' vs' ev', h.addTsafe (some event) now = .ok (.ok, h') ∧ h'.Started vs' ∧
    vs'.Perm (event :: vs) ∧ h'.events.cell event = some ev' ∧ timer.StartedAt ev'.timer now

/-- The end time of the timer comes after that of the event, where the timer starts now if the
seconds of its end time are zero. -/
def DueAfter (h : TimerEventHandler) (timer : Timer) (now : Timespec) (first : Nat) : Prop :=
  if timer.endTime.sec = 0 then
    ∃ s, timer.runTime.add now = .ok s ∧ s ≠ ⟨0, 0⟩ ∧ ¬s.NotAfter (h.due first)
  else ¬timer.endTime.NotAfter (h.due first)

/-- The event is put behind the events that are due before it. -/
theorem insertItem_lists (hl : h.Lists (first :: rest)) (hlen : (first :: rest).length < 2 ^ 63)
    (hlive : ∀ e ∈ first :: rest, ∃ ev, h.events.cell e = some ev) (hnew : event ∉ first :: rest)
    (he : h.events.cell event = some ev)
    (ha : Chain (view h.list.items) none [a]) (hval : vals h.list.items a = some (some event))
    (hstart : h.started ev.timer now = .ok timer)
    (hafter : ¬(h.timeOf timer).NotAfter (h.due first)) :
    ∃ list' vs', h.insertItem event a now =
        .ok (.ok, { h.withEvent event { ev with timer } with list := list' }) ∧
      Lists { h.withEvent event { ev with timer } with list := list' } vs' ∧
      vs'.Perm (event :: first :: rest) := by
  obtain ⟨xs, hl, hv⟩ := hl
  have hlt : xs.length < 2 ^ 63 := hv.length_eq.symm ▸ hlen
  obtain ⟨x, xs, rfl⟩ : ∃ x xs', xs = x :: xs' := by
    cases xs with
    | nil => cases hv
    | cons x xs => exact ⟨x, xs, rfl⟩
  have hne : first ≠ event := fun heq => hnew (heq ▸ List.mem_cons_self)
  obtain ⟨pre, post, hsplit, hloop, hpre, hpost⟩ := @searchLoop_eq
    (h.withEvent event { ev with timer }) (h.timeOf timer) (first :: rest) xs x (fuel h.list.items)
    hl.chain.dll.fwd hv (fun e hmem => by
      have hee : e ≠ event := fun heq => hnew (heq ▸ hmem)
      rw [cell_withEvent_ne he _ hee]
      exact hlive e hmem) (length_lt_fuel hl.chain.dll.fwd)
  have hfirst : (h.withEvent event { ev with timer }).due first = h.due first :=
    due_withEvent he _ hne
  have hprene : pre ≠ [] := by
    rintro rfl
    rw [List.takeWhile_cons_of_pos (by rw [hfirst]; simpa using hafter)] at hpre
    cases hpre
  obtain ⟨us, ws, hjoin, hpre, hpost⟩ : ∃ us ws, us ++ ws = first :: rest ∧
      HasValues h.list.items pre us ∧ HasValues h.list.items post ws :=
    ⟨_, _, List.takeWhile_append_dropWhile, hpre, hpost⟩
  rw [hsplit] at hl
  obtain ⟨list', hplace, hl', hvals⟩ := @place_eq (h.withEvent event { ev with timer }) pre post a
    hl (.inl hprene) ha (by rw [← hsplit]; omega)
  refine ⟨list', us ++ [event] ++ ws, ?_, ⟨_, hl', ?_⟩, ?_⟩
  · rw [insertItem, DList.get_eq hl (hsplit ▸ hlt), ok_bind, ← hsplit, List.getElem?_cons_zero]
    dsimp only
    rw [startEvent_eq he hstart, ok_bind, get_withEvent he, ok_bind]
    exact (congrArg (· >>= _) hloop).trans hplace
  · have hsame : ∀ {ys : List Nat}, ∀ c ∈ ys, vals list'.items c = vals h.list.items c :=
      fun c _ => congrFun hvals c
    exact ((hpre.congr hsame).append (HasValues.single (hvals ▸ hval))).append (hpost.congr hsame)
  · rw [List.append_assoc, ← hjoin]
    exact List.perm_middle

/-- The event with its handler. -/
def adopted (h : TimerEventHandler) (ev : TimerEvent) : TimerEvent :=
  (ev.setPrepFreeCb true).setRangParentCb (some h.self) true

theorem addTsafe_eq (he : h.events.cell event = some ev) (hparent : ev.parent = none) :
    h.addTsafe (some event) now =
      (h.withEvent event (h.adopted ev)).addEvent event none now := by
  rw [addTsafe, Heap.get_eq he, ok_bind, if_neg (by rw [hparent]; exact fun hne => hne rfl),
    setEvent_eq he, ok_bind, adopted]

/-- Into an empty list the event is put as it is. -/
theorem addEvent_empty (hl : h.Lists []) :
    ∃ list', h.addEvent event none now = .ok (.ok, { h with list := list' }) ∧
      Lists { h with list := list' } [event] := by
  obtain ⟨xs, hl, hv⟩ := hl
  obtain ⟨a, items, hitem, hl, hv, ha, hval⟩ := @itemFor_eq h [] event xs none hl hv
    fun a ha => by cases ha
  obtain rfl : xs = [] := List.map_eq_nil_iff.mp hv
  obtain ⟨list', hr, hl', hvals⟩ := @place_eq { h with list := { h.list with items } } [] [] a hl
    (.inr rfl) ha (by decide)
  refine ⟨list', ?_, [a], hl', HasValues.single (hvals ▸ hval)⟩
  rw [addEvent, hitem]
  dsimp only
  rw [insertItem, DList.get_eq hl (by decide), ok_bind]
  exact hr

/-- Otherwise it is put behind the first one, its timer started. -/
theorem addEvent_behind (hl : h.Lists (first :: rest)) (hfit : DList.Fits h.list.items)
    (hlive : ∀ e ∈ first :: rest, ∃ ev, h.events.cell e = some ev) (hnew : event ∉ first :: rest)
    (he : h.events.cell event = some ev) (hstart : h.started ev.timer now = .ok timer)
    (hafter : ¬(h.timeOf timer).NotAfter (h.due first)) :
    ∃ list' vs', h.addEvent event none now =
        .ok (.ok, { h.withEvent event { ev with timer } with list := list' }) ∧
      Lists { h.withEvent event { ev with timer } with list := list' } vs' ∧
      vs'.Perm (event :: first :: rest) := by
  obtain ⟨xs, hl, hv⟩ := hl
  have hlen := hv.length_eq ▸ hl.length_lt hfit
  obtain ⟨a, items, hitem, hl, hv, ha, hval⟩ := @itemFor_eq h _ event xs none hl hv
    fun a ha => by cases ha
  rw [addEvent, hitem]
  exact @insertItem_lists { h with list := { h.list with items } } rest event first a ev now timer
    ⟨xs, hl, hv⟩ hlen hlive hnew he ha hval hstart hafter

/-- What was added behind a first event had its timer started, and is due after that event. -/
theorem addEvent_inv {code : AlibError} (hl : h.Lists (first :: rest)) (hfit : DList.Fits h.list.items)
    (hlive : ∃ ev, h.events.cell first = some ev) (hne : first ≠ event)
    (he : h.events.cell event = some ev) (hadd : h.addEvent event none now = .ok (code, h')) :
    ∃ timer, h.started ev.timer now = .ok timer ∧ ¬(h.timeOf timer).NotAfter (h.due first) := by
  obtain ⟨xs, hl, hv⟩ := hl
  have hlt := hl.length_lt hfit
  obtain ⟨a, items, hitem, hl, hv, ha, -⟩ := @itemFor_eq h _ event xs none hl hv
    fun a ha => by cases ha
  obtain ⟨x, xs, rfl⟩ : ∃ x xs', xs = x :: xs' := by
    cases xs with
    | nil => cases hv
    | cons x xs => exact ⟨x, xs, rfl⟩
  obtain ⟨first', rest', heq, hval, -⟩ := hv.cons
  cases heq
  rw [addEvent, hitem] at hadd
  dsimp only at hadd
  cases hstart : h.started ev.timer now with
  | error e =>
    rw [started] at hstart
    rw [insertItem, DList.get_eq hl hlt, ok_bind, List.getElem?_cons_zero] at hadd
    dsimp only at hadd
    rw [startEvent] at hadd
    dsimp only at hadd
    split at hstart
    · rw [if_pos ‹_›, Heap.get_eq he, ok_bind, hstart] at hadd
      cases hadd
    · cases hstart
  | ok timer =>
    refine ⟨timer, rfl, fun hle => ?_⟩
    have hfront := @insertItem_front { h with list := { h.list with items } } event ev xs a timer now
      first x hl hlt hval hne hlive he hstart hle ha
    rw [hfront] at hadd
    cases hadd

/-- Whether the timer of an event starts and its event comes after the first one. -/
theorem dueAfter_iff : h.DueAfter timer now first ↔ ∃ timer', timer.start now = .ok timer' ∧
    timer'.Begun ∧ ¬timer'.endTime.NotAfter (h.due first) := by
  rw [DueAfter, Timer.start]
  split
  case isTrue =>
    constructor
    · rintro ⟨s, hadd, hne, hafter⟩
      refine ⟨{ timer with endTime := s, rang := false }, ?_, hne, hafter⟩
      rw [Timer.beginAt, hadd]
      rfl
    · rintro ⟨timer', hstart, hbegun, hafter⟩
      obtain ⟨s, hadd, hstart⟩ := bind_eq_ok.mp hstart
      cases hstart
      exact ⟨s, hadd, hbegun, hafter⟩
  case isFalse hsec =>
    constructor
    · exact fun hafter => ⟨timer, rfl, fun hzero => hsec (by rw [hzero]), hafter⟩
    · rintro ⟨timer', hstart, -, hafter⟩
      cases hstart
      exact hafter

/-- A timer that is started anew runs from now on. -/
theorem startedAt_start {timer' : Timer} (hstart : timer.start now = .ok timer') (hbegun : timer'.Begun) :
    timer.StartedAt timer' now := by
  rw [Timer.start] at hstart
  split at hstart
  · obtain ⟨s, hadd, hstart⟩ := bind_eq_ok.mp hstart
    cases hstart
    exact .inr ⟨hbegun, Timespec.add_total hadd⟩
  · cases hstart
    exact .inl ⟨hbegun, rfl⟩

/-- How an event joins a running handler: its timer as it was, or started, and the others left
alone. -/
theorem Started.joins (hs : h.Started vs) (he : h.events.cell event = some ev)
    (hparent : ev.parent = none) {list' : DList Nat} {vs' : List Nat}
    (hadd : (h.withEvent event (h.adopted ev)).addEvent event none now =
      .ok (.ok, { h.withEvent event { h.adopted ev with timer } with list := list' }))
    (hl : Lists { h.withEvent event { h.adopted ev with timer } with list := list' } vs')
    (hperm : vs'.Perm (event :: vs)) (hstarted : ev.timer.StartedAt timer now) :
    h.AddStarts vs event ev.timer now := by
  refine ⟨_, vs', { h.adopted ev with timer }, (addTsafe_eq he hparent).trans hadd,
    ⟨hs.running, hl, fun c hc => ?_⟩, hperm, cell_withEvent_self he _, hstarted⟩
  by_cases hce : c = event
  · subst hce
    refine ⟨_, cell_withEvent_self he _, ⟨rfl, rfl, rfl⟩, ?_⟩
    rcases hstarted with ⟨hbegun, heq⟩ | ⟨hbegun, -⟩
    · rw [heq]
      exact hbegun
    · exact hbegun
  · obtain ⟨evc, hcell, how, hbegun⟩ := hs.begun c
      ((List.mem_cons.mp (hperm.mem_iff.mp hc)).resolve_left hce)
    exact ⟨evc, (cell_withEvent_ne he _ hce).trans hcell, how, hbegun⟩

/-- The added event is what adding made of it. -/
theorem AddStarts.begun (hadd : h.AddStarts vs event timer now) {list' : DList Nat}
    {evs : TimerEventHandler} (he : evs.events.cell event = some ev)
    (hr : h.addTsafe (some event) now = .ok (.ok, { evs with list := list' })) :
    ev.timer.Begun := by
  obtain ⟨h', vs', ev', hr', hs', hperm, hcell, hstarted⟩ := hadd
  cases hr.symm.trans hr'
  cases he.symm.trans hcell
  rcases hstarted with ⟨hbegun, heq⟩ | ⟨hbegun, -⟩
  · rw [heq]
    exact hbegun
  · exact hbegun

/-- An event whose timer was not begun is started only when there is an event to come after. -/
def Startable (h : TimerEventHandler) (vs : List Nat) (timer : Timer) (now : Timespec) : Prop :=
  match vs with
  | [] => timer.Begun
  | first :: _ => h.DueAfter timer now first

/-- An added event runs exactly when its timer was begun before, or there is an event already and it
comes after that one. -/
theorem add_starts_iff (h : TimerEventHandler) (event : Nat) (now : Timespec) (hs : h.Started vs)
    (hfit : DList.Fits h.list.items) (he : h.events.cell event = some ev)
    (hparent : ev.parent = none) :
    h.AddStarts vs event ev.timer now ↔ h.Startable vs ev.timer now := by
  have hnew : event ∉ vs := by
    intro hmem
    obtain ⟨ev', he', ⟨hp, -, -⟩, -⟩ := hs.begun event hmem
    cases he.symm.trans he'
    rw [hparent] at hp
    cases hp
  have hlive : ∀ e ∈ vs, ∃ ev', (h.withEvent event (h.adopted ev)).events.cell e = some ev' := by
    intro e hmem
    obtain ⟨ev', he', -⟩ := hs.begun e hmem
    exact ⟨ev', (cell_withEvent_ne he _ fun heq => hnew (heq ▸ hmem)).trans he'⟩
  have hself := cell_withEvent_self he (h.adopted ev)
  have hl : (h.withEvent event (h.adopted ev)).Lists vs := hs.lists
  have hfit : DList.Fits (h.withEvent event (h.adopted ev)).list.items := hfit
  cases vs with
  | nil =>
    obtain ⟨list', hadd, hl'⟩ := @addEvent_empty _ event now hl
    exact ⟨fun hstarts => @AddStarts.begun h [] event (h.adopted ev) now ev.timer hstarts list' _ hself
        ((addTsafe_eq he hparent).trans hadd),
      fun hbegun => @Started.joins h [] event ev now ev.timer hs he hparent list' [event] hadd hl'
        (List.Perm.refl _) (.inl ⟨hbegun, rfl⟩)⟩
  | cons first rest =>
    have hne : first ≠ event := fun heq => hnew (heq ▸ List.mem_cons_self)
    have hdue : (h.withEvent event (h.adopted ev)).due first = h.due first := due_withEvent he _ hne
    have hstarted : (h.withEvent event (h.adopted ev)).started (h.adopted ev).timer now =
        ev.timer.start now := if_pos hs.running
    have htime : ∀ t : Timer, (h.withEvent event (h.adopted ev)).timeOf t = t.endTime :=
      fun t => if_pos hs.running
    rw [Startable, dueAfter_iff]
    constructor
    · intro hstarts
      obtain ⟨h', -, -, hr, -⟩ := id hstarts
      rw [addTsafe_eq he hparent] at hr
      obtain ⟨timer', hstart, hafter⟩ := addEvent_inv hl hfit (hlive first List.mem_cons_self) hne
        hself hr
      obtain ⟨list', vs', hadd, -, -⟩ := addEvent_behind hl hfit hlive hnew hself hstart hafter
      have hbegun := hstarts.begun (cell_withEvent_self hself _)
        ((addTsafe_eq he hparent).trans hadd)
      rw [hstarted] at hstart
      rw [htime, hdue] at hafter
      exact ⟨timer', hstart, hbegun, hafter⟩
    · rintro ⟨timer', hstart, hbegun, hafter⟩
      rw [← hstarted] at hstart
      rw [← hdue, ← htime timer'] at hafter
      obtain ⟨list', vs', hadd, hl', hperm⟩ :=
        addEvent_behind hl hfit hlive hnew hself hstart hafter
      rw [withEvent_withEvent] at hadd hl'
      rw [hstarted] at hstart
      exact hs.joins he hparent hadd hl' hperm (startedAt_start hstart hbegun)

/-- A running handler with one event that is due in five seconds, and another of ten seconds that is
its own. -/
def dueInFive : TimerEventHandler :=
  ⟨3, true, ⟨⟨[some ⟨some 0, some 2, false, none, none⟩]⟩, 2, some 0, some 0, 1, false, []⟩,
    ⟨[some ⟨⟨false, ⟨5, 0⟩, ⟨105, 0⟩⟩, true, true, true, some 3, false, false⟩,
      some ⟨⟨false, ⟨10, 0⟩, ⟨0, 0⟩⟩, true, false, false, none, false, false⟩]⟩⟩

theorem add_starts_behind : dueInFive.AddStarts [0] 1 ⟨false, ⟨10, 0⟩, ⟨0, 0⟩⟩ ⟨100, 0⟩ := by
  have hone : dueInFive.list.Holds [0] := by
    refine ⟨⟨⟨⟨rfl, trivial⟩, rfl, trivial⟩, fun a ha => ?_⟩, rfl, rfl, rfl⟩
    cases List.mem_singleton.mp ha
    rfl
  have hs : dueInFive.Started [0] := by
    refine ⟨rfl, ⟨[0], hone, rfl⟩, fun e he => ?_⟩
    cases List.mem_singleton.mp he
    exact ⟨_, rfl, ⟨rfl, rfl, rfl⟩, by decide⟩
  exact (add_starts_iff dueInFive 1 ⟨100, 0⟩ hs (show 1 ≤ PTRDIFF_MAX by decide) rfl rfl).mpr
    ⟨⟨110, 0⟩, rfl, by decide, by decide⟩

/-- A running handler without events, and an event of ten seconds. -/
def idle : TimerEventHandler :=
  { new 3 (DList.new ⟨[]⟩ 2 false)
      ⟨[some ⟨⟨false, ⟨10, 0⟩, ⟨0, 0⟩⟩, true, false, false, none, false, false⟩]⟩ with
    running := true }

/-- The first event is added without being started, and rings in the same instant. -/
theorem add_leaves_unstarted : idle.Started [] ∧
    ¬idle.AddStarts [] 0 ⟨false, ⟨10, 0⟩, ⟨0, 0⟩⟩ ⟨100, 0⟩ ∧
    ∃ h', idle.addTsafe (some 0) ⟨100, 0⟩ = .ok (.ok, h') ∧ h'.due 0 = ⟨0, 0⟩ ∧
      ∃ h'', h'.check 0 ⟨100, 0⟩ ⟨100, 0⟩ false false = .ok (⟨10, 0⟩, true, h'') := by
  refine ⟨⟨rfl, ⟨[], (DList.new_deque ⟨[]⟩ 2 false).holds, rfl⟩, fun e he => by cases he⟩,
    fun hstarts => ?_, _, rfl, rfl, _, rfl⟩
  exact absurd (@hstarts.begun _ _ _ _ _ _ _ _ rfl rfl) (by decide)

end TimerEventHandler

end AlibC
