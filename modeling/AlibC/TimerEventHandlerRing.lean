import AlibC.TimerEventHandlerRemoval

/-! The rounds of `timer_loop`. -/
namespace AlibC.TimerEventHandler

open CLang Function Linked DListItem

variable {h : TimerEventHandler} {vs rest : List Nat} {event first : Nat} {ev : TimerEvent}
  {now now' rTime oTime : Timespec} {t timer : Timer} {frees rang : Bool}

/-- While there is time left nothing rings. -/
theorem check_waits (he : h.events.cell event = some ev)
    (hstatus : ev.timer.getTimeStatus now = .ok (.ok, rTime, oTime, t)) (hleft : rTime ≠ ⟨0, 0⟩) :
    h.check event now now' frees rang =
      .ok (t.endTime, false, h.withEvent event { ev with timer := t }) := by
  have hne : rTime.nsec ≠ 0 ∨ rTime.sec ≠ 0 := by
    by_contra hzero
    rw [not_or, not_not, not_not] at hzero
    exact hleft (by cases rTime; simp_all)
  rw [check, Heap.get_eq he, ok_bind, hstatus, ok_bind]
  dsimp only
  rw [setTimer, setEvent_eq he, ok_bind, if_neg (fun hne => hne rfl), if_pos hne]
  rfl

/-- The event is told that it rang, and its callback may free it. -/
theorem timerRang_eq (he : h.events.cell event = some ev) (hrang : ev.rangCb = true) {p : Nat}
    (hparent : ev.parent = some p) (hcb : ev.callbackState = true) :
    timerRang frees h event =
      .ok (h.withEvent event { ev with deleteState := ev.deleteState || frees }) := by
  have hderef : deref ev.parent = .ok p := by rw [hparent, deref_some]
  rw [timerRang, Heap.get_eq he, ok_bind, hderef, ok_bind, rangCallback, Heap.get_eq he, ok_bind,
    if_pos hrang, callIf]
  cases frees with
  | false =>
    rw [Bool.or_false, withEvent, Heap.put_cell he]
    rfl
  | true =>
    rw [Bool.or_true, if_pos rfl]
    exact freeTimerEvent_marks he hcb

/-- The event after its timer began anew and its callback returned. -/
def afterRing (ev : TimerEvent) (timer : Timer) (frees : Bool) : TimerEvent :=
  { ev with timer, callbackState := false, deleteState := ev.deleteState || frees }

/-- When the time is over the timer begins anew, as long before as it was late. -/
theorem check_rings (he : h.events.cell event = some ev) (how : h.Owned ev)
    (hstatus : ev.timer.getTimeStatus now = .ok (.ok, ⟨0, 0⟩, oTime, t))
    (hbegin : t.beginBefore oTime now' = .ok timer) (hrang : ev.rangCb = true) :
    h.check event now now' frees rang =
      if ev.deleteState || frees then do
        let h' ← freeTimerEvent (h.withEvent event (afterRing ev timer frees)).prepFree
          (h.withEvent event (afterRing ev timer frees)) event
        return (⟨0, 0⟩, true, h')
      else .ok (timer.endTime, true, h.withEvent event (afterRing ev timer frees)) := by
  obtain ⟨hparent, -, hcb⟩ := how
  rw [check, Heap.get_eq he, ok_bind, hstatus, ok_bind]
  dsimp only
  rw [setTimer, setEvent_eq he, ok_bind, if_neg (fun hne => hne rfl),
    if_neg (by rintro (hne | hne) <;> exact hne rfl), hbegin, ok_bind, setTimer,
    setEvent_withEvent he, ok_bind, if_pos (.inl hcb), setEvent_withEvent he, ok_bind, if_pos hcb]
  have hring := @timerRang_eq (h.withEvent event { ev with timer, callbackState := true }) event
    { ev with timer, callbackState := true } frees (cell_withEvent_self he _) hrang
    h.self hparent rfl
  rw [hring, ok_bind, withEvent_withEvent, setEvent_withEvent he, ok_bind, get_withEvent he, ok_bind]
  rfl

/-- What a round does: the first event may move, and no event is lost that was not freed. -/
structure Turned (h h' : TimerEventHandler) (vs vs' : List Nat) : Prop where
  self_eq : h'.self = h.self
  running_eq : h'.running = h.running
  scheduled : h'.Scheduled vs'
  alive_of : ∀ c, h'.alive c = true → h.alive c = true
  perm : vs'.Perm (vs.filter h'.alive)

theorem Scheduled.alive_of_mem (hs : h.Scheduled vs) : ∀ e ∈ vs, h.alive e = true := by
  intro e he
  obtain ⟨ev, hev, -⟩ := hs.owned e he
  rw [alive, hev]
  rfl

theorem Scheduled.turned (hs : h.Scheduled vs) {h' : TimerEventHandler} {vs' : List Nat}
    (hs' : h'.Scheduled vs') (hself : h'.self = h.self) (hrun : h'.running = h.running)
    (halive : ∀ c, h'.alive c = h.alive c) (hperm : vs'.Perm vs) : Turned h h' vs vs' := by
  refine ⟨hself, hrun, hs', fun c hc => (halive c).symm.trans hc, ?_⟩
  rw [List.filter_eq_self.mpr fun e he => (halive e).trans (hs.alive_of_mem e he)]
  exact hperm

/-- The first event may get another time that does not come after the second one. -/
theorem Scheduled.withFirst (hs : h.Scheduled (first :: rest)) (he : h.events.cell first = some ev)
    {ev' : TimerEvent} (how : h.Owned ev')
    (hle : ∀ second ∈ rest.head?, (h.timeOf ev'.timer).NotAfter (h.due second)) :
    Turned h (h.withEvent first ev') (first :: rest) (first :: rest) := by
  have hnd := List.nodup_cons.mp hs.nodup
  have hrest : ∀ c ∈ rest, (h.withEvent first ev').due c = h.due c :=
    fun c hc => due_withEvent he ev' fun heq => hnd.1 (heq ▸ hc)
  have hfirst : (h.withEvent first ev').due first = h.timeOf ev'.timer := by
    rw [due, cell_withEvent_self he]
    rfl
  refine hs.turned ⟨hs.lists, hs.nodup, fun e hmem =>
    owned_withEvent hs.owned he how (.inr hmem), ?_⟩ rfl rfl (alive_withEvent he ev')
    (List.Perm.refl _)
  refine List.pairwise_cons.mpr ⟨fun c hc => ?_,
    hs.sorted_congr (List.sublist_cons_self first rest) hrest⟩
  rw [NotAfter, hfirst, hrest c hc]
  cases rest with
  | nil => cases hc
  | cons second rest =>
    have hsecond := hle second rfl
    rcases List.mem_cons.mp hc with rfl | hc
    · exact hsecond
    · exact hsecond.trans
        ((List.pairwise_cons.mp (List.pairwise_cons.mp hs.sorted).2).1 c hc)

/-- The first item is pulled out and put back where its new time belongs. -/
theorem reinserts {x : Nat} {xs : List Nat} (hs : h.Scheduled (first :: rest))
    (hl : h.list.Holds (x :: xs)) (hv : HasValues h.list.items (x :: xs) (first :: rest))
    (hfit : DList.Fits h.list.items) (hrun : h.running = true)
    (he : h.events.cell first = some ev) {ev' : TimerEvent} (how : h.Owned ev')
    (hsec : ev'.timer.endTime.sec ≠ 0)
    (hafter : ∀ second ∈ rest.head?, ¬ev'.timer.endTime.NotAfter (h.due second)) :
    ∃ list₁ h' vs', h.list.pullOut 0 = .ok (some x, list₁) ∧
      getValue list₁.items (some x) = .ok first ∧
      addEvent { h.withEvent first ev' with list := list₁ } first (some x) now' = .ok (.ok, h') ∧
      Turned h h' (first :: rest) vs' := by
  have hlt := hl.length_lt hfit
  have hlen := hv.length_eq
  obtain ⟨x', list₁, hget, hpull, hl₁, -, hx⟩ := DList.pullOut_eq hl hlt (Nat.zero_lt_succ _)
  cases hget
  have hvals : vals list₁.items = vals h.list.items := DList.pullOut_vals rfl _ hpull
  obtain ⟨first', rest', heq, hval, hrest⟩ := hv.cons
  cases heq
  have hval₁ : vals list₁.items x = some (some first) := by rw [hvals, hval]
  have herase : (first :: rest).erase first = rest := List.erase_cons_head ..
  have hs₁ : Scheduled { h.withEvent first ev' with list := list₁ } ((first :: rest).erase first) :=
    hs.taken ⟨xs, hl₁, herase.symm ▸ hrest.congr fun c _ => congrFun hvals c⟩ rfl rfl
      fun c hc => cell_withEvent_ne he ev' hc
  rw [herase] at hs₁
  obtain ⟨h', hadd, hself, hrun', halive, hs'⟩ := @addEvent_scheduled
    { h.withEvent first ev' with list := list₁ } rest first ev' (some x) now' hs₁
    (by rw [hlen, List.length_cons] at hlt; exact Nat.lt_of_succ_lt hlt) (List.nodup_cons.mp hs.nodup).1
    (cell_withEvent_self he _) how
    (fun a ha => by cases ha; exact ⟨hx, hval₁⟩) (fun second hmem => by
      refine ⟨ev'.timer, ?_, ?_⟩
      · exact (if_pos hrun).trans (if_neg hsec)
      · have hne : second ≠ first := by
          rintro rfl
          exact (List.nodup_cons.mp hs.nodup).1 (List.mem_of_head? hmem)
        have hdue : Timespec.NotAfter (if h.running then ev'.timer.endTime else ev'.timer.runTime)
            ((h.withEvent first ev').due second) ↔ ev'.timer.endTime.NotAfter (h.due second) := by
          rw [if_pos hrun, due_withEvent he ev' hne]
        exact fun hc => hafter second hmem (hdue.mp hc))
  exact ⟨list₁, h', _, hpull, getValue_eq hval₁, hadd, hs.turned hs' hself hrun'
    (fun c => (halive c).trans (alive_withEvent he ev' c)) (List.perm_orderedInsert _ first rest)⟩

/-- When the first event rings, its callback is set, and its new time comes after that of the second
one. It must not come after it if its seconds are zero, for then the event stays where it is. There
is nothing to put back if the event was freed. -/
def RingKeeps (h : TimerEventHandler) (ev : TimerEvent) (next : Option Nat)
    (now now' : Timespec) (frees : Bool) : Prop :=
  ∃ rTime oTime t, ev.timer.getTimeStatus now = .ok (.ok, rTime, oTime, t) ∧
    (rTime = ⟨0, 0⟩ → ∃ timer, t.beginBefore oTime now' = .ok timer ∧ ev.rangCb = true ∧
      ((ev.deleteState || frees) = false → ∀ second ∈ next,
        (timer.endTime.NotAfter (h.due second) ↔ timer.endTime.sec = 0)))

/-- An event that its callback freed is gone, and the others are as they were. -/
theorem turned_freed (hs : h.Scheduled (first :: rest)) {ev' : TimerEvent} {list' : DList Nat}
    (he : h.events.cell first = some ev)
    (hl : Lists { h with list := list' } ((first :: rest).erase first)) :
    Turned h { h with list := list', events := (h.withEvent first ev').events.put first none }
      (first :: rest) rest := by
  have hnd := List.nodup_cons.mp hs.nodup
  have hcell : ((h.withEvent first ev').events.put first none).cell =
      update h.events.cell first none := by
    rw [withEvent, Heap.put_put, Heap.cell_put he]
  have hs' : Scheduled { h with
      list := list', events := (h.withEvent first ev').events.put first none }
      ((first :: rest).erase first) :=
    hs.taken hl rfl rfl fun c hc => by rw [hcell, update_of_ne hc]
  rw [List.erase_cons_head] at hs'
  have halive : ∀ c, alive { h with
      list := list', events := (h.withEvent first ev').events.put first none } c =
      (h.alive c && decide (c ≠ first)) := by
    intro c
    rw [alive, hcell]
    by_cases hc : c = first
    · rw [hc, update_self, decide_eq_false (fun hne => hne rfl), Bool.and_false]
      rfl
    · rw [update_of_ne hc, decide_eq_true hc, Bool.and_true, alive]
  refine ⟨rfl, rfl, hs', fun c hc => ?_, List.Perm.of_eq ?_⟩
  · rw [halive] at hc
    exact (Bool.and_eq_true _ _ ▸ hc).1
  · rw [List.filter_cons_of_neg (by rw [halive]; simp), List.filter_eq_self.mpr fun c hc => ?_]
    rw [halive, hs.alive_of_mem c (List.mem_cons_of_mem first hc)]
    exact decide_eq_true fun heq => hnd.1 (heq ▸ hc)

/-- Where the event has no time any more or did not ring, it stays where it is. -/
theorem timerLoop_stays {x : Nat} {xs : List Nat} (hl : h.list.Holds (x :: xs))
    (hfit : DList.Fits h.list.items) (hval : vals h.list.items x = some (some first))
    {eTime : Timespec} {rang' : Bool} {h' : TimerEventHandler}
    (hcheck : h.check first now now' frees rang = .ok (eTime, rang', h'))
    (hstay : eTime.sec = 0 ∨ rang' = false) : h.timerLoop now now' frees rang = .ok h' := by
  rw [timerLoop, if_neg (by rw [hl.count_eq]; exact Nat.succ_ne_zero _),
    DList.get_eq hl (hl.length_lt hfit), ok_bind, List.getElem?_cons_zero]
  dsimp only
  rw [getValue_eq hval, ok_bind, hcheck, ok_bind]
  dsimp only
  by_cases hsec : eTime.sec = 0
  · rw [if_pos hsec, pure_ok]
  · have hrang : rang' = false := hstay.resolve_left hsec
    rw [if_neg hsec, hrang, if_neg Bool.false_ne_true, pure_ok]

/-- Where it rang and has another time, it is pulled out and put back. -/
theorem timerLoop_moves {x : Nat} {xs : List Nat} (hl : h.list.Holds (x :: xs))
    (hfit : DList.Fits h.list.items) (hval : vals h.list.items x = some (some first))
    {eTime : Timespec} {h₁ h' : TimerEventHandler} {list₁ : DList Nat} (hlist : h₁.list = h.list)
    (hcheck : h.check first now now' frees rang = .ok (eTime, true, h₁)) (hsec : eTime.sec ≠ 0)
    (hpull : h.list.pullOut 0 = .ok (some x, list₁))
    (hvalue : getValue list₁.items (some x) = .ok first)
    (hadd : addEvent { h₁ with list := list₁ } first (some x) now' = .ok (.ok, h')) :
    h.timerLoop now now' frees rang = .ok h' := by
  have hindex : DListItem.index h.list.items (some x) = .ok 0 :=
    @index_eq Nat h.list.items x [] xs hl.chain.dll
  have hpull' : h.list.pullOut (toSize 0) = .ok (some x, list₁) := hpull
  rw [timerLoop, if_neg (by rw [hl.count_eq]; exact Nat.succ_ne_zero _),
    DList.get_eq hl (hl.length_lt hfit), ok_bind, List.getElem?_cons_zero]
  dsimp only
  rw [getValue_eq hval, ok_bind, hcheck, ok_bind]
  dsimp only
  rw [if_neg hsec, if_pos rfl, hlist, hindex, ok_bind, hpull', ok_bind]
  dsimp only
  rw [hvalue, ok_bind, hadd, ok_bind]
  exact if_pos rfl

/-- A round in which the first event does not ring. -/
theorem wait_turns {x : Nat} {xs : List Nat} (hs : h.Scheduled (first :: rest))
    (hl : h.list.Holds (x :: xs)) (hfit : DList.Fits h.list.items)
    (hval : vals h.list.items x = some (some first)) (hrun : h.running = true)
    (he : h.events.cell first = some ev) (how : h.Owned ev)
    (hstatus : ev.timer.getTimeStatus now = .ok (.ok, rTime, oTime, t)) (hleft : rTime ≠ ⟨0, 0⟩) :
    ∃ h' vs', h.timerLoop now now' frees rang = .ok h' ∧ Turned h h' (first :: rest) vs' := by
  have hend := (Timer.getTimeStatus_ok hstatus).2
  refine ⟨h.withEvent first { ev with timer := t }, first :: rest,
    timerLoop_stays hl hfit hval (check_waits he hstatus hleft) (.inr rfl), ?_⟩
  refine hs.withFirst he how fun second hsecond => ?_
  have hle := (List.pairwise_cons.mp hs.sorted).1 second (List.mem_of_head? hsecond)
  rw [NotAfter, due_eq he, timeOf, if_pos hrun, ← hend] at hle
  rw [timeOf, if_pos hrun]
  exact hle

/-- A round in which the first event rings: it is freed, stays where it is or is put back. -/
theorem ring_turns {x : Nat} {xs : List Nat} (hs : h.Scheduled (first :: rest))
    (hl : h.list.Holds (x :: xs)) (hv : HasValues h.list.items (x :: xs) (first :: rest))
    (hfit : DList.Fits h.list.items) (hval : vals h.list.items x = some (some first))
    (hrun : h.running = true) (he : h.events.cell first = some ev) (how : h.Owned ev)
    (hstatus : ev.timer.getTimeStatus now = .ok (.ok, ⟨0, 0⟩, oTime, t))
    (hbegin : t.beginBefore oTime now' = .ok timer) (hrang : ev.rangCb = true)
    (hplace : (ev.deleteState || frees) = false → ∀ second ∈ rest.head?,
      (timer.endTime.NotAfter (h.due second) ↔ timer.endTime.sec = 0)) :
    ∃ h' vs', h.timerLoop now now' frees rang = .ok h' ∧ Turned h h' (first :: rest) vs' := by
  have hcheck := @check_rings h first ev now now' oTime t timer frees rang he how hstatus hbegin hrang
  cases hfree : ev.deleteState || frees with
  | true =>
    obtain ⟨list', hfreed, hl'⟩ := @freeTimerEvent_frees
      (h.withEvent first (afterRing ev timer frees)) (first :: rest) first _ hs.lists hs.nodup
      hfit List.mem_cons_self (cell_withEvent_self he _) rfl how.2.1 h.self how.1
      (h.withEvent first (afterRing ev timer frees))
    rw [if_pos hfree, hfreed, ok_bind] at hcheck
    exact ⟨_, rest, timerLoop_stays hl hfit hval hcheck (.inl rfl), turned_freed hs he hl'⟩
  | false =>
    rw [if_neg (by rw [hfree]; exact Bool.false_ne_true)] at hcheck
    by_cases hsec : timer.endTime.sec = 0
    · refine ⟨_, _, timerLoop_stays hl hfit hval hcheck (.inl hsec),
        hs.withFirst he how fun second hsecond => ?_⟩
      rw [timeOf, if_pos hrun]
      exact (hplace hfree second hsecond).mpr hsec
    · obtain ⟨list₁, h', vs', hpull, hvalue, hadd, hturn⟩ := @reinserts h rest first ev now'
        x xs hs hl hv hfit hrun he (afterRing ev timer frees) how hsec
        (fun second hsecond hle => hsec ((hplace hfree second hsecond).mp hle))
      have hlist : (h.withEvent first (afterRing ev timer frees)).list = h.list := rfl
      exact ⟨h', vs', timerLoop_moves hl hfit hval hlist hcheck hsec hpull hvalue hadd, hturn⟩

/-- A round of the loop keeps the events in order. -/
theorem timerLoop_turns (hs : h.Scheduled vs) (hrun : h.running = true)
    (hfit : DList.Fits h.list.items)
    (hkeeps : ∀ first rest ev, vs = first :: rest → h.events.cell first = some ev →
      h.RingKeeps ev rest.head? now now' frees) :
    ∃ h' vs', h.timerLoop now now' frees rang = .ok h' ∧ Turned h h' vs vs' := by
  obtain ⟨xs, hl, hv⟩ := hs.lists
  cases vs with
  | nil =>
    obtain rfl : xs = [] := List.map_eq_nil_iff.mp hv
    exact ⟨h, [], if_pos hl.count_eq, hs.turned hs rfl rfl (fun _ => rfl) (List.Perm.refl _)⟩
  | cons first rest =>
    cases xs with
    | nil => cases hv
    | cons x xs =>
      obtain ⟨ev, he, how⟩ := hs.owned first List.mem_cons_self
      obtain ⟨rTime, oTime, t, hstatus, hring⟩ := hkeeps first rest ev rfl he
      obtain ⟨first', rest', heq, hval, -⟩ := hv.cons
      cases heq
      by_cases hleft : rTime = ⟨0, 0⟩
      · obtain ⟨timer, hbegin, hrang, hplace⟩ := hring hleft
        rw [hleft] at hstatus
        exact ring_turns hs hl hv hfit hval hrun he how hstatus hbegin hrang hplace
      · exact wait_turns hs hl hfit hval hrun he how hstatus hleft

end AlibC.TimerEventHandler
