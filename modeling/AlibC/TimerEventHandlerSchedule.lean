import AlibC.DListRuns
import AlibC.TimerEventHandler
import Mathlib.Data.List.Sort

/-! The events of a handler in the order of their times, and what putting one in and taking one out
makes of them. -/
namespace AlibC.TimerEventHandler

open CLang Function Linked DListItem

variable {h : TimerEventHandler} {vs ws us : List Nat} {e event : Nat} {ev ev' : TimerEvent}

/-- The handler with another event at an address. -/
def withEvent (h : TimerEventHandler) (e : Nat) (ev : TimerEvent) : TimerEventHandler :=
  { h with events := h.events.put e (some ev) }

section Events

theorem withEvent_withEvent : (h.withEvent e ev).withEvent e ev' = h.withEvent e ev' := by
  rw [withEvent, withEvent, Heap.put_put, withEvent]

theorem cell_withEvent (he : h.events.cell e = some ev) (ev' : TimerEvent) :
    (h.withEvent e ev').events.cell = update h.events.cell e (some ev') :=
  Heap.cell_put he _

theorem cell_withEvent_self (he : h.events.cell e = some ev) (ev' : TimerEvent) :
    (h.withEvent e ev').events.cell e = some ev' := by
  rw [cell_withEvent he, update_self]

theorem cell_withEvent_ne (he : h.events.cell e = some ev) (ev' : TimerEvent) {c : Nat} (hc : c ≠ e) :
    (h.withEvent e ev').events.cell c = h.events.cell c := by
  rw [cell_withEvent he, update_of_ne hc]

theorem setEvent_eq (he : h.events.cell e = some ev) (f : TimerEvent → TimerEvent) :
    h.setEvent e f = .ok (h.withEvent e (f ev)) := by
  rw [setEvent, Heap.modify_eq he]
  rfl

theorem get_withEvent (he : h.events.cell e = some ev) (ev' : TimerEvent) :
    (h.withEvent e ev').events.get (some e) = .ok ev' :=
  Heap.get_eq (cell_withEvent_self he ev')

theorem setEvent_withEvent (he : h.events.cell e = some ev) (ev' : TimerEvent)
    (f : TimerEvent → TimerEvent) :
    (h.withEvent e ev').setEvent e f = .ok (h.withEvent e (f ev')) := by
  rw [setEvent_eq (cell_withEvent_self he ev'), withEvent_withEvent]

end Events

/-- The time at which an event is due. -/
def due (h : TimerEventHandler) (e : Nat) : Timespec :=
  match h.events.cell e with
  | none => ⟨0, 0⟩
  | some ev => h.timeOf ev.timer

/-- One event is not due after the other. -/
def NotAfter (h : TimerEventHandler) (a b : Nat) : Prop := (h.due a).NotAfter (h.due b)

instance (h : TimerEventHandler) : DecidableRel h.NotAfter := fun a b =>
  inferInstanceAs (Decidable ((h.due a).NotAfter (h.due b)))

instance (h : TimerEventHandler) : Std.Total h.NotAfter :=
  ⟨fun a b => Timespec.notAfter_total (h.due a) (h.due b)⟩

instance (h : TimerEventHandler) : IsTrans Nat h.NotAfter := ⟨fun _ _ _ => Timespec.NotAfter.trans⟩

/-- Whether the event was not freed. -/
def alive (h : TimerEventHandler) (e : Nat) : Bool := (h.events.cell e).isSome

/-- The items of the list have the events `vs`. -/
def Lists (h : TimerEventHandler) (vs : List Nat) : Prop :=
  ∃ xs, h.list.Holds xs ∧ HasValues h.list.items xs vs

theorem Lists.unique (hvs : h.Lists vs) (hws : h.Lists ws) : vs = ws := by
  obtain ⟨xs, hxs, hvs⟩ := hvs
  obtain ⟨ys, hys, hws⟩ := hws
  cases hxs.unique hys
  exact List.map_injective_iff.mpr (fun a b hab => Option.some.inj (Option.some.inj hab))
    (hvs.symm.trans hws)

/-- The event has its handler and the callbacks of it. -/
def Owned (h : TimerEventHandler) (ev : TimerEvent) : Prop :=
  ev.parent = some h.self ∧ ev.prepFreeCb = true ∧ ev.rangParentCb = true

/-- The events of the handler, each once and in the order of their times. -/
structure Scheduled (h : TimerEventHandler) (vs : List Nat) : Prop where
  lists : h.Lists vs
  nodup : vs.Nodup
  owned : ∀ e ∈ vs, ∃ ev, h.events.cell e = some ev ∧ h.Owned ev
  sorted : vs.Pairwise h.NotAfter

theorem due_eq (he : h.events.cell e = some ev) : h.due e = h.timeOf ev.timer := by
  rw [due, he]

/-- The times of other events do not matter. -/
theorem Scheduled.sorted_congr (hs : h.Scheduled vs) {h' : TimerEventHandler}
    (hw : ws.Sublist vs) (hdue : ∀ e ∈ ws, h'.due e = h.due e) : ws.Pairwise h'.NotAfter := by
  refine (hs.sorted.sublist hw).imp_of_mem fun {a b} ha hb hab => ?_
  rw [NotAfter, hdue a ha, hdue b hb]
  exact hab

/-- The search ends at the first event that the time does not come after. -/
theorem searchLoop_eq (time : Timespec) : ∀ {vs xs : List Nat} {x n : Nat},
    Path (view h.list.items).nx (x :: xs) none → HasValues h.list.items (x :: xs) vs →
    (∀ e ∈ vs, ∃ ev, h.events.cell e = some ev) → (x :: xs).length < n →
    ∃ pre post, x :: xs = pre ++ post ∧ h.searchLoop time n x = .ok post.head? ∧
      HasValues h.list.items pre (vs.takeWhile fun e => ¬time.NotAfter (h.due e)) ∧
      HasValues h.list.items post (vs.dropWhile fun e => ¬time.NotAfter (h.due e)) := by
  intro vs
  induction vs with
  | nil =>
    intro xs x n _ hv
    cases hv
  | cons e vs ih =>
    intro xs x n hpath hv hlive hn
    obtain ⟨n, rfl⟩ := Nat.exists_eq_succ_of_ne_zero (Nat.ne_of_gt (Nat.zero_lt_of_lt hn))
    obtain ⟨e', vs', heq, hval, hvs⟩ := hv.cons
    cases heq
    obtain ⟨ev, hev⟩ := hlive e List.mem_cons_self
    rw [searchLoop, getValue_eq hval, ok_bind, Heap.get_eq hev, ok_bind]
    by_cases hafter : time.NotAfter (h.due e)
    · refine ⟨[], x :: xs, rfl, ?_, ?_, ?_⟩
      · rw [if_neg (by rw [← due_eq hev]; exact Int.not_lt.mpr hafter)]
        rfl
      · rw [List.takeWhile_cons_of_neg (by simpa using hafter)]
        rfl
      · rw [List.dropWhile_cons_of_neg (by simpa using hafter)]
        exact hv
    · rw [if_pos (by rw [← due_eq hev]; exact Int.not_le.mp hafter),
        List.takeWhile_cons_of_pos (by simpa using hafter),
        List.dropWhile_cons_of_pos (by simpa using hafter), member_eq hpath.1, ok_bind]
      cases xs with
      | nil =>
        obtain rfl : vs = [] := List.map_eq_nil_iff.mp hvs.symm
        exact ⟨[x], [], rfl, rfl, HasValues.single hval, rfl⟩
      | cons y ys =>
        obtain ⟨pre, post, hsplit, hloop, hpre, hpost⟩ := ih hpath.2 hvs
          (fun c hc => hlive c (List.mem_cons_of_mem e hc)) (Nat.lt_of_succ_lt_succ hn)
        refine ⟨x :: pre, post, by rw [hsplit, List.cons_append], hloop, ?_, hpost⟩
        exact (HasValues.single hval).append hpre

section Insert

variable {xs pre post : List Nat} {a : Nat} {p : Option Nat} {timer : Timer} {now : Timespec}

/-- An item that is given is in no list and has the event as its value. -/
def ItemFor (h : TimerEventHandler) (event : Nat) (p : Option Nat) : Prop :=
  ∀ a, p = some a →
    Chain (view h.list.items) none [a] ∧ vals h.list.items a = some (some event)

theorem itemFor_eq (hl : h.list.Holds xs) (hv : HasValues h.list.items xs vs)
    (hp : h.ItemFor event p) :
    ∃ a items, h.itemFor event p = (a, { h with list := { h.list with items } }) ∧
      DList.Holds { h.list with items } xs ∧ HasValues items xs vs ∧
      Chain (view items) none [a] ∧ vals items a = some (some event) := by
  cases p with
  | some a => exact ⟨a, h.list.items, rfl, hl, hv, hp a rfl⟩
  | none =>
    obtain ⟨hchain, hval, hkeep⟩ := @DListItem.new_spec Nat h.list.items _ _ event rfl
    have hold : ∀ c ∈ xs, (DListItem.new h.list.items event).2.cell c = h.list.items.cell c := by
      intro c hc
      obtain ⟨x, hx⟩ := Heap.exists_cell (seg_iff_path.mpr ⟨rfl, hl.chain.dll.fwd⟩) hc
      exact (hkeep c x hx).trans hx.symm
    exact ⟨_, _, rfl, DList.others_holds hl hold,
      hv.congr fun c hc => congrArg (Option.map val) (hold c hc), hchain, hval⟩

/-- The item is put between the two parts of the list, unless it would be the first one. -/
theorem place_eq (hl : h.list.Holds (pre ++ post)) (hpre : pre ≠ [] ∨ post = [])
    (ha : Chain (view h.list.items) none [a]) (hlt : (pre ++ post).length + 1 < 2 ^ 64) :
    ∃ list', h.place post.head? a = .ok (.ok, { h with list := list' }) ∧
      list'.Holds (pre ++ [a] ++ post) ∧ vals list'.items = vals h.list.items := by
  cases post with
  | nil =>
    rw [List.append_nil] at hl hlt
    obtain ⟨list', hr, h', -⟩ := DList.pushBack_eq (u := []) (w := []) hl ha hlt
    refine ⟨list', ?_, by rw [List.append_nil]; exact h', DList.pushBack_vals rfl _ hr⟩
    rw [List.head?_nil, place, if_neg (fun hne => hne rfl), hr]
    rfl
  | cons c post =>
    obtain ⟨list', hr, h', -⟩ :=
      DList.insertBefore_single hl (hpre.resolve_right (List.cons_ne_nil c post)) ha hlt
    refine ⟨list', ?_, h', DList.insertBefore_vals rfl _ hr⟩
    rw [List.head?_cons, place, if_pos (Option.some_ne_none c), hr]
    rfl

/-- What the timer of an event is once the event is put in. -/
def started (h : TimerEventHandler) (timer : Timer) (now : Timespec) : Outcome Timer :=
  if h.running then timer.start now else .ok timer

theorem startEvent_eq (he : h.events.cell event = some ev)
    (hstart : h.started ev.timer now = .ok timer) :
    h.startEvent event now = .ok (h.withEvent event { ev with timer }) := by
  rw [started] at hstart
  rw [startEvent]
  split
  · rw [if_pos ‹_›] at hstart
    rw [Heap.get_eq he, ok_bind, hstart, ok_bind]
    exact setEvent_eq he _
  · rw [if_neg ‹_›] at hstart
    cases hstart
    rw [withEvent, Heap.put_cell he]

/-- Which events there are and which the handler has, when one of them may have changed. -/
theorem owned_withEvent (ho : ∀ e ∈ vs, ∃ ev, h.events.cell e = some ev ∧ h.Owned ev)
    (he : h.events.cell event = some ev) (how : h.Owned ev') {e : Nat} (hmem : e = event ∨ e ∈ vs) :
    ∃ ev, (h.withEvent event ev').events.cell e = some ev ∧ h.Owned ev := by
  by_cases hev : e = event
  · exact ⟨ev', hev ▸ cell_withEvent_self he ev', how⟩
  · rw [cell_withEvent_ne he ev' hev]
    exact ho e (hmem.resolve_left hev)

theorem alive_withEvent (he : h.events.cell event = some ev) (ev' : TimerEvent) (c : Nat) :
    (h.withEvent event ev').alive c = h.alive c := by
  by_cases hc : c = event
  · rw [hc, alive, cell_withEvent_self he, alive, he]
    rfl
  · rw [alive, cell_withEvent_ne he ev' hc, alive]

theorem due_withEvent (he : h.events.cell event = some ev) (ev' : TimerEvent) {c : Nat}
    (hc : c ≠ event) : (h.withEvent event ev').due c = h.due c := by
  rw [due, cell_withEvent_ne he ev' hc]
  rfl

/-- The search finds the place of an event that comes after the first one. -/
theorem searchLoop_place {first x : Nat} (hl : h.list.Holds (x :: xs))
    (hv : HasValues h.list.items (x :: xs) (first :: vs)) (hlt : (x :: xs).length + 1 < 2 ^ 64)
    (hnd : (event :: first :: vs).Nodup) (hsorted : (first :: vs).Pairwise h.NotAfter)
    (ho : ∀ e ∈ event :: first :: vs, ∃ ev, h.events.cell e = some ev ∧ h.Owned ev)
    (ha : Chain (view h.list.items) none [a]) (hval : vals h.list.items a = some (some event))
    (hafter : ¬h.NotAfter event first) :
    ∃ it list', h.searchLoop (h.due event) (fuel h.list.items) x = .ok it ∧
      h.place it a = .ok (.ok, { h with list := list' }) ∧
      Scheduled { h with list := list' } ((first :: vs).orderedInsert h.NotAfter event) := by
  obtain ⟨pre, post, hsplit, hloop, hpre, hpost⟩ := searchLoop_eq (h.due event) hl.chain.dll.fwd hv
    (fun e he => by
      obtain ⟨ev, hev, -⟩ := ho e (List.mem_cons_of_mem event he)
      exact ⟨ev, hev⟩) (length_lt_fuel hl.chain.dll.fwd)
  have hne : pre ≠ [] := by
    rintro rfl
    rw [List.takeWhile_cons_of_pos (by simpa [NotAfter] using hafter)] at hpre
    cases hpre
  rw [hsplit] at hl hlt
  obtain ⟨list', hplace, hl', hvals⟩ := place_eq hl (.inl hne) ha hlt
  have hperm := List.perm_orderedInsert h.NotAfter event (first :: vs)
  refine ⟨post.head?, list', hloop, hplace, ⟨⟨_, hl', ?_⟩, ?_, fun e he => ?_, ?_⟩⟩
  · have hins := List.orderedInsert_eq_take_drop h.NotAfter event (first :: vs)
    rw [hins, List.append_assoc, ← List.singleton_append]
    have hsame : ∀ {ys : List Nat}, ∀ c ∈ ys, vals list'.items c = vals h.list.items c :=
      fun c _ => congrFun hvals c
    exact (hpre.congr hsame).append ((HasValues.single (hvals ▸ hval)).append (hpost.congr hsame))
  · exact hperm.nodup_iff.mpr hnd
  · exact ho e (hperm.mem_iff.mp he)
  · exact hsorted.orderedInsert event _

/-- Where an event comes after the first one it is put where its time belongs. -/
theorem insertItem_scheduled (hs : h.Scheduled vs) (hlt : vs.length < 2 ^ 63)
    (hnew : event ∉ vs) (he : h.events.cell event = some ev) (how : h.Owned ev)
    (ha : Chain (view h.list.items) none [a]) (hval : vals h.list.items a = some (some event))
    (hcond : ∀ first ∈ vs.head?, ∃ timer, h.started ev.timer now = .ok timer ∧
      ¬(h.timeOf timer).NotAfter (h.due first)) :
    ∃ h', h.insertItem event a now = .ok (.ok, h') ∧ h'.self = h.self ∧ h'.running = h.running ∧
      (∀ c, h'.alive c = h.alive c) ∧ h'.Scheduled (vs.orderedInsert h'.NotAfter event) := by
  obtain ⟨xs, hl, hv⟩ := hs.lists
  have hlen := hv.length_eq
  rw [insertItem, DList.get_eq hl (by omega) 0, ok_bind]
  cases vs with
  | nil =>
    obtain rfl : xs = [] := List.map_eq_nil_iff.mp hv
    obtain ⟨list', hr, hl', hvals⟩ := @place_eq h [] [] a hl (.inr rfl) ha (by decide)
    refine ⟨_, hr, rfl, rfl, fun _ => rfl, ⟨⟨[a], hl', HasValues.single (hvals ▸ hval)⟩,
      List.nodup_singleton event, ?_, List.pairwise_singleton _ event⟩⟩
    intro e hmem
    cases List.mem_singleton.mp hmem
    exact ⟨ev, he, how⟩
  | cons first rest =>
    obtain ⟨timer, hstart, hafter⟩ := hcond first rfl
    cases xs with
    | nil => cases hv
    | cons x xs =>
      have hother : ∀ c ∈ first :: rest, (h.withEvent event { ev with timer }).due c = h.due c :=
        fun c hc => due_withEvent he _ fun heq => hnew (heq ▸ hc)
      have hself : (h.withEvent event { ev with timer }).due event = h.timeOf timer := by
        rw [due, cell_withEvent_self he]
        rfl
      obtain ⟨it, list', hloop, hplace, hs'⟩ := @searchLoop_place
        (h.withEvent event { ev with timer }) rest event xs a first x hl hv
        (by rw [hlen]; omega) (List.nodup_cons.mpr ⟨hnew, hs.nodup⟩)
        (hs.sorted_congr (List.Sublist.refl _) hother)
        (fun e hmem => owned_withEvent hs.owned he
          (show h.Owned { ev with timer } from how) (List.mem_cons.mp hmem)) ha hval
        (by rw [NotAfter, hself, hother first List.mem_cons_self]; exact hafter)
      rw [hself] at hloop
      refine ⟨{ h.withEvent event { ev with timer } with list := list' }, ?_, rfl, rfl,
        alive_withEvent he _, hs'⟩
      rw [List.getElem?_cons_zero]
      dsimp only
      rw [startEvent_eq he hstart, ok_bind, get_withEvent he, ok_bind]
      exact (congrArg (· >>= _) hloop).trans hplace

/-- The same for an event that may get a new item. -/
theorem addEvent_scheduled (hs : h.Scheduled vs) (hlt : vs.length < 2 ^ 63) (hnew : event ∉ vs)
    (he : h.events.cell event = some ev) (how : h.Owned ev) (hp : h.ItemFor event p)
    (hcond : ∀ first ∈ vs.head?, ∃ timer, h.started ev.timer now = .ok timer ∧
      ¬(h.timeOf timer).NotAfter (h.due first)) :
    ∃ h', h.addEvent event p now = .ok (.ok, h') ∧ h'.self = h.self ∧ h'.running = h.running ∧
      (∀ c, h'.alive c = h.alive c) ∧ h'.Scheduled (vs.orderedInsert h'.NotAfter event) := by
  obtain ⟨xs, hl, hv⟩ := hs.lists
  obtain ⟨a, items, hitem, hl, hv, ha, hval⟩ := itemFor_eq hl hv hp
  rw [addEvent, hitem]
  exact @insertItem_scheduled { h with list := { h.list with items } } vs event ev a now
    ⟨⟨xs, hl, hv⟩, hs.nodup, hs.owned, hs.sorted⟩ hlt hnew he how ha hval hcond

/-- An event that does not come after the first one would be put before it, which faults. -/
theorem insertItem_front {first x : Nat} (hl : h.list.Holds (x :: xs)) (hlt : (x :: xs).length < 2 ^ 63)
    (hval : vals h.list.items x = some (some first)) (hne : first ≠ event)
    (hfirst : ∃ ev, h.events.cell first = some ev)
    (he : h.events.cell event = some ev) (hstart : h.started ev.timer now = .ok timer)
    (hle : (h.timeOf timer).NotAfter (h.due first)) (ha : Chain (view h.list.items) none [a]) :
    h.insertItem event a now = .error .nullDeref := by
  obtain ⟨ev₁, hev₁⟩ := hfirst
  have hev : (h.withEvent event { ev with timer }).events.get (some first) = .ok ev₁ :=
    Heap.get_eq (by rw [cell_withEvent_ne he _ hne, hev₁])
  have hloop : (h.withEvent event { ev with timer }).searchLoop (h.timeOf timer)
      (fuel h.list.items) x = .ok (some x) := by
    rw [fuel, searchLoop]
    have hvalue : getValue (h.withEvent event { ev with timer }).list.items (some x) = .ok first :=
      getValue_eq hval
    rw [hvalue, ok_bind, hev, ok_bind]
    rw [due_eq hev₁] at hle
    exact if_neg (Int.not_lt.mpr hle)
  have hplace : (h.withEvent event { ev with timer }).place (some x) a = .error .nullDeref := by
    rw [place, if_pos (Option.some_ne_none x)]
    exact congrArg (· >>= _) (@DList.insertBefore_front Nat h.list xs [] [] a x hl ha)
  rw [insertItem, DList.get_eq hl hlt, ok_bind, List.getElem?_cons_zero]
  dsimp only
  rw [startEvent_eq he hstart, ok_bind, get_withEvent he, ok_bind]
  exact (congrArg (· >>= _) hloop).trans hplace

end Insert

end AlibC.TimerEventHandler
