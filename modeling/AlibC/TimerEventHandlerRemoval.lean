import AlibC.TimerEventHandlerSchedule

/-! Taking an event out of a handler: extracting it, removing it, and what happens when it is freed. -/
namespace AlibC.TimerEventHandler

open CLang Function Linked DListItem

variable {h h' : TimerEventHandler} {vs ws us xs : List Nat} {e event a : Nat} {ev : TimerEvent}
  {prep : TimerEventHandler → Nat → Outcome TimerEventHandler}

/-- What is left in the list is in order if the events left are as they were. -/
theorem Scheduled.taken (hs : h.Scheduled vs) (hl : h'.Lists (vs.erase e)) (hself : h'.self = h.self)
    (hrun : h'.running = h.running) (hcell : ∀ c, c ≠ e → h'.events.cell c = h.events.cell c) :
    h'.Scheduled (vs.erase e) := by
  have hne : ∀ c ∈ vs.erase e, c ≠ e := fun c hc => ((hs.nodup.mem_erase_iff).mp hc).1
  refine ⟨hl, hs.nodup.erase e, fun c hc => ?_, ?_⟩
  · obtain ⟨ev, hev, how⟩ := hs.owned c (List.mem_of_mem_erase hc)
    exact ⟨ev, (hcell c (hne c hc)).trans hev, by rw [Owned, hself]; exact how⟩
  · refine hs.sorted_congr List.erase_sublist fun c hc => ?_
    rw [due, hcell c (hne c hc), due]
    simp only [timeOf, hrun]

/-- The list parted at the item with an event. -/
theorem split_at (hl : h.list.Holds xs) (hv : HasValues h.list.items xs vs) (hnd : vs.Nodup)
    (hmem : event ∈ vs) : ∃ pre a post ws us, xs = pre ++ a :: post ∧ vs.erase event = ws ++ us ∧
      vs.idxOf event = pre.length ∧ vals h.list.items a = some (some event) ∧
      HasValues h.list.items pre ws ∧ HasValues h.list.items post us := by
  obtain ⟨ws, us, rfl⟩ := List.append_of_mem hmem
  obtain ⟨pre, a, post, rfl, hpre, hval, hpost⟩ := hv.split
  have hws : event ∉ ws := fun hc => (List.nodup_append.mp hnd).2.2 event hc event List.mem_cons_self rfl
  refine ⟨pre, a, post, ws, us, rfl, ?_, ?_, hval, hpre, hpost⟩
  · rw [List.erase_append_right _ hws, List.erase_cons_head]
  · rw [Reorder.idxOf_split hnd, hpre.length_eq]

section Extract

/-- An event is extracted when its index is an `int`. -/
theorem extractEvent_eq (hl : h.Lists vs) (hnd : vs.Nodup) (hfit : DList.Fits h.list.items)
    (hmem : event ∈ vs) (hidx : vs.idxOf event ≤ INT32_MAX) :
    ∃ list', h.extractEvent event = .ok { h with list := list' } ∧
      Lists { h with list := list' } (vs.erase event) := by
  obtain ⟨xs, hl, hv⟩ := hl
  have hlt := hl.length_lt hfit
  obtain ⟨pre, a, post, ws, us, rfl, herase, hindex, hval, hpre, hpost⟩ := split_at hl hv hnd hmem
  have hget : (pre ++ a :: post)[pre.length]? = some a := by simp
  have hmax : pre.length ≤ 2147483647 := hindex ▸ hidx
  have hsize : toSize (toInt32 pre.length) = pre.length := by
    rw [toInt32_eq (by omega) (by omega), toSize_nat (by omega)]
  obtain ⟨a', list₁, hget', hpull, hl₁, -, ha⟩ := DList.pullOut_eq hl hlt
    (show pre.length < (pre ++ a :: post).length by simp)
  cases Option.some.inj (hget'.symm.trans hget)
  have hvals : vals list₁.items = vals h.list.items := DList.pullOut_vals rfl _ hpull
  obtain ⟨items₁, r, hextract, hdel, hcell⟩ := extractValue_spec ha (by rw [hvals]; exact hval)
  have hleft : (pre ++ a :: post).eraseIdx pre.length = pre ++ post := by
    rw [List.eraseIdx_append_of_length_le (Nat.le_refl _), Nat.sub_self, List.eraseIdx_cons_zero]
  have hne : ∀ c ∈ pre ++ post, c ≠ a := by
    rintro c hc rfl
    exact hl.chain.dll.not_mem hc
  rw [hleft] at hl₁
  refine ⟨{ list₁ with items := r.2.2 }, ?_, pre ++ post,
    DList.others_holds hl₁ fun c hc => hcell c (hne c hc), ?_⟩
  · rw [extractEvent, hl.begin_eq, getByValue_eq hl.chain hv, hindex, hget, ok_bind,
      index_eq hl.chain.dll, ok_bind, hsize, hpull, ok_bind]
    dsimp only
    rw [hextract, ok_bind]
    dsimp only
    rw [deref_some, ok_bind, hdel]
    rfl
  · rw [herase]
    have hsame : ∀ c ∈ pre ++ post, vals r.2.2 c = vals h.list.items c := fun c hc => by
      rw [vals, hcell c (hne c hc), ← vals, hvals]
    exact (hpre.append hpost).congr hsame

end Extract

section Remove

/-- The item of the event is removed, and the event is freed. -/
theorem removeEvent_step (hl : h.Lists vs) (hnd : vs.Nodup) (hfit : DList.Fits h.list.items)
    (hmem : event ∈ vs) (p : Nat) :
    ∃ list', h.removeEvent prep (some p) event =
        freeTimerEvent prep { h with list := list' } event ∧
      Lists { h with list := list' } (vs.erase event) := by
  obtain ⟨xs, hl, hv⟩ := hl
  have hlt := hl.length_lt hfit
  obtain ⟨pre, a, post, ws, us, rfl, herase, hindex, hval, hpre, hpost⟩ := split_at hl hv hnd hmem
  have hget : (pre ++ a :: post)[pre.length]? = some a := by simp
  have hleft : (pre ++ a :: post).erase a = pre ++ post := by
    rw [List.erase_append_right _ fun hp => ?_, List.erase_cons_head]
    exact hl.chain.dll.not_mem (List.mem_append_left _ hp)
  obtain ⟨list', hr, hl', -⟩ := DList.removeItem_eq hl hlt (List.mem_append_right pre
    (List.mem_cons_self (a := a) (l := post)))
  obtain ⟨hdropped, hkeep⟩ := DList.removeItem_vals hval _ hr rfl
  rw [hleft] at hl'
  refine ⟨list', ?_, pre ++ post, hl', ?_⟩
  · rw [removeEvent, deref_some, ok_bind, DList.get_eq hl hlt, ← List.head?_eq_getElem?, ok_bind,
      getByValue_eq hl.chain hv, hindex, hget, ok_bind, hr, ok_bind]
    dsimp only
    rw [hdropped, List.drop_left, List.foldlM_cons]
    exact bind_pure _
  · rw [herase]
    refine (hpre.append hpost).congr fun c hc => hkeep c ?_
    rintro rfl
    exact hl.chain.dll.not_mem hc

/-- An event in a callback is only marked. -/
theorem freeTimerEvent_marks (he : h.events.cell event = some ev) (hcb : ev.callbackState = true) :
    freeTimerEvent prep h event = .ok (h.withEvent event { ev with deleteState := true }) := by
  rw [freeTimerEvent, setEvent_eq he, ok_bind, get_withEvent he, ok_bind, if_pos hcb]
  rfl

/-- An event that has a handler no more cannot be freed outside of a callback. -/
theorem freeTimerEvent_faults (he : h.events.cell event = some ev) (hcb : ev.callbackState = false)
    (hprep : ev.prepFreeCb = true) (hparent : ev.parent = none) (h₀ : TimerEventHandler) :
    freeTimerEvent h₀.prepFree h event = .error .nullDeref := by
  rw [freeTimerEvent, setEvent_eq he, ok_bind, get_withEvent he, ok_bind,
    if_neg (by rw [hcb]; exact Bool.false_ne_true), setEvent_withEvent he, ok_bind, callIf,
    if_pos hprep, prepFree, fuel, eventPrepToFree, get_withEvent he, ok_bind, removeEvent, hparent]
  rfl

/-- An event in a callback is taken out of its handler and marked. -/
theorem removeEvent_marks (hl : h.Lists vs) (hnd : vs.Nodup) (hfit : DList.Fits h.list.items)
    (hmem : event ∈ vs) (he : h.events.cell event = some ev) (hcb : ev.callbackState = true)
    (p : Nat) : ∃ list', h.removeEvent prep (some p) event =
        .ok ({ h with list := list' }.withEvent event { ev with deleteState := true }) ∧
      Lists { h with list := list' } (vs.erase event) := by
  obtain ⟨list', hstep, hl'⟩ := @removeEvent_step h vs event prep hl hnd hfit hmem p
  exact ⟨list', hstep.trans (freeTimerEvent_marks he hcb), hl'⟩

/-- Outside of a callback an event is taken out of its handler before it is freed. -/
theorem freeTimerEvent_frees (hl : h.Lists vs) (hnd : vs.Nodup) (hfit : DList.Fits h.list.items)
    (hmem : event ∈ vs) (he : h.events.cell event = some ev) (hcb : ev.callbackState = false)
    (hprep : ev.prepFreeCb = true) {p : Nat} (hparent : ev.parent = some p)
    (h₀ : TimerEventHandler) :
    ∃ list', freeTimerEvent h₀.prepFree h event =
        .ok { h with list := list', events := h.events.put event none } ∧
      Lists { h with list := list' } (vs.erase event) := by
  -- while the event is freed it is in a callback
  obtain ⟨list', hremove, hl'⟩ := @removeEvent_marks
    (h.withEvent event { ev with deleteState := true, callbackState := true }) vs event _
    (eventPrepToFree h₀.list.items.cells.length) hl hnd hfit hmem (cell_withEvent_self he _) rfl p
  rw [← hparent] at hremove
  have hmark := hremove.trans (congrArg Except.ok
    (@withEvent_withEvent { h with list := list' } event
      { ev with deleteState := true, callbackState := true }
      { ev with deleteState := true, callbackState := true }))
  refine ⟨list', ?_, hl'⟩
  rw [freeTimerEvent, setEvent_eq he, ok_bind, get_withEvent he, ok_bind,
    if_neg (by rw [hcb]; exact Bool.false_ne_true), setEvent_withEvent he, ok_bind, callIf,
    if_pos hprep, prepFree, fuel, eventPrepToFree, get_withEvent he, ok_bind]
  dsimp only
  rw [hmark, ok_bind, @setEvent_withEvent { h with list := list' } event ev he, ok_bind]
  simp only [withEvent, Heap.put_put, pure_ok]

end Remove

section Absent

/-- Taking out an event that is not there is to leave the list and the event alone. -/
def LeftAlone (vs : List Nat) (event : Nat) (r : Outcome TimerEventHandler) : Prop :=
  ∃ h', r = .ok h' ∧ h'.Lists vs ∧ h'.alive event = true

theorem leftAlone_error (vs : List Nat) (event : Nat) (f : Fault) : ¬LeftAlone vs event (.error f) := by
  rintro ⟨h', hr, -⟩
  cases hr

theorem getByValue_absent (hl : h.list.Holds xs) (hv : HasValues h.list.items xs vs)
    (hnot : event ∉ vs) : getByValue h.list.items h.list.beginItem event = .ok none := by
  rw [hl.begin_eq, getByValue_eq hl.chain hv, List.idxOf_eq_length hnot, ← hv.length_eq,
    List.getElem?_eq_none (Nat.le_refl _)]

/-- The item that was not found is looked into for its list. -/
theorem removeEvent_absent (hl : h.Lists vs) (hfit : DList.Fits h.list.items) (hnot : event ∉ vs)
    (p : Nat) : h.removeEvent prep (some p) event = .error .nullDeref := by
  obtain ⟨xs, hl, hv⟩ := hl
  rw [removeEvent, deref_some, ok_bind, DList.get_eq hl (hl.length_lt hfit),
    ← List.head?_eq_getElem?, ok_bind, ← hl.begin_eq, getByValue_absent hl hv hnot]
  rfl

/-- The index of the item that was not found is an error code, with which nothing is pulled out, and
the value of that is looked into. -/
theorem extractEvent_absent (hl : h.Lists vs) (hfit : DList.Fits h.list.items) (hnot : event ∉ vs) :
    h.extractEvent event = .error .nullDeref := by
  obtain ⟨xs, hl, hv⟩ := hl
  have hlt := hl.length_lt hfit
  have hindex : toSize AlibError.badArg.code = 18446744073709551615 := by decide
  have hpull : h.list.pullOut (toSize AlibError.badArg.code) = .ok (none, h.list) := by
    rw [DList.pullOut, if_pos (by rw [hindex, hl.count_eq]; omega)]
  rw [extractEvent, getByValue_absent hl hv hnot, ok_bind, DListItem.index, ok_bind, hpull]
  rfl

/-- Neither call checks what its search found, so that both of them dereference `NULL` whenever the
event is not in the list. -/
theorem take_absent_fails (h : TimerEventHandler) (vs : List Nat) (event : Nat) (hl : h.Lists vs)
    (hfit : DList.Fits h.list.items) (hnot : event ∉ vs) :
    ¬LeftAlone vs event (h.removeTsafe (some event)) ∧
    ¬LeftAlone vs event (Prod.snd <$> h.extractTsafe (some event)) ∧
    ∀ ev, h.events.cell event = some ev →
      h.removeTsafe (some event) = .error .nullDeref ∧
      h.extractTsafe (some event) = .error .nullDeref := by
  have hfault : ∀ ev, h.events.cell event = some ev →
      h.removeTsafe (some event) = .error .nullDeref ∧
      h.extractTsafe (some event) = .error .nullDeref := by
    intro ev he
    constructor
    · rw [removeTsafe, setEvent_eq he, ok_bind]
      exact @removeEvent_absent (h.withEvent event (ev.setRangParentCb none false)) vs event _ hl
        hfit hnot h.self
    · rw [extractTsafe, setEvent_eq he, ok_bind,
        @extractEvent_absent (h.withEvent event (ev.setRangParentCb none false)) vs event hl hfit hnot,
        error_bind]
  cases he : h.events.cell event with
  | none =>
    -- what is left of an event that was freed
    have hdangling : ∀ f, h.setEvent event f = .error .dangling := by
      intro f
      rw [setEvent, Heap.modify, he]
      rfl
    rw [removeTsafe, hdangling, extractTsafe, hdangling]
    exact ⟨leftAlone_error vs event _, leftAlone_error vs event _, fun ev hev => by cases hev⟩
  | some ev =>
    obtain ⟨hremove, hextract⟩ := hfault ev he
    rw [← he, hremove, hextract]
    exact ⟨leftAlone_error vs event _, leftAlone_error vs event _, fun _ _ => ⟨rfl, rfl⟩⟩

/-- A new handler, and two events that were not added to it. -/
def unused : TimerEventHandler :=
  new 1 (DList.new ⟨[]⟩ 2 false)
    ⟨[some ⟨⟨false, ⟨5, 0⟩, ⟨0, 0⟩⟩, true, false, false, none, false, false⟩,
      some ⟨⟨false, ⟨7, 0⟩, ⟨0, 0⟩⟩, true, false, false, none, false, false⟩]⟩

theorem take_absent_fails_empty :
    ¬LeftAlone [] 0 (unused.removeTsafe (some 0)) ∧
    ¬LeftAlone [] 0 (Prod.snd <$> unused.extractTsafe (some 0)) ∧
    ∀ ev, unused.events.cell 0 = some ev →
      unused.removeTsafe (some 0) = .error .nullDeref ∧
      unused.extractTsafe (some 0) = .error .nullDeref :=
  take_absent_fails unused [] 0 ⟨[], (DList.new_deque ⟨[]⟩ 2 false).holds, rfl⟩
    (show 0 ≤ PTRDIFF_MAX by decide) List.not_mem_nil

/-- Both calls fault on a handler with one event when they are given the other one. -/
theorem take_absent_faults : ∃ h, unused.addTsafe (some 0) ⟨0, 0⟩ = .ok (.ok, h) ∧
    h.removeTsafe (some 1) = .error .nullDeref ∧ h.extractTsafe (some 1) = .error .nullDeref ∧
    ¬LeftAlone [0] 1 (h.removeTsafe (some 1)) ∧
    ¬LeftAlone [0] 1 (Prod.snd <$> h.extractTsafe (some 1)) := by
  exact ⟨_, rfl, rfl, rfl, leftAlone_error [0] 1 _, leftAlone_error [0] 1 _⟩

end Absent

end AlibC.TimerEventHandler
