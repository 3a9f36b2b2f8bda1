import AlibC.SignalHandler
import Mathlib.Data.List.Nodup

/-! Which callbacks a signal reaches after any sequence of registrations and
deregistrations. -/
namespace AlibC.SignalHandler

open CLang
variable {C D : Type}

/-- The data a handler holds. -/
def held (sh : SignalHandler C D) : List (SignalData C D) :=
  match sh.sdList with
  | none => []
  | some sdList => sdList.entries

/-- What the handlers for `signum` hold. -/
def heldFor (shs : List (SignalHandler C D)) (signum : Int) : List (SignalData C D) :=
  (shs.filter fun sh => sh.sig = signum).flatMap held

/-- What is registered for `signum`. -/
def registeredFor (handlers : Handlers C D) (signum : Int) : List (SignalData C D) :=
  match handlers with
  | none => []
  | some list => heldFor list.entries signum

/-- A handler with a list that may grow without limit. -/
def Ready (sh : SignalHandler C D) : Prop :=
  ∃ sdList, sh.sdList = some sdList ∧ sdList.WF ∧ sdList.maxCap = ULONG_MAX

/-- No two handlers are for the same signal. -/
structure Sound (list : ArrayList (SignalHandler C D)) : Prop where
  wf : list.WF
  maxCap_eq : list.maxCap = ULONG_MAX
  nodup : (list.entries.map sig).Nodup
  ready : ∀ sh ∈ list.entries, Ready sh

def Inv (handlers : Handlers C D) : Prop := ∀ list, handlers = some list → Sound list

/-- The lists that a registration may extend can be doubled. -/
def Growable (handlers : Handlers C D) (signum : Int) : Prop :=
  ∀ list, handlers = some list → list.CanDouble ∧
    ∀ sh ∈ list.entries, sh.sig = signum → ∀ sdList, sh.sdList = some sdList → sdList.CanDouble

theorem heldFor_append (xs ys : List (SignalHandler C D)) (signum : Int) :
    heldFor (xs ++ ys) signum = heldFor xs signum ++ heldFor ys signum := by
  rw [heldFor, List.filter_append, List.flatMap_append]
  rfl

theorem heldFor_cons (sh : SignalHandler C D) (xs : List (SignalHandler C D)) (signum : Int) :
    heldFor (sh :: xs) signum =
      (if sh.sig = signum then held sh else []) ++ heldFor xs signum := by
  unfold heldFor
  by_cases h : sh.sig = signum
  · rw [if_pos h, List.filter_cons_of_pos (by simpa using h), List.flatMap_cons]
  · rw [if_neg h, List.filter_cons_of_neg (by simpa using h), List.nil_append]

theorem heldFor_absent {xs : List (SignalHandler C D)} {signum : Int}
    (h : ∀ sh ∈ xs, sh.sig ≠ signum) : heldFor xs signum = [] := by
  have hnil : xs.filter (fun sh => sh.sig = signum) = [] := by
    rw [List.filter_eq_nil_iff]
    intro sh hsh
    simpa using h sh hsh
  rw [heldFor, hnil]
  rfl

/-- A new list with the initial capacity of the source. -/
theorem new_ready {α : Type} (freeItem : Bool) : ∃ l : ArrayList α,
    ArrayList.new freeItem = some l ∧ l.WF ∧ l.entries = [] ∧ l.maxCap = ULONG_MAX ∧
      l.count = 0 :=
  ⟨⟨some (List.replicate 4 none), 0, 4, ULONG_MAX, freeItem⟩, rfl,
    .mk_some rfl (by decide) rfl (by decide), rfl, rfl, rfl⟩

/-- The handler for a signal, if there is one, holds all that is registered for it. -/
theorem findHandler_spec {list : ArrayList (SignalHandler C D)} (h : Sound list)
    (signum : Int) :
    (∀ sh ∈ list.entries, sh.sig ≠ signum) ∧ findHandler list signum = .ok none ∨
      ∃ pre sh post, list.list = some (pre ++ some sh :: post) ∧ sh.sig = signum ∧
        findHandler list signum = .ok (some (pre.length, sh)) ∧
        (∀ s ∈ pre.reduceOption ++ post.reduceOption, s.sig ≠ signum) := by
  cases ArrayList.findItemByValue_spec h.wf (fun sh => decide (sh.sig = signum)) with
  | inl hnone => exact .inl ⟨fun sh hsh => by simpa using hnone.1 sh hsh, hnone.2⟩
  | inr hsome =>
    obtain ⟨pre, sh, post, hs, hsig, hf⟩ := hsome
    have hsig : sh.sig = signum := by simpa using hsig
    refine .inr ⟨pre, sh, post, hs, hsig, hf, ?_⟩
    have hn := h.nodup
    rw [ArrayList.entries, hs, Option.getD_some, List.reduceOption_append,
      List.reduceOption_cons_of_some, List.map_append, List.map_cons] at hn
    have hnot := (List.nodup_middle.mp hn).notMem
    intro s hmem heq
    apply hnot
    rw [← List.map_append, hsig, ← heq]
    exact List.mem_map_of_mem hmem

theorem entries_split {list : ArrayList (SignalHandler C D)}
    {pre post : List (Option (SignalHandler C D))} {sh : SignalHandler C D}
    (hs : list.list = some (pre ++ some sh :: post)) :
    list.entries = pre.reduceOption ++ sh :: post.reduceOption := by
  rw [ArrayList.entries, hs, Option.getD_some, List.reduceOption_append,
    List.reduceOption_cons_of_some]

theorem heldFor_split {xs ys : List (SignalHandler C D)} {sh : SignalHandler C D}
    (h : ∀ s ∈ xs ++ ys, s.sig ≠ sh.sig) (signum : Int) :
    heldFor (xs ++ sh :: ys) signum =
      if sh.sig = signum then held sh else heldFor (xs ++ ys) signum := by
  rw [heldFor_append, heldFor_cons]
  by_cases hsig : sh.sig = signum
  · subst hsig
    rw [if_pos rfl, if_pos rfl, heldFor_absent fun s hs => h s (List.mem_append_left _ hs),
      heldFor_absent fun s hs => h s (List.mem_append_right _ hs), List.nil_append,
      List.append_nil]
  · rw [if_neg hsig, if_neg hsig, List.nil_append, heldFor_append]

/-- A changed handler changes what is registered for its own signal only. -/
theorem putHandler_sound {list : ArrayList (SignalHandler C D)} (h : Sound list)
    {pre post : List (Option (SignalHandler C D))} {sh sh' : SignalHandler C D}
    (hs : list.list = some (pre ++ some sh :: post)) (hsig : sh'.sig = sh.sig)
    (hready : Ready sh')
    (hother : ∀ s ∈ pre.reduceOption ++ post.reduceOption, s.sig ≠ sh.sig) :
    Sound (putHandler list pre.length sh') ∧
      ∀ n, heldFor (putHandler list pre.length sh').entries n =
        if sh.sig = n then held sh' else heldFor list.entries n := by
  have hput : putHandler list pre.length sh' =
      ⟨some (pre ++ some sh' :: post), list.count, list.capacity, list.maxCap,
        list.freeItem⟩ := by
    rw [putHandler, hs, Option.map_some, overwrite_cell rfl]
  have he := entries_split hs
  obtain ⟨hl, hpos, hc⟩ := h.wf.of_some hs
  have he' : (putHandler list pre.length sh').entries =
      pre.reduceOption ++ sh' :: post.reduceOption := by
    rw [hput]
    exact entries_split rfl
  refine ⟨⟨?_, ?_, ?_, ?_⟩, ?_⟩
  · rw [hput]
    refine .mk_some (by simpa using hl) hpos ?_ h.wf.bytes_lt
    rw [hc, List.reduceOption_append, List.reduceOption_append, List.reduceOption_cons_of_some,
      List.reduceOption_cons_of_some]
    simp
  · rw [hput]
    exact h.maxCap_eq
  · have hn := h.nodup
    rw [he] at hn
    rw [he']
    simpa [hsig] using hn
  · intro s hmem
    rw [he'] at hmem
    have hold := h.ready s
    rw [he] at hold
    simp only [List.mem_append, List.mem_cons] at hmem hold
    rcases hmem with hm | rfl | hm
    · exact hold (.inl hm)
    · exact hready
    · exact hold (.inr (.inr hm))
  · intro n
    rw [he', he, heldFor_split (hsig ▸ hother), heldFor_split hother, hsig]
    split <;> rfl

/-- `signal_handler_proc` calls what is registered, in order. -/
theorem signalHandlerProc_eq {handlers : Handlers C D} (h : Inv handlers) (signum : Int) :
    signalHandlerProc handlers signum =
      .ok ((registeredFor handlers signum).flatMap (call signum)) := by
  cases handlers with
  | none => rfl
  | some list =>
    have hw := h list rfl
    cases findHandler_spec hw signum with
    | inl hnone =>
      simp only [signalHandlerProc, hnone.2, ok_bind, registeredFor, heldFor_absent hnone.1]
      rfl
    | inr hsome =>
      obtain ⟨pre, sh, post, hs, rfl, hf, hother⟩ := hsome
      obtain ⟨sdList, hsd, hwf, -⟩ := hw.ready sh (by rw [entries_split hs]; simp)
      have hheld : registeredFor (some list) sh.sig = sdList.entries := by
        rw [registeredFor, entries_split hs, heldFor_split hother, if_pos rfl, held, hsd]
      obtain ⟨l', hv, -⟩ := ArrayList.visit_eq hwf fun sd => (call sh.sig sd, false)
      rw [Slots.reach_of_kept, List.take_length] at hv
      simp only [signalHandlerProc, hf, ok_bind, hsd, hv, hheld]
      rfl

theorem below_maxCap {α : Type} {l : ArrayList α} (h : l.WF) (hm : l.maxCap = ULONG_MAX) :
    l.capacity < l.maxCap := by
  have hb := h.bytes_lt
  rw [hm, ULONG_MAX]
  omega

theorem addData_eq {sh : SignalHandler C D} (h : Ready sh)
    (hg : ∀ sdList, sh.sdList = some sdList → sdList.CanDouble) (sd : SignalData C D) :
    ∃ sh', addData sh sd = .ok (.ok, sh') ∧ sh'.sig = sh.sig ∧ Ready sh' ∧
      (held sh').Perm (sd :: held sh) := by
  obtain ⟨sdList, hsd, hwf, hm⟩ := h
  obtain ⟨l', pre, post, ha, hwf', he, he', hm', -⟩ :=
    ArrayList.add_eq hwf sd (below_maxCap hwf hm) (hg sdList hsd)
  refine ⟨{ sh with sdList := some l' }, ?_, rfl, ⟨l', rfl, hwf', hm'.trans hm⟩, ?_⟩
  · simp only [addData, hsd, Option.some_or, ha, ok_bind]
    rfl
  · simp only [held, hsd]
    rw [he, he']
    exact List.perm_middle

/-- A handler is put in for a signal that had none. -/
theorem addHandler_sound {list : ArrayList (SignalHandler C D)} (h : Sound list)
    (hg : list.CanDouble) {sh : SignalHandler C D} (hready : Ready sh)
    (hother : ∀ s ∈ list.entries, s.sig ≠ sh.sig) :
    ∃ list', list.add (some sh) = .ok (true, list') ∧ Sound list' ∧
      ∀ n, heldFor list'.entries n = if sh.sig = n then held sh else heldFor list.entries n := by
  obtain ⟨list', pre, post, hadd, hwf', he, he', hm', -⟩ :=
    ArrayList.add_eq h.wf sh (below_maxCap h.wf h.maxCap_eq) hg
  refine ⟨list', hadd, ⟨hwf', hm'.trans h.maxCap_eq, ?_, ?_⟩, fun n => ?_⟩
  · rw [he', List.map_append, List.map_cons, List.nodup_middle, ← List.map_append, ← he]
    refine List.nodup_cons.mpr ⟨?_, h.nodup⟩
    intro hmem
    obtain ⟨s, hs, hs'⟩ := List.mem_map.mp hmem
    exact hother s hs hs'
  · intro s hs
    rw [he', List.mem_append, List.mem_cons] at hs
    have hold := h.ready s
    rw [he, List.mem_append] at hold
    rcases hs with hs | rfl | hs
    · exact hold (.inl hs)
    · exact hready
    · exact hold (.inr hs)
  · rw [he', heldFor_split (he ▸ hother), he]

/-- One more is registered for a signal when its handler holds one more. -/
theorem perm_of_held {xs ys : List (SignalHandler C D)} {sh : SignalHandler C D}
    {sd : SignalData C D}
    (hfor : ∀ n, heldFor ys n = if sh.sig = n then held sh else heldFor xs n)
    (hheld : (held sh).Perm (sd :: heldFor xs sh.sig)) (n : Int) :
    (heldFor ys n).Perm ((if sh.sig = n then [sd] else []) ++ heldFor xs n) := by
  rw [hfor]
  by_cases hn : sh.sig = n
  · subst hn
    rw [if_pos rfl, if_pos rfl]
    exact hheld
  · rw [if_neg hn, if_neg hn, List.nil_append]

theorem register_some {list : ArrayList (SignalHandler C D)} (h : Sound list) {signum : Int}
    (hg : Growable (some list) signum) (cb : Option C) (userData : Option D) :
    ∃ list', register (fun _ => false) (some list) signum cb userData = .ok (.ok, some list') ∧
      Sound list' ∧ ∀ n, (heldFor list'.entries n).Perm
        ((if signum = n then [⟨cb, userData⟩] else []) ++ heldFor list.entries n) := by
  have hg := hg list rfl
  cases findHandler_spec h signum with
  | inl hnone =>
    obtain ⟨sdList, hnew, hwf, hent, hm, hc⟩ := new_ready (α := SignalData C D) true
    have hdouble : sdList.CanDouble := by
      unfold ArrayList.CanDouble
      omega
    have hready : Ready (⟨signum, ArrayList.new true⟩ : SignalHandler C D) :=
      ⟨sdList, hnew, hwf, hm⟩
    obtain ⟨sh', ha, rfl, hready', hheld⟩ := addData_eq hready
      (fun l hl => by cases hnew.symm.trans hl; exact hdouble) ⟨cb, userData⟩
    obtain ⟨list', hadd, hsound, hfor⟩ := addHandler_sound h hg.1 hready' hnone.1
    refine ⟨list', ?_, hsound, perm_of_held hfor ?_⟩
    · simp only [register, Option.some_or, hnone.2, ok_bind, ha, hadd]
      rfl
    · rw [heldFor_absent hnone.1]
      simpa [held, hnew, hent] using hheld
  | inr hsome =>
    obtain ⟨pre, sh, post, hs, rfl, hf, hother⟩ := hsome
    have hmem : sh ∈ list.entries := by
      rw [entries_split hs]
      simp
    obtain ⟨sh', ha, hsig, hready', hheld⟩ :=
      addData_eq (h.ready sh hmem) (hg.2 sh hmem rfl) ⟨cb, userData⟩
    obtain ⟨hsound, hfor⟩ := putHandler_sound h hs hsig hready' hother
    rw [← hsig] at hfor ⊢
    refine ⟨putHandler list pre.length sh', ?_, hsound, perm_of_held hfor ?_⟩
    · simp only [register, Option.some_or, hsig, hf, ok_bind, ha]
      rfl
    · rw [hsig, entries_split hs, heldFor_split hother, if_pos rfl]
      exact hheld

theorem register_eq {handlers : Handlers C D} (h : Inv handlers) {signum : Int}
    (hg : Growable handlers signum) (cb : Option C) (userData : Option D) :
    ∃ handlers', register (fun _ => false) handlers signum cb userData =
        .ok (.ok, handlers') ∧ Inv handlers' ∧
      ∀ n, (registeredFor handlers' n).Perm
        ((if signum = n then [⟨cb, userData⟩] else []) ++ registeredFor handlers n) := by
  cases handlers with
  | some list =>
    obtain ⟨list', hr, hs, hp⟩ := register_some (h list rfl) hg cb userData
    exact ⟨some list', hr, fun l hl => by cases hl; exact hs, hp⟩
  | none =>
    obtain ⟨list, hnew, hwf, hent, hm, hc⟩ := new_ready (α := SignalHandler C D) true
    have hs : Sound list := ⟨hwf, hm, by simp [hent], by simp [hent]⟩
    have hg' : Growable (some list) signum := by
      intro l hl
      cases hl
      refine ⟨?_, by simp [hent]⟩
      unfold ArrayList.CanDouble
      omega
    obtain ⟨list', hr, hs', hp⟩ := register_some hs hg' cb userData
    refine ⟨some list', ?_, fun l hl => by cases hl; exact hs', ?_⟩
    · rw [← hr]
      simp only [register, hnew, Option.none_or, Option.some_or]
    · intro n
      have := hp n
      rwa [hent] at this

section deregister

variable [DecidableEq C] [DecidableEq D]

/-- Each entry to be deregistered has at most as many such entries before it as there are
entries behind it. -/
def Separated (sds : List (SignalData C D)) (cb : Option C) (userData : Option D) : Prop :=
  ∀ pre sd post, sds = pre ++ sd :: post → deregisters cb userData sd →
    pre.countP (deregisters cb userData) ≤ post.length

/-- What is left of the data of a handler is put in its place. -/
theorem putData_leaves {list : ArrayList (SignalHandler C D)} (h : Sound list)
    {pre post : List (Option (SignalHandler C D))} {sh : SignalHandler C D}
    (hs : list.list = some (pre ++ some sh :: post))
    (hother : ∀ s ∈ pre.reduceOption ++ post.reduceOption, s.sig ≠ sh.sig)
    {l : ArrayList (SignalData C D)} (hwf : l.WF) (hm : l.maxCap = ULONG_MAX)
    {cb : Option C} {userData : Option D}
    (hleft : l.entries.Perm ((held sh).filter fun sd => !deregisters cb userData sd)) :
    Inv (some (putHandler list pre.length { sh with sdList := some l })) ∧
      ∀ n, (registeredFor (some (putHandler list pre.length { sh with sdList := some l })) n).Perm
        (if sh.sig = n then
          (registeredFor (some list) n).filter fun sd => !deregisters cb userData sd
        else registeredFor (some list) n) := by
  obtain ⟨hsound, hfor⟩ := @putHandler_sound _ _ list h pre post sh
    { sh with sdList := some l } hs rfl ⟨l, rfl, hwf, hm⟩ hother
  refine ⟨fun list' hl' => by cases hl'; exact hsound, fun n => ?_⟩
  rw [registeredFor, hfor, registeredFor]
  by_cases hn : sh.sig = n
  · rw [if_pos hn, if_pos hn, entries_split hs, heldFor_split hother, if_pos hn]
    exact hleft
  · rw [if_neg hn, if_neg hn]

/-- Nothing is deregistered where nothing is held. -/
theorem deregister_nothing {handlers : Handlers C D} {signum : Int} {cb : Option C}
    {userData : Option D} (h : registeredFor handlers signum = []) (n : Int) :
    (registeredFor handlers n).Perm (if signum = n then
      (registeredFor handlers n).filter fun sd => !deregisters cb userData sd
      else registeredFor handlers n) := by
  by_cases hn : signum = n
  · subst hn
    rw [if_pos rfl, h]
    exact List.Perm.refl _
  · rw [if_neg hn]

theorem deregister_eq {handlers : Handlers C D} (h : Inv handlers) {signum : Int}
    {cb : Option C} {userData : Option D}
    (hsep : Separated (registeredFor handlers signum) cb userData) :
    ∃ handlers', deregister handlers signum cb userData = .ok handlers' ∧ Inv handlers' ∧
      ∀ n, (registeredFor handlers' n).Perm (if signum = n then
        (registeredFor handlers n).filter fun sd => !deregisters cb userData sd
        else registeredFor handlers n) := by
  cases handlers with
  | none => exact ⟨none, rfl, h, deregister_nothing rfl⟩
  | some list =>
    have hw := h list rfl
    cases findHandler_spec hw signum with
    | inl hnone =>
      exact ⟨some list, by simp only [deregister, hnone.2, ok_bind]; rfl, h,
        deregister_nothing (heldFor_absent hnone.1)⟩
    | inr hsome =>
      obtain ⟨pre, sh, post, hs, rfl, hf, hother⟩ := hsome
      obtain ⟨sdList, hsd, hwf, hm⟩ := hw.ready sh (by rw [entries_split hs]; simp)
      have hheld : held sh = sdList.entries := by rw [held, hsd]
      have hreg : registeredFor (some list) sh.sig = held sh := by
        rw [registeredFor, entries_split hs, heldFor_split hother, if_pos rfl]
      rw [hreg, hheld] at hsep
      by_cases hnull : sdList.list = none
      · exact ⟨some list, by simp [deregister, hf, hsd, hnull], h,
          deregister_nothing (by rw [hreg, hheld, (hwf.of_null hnull).2.2])⟩
      · -- the walk misses nothing, and shrinking the array loses nothing
        obtain ⟨l', hv, hwf', -, hm', -⟩ := ArrayList.visit_eq hwf fun sd =>
          (([] : List (Call C D)), deregisters cb userData sd)
        obtain ⟨events, l₁, hv₁, -, hleft⟩ := (ArrayList.visit_complete_iff hwf fun sd =>
          (([] : List (Call C D)), deregisters cb userData sd)).mpr fun p sd q hpq hor =>
            hsep p sd q hpq (hor.resolve_left fun hne => hne rfl)
        rw [hv] at hv₁
        cases hv₁
        rw [← hheld] at hleft
        obtain ⟨l₂, hshrink, hwf₂, he₂, hm₂, -⟩ := ArrayList.shrink_eq hwf'
        by_cases hcap : list.count ≠ list.capacity
        · refine ⟨_, ?_, putData_leaves hw hs hother hwf₂ (hm₂.trans (hm'.trans hm))
            (he₂ ▸ hleft)⟩
          simp only [deregister, hf, ok_bind, hsd, if_neg hnull, hv, if_pos hcap, hshrink]
          rfl
        · refine ⟨_, ?_, putData_leaves hw hs hother hwf' (hm'.trans hm) hleft⟩
          simp only [deregister, hf, ok_bind, hsd, if_neg hnull, hv, if_neg hcap]
          rfl

inductive Op (C D : Type) where
  | register (signum : Int) (cb : Option C) (userData : Option D)
  | deregister (signum : Int) (cb : Option C) (userData : Option D)
deriving DecidableEq, Repr

/-- One call from outside. `sigaction` succeeds. -/
def step (handlers : Handlers C D) : Op C D → Outcome (AlibError × Handlers C D)
  | .register signum cb userData => register (fun _ => false) handlers signum cb userData
  | .deregister signum cb userData => do
    let handlers ← deregister handlers signum cb userData
    return (.ok, handlers)

/-- What the calls mean: a list of registrations with their signals. -/
def registryStep (registry : List (Int × SignalData C D)) :
    Op C D → AlibError × List (Int × SignalData C D)
  | .register signum cb userData => (.ok, registry ++ [(signum, ⟨cb, userData⟩)])
  | .deregister signum cb userData =>
    (.ok, registry.filter fun r => !(r.1 = signum && deregisters cb userData r.2))

/-- A registration has room; a deregistration finds its entries far enough from the end. -/
def Admissible (handlers : Handlers C D) : Op C D → Prop
  | .register signum _ _ => Growable handlers signum
  | .deregister signum cb userData =>
    Separated (registeredFor handlers signum) cb userData

/-- The registrations for `signum`. -/
def inRegistry (registry : List (Int × SignalData C D)) (signum : Int) :
    List (SignalData C D) :=
  (registry.filter fun r => r.1 = signum).map (·.2)

omit [DecidableEq C] [DecidableEq D] in
theorem inRegistry_cons (r : Int × SignalData C D) (rs : List (Int × SignalData C D))
    (signum : Int) : inRegistry (r :: rs) signum =
      (if r.1 = signum then [r.2] else []) ++ inRegistry rs signum := by
  unfold inRegistry
  by_cases h : r.1 = signum
  · rw [if_pos h, List.filter_cons_of_pos (by simpa using h), List.map_cons]
    rfl
  · rw [if_neg h, List.filter_cons_of_neg (by simpa using h), List.nil_append]

theorem inRegistry_register (registry : List (Int × SignalData C D)) (signum : Int)
    (cb : Option C) (userData : Option D) (n : Int) :
    (inRegistry (registryStep registry (.register signum cb userData)).2 n).Perm
      ((if signum = n then [⟨cb, userData⟩] else []) ++ inRegistry registry n) := by
  have happ : inRegistry (registry ++ [(signum, ⟨cb, userData⟩)]) n =
      inRegistry registry n ++ inRegistry [(signum, ⟨cb, userData⟩)] n := by
    rw [inRegistry, List.filter_append, List.map_append]
    rfl
  rw [registryStep, happ, inRegistry_cons]
  exact List.perm_append_comm.trans (.of_eq (congrArg (· ++ _) (List.append_nil _)))

theorem inRegistry_deregister (registry : List (Int × SignalData C D)) (signum : Int)
    (cb : Option C) (userData : Option D) (n : Int) :
    inRegistry (registryStep registry (.deregister signum cb userData)).2 n =
      if signum = n then (inRegistry registry n).filter fun sd => !deregisters cb userData sd
      else inRegistry registry n := by
  simp only [registryStep]
  induction registry with
  | nil => split <;> rfl
  | cons r rs ih =>
    rw [inRegistry_cons r rs]
    by_cases hgone : r.1 = signum ∧ deregisters cb userData r.2
    · rw [List.filter_cons_of_neg (by simp [hgone.1, hgone.2]), ih]
      by_cases hn : signum = n
      · rw [if_pos hn, if_pos hn, if_pos (hgone.1.trans hn), List.singleton_append,
          List.filter_cons_of_neg (by simp [hgone.2])]
      · rw [if_neg hn, if_neg hn, if_neg fun h => hn (hgone.1.symm.trans h), List.nil_append]
    · rw [List.filter_cons_of_pos (by simp only [Bool.not_eq_true', Bool.and_eq_false_iff]; grind),
        inRegistry_cons, ih]
      by_cases hn : signum = n
      · rw [if_pos hn, if_pos hn]
        by_cases hr : r.1 = n
        · have hkept : deregisters cb userData r.2 = false := by
            simpa [hr, hn] using hgone
          rw [if_pos hr, List.singleton_append, List.singleton_append,
            List.filter_cons_of_pos (by simp [hkept])]
        · rw [if_neg hr, List.nil_append, List.nil_append]
      · rw [if_neg hn, if_neg hn]

/-- A state stands for a registry when it has the same entries for every signal. -/
def StandsFor (handlers : Handlers C D) (registry : List (Int × SignalData C D)) : Prop :=
  Inv handlers ∧ ∀ n, (registeredFor handlers n).Perm (inRegistry registry n)

theorem step_simulates (handlers : Handlers C D) (registry : List (Int × SignalData C D))
    (op : Op C D) (h : StandsFor handlers registry) (hop : Admissible handlers op) :
    ∃ handlers', step handlers op = .ok ((registryStep registry op).1, handlers') ∧
      StandsFor handlers' (registryStep registry op).2 := by
  cases op with
  | register signum cb userData =>
    obtain ⟨handlers', hr, hi, hp⟩ := register_eq h.1 hop cb userData
    refine ⟨handlers', hr, hi, fun n => (hp n).trans ?_⟩
    exact ((h.2 n).append_left _).trans (inRegistry_register registry signum cb userData n).symm
  | deregister signum cb userData =>
    obtain ⟨handlers', hr, hi, hp⟩ := deregister_eq h.1 hop
    refine ⟨handlers', by rw [step, hr]; rfl, hi, fun n => (hp n).trans ?_⟩
    rw [inRegistry_deregister]
    split
    · exact (h.2 n).filter _
    · exact h.2 n

/-- After calls whose deregistrations all find their entries far enough from the end, a
signal calls what is registered for it and nothing else, each entry once. -/
theorem signal_calls_registered (ops : List (Op C D))
    (hops : Machine.AllSteps step Admissible none ops) :
    ∃ outs handlers, Machine.run step none ops = .ok (outs, handlers) ∧
      ∀ signum, ∃ calls, signalHandlerProc handlers signum = .ok calls ∧
        calls.Perm ((inRegistry (Machine.trace registryStep [] ops).2 signum).flatMap
          (call signum)) := by
  have h0 : StandsFor (none : Handlers C D) [] :=
    ⟨fun _ h => (by cases h), fun _ => List.Perm.refl _⟩
  obtain ⟨handlers, hr, hinv, hp⟩ :=
    Machine.run_simulates_steps step_simulates ops none [] h0 hops
  refine ⟨_, handlers, hr, fun signum => ⟨_, signalHandlerProc_eq hinv signum, ?_⟩⟩
  exact (hp signum).flatMap_right _

/-- The state with a handler for signal 1 only. -/
def single (sdList : ArrayList (SignalData Nat Nat)) : Handlers Nat Nat :=
  some ⟨some [some ⟨1, some sdList⟩, none, none, none], 1, 4, ULONG_MAX, true⟩

/-- Two registrations, of which the first is taken back. -/
theorem signal_calls_registered_second :
    ∃ outs handlers, Machine.run step none [.register 1 (some 0) none, .register 1 (some 1) none,
        .deregister 1 (some 0) none] = .ok (outs, handlers) ∧
      ∀ signum, ∃ calls, signalHandlerProc handlers signum = .ok calls ∧
        calls.Perm ((inRegistry (Machine.trace registryStep [] [.register 1 (some 0) none,
          .register 1 (some 1) none, .deregister 1 (some 0) (none : Option Nat)]).2
            signum).flatMap (call (C := Nat) signum)) := by
  have h₁ : step none (.register 1 (some 0) none) = .ok (.ok, single
      ⟨some [some ⟨some 0, none⟩, none, none, none], 1, 4, ULONG_MAX, true⟩) := by decide
  have h₂ : step (single ⟨some [some ⟨some 0, none⟩, none, none, none], 1, 4, ULONG_MAX, true⟩)
      (.register 1 (some 1) none) = .ok (.ok, single
        ⟨some [some ⟨some 0, none⟩, some ⟨some 1, none⟩, none, none], 2, 4, ULONG_MAX, true⟩) := by
    decide
  refine signal_calls_registered _ (.cons (fun _ h => by cases h) h₁ (.cons ?_ h₂
    ⟨?_, fun _ _ _ => trivial⟩))
  · intro list hl
    cases hl
    refine ⟨by decide, fun sh hsh _ sdList hsd => ?_⟩
    cases List.mem_singleton.mp hsh
    cases hsd
    decide
  · intro pre sd post hs hm
    match pre, hs with
    | [], _ => exact Nat.zero_le _
    | [_], hs =>
      cases hs
      exact absurd hm (by decide)
    | _ :: _ :: _, hs => simp [single, registeredFor, heldFor, held, ArrayList.entries] at hs

/-- The wildcards match both entries, but the second is still there and is called. -/
theorem deregister_leaves_second :
    Machine.run step none [.register 1 (some 0) none, .register 1 (some 1) none,
        .deregister 1 none none] = .ok ([.ok, .ok, .ok],
          single ⟨some [some ⟨some 1, none⟩], 1, 1, ULONG_MAX, true⟩) ∧
      signalHandlerProc (single ⟨some [some ⟨some 1, none⟩], 1, 1, ULONG_MAX, true⟩) 1 =
        .ok [⟨1, 1, none⟩] ∧
      inRegistry (Machine.trace registryStep [] [.register 1 (some 0) none,
        .register 1 (some 1) none, .deregister 1 none none]).2 1 =
          ([] : List (SignalData Nat Nat)) := by
  refine ⟨by decide, by decide, by decide⟩

end deregister

end AlibC.SignalHandler
