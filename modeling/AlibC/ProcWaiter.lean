import AlibC.ArrayListInvariant

/-! The process waiter: which callbacks are called when a child process has exited. -/
namespace AlibC

open CLang

/-- A registered waiter. Callbacks and user data are only told apart. -/
structure ProcWaiter (C D : Type) where
  pid : Int
  cb : Option C
  userData : Option D
deriving DecidableEq, Repr

namespace ProcWaiter

variable {C D : Type}

/-- A call `cb(pid, status, user_data)`. -/
structure Call (C D : Type) where
  cb : C
  pid : Int
  status : Int
  userData : Option D
deriving DecidableEq, Repr

/-- `(*pw_it)->cb(pid, status, (*pw_it)->user_data)`, unless there is no callback. -/
def call (pid status : Int) (pw : ProcWaiter C D) : List (Call C D) :=
  match pw.cb with
  | none => []
  | some cb => [⟨cb, pid, status, pw.userData⟩]

/-- The body of the loop of `thread_proc`. -/
def threadProcBody (pid status : Int) (pw : ProcWaiter C D) : List (Call C D) × Bool :=
  if pw.pid < 0 ∨ pw.pid = pid then (pw.call pid status, pw.pid > -1) else ([], false)

/-- `thread_proc` after `wait` has returned `pid`: the callbacks called, in order, and the
list afterwards. -/
def threadProc (cbList : ArrayList (ProcWaiter C D)) (pid status : Int) :
    Outcome (List (Call C D) × ArrayList (ProcWaiter C D)) :=
  if pid < 0 then .ok ([], cbList) else cbList.visit (threadProcBody pid status)

/-- Each interested waiter is called once, no other is, and only those that wait for any
child or for another one stay registered. -/
def Delivers (cbList : ArrayList (ProcWaiter C D)) (pid status : Int) : Prop :=
  ∃ calls cbList', threadProc cbList pid status = .ok (calls, cbList') ∧
    calls.Perm
      ((cbList.entries.filter fun pw => pw.pid < 0 ∨ pw.pid = pid).flatMap (call pid status)) ∧
    cbList'.entries.Perm (cbList.entries.filter fun pw => pw.pid < 0 ∨ pw.pid ≠ pid)

theorem threadProcBody_removed {pid : Int} (hpid : 0 ≤ pid) (status : Int)
    (pw : ProcWaiter C D) : (threadProcBody pid status pw).2 = decide (pw.pid = pid) := by
  unfold threadProcBody
  split
  · apply decide_eq_decide.mpr
    omega
  · rename_i h
    rw [eq_comm, decide_eq_false_iff_not]
    exact fun he => h (.inr he)

theorem threadProcBody_events (pid status : Int) (pw : ProcWaiter C D) :
    (threadProcBody pid status pw).1 =
      if pw.pid < 0 ∨ pw.pid = pid then pw.call pid status else [] := by
  unfold threadProcBody
  split
  · rfl
  · rfl

theorem flatMap_events (pid status : Int) (pws : List (ProcWaiter C D)) :
    pws.flatMap (fun pw => (threadProcBody pid status pw).1) =
      (pws.filter fun pw => pw.pid < 0 ∨ pw.pid = pid).flatMap (call pid status) := by
  induction pws with
  | nil => rfl
  | cons pw pws ih =>
    rw [List.flatMap_cons, ih, threadProcBody_events]
    by_cases hi : pw.pid < 0 ∨ pw.pid = pid
    · rw [if_pos hi, List.filter_cons_of_pos (by simpa using hi), List.flatMap_cons]
    · rw [if_neg hi, List.filter_cons_of_neg (by simpa using hi)]
      rfl

/-- A waiter that an exit concerns: its callback is due, or it has to be deregistered. -/
def Concerned (pid : Int) (pw : ProcWaiter C D) : Prop :=
  pw.pid = pid ∨ pw.pid < 0 ∧ pw.cb ≠ none

theorem concerned_iff {pid : Int} (hpid : 0 ≤ pid) (status : Int) (pw : ProcWaiter C D) :
    (threadProcBody pid status pw).1 ≠ [] ∨ (threadProcBody pid status pw).2 = true ↔
      Concerned pid pw := by
  have hcall : pw.call pid status ≠ [] ↔ pw.cb ≠ none := by
    unfold call
    cases pw.cb <;> simp
  rw [threadProcBody_removed hpid, threadProcBody_events, decide_eq_true_iff, Concerned]
  by_cases hi : pw.pid < 0 ∨ pw.pid = pid
  · rw [if_pos hi, hcall]
    tauto
  · rw [if_neg hi]
    tauto

/-- Every exit reaches everyone it should exactly when each concerned waiter has, among the
entries before it, at most as many waiters for this process as there are entries behind it. -/
theorem threadProc_delivers_iff {cbList : ArrayList (ProcWaiter C D)} (h : cbList.WF)
    {pid : Int} (hpid : 0 ≤ pid) (status : Int) :
    Delivers cbList pid status ↔
      ∀ pre pw post, cbList.entries = pre ++ pw :: post → Concerned pid pw →
        pre.countP (fun w => w.pid = pid) ≤ post.length := by
  have hkeep : (fun pw : ProcWaiter C D => !(threadProcBody pid status pw).2) =
      fun pw => decide (pw.pid < 0 ∨ pw.pid ≠ pid) := by
    funext pw
    rw [threadProcBody_removed hpid, ← decide_not]
    apply decide_eq_decide.mpr
    omega
  have hrm : (fun pw : ProcWaiter C D => (threadProcBody pid status pw).2) =
      fun pw => decide (pw.pid = pid) := funext (threadProcBody_removed hpid status)
  have hmain := ArrayList.visit_complete_iff h (threadProcBody (C := C) (D := D) pid status)
  rw [hkeep, hrm, flatMap_events] at hmain
  rw [Delivers, threadProc, if_neg (by omega), hmain]
  constructor
  · intro hall pre pw post hs hc
    exact hall pre pw post hs ((concerned_iff hpid status pw).mpr hc)
  · intro hall pre pw post hs hc
    exact hall pre pw post hs ((concerned_iff hpid status pw).mp hc)

/-- A waiter for the process, one for any child and one for another process. -/
theorem threadProc_delivers_two :
    Delivers (⟨some [some ⟨5, some 0, none⟩, some ⟨-1, some 1, none⟩, some ⟨7, some 2, none⟩],
      3, 3, ULONG_MAX, true⟩ : ArrayList (ProcWaiter Nat Nat)) 5 0 := by
  refine (threadProc_delivers_iff (.mk_some rfl (by decide) rfl (by decide)) (by decide) 0).mpr ?_
  intro pre pw post hs hc
  match pre, hs with
  | [], _ => exact Nat.zero_le _
  | [_], hs =>
    cases hs
    decide
  | [_, _], hs =>
    cases hs
    simp [Concerned] at hc
  | _ :: _ :: _ :: _, hs => simp [ArrayList.entries] at hs

/-- Two waiters for one process: the second is neither called nor removed. -/
theorem threadProc_misses_second :
    (do
      let l ← deref (ArrayList.newEx true 0 0)
      let (_, l) ← l.add (some ⟨5, some 0, none⟩)
      let (_, l) ← l.add (some ⟨5, some 1, none⟩)
      return l : Outcome (ArrayList (ProcWaiter Nat Nat))) =
        .ok ⟨some [some ⟨5, some 0, none⟩, some ⟨5, some 1, none⟩], 2, 2, ULONG_MAX, true⟩ ∧
      ¬ Delivers (⟨some [some ⟨5, some 0, none⟩, some ⟨5, some 1, none⟩], 2, 2, ULONG_MAX, true⟩ :
        ArrayList (ProcWaiter Nat Nat)) 5 0 := by
  refine ⟨by decide, ?_⟩
  rintro ⟨calls, l', he, hp, -⟩
  have hrun : threadProc (⟨some [some ⟨5, some 0, none⟩, some ⟨5, some 1, none⟩], 2, 2,
      ULONG_MAX, true⟩ : ArrayList (ProcWaiter Nat Nat)) 5 0 =
        .ok ([⟨0, 5, 0, none⟩],
          ⟨some [none, some ⟨5, some 1, none⟩], 1, 2, ULONG_MAX, true⟩) := by decide
  rw [hrun] at he
  cases he
  exact absurd hp.length_eq (by decide)

section Deregister
variable [DecidableEq C] [DecidableEq D]

/-- The three parts of the pattern of `proc_waiter_deregister`, each with its wildcard. -/
def matchesPattern (pid : Int) (procExited : Option C) (userData : Option D)
    (pw : ProcWaiter C D) : Bool :=
  (pid < 0 ∨ pw.pid = pid) ∧ (procExited = none ∨ pw.cb = procExited) ∧
    (userData = none ∨ pw.userData = userData)

/-- The body of the loop of `proc_waiter_deregister`. -/
def deregisterBody (freeItem : Bool) (pid : Int) (procExited : Option C) (userData : Option D)
    (pw : ProcWaiter C D) : List (ProcWaiter C D) × Bool :=
  if matchesPattern pid procExited userData pw then (if freeItem then [pw] else [], true)
  else ([], false)

/-- The waiters freed, in order, and the list afterwards. There is none before the process waiter is
initialised. -/
def deregister (cbList : Option (ArrayList (ProcWaiter C D))) (pid : Int)
    (procExited : Option C) (userData : Option D) :
    Outcome (List (ProcWaiter C D) × Option (ArrayList (ProcWaiter C D))) :=
  match cbList with
  | none => .ok ([], none)
  | some l => do
    let (freed, l) ← l.visit (deregisterBody l.freeItem pid procExited userData)
    return (freed, some l)

/-- The waiters that match are freed, each once, and the others stay. -/
def Deregisters (cbList : ArrayList (ProcWaiter C D)) (pid : Int) (procExited : Option C)
    (userData : Option D) : Prop :=
  ∃ freed cbList', deregister (some cbList) pid procExited userData = .ok (freed, some cbList') ∧
    freed.Perm (cbList.entries.filter (matchesPattern pid procExited userData)) ∧
    cbList'.entries.Perm
      (cbList.entries.filter fun pw => !matchesPattern pid procExited userData pw)

theorem deregisterBody_removed (freeItem : Bool) (pid : Int) (procExited : Option C)
    (userData : Option D) (pw : ProcWaiter C D) :
    (deregisterBody freeItem pid procExited userData pw).2 =
      matchesPattern pid procExited userData pw := by
  unfold deregisterBody
  by_cases hp : matchesPattern pid procExited userData pw = true
  · rw [if_pos hp, hp]
  · rw [if_neg hp, eq_false_of_ne_true hp]

theorem flatMap_freed (pid : Int) (procExited : Option C) (userData : Option D)
    (pws : List (ProcWaiter C D)) :
    (pws.flatMap fun pw => (deregisterBody true pid procExited userData pw).1) =
      pws.filter (matchesPattern pid procExited userData) := by
  induction pws with
  | nil => rfl
  | cons pw pws ih =>
    rw [List.flatMap_cons, ih, deregisterBody]
    by_cases hp : matchesPattern pid procExited userData pw = true
    · rw [if_pos hp, List.filter_cons_of_pos hp]
      rfl
    · rw [if_neg hp, List.filter_cons_of_neg hp]
      rfl

theorem freed_or_matches_iff (pid : Int) (procExited : Option C) (userData : Option D)
    (pw : ProcWaiter C D) :
    (deregisterBody true pid procExited userData pw).1 ≠ [] ∨
        matchesPattern pid procExited userData pw = true ↔
      matchesPattern pid procExited userData pw = true := by
  unfold deregisterBody
  by_cases hp : matchesPattern pid procExited userData pw = true
  · exact ⟨fun _ => hp, .inr⟩
  · rw [if_neg hp]
    simp [hp]

/-- They are exactly when each waiter that matches has, among the entries before it, at most as many
that match as there are entries behind it. -/
theorem deregisters_iff {cbList : ArrayList (ProcWaiter C D)} (h : cbList.WF)
    (hfree : cbList.freeItem = true) (pid : Int) (procExited : Option C) (userData : Option D) :
    Deregisters cbList pid procExited userData ↔
      ∀ pre pw post, cbList.entries = pre ++ pw :: post →
        matchesPattern pid procExited userData pw = true →
        pre.countP (matchesPattern pid procExited userData) ≤ post.length := by
  have hmain := ArrayList.visit_complete_iff h (deregisterBody true pid procExited userData)
  simp only [deregisterBody_removed, flatMap_freed, freed_or_matches_iff] at hmain
  have hvisit : Deregisters cbList pid procExited userData ↔
      ∃ freed l', cbList.visit (deregisterBody true pid procExited userData) = .ok (freed, l') ∧
        freed.Perm (cbList.entries.filter (matchesPattern pid procExited userData)) ∧
        l'.entries.Perm
          (cbList.entries.filter fun pw => !matchesPattern pid procExited userData pw) := by
    rw [Deregisters, deregister, hfree]
    constructor
    · rintro ⟨freed, l', hrun, hperm⟩
      obtain ⟨⟨freed₁, l₁⟩, hvisit, hret⟩ := bind_eq_ok.mp hrun
      cases hret
      exact ⟨freed, l', hvisit, hperm⟩
    · rintro ⟨freed, l', hvisit, hperm⟩
      refine ⟨freed, l', ?_, hperm⟩
      rw [hvisit]
      rfl
  rw [hvisit, hmain]

/-- One of three waiters matches. -/
theorem deregisters_one :
    Deregisters (⟨some [some ⟨5, some 0, none⟩, none, some ⟨-1, some 1, none⟩,
      some ⟨7, some 2, none⟩], 3, 4, ULONG_MAX, true⟩ : ArrayList (ProcWaiter Nat Nat))
      (-1) (some 1) none := by
  refine (deregisters_iff (.mk_some rfl (by decide) rfl (by decide)) rfl (-1) (some 1) none).mpr ?_
  intro pre pw post hs hm
  match pre, hs with
  | [], _ => exact Nat.zero_le _
  | [_], hs =>
    cases hs
    decide
  | [_, _], hs =>
    cases hs
    cases hm
  | _ :: _ :: _ :: _, hs => simp [ArrayList.entries] at hs

/-- Of two waiters for one process only the first is removed. -/
theorem deregister_misses_second :
    (do
      let l ← deref (ArrayList.newEx true 0 0)
      let (_, l) ← l.add (some ⟨5, some 0, none⟩)
      let (_, l) ← l.add (some ⟨5, some 1, none⟩)
      deregister (some l) 5 none none :
        Outcome (List (ProcWaiter Nat Nat) × Option (ArrayList (ProcWaiter Nat Nat)))) =
        .ok ([⟨5, some 0, none⟩], some ⟨some [none, some ⟨5, some 1, none⟩], 1, 2, ULONG_MAX,
          true⟩) ∧
      ¬Deregisters (⟨some [some ⟨5, some 0, none⟩, some ⟨5, some 1, none⟩], 2, 2, ULONG_MAX, true⟩ :
        ArrayList (ProcWaiter Nat Nat)) 5 none none := by
  refine ⟨by decide, ?_⟩
  rintro ⟨freed, l', he, hp, -⟩
  have hrun : deregister (some (⟨some [some ⟨5, some 0, none⟩, some ⟨5, some 1, none⟩], 2, 2,
      ULONG_MAX, true⟩ : ArrayList (ProcWaiter Nat Nat))) 5 none none =
        .ok ([⟨5, some 0, none⟩],
          some ⟨some [none, some ⟨5, some 1, none⟩], 1, 2, ULONG_MAX, true⟩) := by decide
  rw [hrun] at he
  cases he
  exact absurd hp.length_eq (by decide)

end Deregister

end ProcWaiter

end AlibC
