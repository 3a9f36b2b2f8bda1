import AlibC.ClientListener

/-! `ClientListener_add`: a package is put into the list, registered with epoll, and the thread of the
loop is started, of which each may fail. What the thread does in the meantime is not followed. -/
namespace AlibC

open CLang

/-- Whether a mutex is locked and unlocked without an error. -/
structure Lock where
  locks : Bool
  unlocks : Bool

def Lock.Works (k : Lock) : Prop := k.locks = true ∧ k.unlocks = true

/-- What `ClientListener_start_async` meets: its mutexes, the descriptor that `epoll_create` returns, the
packages whose sockets epoll accepts, and whether `pthread_create` succeeds. -/
structure StartMeets where
  stopLock : Lock
  initLock : Lock
  epollCreate : Int
  clientsLock : Lock
  accepts : SocketPackage → Bool
  created : Bool
  errorLock : Lock

/-- What `ClientListener_add` meets: the memory for the package, and for its registration the mutex and
whether epoll accepts the socket. -/
structure AddMeets where
  package : Option Nat
  registerLock : Lock
  accepted : Bool
  start : StartMeets

namespace ClientListener

/-- The functions `.._tsafe`: what `f` does, with the mutex locked. -/
def tsafe (k : Lock) (f : ClientListener → Outcome (AlibError × ClientListener))
    (listener : ClientListener) : Outcome (AlibError × ClientListener) :=
  if k.locks then do
    let (err, listener) ← f listener
    return (if k.unlocks then err else .mutexErr, listener)
  else .ok (.mutexErr, listener)

/-- `close_epoll_tsafe`, whose result nobody reads. -/
def closeEpoll (k : Lock) (listener : ClientListener) : ClientListener :=
  if k.locks then { listener with efd := -1 } else listener

def initEpoll (efd : Int) (listener : ClientListener) : Outcome (AlibError × ClientListener) :=
  .ok (if efd < 0 then .fdErr else .ok, { listener with efd })

def addSockToEpoll (accepted : Bool) (listener : ClientListener) (sock : Int) : AlibError :=
  if sock < 0 ∨ listener.efd < 0 then .badArg
  else if accepted then .ok
  else .unknownErr

/-- The walk ends with the first client that gives an error. -/
def addClientsToEpoll (accepts : SocketPackage → Bool) (listener : ClientListener) :
    Outcome (AlibError × ClientListener) :=
  if listener.efd < 0 then .ok (.badArg, listener)
  else do
    match ← listener.clientList.findItemByValue fun sp =>
      listener.addSockToEpoll (accepts sp) sp.sock ≠ .ok with
    | none => return (.ok, listener)
    | some (_, sp) => return (listener.addSockToEpoll (accepts sp) sp.sock, listener)

/-- `ClientListener_stop`. A thread that was created is joined, and is no longer running then. -/
def stop (k : Lock) (listener : ClientListener) : ClientListener :=
  let listener := closeEpoll k
    { listener with threadStop := listener.threadStop || listener.threadIsRunning }
  if listener.threadCreated then { listener with threadIsRunning := false, threadCreated := false }
  else listener

/-- The part of `ClientListener_start_async` that follows `init_epoll_tsafe`. -/
def createThread (m : StartMeets) (listener : ClientListener) : Outcome (AlibError × ClientListener) := do
  let (err, listener) ← tsafe m.clientsLock (addClientsToEpoll m.accepts) listener
  if err ≠ .ok then return (err, stop m.errorLock listener)
  else if m.created then return (.ok, { listener with threadCreated := true })
  else return (.threadErr, stop m.errorLock { listener with threadCreated := false })

def startAsync (m : StartMeets) (listener : ClientListener) : Outcome (AlibError × ClientListener) :=
  if listener.threadIsRunning && !listener.threadStop then .ok (.ok, listener)
  else do
    let listener := if listener.threadIsRunning then stop m.stopLock listener else listener
    let (err, listener) ← tsafe m.initLock (initEpoll m.epollCreate) { listener with threadStop := false }
    if err ≠ .ok then return (err, listener)
    else createThread m listener

/-- The registration in `ClientListener_add_socket_package`. -/
def register (m : AddMeets) (listener : ClientListener) (clientPack : SocketPackage) :
    Outcome (AlibError × ClientListener) :=
  if listener.threadIsRunning && listener.efd > -1 then
    tsafe m.registerLock
      (fun listener => .ok (listener.addSockToEpoll m.accepted clientPack.sock, listener)) listener
  else .ok (.ok, listener)

def addSocketPackage (m : AddMeets) (listener : ClientListener) (clientPack : SocketPackage)
    (runAsync : Bool) : Outcome (AlibError × ClientListener) := do
  let (stored, clientList) ← listener.clientList.add (some clientPack)
  if stored then do
    let (err, listener) ← register m { listener with clientList } clientPack
    if err ≠ .ok then return (err, listener)
    else if runAsync then startAsync m.start listener
    else return (.ok, listener)
  else return (.memErr, { listener with clientList })

/-- `ClientListener_add`, with the packages it frees. -/
def add (m : AddMeets) (listener : ClientListener) (sock : Int) (runAsync : Bool) :
    Outcome (AlibError × List SocketPackage × ClientListener) :=
  if sock < 0 then .ok (.badArg, [], listener)
  else
    match m.package with
    | none => .ok (.memErr, [], listener)
    | some addr => do
      let (err, listener) ← addSocketPackage m listener ⟨addr, sock⟩ runAsync
      return (err, if err ≠ .ok then [⟨addr, sock⟩] else [], listener)

/-- A package that is given back to the caller with an error is not in the list. -/
def GivesBack (m : AddMeets) (listener : ClientListener) (clientPack : SocketPackage) (runAsync : Bool) :
    Prop :=
  ∃ err listener', addSocketPackage m listener clientPack runAsync = .ok (err, listener') ∧
    (err ≠ .ok → clientPack ∉ listener'.clientList.entries)

/-- With an error, the list is as it was, and none of its packages was freed. -/
def LeavesNoTrace (m : AddMeets) (listener : ClientListener) (sock : Int) (runAsync : Bool) : Prop :=
  ∃ err freed listener', add m listener sock runAsync = .ok (err, freed, listener') ∧
    (err ≠ .ok → listener'.clientList.entries = listener.clientList.entries ∧
      ∀ sp ∈ freed, sp ∉ listener'.clientList.entries)

/-- The list holds as many packages as it may. -/
def Full (listener : ClientListener) : Prop :=
  listener.clientList.capacity ≤ listener.clientList.count ∧
    listener.clientList.capacity = listener.clientList.maxCap

/-- Nothing that the registration of a package meets is an error. -/
def Registers (m : AddMeets) (listener : ClientListener) (sock : Int) : Prop :=
  listener.threadIsRunning = true → listener.efd > -1 →
    m.registerLock.Works ∧ 0 ≤ sock ∧ m.accepted = true

/-- Nothing that the start of the thread meets is an error, with the given packages in the list. -/
def Starts (m : StartMeets) (listener : ClientListener) (packages : List SocketPackage) : Prop :=
  listener.threadIsRunning = true ∧ listener.threadStop = false ∨
    m.initLock.Works ∧ 0 ≤ m.epollCreate ∧ m.clientsLock.Works ∧
      (∀ sp ∈ packages, 0 ≤ sp.sock ∧ m.accepts sp = true) ∧ m.created = true

/-- The package cannot be inserted, or nothing after its insertion fails. -/
def NoLaterFailure (m : AddMeets) (listener : ClientListener) (clientPack : SocketPackage)
    (runAsync : Bool) : Prop :=
  listener.Full ∨ Registers m listener clientPack.sock ∧
    (runAsync = true → Starts m.start listener (clientPack :: listener.clientList.entries))

variable {listener : ClientListener} {k : Lock}

@[simp] theorem stop_clientList (k : Lock) (listener : ClientListener) :
    (stop k listener).clientList = listener.clientList := by
  unfold stop closeEpoll
  dsimp only
  split <;> split <;> rfl

/-- What is done with the mutex locked succeeds if the mutex works and it would succeed alone. -/
theorem tsafe_eq {f : ClientListener → Outcome (AlibError × ClientListener)} {err : AlibError}
    {listener' : ClientListener} (hf : f listener = .ok (err, listener')) :
    ∃ err' listener'', tsafe k f listener = .ok (err', listener'') ∧
      (err' = .ok ↔ k.Works ∧ err = .ok) ∧ (listener'' = listener' ∨ listener'' = listener ∧ err' ≠ .ok) := by
  rw [tsafe]
  by_cases hlocks : k.locks = true
  · rw [if_pos hlocks, hf, ok_bind]
    dsimp only
    by_cases hunlocks : k.unlocks = true
    · rw [if_pos hunlocks]
      exact ⟨err, listener', rfl, (and_iff_right ⟨hlocks, hunlocks⟩).symm, .inl rfl⟩
    · rw [if_neg hunlocks]
      exact ⟨_, listener', rfl, iff_of_false (by decide) fun h => hunlocks h.1.2, .inl rfl⟩
  · rw [if_neg hlocks]
    exact ⟨_, listener, rfl, iff_of_false (by decide) fun h => hlocks h.1.1, .inr ⟨rfl, by decide⟩⟩

theorem addSockToEpoll_ok {accepted : Bool} {sock : Int} (hefd : 0 ≤ listener.efd) :
    listener.addSockToEpoll accepted sock = .ok ↔ 0 ≤ sock ∧ accepted = true := by
  unfold addSockToEpoll
  split
  · exact iff_of_false (by decide) fun h => by omega
  · split
    · exact iff_of_true rfl ⟨by omega, by assumption⟩
    · exact iff_of_false (by decide) fun h => by simp_all

theorem addClientsToEpoll_eq (h : listener.clientList.WF) (hefd : 0 ≤ listener.efd)
    (accepts : SocketPackage → Bool) : ∃ err, addClientsToEpoll accepts listener = .ok (err, listener) ∧
      (err = .ok ↔ ∀ sp ∈ listener.clientList.entries, 0 ≤ sp.sock ∧ accepts sp = true) := by
  rw [addClientsToEpoll, if_neg (by omega)]
  rcases ArrayList.findItemByValue_entry h fun sp =>
    decide (listener.addSockToEpoll (accepts sp) sp.sock ≠ .ok) with ⟨hall, hr⟩ | ⟨i, sp, hmem, herr, hr⟩
  · rw [hr]
    refine ⟨.ok, rfl, iff_of_true rfl fun sp hsp => ?_⟩
    exact (addSockToEpoll_ok hefd).mp (by simpa using hall sp hsp)
  · rw [hr]
    have herr : listener.addSockToEpoll (accepts sp) sp.sock ≠ .ok := of_decide_eq_true herr
    exact ⟨_, rfl, iff_of_false herr fun hall => herr ((addSockToEpoll_ok hefd).mpr (hall sp hmem))⟩

theorem createThread_eq (h : listener.clientList.WF) (hefd : 0 ≤ listener.efd) (m : StartMeets) :
    ∃ err listener', createThread m listener = .ok (err, listener') ∧
      listener'.clientList = listener.clientList ∧
      (err = .ok ↔ m.clientsLock.Works ∧
        (∀ sp ∈ listener.clientList.entries, 0 ≤ sp.sock ∧ m.accepts sp = true) ∧ m.created = true) := by
  obtain ⟨err, hadd, hall⟩ := addClientsToEpoll_eq h hefd m.accepts
  obtain ⟨err', l₁, hr, hok, hl₁⟩ := @tsafe_eq listener m.clientsLock _ _ _ hadd
  obtain rfl : l₁ = listener := hl₁.elim id And.left
  rw [createThread, hr, ok_bind]
  dsimp only
  rw [← and_assoc, ← hall, ← hok]
  by_cases herr : err' = .ok
  · rw [if_neg (not_not.mpr herr), and_iff_right herr]
    split
    · exact ⟨.ok, _, rfl, rfl, iff_of_true rfl (by assumption)⟩
    · exact ⟨.threadErr, _, rfl, stop_clientList _ _, iff_of_false (by decide) (by assumption)⟩
  · rw [if_pos herr]
    exact ⟨err', _, rfl, stop_clientList _ _, iff_of_false herr fun h => herr h.1⟩

/-- The start of the thread leaves the list. -/
theorem startAsync_eq (h : listener.clientList.WF) (m : StartMeets) :
    ∃ err listener', startAsync m listener = .ok (err, listener') ∧
      listener'.clientList = listener.clientList ∧
      (err = .ok ↔ Starts m listener listener.clientList.entries) := by
  unfold startAsync
  by_cases hrunning : (listener.threadIsRunning && !listener.threadStop) = true
  · rw [if_pos hrunning]
    rw [Bool.and_eq_true, Bool.not_eq_true'] at hrunning
    exact ⟨.ok, listener, rfl, rfl, iff_of_true rfl (.inl hrunning)⟩
  · rw [if_neg hrunning]
    rw [Bool.and_eq_true, Bool.not_eq_true'] at hrunning
    have hstarts : Starts m listener listener.clientList.entries ↔ _ := or_iff_right hrunning
    rw [hstarts]
    dsimp only
    generalize hstopped : (if listener.threadIsRunning = true then stop m.stopLock listener else listener) =
      stopped
    have hlist : stopped.clientList = listener.clientList := by
      rw [← hstopped]
      split
      · exact stop_clientList _ _
      · rfl
    obtain ⟨err, l₁, hinit, hok, hl₁⟩ := @tsafe_eq { stopped with threadStop := false } m.initLock
      (initEpoll m.epollCreate) _ _ rfl
    have hlist₁ : l₁.clientList = listener.clientList := by
      rcases hl₁ with rfl | ⟨rfl, -⟩
      · exact hlist
      · exact hlist
    rw [hinit, ok_bind]
    dsimp only
    have hcreate : (if m.epollCreate < 0 then AlibError.fdErr else .ok) = .ok ↔ 0 ≤ m.epollCreate := by
      split
      · exact iff_of_false (by decide) (by omega)
      · exact iff_of_true rfl (by omega)
    rw [hcreate] at hok
    rw [← and_assoc, ← hok]
    by_cases herr : err = .ok
    · obtain rfl := hl₁.resolve_right fun hnot => hnot.2 herr
      rw [if_neg (not_not.mpr herr), and_iff_right herr, ← hlist₁]
      exact createThread_eq (hlist₁ ▸ h) (hok.mp herr).2 m
    · rw [if_pos herr]
      exact ⟨err, l₁, rfl, hlist₁, iff_of_false herr fun h => herr h.1⟩

theorem register_eq (m : AddMeets) (listener : ClientListener) (clientPack : SocketPackage) :
    ∃ err, register m listener clientPack = .ok (err, listener) ∧
      (err = .ok ↔ Registers m listener clientPack.sock) := by
  rw [register]
  by_cases hregisters : (listener.threadIsRunning && decide (listener.efd > -1)) = true
  · rw [if_pos hregisters]
    obtain ⟨hrunning, hefd⟩ := Bool.and_eq_true_iff.mp hregisters
    have hefd : listener.efd > -1 := of_decide_eq_true hefd
    obtain ⟨err, l₁, hr, hok, hl₁⟩ := @tsafe_eq listener m.registerLock
      (fun listener => .ok (listener.addSockToEpoll m.accepted clientPack.sock, listener)) _ _ rfl
    obtain rfl : l₁ = listener := hl₁.elim id And.left
    rw [addSockToEpoll_ok (by omega)] at hok
    exact ⟨err, hr, hok.trans ⟨fun h _ _ => h, fun h => h hrunning hefd⟩⟩
  · rw [if_neg hregisters]
    refine ⟨.ok, rfl, iff_of_true rfl fun hrunning hefd => absurd ?_ hregisters⟩
    exact Bool.and_eq_true_iff.mpr ⟨hrunning, decide_eq_true hefd⟩

/-- A package is not stored, or it is in the list whatever happens after its insertion. -/
theorem addSocketPackage_eq (h : listener.Inv) (hroom : 8 * listener.clientList.nextCap < 2 ^ 64)
    (m : AddMeets) (clientPack : SocketPackage) (runAsync : Bool) : ∃ err listener',
      addSocketPackage m listener clientPack runAsync = .ok (err, listener') ∧
      (listener.Full ∧ err = .memErr ∧ listener' = listener ∨
        ¬listener.Full ∧ (∃ pre post, listener.clientList.entries = pre ++ post ∧
            listener'.clientList.entries = pre ++ clientPack :: post) ∧
          (err = .ok ↔ Registers m listener clientPack.sock ∧
            (runAsync = true → Starts m.start listener (clientPack :: listener.clientList.entries)))) := by
  rcases ArrayList.add_item h.wf h.capacity_le hroom clientPack with
    ⟨hfull, hr⟩ | ⟨hfull, clientList, pre, post, hr, hwf, -, -, hentries, hentries'⟩
  · exact ⟨.memErr, listener, by rw [addSocketPackage, hr]; rfl, .inl ⟨hfull, rfl, rfl⟩⟩
  · obtain ⟨err, hregister, hregistered⟩ := register_eq m { listener with clientList } clientPack
    have hinserted : ∃ pre post, listener.clientList.entries = pre ++ post ∧
        clientList.entries = pre ++ clientPack :: post := ⟨pre, post, hentries, hentries'⟩
    rw [addSocketPackage, hr, ok_bind]
    dsimp only
    rw [if_pos rfl, hregister, ok_bind]
    dsimp only
    by_cases herr : err = .ok
    · rw [if_neg (not_not.mpr herr)]
      have hregisters : Registers m listener clientPack.sock := hregistered.mp herr
      cases runAsync with
      | false => exact ⟨.ok, _, rfl, .inr ⟨hfull, hinserted, iff_of_true rfl ⟨hregisters, nofun⟩⟩⟩
      | true =>
        obtain ⟨err', listener', hstart, hlist, hstarted⟩ :=
          @startAsync_eq { listener with clientList } hwf m.start
        refine ⟨err', listener', hstart, .inr ⟨hfull, by rw [hlist]; exact hinserted, ?_⟩⟩
        have hmem : ∀ sp, sp ∈ clientList.entries ↔ sp ∈ clientPack :: listener.clientList.entries := by
          intro sp
          rw [hentries, hentries']
          exact List.perm_middle.mem_iff
        rw [hstarted, Starts, Starts, and_iff_right hregisters]
        simp only [hmem, forall_true_left]
    · rw [if_pos herr]
      exact ⟨err, _, rfl, .inr ⟨hfull, hinserted, iff_of_false herr fun hok => herr (hregistered.mpr hok.1)⟩⟩

theorem givesBack_iff (h : listener.Inv) (hroom : 8 * listener.clientList.nextCap < 2 ^ 64)
    (m : AddMeets) {clientPack : SocketPackage} (runAsync : Bool)
    (hnot : clientPack ∉ listener.clientList.entries) :
    GivesBack m listener clientPack runAsync ↔ NoLaterFailure m listener clientPack runAsync := by
  obtain ⟨err, listener', hr, ⟨hfull, rfl, rfl⟩ | ⟨hfull, ⟨pre, post, -, hentries'⟩, hok⟩⟩ :=
    addSocketPackage_eq h hroom m clientPack runAsync
  · exact iff_of_true ⟨_, listener', hr, fun _ => hnot⟩ (.inl hfull)
  · have hmem : clientPack ∈ listener'.clientList.entries := by
      rw [hentries']
      exact List.mem_append_right _ List.mem_cons_self
    rw [NoLaterFailure, or_iff_right hfull, ← hok]
    constructor
    · rintro ⟨err', l', hr', hgone⟩
      cases hr.symm.trans hr'
      exact not_not.mp fun herr => hgone herr hmem
    · exact fun herr => ⟨err, listener', hr, fun hne => absurd herr hne⟩

theorem leavesNoTrace_iff (h : listener.Inv) (hroom : 8 * listener.clientList.nextCap < 2 ^ 64)
    (m : AddMeets) {sock : Int} (runAsync : Bool) (hsock : ¬sock < 0) {addr : Nat}
    (hpackage : m.package = some addr) (hfresh : ∀ sp ∈ listener.clientList.entries, sp.addr ≠ addr) :
    LeavesNoTrace m listener sock runAsync ↔ NoLaterFailure m listener ⟨addr, sock⟩ runAsync := by
  obtain ⟨err, listener', hr, hcases⟩ := addSocketPackage_eq h hroom m ⟨addr, sock⟩ runAsync
  have hadd : add m listener sock runAsync =
      .ok (err, if err ≠ .ok then [⟨addr, sock⟩] else [], listener') := by
    rw [add, if_neg hsock, hpackage]
    dsimp only
    rw [hr]
    rfl
  rcases hcases with ⟨hfull, rfl, rfl⟩ | ⟨hfull, ⟨pre, post, hentries, hentries'⟩, hok⟩
  · refine iff_of_true ⟨_, _, listener', hadd, fun _ => ⟨rfl, fun sp hsp hmem => ?_⟩⟩ (.inl hfull)
    rw [if_pos (by decide), List.mem_singleton] at hsp
    exact hfresh sp hmem (by rw [hsp])
  · rw [NoLaterFailure, or_iff_right hfull, ← hok]
    constructor
    · rintro ⟨err', freed, l', hr', htrace⟩
      cases hadd.symm.trans hr'
      refine not_not.mp fun herr => ?_
      -- The list with the package is longer than the one before.
      have hsame := congrArg List.length (htrace herr).1
      rw [hentries, hentries', List.length_append, List.length_append, List.length_cons] at hsame
      omega
    · exact fun herr => ⟨err, _, listener', hadd, fun hne => absurd herr hne⟩

/-- An error leaves a package in the list that the caller frees, exactly if the package was inserted and
a step after the insertion fails. -/
theorem add_leavesNoTrace_iff (h : listener.Inv) (hroom : 8 * listener.clientList.nextCap < 2 ^ 64)
    (m : AddMeets) (sock : Int) (runAsync : Bool)
    (hfresh : ∀ addr, m.package = some addr → ∀ sp ∈ listener.clientList.entries, sp.addr ≠ addr) :
    (∀ clientPack ∉ listener.clientList.entries,
      (GivesBack m listener clientPack runAsync ↔ NoLaterFailure m listener clientPack runAsync)) ∧
      (LeavesNoTrace m listener sock runAsync ↔ sock < 0 ∨
        ∀ addr, m.package = some addr → NoLaterFailure m listener ⟨addr, sock⟩ runAsync) := by
  refine ⟨fun clientPack hnot => givesBack_iff h hroom m runAsync hnot, ?_⟩
  by_cases hsock : sock < 0
  · exact iff_of_true ⟨.badArg, [], listener, if_pos hsock, fun _ => ⟨rfl, by simp⟩⟩ (.inl hsock)
  · rw [or_iff_right hsock]
    cases hpackage : m.package with
    | none =>
      refine iff_of_true ⟨.memErr, [], listener, ?_, fun _ => ⟨rfl, by simp⟩⟩ nofun
      rw [add, if_neg hsock, hpackage]
    | some addr =>
      rw [leavesNoTrace_iff h hroom m runAsync hsock hpackage (hfresh addr hpackage)]
      exact ⟨fun hno _ heq => Option.some.inj heq ▸ hno, fun hno => hno addr rfl⟩

/-- Nothing fails but what is told. -/
def meets (accepted : Bool) : AddMeets :=
  ⟨some 300, ⟨true, true⟩, accepted, ⟨⟨true, true⟩, ⟨true, true⟩, 5, ⟨true, true⟩, fun _ => true, true,
    ⟨true, true⟩⟩⟩

theorem add_leavesNoTrace_iff_running :
    (∀ clientPack ∉ twoClients.clientList.entries,
      (GivesBack (meets true) twoClients clientPack true ↔
        NoLaterFailure (meets true) twoClients clientPack true)) ∧
      (LeavesNoTrace (meets true) twoClients 9 true ↔ (9 : Int) < 0 ∨
        ∀ addr, (meets true).package = some addr →
          NoLaterFailure (meets true) twoClients ⟨addr, 9⟩ true) :=
  add_leavesNoTrace_iff twoClients_inv (by decide) _ _ _ (by
    rintro addr ⟨⟩
    decide)

/-- The loop runs, and epoll refuses the socket: the package is freed, and stays in the list. -/
theorem add_frees_listed :
    (∃ listener, add (meets false) twoClients 9 false = .ok (.unknownErr, [⟨300, 9⟩], listener) ∧
      listener.clientList.entries = [⟨100, 7⟩, ⟨200, 8⟩, ⟨300, 9⟩]) ∧
      ¬GivesBack (meets false) twoClients ⟨300, 9⟩ false ∧
      ¬LeavesNoTrace (meets false) twoClients 9 false := by
  refine ⟨⟨_, by rfl, by decide⟩, ?_, ?_⟩
  · rintro ⟨err, listener', hr, hgone⟩
    cases hr
    exact absurd (hgone (by decide)) (by decide)
  · rintro ⟨err, freed, listener', hr, htrace⟩
    cases hr
    exact absurd (htrace (by decide)).1 (by decide)

end ClientListener

end AlibC
