import AlibC.ArrayListRuns
import AlibC.Epoll

/-! The loop of `FdServer`: a batch of epoll events, handled one after the other against the list of
clients. -/
namespace AlibC

open CLang Machine

/-- `fds_package` with its address. -/
structure FdsPackage where
  addr : Nat
  sock : Int
deriving DecidableEq, Repr

structure FdServer where
  sock : Int
  efd : Int
  threadStop : Bool
  clients : ArrayList FdsPackage
deriving DecidableEq, Repr

/-- What the handling of one event meets: the results of `accept`, `malloc` and `epoll_ctl`, the
descriptor that `ancil_recv_fd` receives, and what the callbacks return, `none` for one that is not set. -/
structure FdMeets where
  newSock : Int
  newClient : Option Nat
  onConnect : Option Nat
  registered : Int
  newFd : Option Int
  onReceive : Option Nat
  onDisconnect : Option Nat

/-- What is done to descriptors and clients. -/
inductive FdAct where
  | lookUp (fd : Int)
  | close (fd : Int)
  | receive (fd : Int)
  | onConnect (client : FdsPackage)
  | onReceive (client : FdsPackage) (fd : Int)
  | onDisconnect (client : FdsPackage)
  /-- `free_fds_package`, which closes the socket. -/
  | free (client : FdsPackage)
  /-- `FdServer_stop`, which frees all clients. -/
  | stop (clients : List FdsPackage)
deriving DecidableEq, Repr

namespace FdServer

/-- `FdServer_stop`. -/
def stop (server : FdServer) : Outcome (List FdAct × FdServer) := do
  let (freed, clients) ← server.clients.clear
  return ([.stop freed], { sock := -1, efd := -1, threadStop := true, clients })

/-- The user's `on_disconnect` callback. -/
def disconnect (m : FdMeets) (server : FdServer) (package : FdsPackage) :
    Outcome (List FdAct × FdServer) :=
  match m.onDisconnect with
  | none => .ok ([], server)
  | some rval =>
    if asks rval SCB_RVAL_STOP_SERVER then do
      let (acts, server) ← server.stop
      return (.onDisconnect package :: acts, server)
    else .ok ([.onDisconnect package], server)

/-- `FdServer_close_client`. -/
def closeClient (m : FdMeets) (server : FdServer) (package : FdsPackage) :
    Outcome (List FdAct × FdServer) := do
  let (acts, server) ← server.disconnect m package
  let (freed, clients) ← server.clients.remove (some package)
  return (acts ++ freed.map .free, { server with clients })

/-- How the handling of an event ends: with the next one, or at `f_return`. -/
abbrev Ending := Option AlibError

/-- The branch for a client that connects. -/
def serverEvent (m : FdMeets) (server : FdServer) (e : EpollEvent) :
    Outcome (List FdAct × Ending × FdServer) :=
  if e.failed then do
    let (acts, server) ← server.stop
    return (acts, some .checkErrno, server)
  else if m.newSock < 0 then .ok ([], none, server)
  else
    match m.newClient with
    | none => .ok ([.close m.newSock], some .memErr, server)
    | some addr =>
      let newClient : FdsPackage := ⟨addr, m.newSock⟩
      let rval := m.onConnect.getD 0
      let called := if m.onConnect.isSome then [.onConnect newClient] else []
      if asks rval SCB_RVAL_STOP_SERVER then .ok (called ++ [.free newClient], some .ok, server)
      else if asks rval SCB_RVAL_CLOSE_CLIENT then .ok (called ++ [.free newClient], none, server)
      else if m.registered < 0 then .ok (called ++ [.free newClient], none, server)
      else do
        let (stored, clients) ← server.clients.add (some newClient)
        if stored then return (called, none, { server with clients })
        else return (called ++ [.free newClient], some .memErr, { server with clients })

/-- The branch for a client socket. `firstFd` is `server->ep.events->data.fd`. -/
def clientEvent (firstFd : Int) (m : FdMeets) (server : FdServer) (e : EpollEvent) :
    Outcome (List FdAct × Ending × FdServer) := do
  match ← server.clients.findItemByValue fun package => package.sock = firstFd with
  | none => return (.lookUp firstFd :: if firstFd > -1 then [.close firstFd] else [], none, server)
  | some (_, package) =>
    if e.failed then do
      let (acts, server) ← server.closeClient m package
      return (.lookUp firstFd :: acts, none, server)
    else
      match m.newFd, m.onReceive with
      | some newFd, some rval =>
        let acts := [.lookUp firstFd, .receive firstFd, .onReceive package newFd]
        if asks rval SCB_RVAL_CLOSE_CLIENT || asks rval SCB_RVAL_STOP_SERVER then do
          let (closing, server) ← server.closeClient m package
          return (acts ++ closing, if asks rval SCB_RVAL_STOP_SERVER then some .ok else none, server)
        else return (acts, none, server)
      | _, _ => do
        let (acts, server) ← server.closeClient m package
        return (.lookUp firstFd :: .receive firstFd :: acts, none, server)

/-- One event of a batch whose first event has the descriptor `firstFd`. Nothing is done once the loop is
left. -/
def handleEvent (firstFd : Int) (s : FdServer × Ending) (i : EpollEvent × FdMeets) :
    Outcome (List FdAct × (FdServer × Ending)) :=
  if s.2.isSome then .ok ([], s)
  else do
    let (acts, ending, server) ←
      if i.1.fd = s.1.sock then s.1.serverEvent i.2 i.1 else s.1.clientEvent firstFd i.2 i.1
    return (acts, server, ending)

/-- What `epoll_wait` returns: a batch, or nothing within a second, or an error. -/
inductive Wait where
  | batch (first : EpollEvent × FdMeets) (rest : List (EpollEvent × FdMeets))
  | timeout
  | error

/-- `f_return`. -/
def leave (server : FdServer) (rval : AlibError) : Outcome (List (List FdAct) × (FdServer × Ending)) := do
  let (acts, server) ← server.stop
  return ([acts], server, some rval)

/-- One turn of `run_loop`. Nobody else closes the sockets during a wait. -/
def waitStep (s : FdServer × Ending) (w : Wait) : Outcome (List (List FdAct) × (FdServer × Ending)) :=
  if s.2.isSome then .ok ([], s)
  else if s.1.sock > -1 ∧ s.1.efd > -1 then
    match w with
    | .timeout => .ok ([], s)
    | .error => if s.1.threadStop then s.1.leave .ok else .ok ([], s)
    | .batch first rest => do
      let (acts, server, ending) ← run (handleEvent first.1.fd) (s.1, none) (first :: rest)
      match ending with
      | none => return (acts, server, none)
      | some rval => do
        let (stopped, s) ← server.leave rval
        return (acts ++ stopped, s)
  else s.1.leave .ok

/-- `run_loop`, for as many waits as are told. -/
def runLoop (server : FdServer) (waits : List Wait) :
    Outcome (List (List (List FdAct)) × (FdServer × Ending)) := run waitStep (server, none) waits

end FdServer

/-- Something that is done for an event on the descriptor `fd` is done to the client with this descriptor
or, if there is none, to the descriptor itself. A server that is stopped frees all its clients. -/
def FdAct.Concerns (clients : List FdsPackage) (fd : Int) : FdAct → Prop
  | .lookUp d | .receive d => d = fd
  | .close d => d = fd ∧ ∀ client ∈ clients, client.sock ≠ fd
  | .onReceive client _ | .onDisconnect client | .free client => client ∈ clients ∧ client.sock = fd
  | .onConnect _ => False
  | .stop _ => True

/-- An event is handled against its own client, and the other clients stay in the list unless the server
is stopped. -/
structure HandledOwn (server : FdServer) (e : EpollEvent) (acts : List FdAct) (server' : FdServer) :
    Prop where
  own : e.fd ≠ server.sock → .lookUp e.fd ∈ acts ∧ ∀ act ∈ acts, act.Concerns server.clients.entries e.fd
  others : (∀ freed, .stop freed ∉ acts) → ∀ client ∈ server.clients.entries,
    e.fd = server.sock ∨ client.sock ≠ e.fd → client ∈ server'.clients.entries

namespace FdServer

/-- The event is handled right. -/
def Right (firstFd : Int) (s : FdServer × Ending) (i : EpollEvent × FdMeets) : Prop :=
  s.2 = none → ∃ acts s', handleEvent firstFd s i = .ok (acts, s') ∧ HandledOwn s.1 i.1 acts s'.1

/-- The event is one of the server socket, or has the descriptor of the first event of its batch. -/
def LikeFirst (firstFd : Int) (s : FdServer × Ending) (i : EpollEvent × FdMeets) : Prop :=
  s.2 = none → i.1.fd = s.1.sock ∨ i.1.fd = firstFd

/-- The list of clients may grow. -/
def Room (s : FdServer × Ending) (_ : EpollEvent × FdMeets) : Prop := 8 * s.1.clients.nextCap < 2 ^ 64

/-- What holds of each event of a batch, in the state in which it is reached. -/
def EachEvent (P : Int → FdServer × Ending → EpollEvent × FdMeets → Prop) (s : FdServer × Ending)
    (w : Wait) : Prop :=
  match w with
  | .batch first rest => s.2 = none → s.1.sock > -1 ∧ s.1.efd > -1 →
    AllSteps (handleEvent first.1.fd) (P first.1.fd) (s.1, none) (first :: rest)
  | _ => True

/-- The list of clients is as it should be. -/
structure Inv (server : FdServer) : Prop where
  wf : server.clients.WF
  capacity_le : server.clients.capacity ≤ server.clients.maxCap

variable {server : FdServer} {m : FdMeets} {e : EpollEvent} {package : FdsPackage}

theorem stop_eq (h : server.Inv) :
    ∃ freed server', server.stop = .ok ([.stop freed], server') ∧ server'.Inv := by
  obtain ⟨freed, clients, hclear, hwf, hcap, hmax⟩ := ArrayList.clear_eq h.wf
  exact ⟨freed, _, by rw [stop, hclear]; rfl, hwf, by rw [hcap, hmax]; exact h.capacity_le⟩

theorem remove_client (h : server.Inv) (package : FdsPackage) :
    ∃ freed clients, server.clients.remove (some package) = .ok (freed, clients) ∧
      Inv { server with clients } ∧ (∀ c ∈ freed, c = package) ∧
      ∀ c ∈ server.clients.entries, c ≠ package → c ∈ clients.entries := by
  rcases ArrayList.remove_item h.wf package with
    ⟨-, hr⟩ | ⟨clients, pre, post, hr, hwf, hentries, hentries', hcap, hmax, -⟩
  · exact ⟨[], _, hr, h, by simp, fun c hc _ => hc⟩
  · refine ⟨_, clients, hr, ⟨hwf, by rw [hcap, hmax]; exact h.capacity_le⟩, ?_, fun c hc hne => ?_⟩
    · split <;> simp
    · rw [hentries] at hc
      rw [hentries']
      rcases List.mem_append.mp hc with hpre | hpost
      · exact List.mem_append_left _ hpre
      · exact List.mem_append_right _ ((List.mem_cons.mp hpost).resolve_left hne)

/-- What the callback leaves before the client is removed. -/
theorem disconnect_eq (h : server.Inv) (m : FdMeets) (package : FdsPackage) :
    ∃ acts server', server.disconnect m package = .ok (acts, server') ∧ server'.Inv ∧
      (∀ act ∈ acts, act = .onDisconnect package ∨ ∃ freed, act = .stop freed) ∧
      ((∀ freed, .stop freed ∉ acts) → server' = server) := by
  rw [disconnect]
  cases m.onDisconnect with
  | none => exact ⟨[], server, rfl, h, by simp, fun _ => rfl⟩
  | some rval =>
    dsimp only
    split
    · obtain ⟨freed, server', hr, h'⟩ := stop_eq h
      refine ⟨[.onDisconnect package, .stop freed], server', ?_, h', by simp, fun hno => ?_⟩
      · rw [hr]
        rfl
      · exact absurd (List.mem_cons_of_mem _ List.mem_cons_self) (hno freed)
    · exact ⟨[.onDisconnect package], server, rfl, h, by simp, fun _ => rfl⟩

/-- The list stays as it should be, all that was done concerns the descriptor `fd`, and the clients with
other ones stay. -/
structure Leaves (server : FdServer) (fd : Int) (acts : List FdAct) (server' : FdServer) : Prop where
  inv : server'.Inv
  concerns : ∀ act ∈ acts, act.Concerns server.clients.entries fd
  others : (∀ freed, .stop freed ∉ acts) → ∀ c ∈ server.clients.entries, c.sock ≠ fd →
    c ∈ server'.clients.entries

variable {fd : Int} {acts : List FdAct} {server' : FdServer}

theorem Leaves.refl (h : server.Inv) (fd : Int) : Leaves server fd [] server :=
  ⟨h, by simp, fun _ c hc _ => hc⟩

theorem Leaves.cons (h : Leaves server fd acts server') {act : FdAct}
    (hact : act.Concerns server.clients.entries fd) : Leaves server fd (act :: acts) server' :=
  ⟨h.inv, List.forall_mem_cons.mpr ⟨hact, h.concerns⟩, fun hno =>
    h.others fun freed hin => hno freed (List.mem_cons_of_mem act hin)⟩

/-- A client that is closed is the only one that is touched, unless its callback stops the server. -/
theorem closeClient_eq (h : server.Inv) (m : FdMeets) (hmem : package ∈ server.clients.entries) :
    ∃ acts server', server.closeClient m package = .ok (acts, server') ∧
      Leaves server package.sock acts server' := by
  obtain ⟨acts, server₁, hcall, h₁, hacts, hsame⟩ := disconnect_eq h m package
  obtain ⟨freed, clients, hremove, h₂, hfreed, hothers⟩ := remove_client h₁ package
  refine ⟨acts ++ freed.map .free, _, ?_, h₂, fun act hact => ?_, fun hno c hc hne => ?_⟩
  · rw [closeClient, hcall, ok_bind]
    dsimp only
    rw [hremove]
    rfl
  · rcases List.mem_append.mp hact with hin | hin
    · rcases hacts act hin with rfl | ⟨freed, rfl⟩
      · exact ⟨hmem, rfl⟩
      · trivial
    · obtain ⟨c, hc, rfl⟩ := List.mem_map.mp hin
      rw [hfreed c hc]
      exact ⟨hmem, rfl⟩
  · rw [hsame fun freed hin => hno freed (List.mem_append_left _ hin)] at hothers
    exact hothers c hc fun heq => hne (by rw [heq])

/-- The clients that are there stay when another one connects. -/
theorem serverEvent_eq (h : server.Inv) (hroom : 8 * server.clients.nextCap < 2 ^ 64) (m : FdMeets)
    (e : EpollEvent) : ∃ acts ending server', server.serverEvent m e = .ok (acts, ending, server') ∧
      server'.Inv ∧ ((∀ freed, .stop freed ∉ acts) → ∀ c ∈ server.clients.entries,
        c ∈ server'.clients.entries) := by
  rw [serverEvent]
  by_cases hfailed : e.failed = true
  · obtain ⟨freed, server', hr, h'⟩ := stop_eq h
    rw [if_pos hfailed, hr]
    exact ⟨_, _, server', rfl, h', fun hno => absurd List.mem_cons_self (hno freed)⟩
  · rw [if_neg hfailed]
    by_cases hsock : m.newSock < 0
    · exact ⟨_, _, server, if_pos hsock, h, fun _ _ hc => hc⟩
    · rw [if_neg hsock]
      cases m.newClient with
      | none => exact ⟨_, _, server, rfl, h, fun _ _ hc => hc⟩
      | some addr =>
        dsimp only
        split
        · exact ⟨_, _, server, rfl, h, fun _ _ hc => hc⟩
        · split
          · exact ⟨_, _, server, rfl, h, fun _ _ hc => hc⟩
          · split
            · exact ⟨_, _, server, rfl, h, fun _ _ hc => hc⟩
            · obtain ⟨stored, clients, hadd, hwf, hcap, -, hall⟩ := ArrayList.add_keeps h.wf h.capacity_le hroom
                ⟨addr, m.newSock⟩
              rw [hadd, ok_bind]
              dsimp only
              split <;> exact ⟨_, _, _, rfl, ⟨hwf, hcap⟩, fun _ => hall⟩

/-- Only the client that is found is touched, and it has the first descriptor of the batch. -/
theorem clientEvent_eq (h : server.Inv) (firstFd : Int) (m : FdMeets) (e : EpollEvent) :
    ∃ acts ending server', server.clientEvent firstFd m e = .ok (.lookUp firstFd :: acts, ending, server') ∧
      Leaves server firstFd acts server' := by
  rw [clientEvent]
  rcases ArrayList.findItemByValue_entry h.wf fun package => decide (package.sock = firstFd) with
    ⟨hnone, hr⟩ | ⟨i, package, hmem, hfound, hr⟩
  · have hclose : FdAct.Concerns server.clients.entries firstFd (.close firstFd) :=
      ⟨rfl, fun c hc => by simpa using hnone c hc⟩
    rw [hr]
    refine ⟨_, none, server, rfl, ?_⟩
    split
    · exact (Leaves.refl h firstFd).cons hclose
    · exact Leaves.refl h firstFd
  · obtain rfl : package.sock = firstFd := of_decide_eq_true hfound
    obtain ⟨closing, server', hclose, hleaves⟩ := closeClient_eq h m hmem
    have hreceive : FdAct.Concerns server.clients.entries package.sock (.receive package.sock) := rfl
    have hcall : ∀ newFd, FdAct.Concerns server.clients.entries package.sock (.onReceive package newFd) :=
      fun _ => ⟨hmem, rfl⟩
    rw [hr, ok_bind]
    dsimp only
    rw [hclose]
    split
    · exact ⟨closing, none, server', rfl, hleaves⟩
    · cases m.newFd with
      | none => exact ⟨_, none, server', rfl, hleaves.cons hreceive⟩
      | some newFd =>
        cases m.onReceive with
        | none => exact ⟨_, none, server', rfl, hleaves.cons hreceive⟩
        | some rval =>
          dsimp only
          split
          · exact ⟨_, _, server', rfl, (hleaves.cons (hcall newFd)).cons hreceive⟩
          · exact ⟨_, none, server, rfl, ((Leaves.refl h _).cons (hcall newFd)).cons hreceive⟩

/-- One event: the list stays as it should be, and the event is handled against its own client if it has
the descriptor of the first one. -/
theorem handleEvent_eq (firstFd : Int) {s : FdServer × Ending} {i : EpollEvent × FdMeets} (h : s.1.Inv)
    (hroom : Room s i) : ∃ acts s', handleEvent firstFd s i = .ok (acts, s') ∧ s'.1.Inv ∧
      (s.2 = none → (i.1.fd ≠ s.1.sock → .lookUp firstFd ∈ acts) ∧
        (LikeFirst firstFd s i → HandledOwn s.1 i.1 acts s'.1)) := by
  obtain ⟨server, ending⟩ := s
  rw [handleEvent]
  cases ending with
  | some rval => exact ⟨[], (server, some rval), rfl, h, nofun⟩
  | none =>
    dsimp only
    rw [if_neg (by decide)]
    by_cases hserver : i.1.fd = server.sock
    · obtain ⟨acts, ending, server', hr, h', hothers⟩ := serverEvent_eq h hroom i.2 i.1
      rw [if_pos hserver, hr]
      exact ⟨acts, (server', ending), rfl, h', fun _ => ⟨fun hne => absurd hserver hne, fun _ =>
        ⟨fun hne => absurd hserver hne, fun hno c hc _ => hothers hno c hc⟩⟩⟩
    · obtain ⟨acts, ending, server', hr, hleaves⟩ := clientEvent_eq h firstFd i.2 i.1
      rw [if_neg hserver, hr]
      refine ⟨_, (server', ending), rfl, hleaves.inv, fun _ => ⟨fun _ => List.mem_cons_self, fun hlike => ?_⟩⟩
      obtain rfl := (hlike rfl).resolve_left hserver
      have hall := hleaves.cons (show FdAct.Concerns server.clients.entries i.1.fd (.lookUp i.1.fd) from rfl)
      exact ⟨fun _ => ⟨List.mem_cons_self, hall.concerns⟩, fun hno c hc hne =>
        hall.others hno c hc (hne.resolve_left hserver)⟩

/-- An event is handled right exactly if it is one of the server socket or has the descriptor of the
first one. -/
theorem right_iff {firstFd : Int} {s : FdServer × Ending} {i : EpollEvent × FdMeets} (h : s.1.Inv)
    (hroom : Room s i) : Right firstFd s i ↔ LikeFirst firstFd s i := by
  obtain ⟨acts, s', hr, -, hone⟩ := handleEvent_eq firstFd h hroom
  constructor
  · intro hright hnone
    obtain ⟨acts', s₁, hr', hown⟩ := hright hnone
    cases hr.symm.trans hr'
    by_cases hserver : i.1.fd = s.1.sock
    · exact .inl hserver
    · -- The search is for the first descriptor, and has to be for that of the event.
      have hfd : firstFd = i.1.fd := (hown.own hserver).2 _ ((hone hnone).1 hserver)
      exact .inr hfd.symm
  · exact fun hlike hnone => ⟨acts, s', hr, (hone hnone).2 hlike⟩

theorem handleEvent_keeps {firstFd : Int} {s s' : FdServer × Ending} {i : EpollEvent × FdMeets}
    {acts : List FdAct} (h : s.1.Inv) (hroom : Room s i) (hr : handleEvent firstFd s i = .ok (acts, s')) :
    s'.1.Inv := by
  obtain ⟨acts', s₁, hr', h', -⟩ := handleEvent_eq firstFd h hroom
  cases hr.symm.trans hr'
  exact h'

theorem leave_eq (h : server.Inv) (rval : AlibError) :
    ∃ acts s, server.leave rval = .ok (acts, s) ∧ s.1.Inv := by
  obtain ⟨freed, server', hstop, h'⟩ := stop_eq h
  exact ⟨_, _, by rw [leave, hstop]; rfl, h'⟩

/-- A turn of the loop ends, and keeps the list as it should be. -/
theorem waitStep_eq {s : FdServer × Ending} {w : Wait} (h : s.1.Inv)
    (hroom : EachEvent (fun _ => Room) s w) : ∃ acts s', waitStep s w = .ok (acts, s') ∧ s'.1.Inv := by
  obtain ⟨server, ending⟩ := s
  unfold waitStep
  cases ending with
  | some rval => exact ⟨[], _, rfl, h⟩
  | none =>
    dsimp only at h ⊢
    rw [if_neg (by decide)]
    by_cases hopen : server.sock > -1 ∧ server.efd > -1
    · rw [if_pos hopen]
      cases w with
      | timeout => exact ⟨[], _, rfl, h⟩
      | error =>
        dsimp only
        split
        · exact leave_eq h .ok
        · exact ⟨[], _, rfl, h⟩
      | batch first rest =>
        obtain ⟨acts, ⟨server', ending⟩, hrun, h'⟩ := run_invariant
          (fun s i hs hi => by
            obtain ⟨acts, s', hr, h', -⟩ := handleEvent_eq first.1.fd hs hi
            exact ⟨acts, s', hr, h'⟩) (first :: rest) (server, none) h (hroom rfl hopen)
        dsimp only
        rw [hrun, ok_bind]
        cases ending with
        | none => exact ⟨acts, _, rfl, h'⟩
        | some rval =>
          obtain ⟨stopped, s, hleave, hs⟩ := leave_eq h' rval
          dsimp only
          rw [hleave]
          exact ⟨_, s, rfl, hs⟩
    · rw [if_neg hopen]
      exact leave_eq h .ok

/-- The loop runs without a fault. Every event of every batch is handled against its own client exactly
if every event that is reached is one of the server socket or has the descriptor of the first event of
its batch. -/
theorem runLoop_right_iff {server : FdServer} (h : server.Inv) (waits : List Wait)
    (hroom : AllSteps waitStep (EachEvent fun _ => Room) (server, none) waits) :
    (∃ acts s, runLoop server waits = .ok (acts, s)) ∧
      (AllSteps waitStep (EachEvent Right) (server, none) waits ↔
        AllSteps waitStep (EachEvent LikeFirst) (server, none) waits) := by
  constructor
  · obtain ⟨acts, s, hr, -⟩ := @run_invariant _ _ _ waitStep _ (fun s => s.1.Inv)
      (fun s w hs hw => waitStep_eq hs hw) waits (server, none) h hroom
    exact ⟨acts, s, hr⟩
  · refine @allSteps_congr _ _ _ waitStep _ _ _ (fun s => s.1.Inv) (fun s w hs hok => ?_)
      (fun s w acts s' hs hok _ hr => ?_) waits _ h hroom
    · cases w with
      | timeout => exact Iff.rfl
      | error => exact Iff.rfl
      | batch first rest =>
        refine forall_congr' fun hnone => forall_congr' fun hopen => ?_
        exact @allSteps_congr _ _ _ _ _ _ _ (fun s => s.1.Inv) (fun s i hs hi => right_iff hs hi)
          (fun s i acts s' hs hi _ hr => handleEvent_keeps hs hi hr) _ _ hs (hok hnone hopen)
    · obtain ⟨acts', s₁, hr', h'⟩ := waitStep_eq hs hok
      cases hr.symm.trans hr'
      exact h'

/-- A server with two clients. -/
def twoClients : FdServer :=
  ⟨3, 4, false, ⟨some [some ⟨100, 7⟩, some ⟨200, 8⟩], 2, 2, ULONG_MAX, true⟩⟩

theorem twoClients_inv : twoClients.Inv :=
  ⟨.mk_some rfl (by decide) rfl (by decide), by decide⟩

/-- Nothing unusual is met. -/
def quiet : FdMeets := ⟨-1, none, none, 0, some 9, some 0, none⟩

theorem runLoop_right_iff_single :
    (∃ acts s, runLoop twoClients [.batch (⟨8, EPOLLIN⟩, quiet) []] = .ok (acts, s)) ∧
      (AllSteps waitStep (EachEvent Right) (twoClients, none) [.batch (⟨8, EPOLLIN⟩, quiet) []] ↔
        AllSteps waitStep (EachEvent LikeFirst) (twoClients, none) [.batch (⟨8, EPOLLIN⟩, quiet) []]) :=
  runLoop_right_iff twoClients_inv _
    ⟨fun _ _ => ⟨(by decide : 8 * twoClients.clients.nextCap < 2 ^ 64), fun _ _ _ => trivial⟩,
      fun _ _ _ => trivial⟩

/-- Data from one client and an error of another one: the first client is closed for both. -/
theorem handleEvent_closes_first :
    run (handleEvent 7) (twoClients, none) [(⟨7, EPOLLIN⟩, quiet), (⟨8, EPOLLERR⟩, quiet)] =
        .ok ([[.lookUp 7, .receive 7, .onReceive ⟨100, 7⟩ 9], [.lookUp 7, .free ⟨100, 7⟩]],
          (⟨3, 4, false, ⟨some [none, some ⟨200, 8⟩], 1, 2, ULONG_MAX, true⟩⟩, none)) ∧
      ¬AllSteps waitStep (EachEvent Right) (twoClients, none)
        [.batch (⟨7, EPOLLIN⟩, quiet) [(⟨8, EPOLLERR⟩, quiet)]] := by
  refine ⟨by decide, fun h => ?_⟩
  have hbatch := h.1 rfl (by decide)
  have hsecond := (hbatch.2 _ _ (by rfl)).1
  obtain ⟨acts, s', hr, hown⟩ := hsecond rfl
  have hacts : acts = [.lookUp 7, .free ⟨100, 7⟩] := by
    cases hr
    rfl
  have hfd : (7 : Int) = 8 := (hown.own (by decide)).2 (.lookUp 7) (by rw [hacts]; exact List.mem_cons_self)
  exact absurd hfd (by decide)

end FdServer

end AlibC
