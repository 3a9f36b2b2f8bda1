import AlibC.ClientListener
import AlibC.Lib.Ledger

/-! `TcpServer`: the loop that takes in clients and listens to them, the functions that start and stop it,
and what becomes of the descriptors. `client_disconnected` calls none of these functions. -/
namespace AlibC

open CLang Machine

/-- The flags of the `flag_pole` that matter are fields of their own. -/
structure TcpServer where
  clientList : ArrayList SocketPackage
  sock : Int
  threadStop : Bool
  deleteState : Bool
deriving DecidableEq, Repr

/-- What a callback does: whether it calls `TcpServer_stop` or `freeTcpServer`, and what it returns. -/
structure TcpCallback where
  stops : Bool
  frees : Bool
  rval : Nat
deriving DecidableEq, Repr

/-- What the handling of one event meets: the results of `accept`, `malloc`, `EpollPack_add_sock` and
`recv`, and what the callbacks do, `none` for one that is not set. -/
structure TcpMeets where
  newSock : Int
  package : Option Nat
  clientConnected : Option TcpCallback
  added : Int
  dataReady : Option (TcpCallback × Int)
  received : Int
  dataIn : Option TcpCallback
  disconnected : Option Nat

/-- What is done to descriptors and clients. -/
inductive TcpAct where
  | accepted (fd : Int)
  | connected (client : SocketPackage)
  | dataReady (client : SocketPackage)
  | recv (fd : Int)
  | dataIn (client : SocketPackage) (count : Int)
  | disconnected (client : SocketPackage)
  /-- `close(new_sock)` -/
  | closeNew (fd : Int)
  /-- `close(event_it->data.fd)` -/
  | closeEvent (fd : Int)
  /-- `close(server->sock)` -/
  | closeServer (fd : Int)
  /-- `close_and_free_socket_package` -/
  | free (client : SocketPackage)
  /-- `free_socket_package` -/
  | release (client : SocketPackage)
  /-- The client is left to the callback. -/
  | handed (client : SocketPackage)
  /-- Nothing is done to the client any more. -/
  | dropped (client : SocketPackage)
  | socket (fd : Int)
  /-- `newEpollPack` -/
  | epollCreate (efd : Int)
  /-- `delEpollPack` -/
  | closeEpoll (efd : Int)
  /-- Nothing is done to the epoll package any more. -/
  | dropEpoll (efd : Int)
deriving DecidableEq, Repr

namespace TcpServer

/-- `TcpServer_stop_async`. -/
def stopAsync (server : TcpServer) : List TcpAct × TcpServer :=
  if server.sock > -1 then ([.closeServer server.sock], { server with sock := -1, threadStop := true })
  else ([], { server with threadStop := true })

/-- `TcpServer_stop` and `freeTcpServer` in a callback: nothing is waited for and nothing freed. -/
def callback (server : TcpServer) (does : TcpCallback) : List TcpAct × TcpServer :=
  let stopped := if does.stops || does.frees then server.stopAsync else ([], server)
  (stopped.1, { stopped.2 with deleteState := server.deleteState || does.frees })

/-- `remove_client_cb`. -/
def removeClientCb (disconnected : Option Nat) (server : TcpServer) (sp : SocketPackage) :
    List TcpAct × TcpServer :=
  match disconnected with
  | none => ([.free sp], server)
  | some rval =>
    if asks rval SCB_RVAL_STOP_SERVER then
      ([.disconnected sp, .closeServer server.sock, .free sp], { server with sock := -1 })
    else ([.disconnected sp, .free sp], server)

/-- `ArrayList_remove(server->client_list, client)`. -/
def remove (m : TcpMeets) (server : TcpServer) (client : SocketPackage) :
    Outcome (List TcpAct × TcpServer) := do
  let (freed, clientList) ← server.clientList.remove (some client)
  match freed with
  | [] => return ([], { server with clientList })
  | sp :: _ => return removeClientCb m.disconnected { server with clientList } sp

def removeIf (asked : Bool) (m : TcpMeets) (server : TcpServer) (client : SocketPackage) :
    Outcome (List TcpAct × TcpServer) :=
  if asked then server.remove m client else .ok ([], server)

/-- The value the loop is left with. -/
abbrev Ending := Option AlibError

/-- The client is put on the epoll list and into the list of clients. -/
def addClient (m : TcpMeets) (server : TcpServer) (client : SocketPackage) :
    Outcome (List TcpAct × Ending × TcpServer) :=
  if m.added < 0 then .ok ([.release client], none, server)
  else do
    let (stored, clientList) ← server.clientList.add (some client)
    if stored then return ([], none, { server with clientList })
    else return ([.release client], some .memErr, { server with clientList })

/-- An event on the server's socket. -/
def serverEvent (m : TcpMeets) (server : TcpServer) : Outcome (List TcpAct × Ending × TcpServer) :=
  if m.newSock < 0 then .ok ([], none, server)
  else
    match m.package with
    | none => .ok ([.accepted m.newSock, .closeNew m.newSock], some .memErr, server)
    | some addr =>
      let client : SocketPackage := ⟨addr, m.newSock⟩
      match m.clientConnected with
      | none => do
        let (acts, ending, server) ← server.addClient m client
        return (.accepted m.newSock :: acts, ending, server)
      | some does =>
        let (acts, server) := server.callback does
        let acts := .accepted m.newSock :: .connected client :: acts
        if server.deleteState then .ok (acts ++ [.dropped client], some .ok, server)
        else if asks does.rval SCB_RVAL_STOP_SERVER then .ok (acts ++ [.free client], some .ok, server)
        else if asks does.rval SCB_RVAL_CLOSE_CLIENT then .ok (acts ++ [.free client], none, server)
        else if asks does.rval SCB_RVAL_HANDLED then .ok (acts ++ [.handed client], none, server)
        else do
          let (added, ending, server) ← server.addClient m client
          return (acts ++ added, ending, server)

/-- What is done with the data of a client. -/
def takeData (m : TcpMeets) (server : TcpServer) (client : SocketPackage) (count : Int) :
    Outcome (List TcpAct × Ending × TcpServer) :=
  if count < 1 then do
    let (acts, server) ← server.remove m client
    return (acts, none, server)
  else
    match m.dataIn with
    | none => .ok ([], none, server)
    | some does =>
      let (acts, server) := server.callback does
      let acts := .dataIn client count :: acts
      if server.deleteState then .ok (acts, some .ok, server)
      else do
        let (removed, server) ← server.removeIf (asks does.rval SCB_RVAL_CLOSE_CLIENT) m client
        return (acts ++ removed, if asks does.rval SCB_RVAL_STOP_SERVER then some .ok else none, server)

/-- An event of a client that is in the list. -/
def clientEvent (m : TcpMeets) (server : TcpServer) (client : SocketPackage) :
    Outcome (List TcpAct × Ending × TcpServer) :=
  match m.dataReady with
  | none => do
    let (acts, ending, server) ← server.takeData m client m.received
    return (.recv client.sock :: acts, ending, server)
  | some (does, count) =>
    let (acts, server) := server.callback does
    let acts := .dataReady client :: acts
    if server.deleteState then .ok (acts, some .ok, server)
    else do
      let (removed, server) ← server.removeIf (asks does.rval SCB_RVAL_CLOSE_CLIENT) m client
      if asks does.rval SCB_RVAL_STOP_SERVER then return (acts ++ removed, some .ok, server)
      else if asks does.rval (SCB_RVAL_HANDLED ||| SCB_RVAL_CLOSE_CLIENT) then
        return (acts ++ removed, none, server)
      else do
        let (taken, ending, server) ← server.takeData m client count
        return (acts ++ removed ++ taken, ending, server)

/-- One event of a batch, by its descriptor. Nothing is done once the loop is left. -/
def handleEvent (s : TcpServer × Ending) (i : Int × TcpMeets) :
    Outcome (List TcpAct × (TcpServer × Ending)) :=
  if s.2.isSome then .ok ([], s)
  else if i.1 = s.1.sock then do
    let (acts, ending, server) ← s.1.serverEvent i.2
    return (acts, server, ending)
  else do
    match ← s.1.clientList.findItemByValue fun client => client.sock = i.1 with
    | none => return ([.closeEvent i.1], s)
    | some (_, client) => do
      let (acts, ending, server) ← s.1.clientEvent i.2 client
      return (acts, server, ending)

/-- What one turn of the loop meets: whether another thread calls `TcpServer_stop_async` while it waits,
the events that come, `none` if `epoll_wait` fails, and what `client_disconnected` returns for the clients
that are left when the loop is. -/
structure TcpTurn where
  stopped : Bool
  events : Option (List (Int × TcpMeets))
  disconnected : SocketPackage → Option Nat

/-- `f_return`: the list of clients is cleared. -/
def leave (t : TcpTurn) (server : TcpServer) (rval : AlibError) :
    Outcome (List TcpAct × (TcpServer × Ending)) := do
  let (freed, clientList) ← server.clientList.clear
  let (acts, server) := trace (fun server sp => removeClientCb (t.disconnected sp) server sp)
    { server with clientList } freed
  return (acts.flatten, server, some rval)

/-- One turn of `listen_loop`. -/
def turn (s : TcpServer × Ending) (t : TcpTurn) : Outcome (List TcpAct × (TcpServer × Ending)) :=
  if s.2.isSome then .ok ([], s)
  else if s.1.threadStop ∨ ¬s.1.sock > -1 then s.1.leave t .ok
  else
    let (stopped, server) := if t.stopped then s.1.stopAsync else ([], s.1)
    match t.events with
    | none =>
      if server.threadStop then do
        let (acts, s) ← server.leave t .ok
        return (stopped ++ acts, s)
      else .ok (stopped, server, none)
    | some events => do
      let (acts, server, ending) ← run handleEvent (server, none) events
      match ending with
      | none => return (stopped ++ acts.flatten, server, none)
      | some rval => do
        let (left, s) ← server.leave t rval
        return (stopped ++ acts.flatten ++ left, s)

/-- What `TcpServer_start` meets: the descriptor of `newEpollPack`, `none` if it fails, the results of
`socket`, `bind` and `listen`, of `EpollPack_add_sock` and of `malloc` in the loop, and the loop's turns. -/
structure TcpStart where
  pack : Option Int
  sock : Int
  bound : Bool
  listens : Bool
  added : Int
  buffer : Bool
  turns : List TcpTurn

/-- `bind_and_listen`. -/
def bindAndListen (m : TcpStart) (server : TcpServer) : List TcpAct × AlibError × TcpServer :=
  if server.sock > -1 then ([], .ok, server)
  else if m.sock < 0 then ([.socket m.sock], .fdErr, { server with sock := m.sock })
  else if m.bound && m.listens then ([.socket m.sock], .ok, { server with sock := m.sock })
  else ([.socket m.sock, .closeServer m.sock], .checkErrno, { server with sock := -1 })

/-- `listen_loop`, as far as the turns go. -/
def listenLoop (m : TcpStart) (server : TcpServer) : Outcome (List TcpAct × (TcpServer × Ending)) :=
  if m.buffer then do
    let (acts, s) ← run turn (server, none) m.turns
    return (acts.flatten, s)
  else .ok ([], server, some .memErr)

/-- `delEpollPack`. -/
def delEpollPack (efd : Int) : TcpAct := if efd = 0 then .dropEpoll efd else .closeEpoll efd

/-- `TcpServer_start`, outside a callback and with no thread of the server's running. `none` if it has
not returned. -/
def start (m : TcpStart) (server : TcpServer) : Outcome (List TcpAct × Option Int × TcpServer) :=
  if server.deleteState then .ok ([], some AlibError.stateErr.code, server)
  else
    let stopped := server.stopAsync
    match m.pack with
    | none => .ok (stopped.1, some AlibError.fdErr.code, stopped.2)
    | some efd =>
      let (bound, err, server) := bindAndListen m { stopped.2 with threadStop := false }
      let acts := .epollCreate efd :: (stopped.1 ++ bound)
      if err ≠ .ok then .ok (acts ++ [.dropEpoll efd], some err.code, server)
      else if m.added ≠ 0 then
        .ok (acts ++ server.stopAsync.1 ++ [delEpollPack efd], some m.added, server.stopAsync.2)
      else do
        let (turns, server, ending) ← server.listenLoop m
        match ending with
        | none => return (acts ++ turns, none, server)
        | some err =>
          if server.deleteState then return (acts ++ turns ++ [.dropEpoll efd], some err.code, server)
          else return (acts ++ turns ++ server.stopAsync.1 ++ [delEpollPack efd], some err.code,
            server.stopAsync.2)

end TcpServer

/-- A descriptor, if there is one. -/
def descriptor (fd : Int) : List Int := if fd > -1 then [fd] else []

/-- The descriptors that are closed. -/
def TcpAct.closed : TcpAct → List Int
  | .closeNew fd | .closeServer fd | .closeEpoll fd => descriptor fd
  | .free client => descriptor client.sock
  | _ => []

/-- The descriptors that stay open when the server lets go of them. -/
def TcpAct.left : TcpAct → List Int
  | .release client | .handed client | .dropped client => descriptor client.sock
  | .dropEpoll efd => descriptor efd
  | _ => []

def TcpAct.opened : TcpAct → List Int
  | .accepted fd | .socket fd | .epollCreate fd => descriptor fd
  | _ => []

namespace TcpServer

/-- The descriptors that the server is to close. -/
def held (server : TcpServer) : List Int :=
  descriptor server.sock ++ server.clientList.entries.flatMap fun client => descriptor client.sock

def ledger : Ledger TcpServer TcpAct Int where
  held := held
  comes := TcpAct.opened
  goes a := a.closed ++ a.left

/-- The list of clients is as it should be, and a server that was freed has no socket. -/
structure Inv (server : TcpServer) : Prop where
  wf : server.clientList.WF
  capacity_le : server.clientList.capacity ≤ server.clientList.maxCap
  freeItem : server.clientList.freeItem = true
  freed : server.deleteState = true → server.sock ≤ -1

variable {server : TcpServer} {client : SocketPackage} {m : TcpMeets} {P : Int → Prop}

/-- A close that an unknown event brings, or an epoll package that is lost. -/
def Stray : TcpAct → Bool
  | .closeEvent _ | .dropEpoll _ => true
  | _ => false

/-- What is given away is a descriptor of `P` or the server's own socket, and nothing else happens to
descriptors. -/
def About (P : Int → Prop) (act : TcpAct) : Prop :=
  Stray act = false ∧ ∀ fd ∈ ledger.goes act, P fd ∨ act = .closeServer fd

theorem about_nothing {act : TcpAct} (hstray : Stray act = false) (hgoes : ledger.goes act = []) :
    About P act :=
  ⟨hstray, fun fd hfd => by rw [hgoes] at hfd; cases hfd⟩

theorem mem_descriptor {fd fd' : Int} : fd ∈ descriptor fd' ↔ fd = fd' ∧ fd' > -1 := by
  rw [descriptor]
  split <;> simp_all

theorem about_one {act : TcpAct} {fd : Int} (hstray : Stray act = false)
    (hgoes : ledger.goes act = descriptor fd) (hfd : P fd) : About P act := by
  refine ⟨hstray, fun fd' hfd' => .inl ?_⟩
  rw [hgoes, mem_descriptor] at hfd'
  rwa [hfd'.1]

theorem about_server (fd : Int) : About P (.closeServer fd) := by
  refine ⟨rfl, fun fd' hfd' => .inr ?_⟩
  have hmem : fd' ∈ descriptor fd := by simpa [ledger, TcpAct.closed, TcpAct.left] using hfd'
  rw [(mem_descriptor.mp hmem).1]

theorem about_free (hP : P client.sock) : About P (.free client) :=
  about_one rfl (List.append_nil _) hP

/-- The handling goes on with the list as it should be and with every descriptor accounted for. -/
structure Keeps (P : Int → Prop) (server : TcpServer) (acts : List TcpAct) (server' : TcpServer) : Prop where
  inv : server'.Inv
  balanced : ledger.Balanced server acts server'
  about : ∀ act ∈ acts, About P act

theorem Keeps.refl (h : server.Inv) : Keeps P server [] server :=
  ⟨h, .refl server, fun _ h => absurd h List.not_mem_nil⟩

theorem Keeps.trans {server₁ server₂ : TcpServer} {as bs : List TcpAct} (h : Keeps P server as server₁)
    (h' : Keeps P server₁ bs server₂) : Keeps P server (as ++ bs) server₂ :=
  ⟨h'.inv, h.balanced.trans h'.balanced, List.forall_mem_append.mpr ⟨h.about, h'.about⟩⟩

/-- Something that concerns no descriptor is done first. -/
theorem Keeps.cons {server' : TcpServer} {acts : List TcpAct} (h : Keeps P server acts server')
    (act : TcpAct) (hstray : Stray act = false) (hact : act.opened = [] ∧ act.closed ++ act.left = []) :
    Keeps P server (act :: acts) server' :=
  ⟨h.inv, h.balanced.cons hact.1 hact.2, List.forall_mem_cons.mpr ⟨about_nothing hstray hact.2, h.about⟩⟩

/-- A client more in the list is a descriptor more. -/
theorem held_without (server₁ server₂ : TcpServer) {pre post : List SocketPackage}
    (hs : server₁.clientList.entries = pre ++ client :: post)
    (hs' : server₂.clientList.entries = pre ++ post) (hsock : server₂.sock = server₁.sock) :
    (held server₁).Perm (descriptor client.sock ++ held server₂) := by
  rw [held, held, hs, hs', hsock, List.flatMap_append, List.flatMap_cons, List.flatMap_append]
  refine List.perm_iff_count.mpr fun k => ?_
  simp only [List.count_append]
  omega

theorem mem_held {fd : Int} : fd ∈ held server ↔
    (fd = server.sock ∨ ∃ client ∈ server.clientList.entries, fd = client.sock) ∧ fd > -1 := by
  simp only [held, List.mem_append, List.mem_flatMap, mem_descriptor]
  constructor
  · rintro (⟨rfl, hfd⟩ | ⟨client, hclient, rfl, hfd⟩)
    · exact ⟨.inl rfl, hfd⟩
    · exact ⟨.inr ⟨client, hclient, rfl⟩, hfd⟩
  · rintro ⟨rfl | ⟨client, hclient, rfl⟩, hfd⟩
    · exact .inl ⟨rfl, hfd⟩
    · exact .inr ⟨client, hclient, rfl, hfd⟩

/-- The server's socket is closed at most once. -/
theorem stopAsync_keeps (h : server.Inv) : Keeps P server server.stopAsync.1 server.stopAsync.2 := by
  rw [stopAsync]
  split
  · rename_i hopen
    refine ⟨⟨h.wf, h.capacity_le, h.freeItem, fun _ => Int.le_refl _⟩, @Ledger.balanced_give _ _ _ _ _ _ _ server.sock rfl ?_ ?_,
      fun act hact => by rw [List.mem_singleton.mp hact]; exact about_server _⟩
    · exact (List.append_nil _).trans (if_pos hopen)
    · change (held server).Perm (server.sock :: _)
      rw [held, descriptor, if_pos hopen]
      exact .refl _
  · exact ⟨⟨h.wf, h.capacity_le, h.freeItem, h.freed⟩, .refl server, fun _ h => absurd h List.not_mem_nil⟩

theorem stopAsync_list (server : TcpServer) : server.stopAsync.2.clientList = server.clientList := by
  rw [stopAsync]
  split <;> rfl

theorem stopAsync_deleteState (server : TcpServer) : server.stopAsync.2.deleteState = server.deleteState := by
  rw [stopAsync]
  split <;> rfl

theorem stopAsync_sock (server : TcpServer) : server.stopAsync.2.sock ≤ -1 := by
  rw [stopAsync]
  split
  · exact Int.le_refl _
  · rename_i hclosed
    dsimp only
    omega

theorem callback_keeps (h : server.Inv) (does : TcpCallback) :
    Keeps P server (server.callback does).1 (server.callback does).2 := by
  unfold callback
  cases hstops : does.stops || does.frees with
  | true =>
    obtain ⟨hinv, hbal, habout⟩ := stopAsync_keeps (P := P) h
    exact ⟨⟨hinv.wf, hinv.capacity_le, hinv.freeItem, fun _ => stopAsync_sock server⟩, hbal, habout⟩
  | false =>
    have hfrees := (Bool.or_eq_false_iff.mp hstops).2
    refine ⟨⟨h.wf, h.capacity_le, h.freeItem, fun hdel => h.freed ?_⟩, .refl server,
      fun _ h => absurd h List.not_mem_nil⟩
    simpa [hfrees] using hdel

theorem callback_list (server : TcpServer) (does : TcpCallback) :
    (server.callback does).2.clientList = server.clientList := by
  unfold callback
  cases does.stops || does.frees with
  | true => exact stopAsync_list server
  | false => rfl

/-- With a descriptor that is in the hands of the handling itself, everything is accounted for. -/
structure Settles (P : Int → Prop) (fd : Int) (server : TcpServer) (acts : List TcpAct)
    (server' : TcpServer) : Prop where
  inv : server'.Inv
  opened : acts.flatMap TcpAct.opened = []
  perm : (descriptor fd ++ held server).Perm (acts.flatMap ledger.goes ++ held server')
  about : ∀ act ∈ acts, About P act

/-- One action gives the descriptor away. -/
theorem Settles.one (act : TcpAct) (h : server.Inv) {fd : Int} (hstray : Stray act = false)
    (hopened : act.opened = []) (hgoes : ledger.goes act = descriptor fd) (hfd : P fd) :
    Settles P fd server [act] server := by
  refine ⟨h, ?_, ?_, fun act' hact' => ?_⟩
  · rw [List.flatMap_singleton, hopened]
  · rw [List.flatMap_singleton, hgoes]
  · rw [List.mem_singleton.mp hact']
    exact about_one hstray hgoes hfd

/-- A client that has left the list is closed, and the server's socket if it is asked for. -/
theorem removeClientCb_settles (h : server.Inv) (disconnected : Option Nat) (sp : SocketPackage)
    (hP : P sp.sock) : Settles P sp.sock server (removeClientCb disconnected server sp).1
      (removeClientCb disconnected server sp).2 ∧
        (removeClientCb disconnected server sp).2.clientList = server.clientList := by
  have hfree : Settles P sp.sock server [.free sp] server :=
    .one _ h rfl rfl (List.append_nil _) hP
  have htold : About P (.disconnected sp) := about_nothing rfl rfl
  unfold removeClientCb
  cases disconnected with
  | none => exact ⟨hfree, rfl⟩
  | some rval =>
    dsimp only
    split
    · refine ⟨⟨⟨h.wf, h.capacity_le, h.freeItem, fun _ => Int.le_refl _⟩, rfl, ?_, ?_⟩, rfl⟩
      · have hclosed : descriptor (-1) = [] := rfl
        simp only [ledger, held, TcpAct.closed, TcpAct.left, List.flatMap_cons, List.flatMap_nil,
          List.append_nil, List.nil_append, List.append_assoc, hclosed]
        exact List.perm_append_comm_assoc _ _ _
      · exact List.forall_mem_cons.mpr ⟨htold, List.forall_mem_cons.mpr ⟨about_server _, hfree.about⟩⟩
    · exact ⟨⟨h, rfl, hfree.perm, List.forall_mem_cons.mpr ⟨htold, hfree.about⟩⟩, rfl⟩

theorem remove_keeps (h : server.Inv) (m : TcpMeets) (hP : P client.sock) :
    ∃ acts server', server.remove m client = .ok (acts, server') ∧ Keeps P server acts server' := by
  rcases ArrayList.remove_item h.wf client with
    ⟨-, hr⟩ | ⟨clientList, pre, post, hr, hwf, hentries, hentries', hcap, hmax, hfree⟩
  · exact ⟨[], server, by rw [remove, hr]; rfl, .refl h⟩
  · have h₁ : Inv { server with clientList } :=
      ⟨hwf, by rw [hcap, hmax]; exact h.capacity_le, hfree.trans h.freeItem, h.freed⟩
    obtain ⟨⟨hinv, hopened, hperm, habout⟩, -⟩ := removeClientCb_settles h₁ m.disconnected client hP
    refine ⟨(removeClientCb m.disconnected { server with clientList } client).1, _, ?_, hinv, ?_, habout⟩
    · rw [remove, hr, if_pos h.freeItem, ok_bind]
      rfl
    · change (List.flatMap TcpAct.opened _ ++ held server).Perm _
      rw [hopened]
      exact (held_without server { server with clientList } hentries hentries' rfl).trans hperm

theorem removeIf_keeps (h : server.Inv) (asked : Bool) (m : TcpMeets) (hP : P client.sock) :
    ∃ acts server', server.removeIf asked m client = .ok (acts, server') ∧ Keeps P server acts server' := by
  cases asked with
  | true => exact remove_keeps h m hP
  | false => exact ⟨[], server, rfl, .refl h⟩

/-- A client comes into the list, or its descriptor is let go of. -/
theorem addClient_settles (h : server.Inv) (hroom : 8 * server.clientList.nextCap < 2 ^ 64) (m : TcpMeets)
    (client : SocketPackage) (hP : P client.sock) : ∃ acts ending server', server.addClient m client = .ok (acts, ending, server') ∧
      Settles P client.sock server acts server' := by
  have hrelease : Settles P client.sock server [.release client] server :=
    .one _ h rfl rfl rfl hP
  rw [addClient]
  split
  · exact ⟨_, _, server, rfl, hrelease⟩
  · rcases ArrayList.add_item h.wf h.capacity_le hroom client with
      ⟨-, hr⟩ | ⟨-, clientList, pre, post, hr, hwf, hcap, hfree, hentries, hentries'⟩
    · rw [hr]
      exact ⟨_, _, server, rfl, hrelease⟩
    · rw [hr]
      refine ⟨_, _, { server with clientList }, rfl, ⟨hwf, hcap, hfree.trans h.freeItem, h.freed⟩, rfl, ?_,
        fun _ h => absurd h List.not_mem_nil⟩
      rw [List.flatMap_nil, List.nil_append]
      exact (held_without { server with clientList } server hentries' hentries rfl).symm

/-- A client is accepted, perhaps a callback called, and what happens then accounts for its descriptor. -/
theorem Keeps.accepted {server₁ server' : TcpServer} {acts rest : List TcpAct} {fd : Int}
    (h : Keeps P server acts server₁) (h' : Settles P fd server₁ rest server') :
    Keeps P server (.accepted fd :: (acts ++ rest)) server' := by
  refine ⟨h'.inv, Ledger.balanced_iff.mpr fun k => ?_, ?_⟩
  · have hbefore := Ledger.balanced_iff.mp h.balanced k
    have hafter := h'.perm.count_eq k
    have hnone : rest.flatMap ledger.comes = [] := h'.opened
    rw [List.count_append, List.count_append] at hafter
    rw [List.flatMap_cons, List.flatMap_cons, List.flatMap_append, List.flatMap_append, hnone,
      List.append_nil, List.count_append, List.count_append, List.count_append]
    change (descriptor fd).count k + _ + (held server).count k =
      List.count k [] + _ + (held server').count k
    change _ + (held server).count k = _ + (held server₁).count k at hbefore
    rw [List.count_nil]
    omega
  · exact List.forall_mem_cons.mpr ⟨about_nothing rfl rfl,
      List.forall_mem_append.mpr ⟨h.about, h'.about⟩⟩

/-- The list may grow. -/
def Room (s : TcpServer × Ending) (_ : Int × TcpMeets) : Prop := 8 * s.1.clientList.nextCap < 2 ^ 64

theorem serverEvent_keeps (h : server.Inv) (hroom : 8 * server.clientList.nextCap < 2 ^ 64)
    (m : TcpMeets) : ∃ acts ending server', server.serverEvent m = .ok (acts, ending, server') ∧
      Keeps (· = m.newSock) server acts server' := by
  have hnone : Keeps (· = m.newSock) server [] server := .refl h
  rw [serverEvent]
  split
  · exact ⟨_, _, server, rfl, hnone⟩
  · cases m.package with
    | none =>
      exact ⟨_, _, server, rfl, hnone.accepted
        (.one _ h rfl rfl (List.append_nil _) rfl)⟩
    | some addr =>
      cases m.clientConnected with
      | none =>
        obtain ⟨acts, ending, server', hr, hadd⟩ := addClient_settles (P := (· = m.newSock)) h hroom m
          ⟨addr, m.newSock⟩ rfl
        dsimp only
        rw [hr]
        exact ⟨_, ending, server', rfl, hnone.accepted hadd⟩
      | some does =>
        have hcall := (callback_keeps (P := (· = m.newSock)) h does).cons (.connected ⟨addr, m.newSock⟩)
          rfl ⟨rfl, rfl⟩
        have hlist := callback_list server does
        obtain ⟨acts, ending, server', hr, hadd⟩ := addClient_settles (P := (· = m.newSock)) hcall.inv
          (by rw [hlist]; exact hroom) m ⟨addr, m.newSock⟩ rfl
        have hfree := hcall.accepted (.one (.free ⟨addr, m.newSock⟩) hcall.inv
          rfl rfl (List.append_nil _) rfl)
        dsimp only
        split
        · exact ⟨_, _, _, rfl, hcall.accepted (.one _ hcall.inv rfl rfl rfl rfl)⟩
        · split
          · exact ⟨_, _, _, rfl, hfree⟩
          · split
            · exact ⟨_, _, _, rfl, hfree⟩
            · split
              · exact ⟨_, _, _, rfl, hcall.accepted (.one _ hcall.inv rfl rfl rfl rfl)⟩
              · rw [hr]
                exact ⟨_, ending, server', rfl, hcall.accepted hadd⟩

theorem takeData_keeps (h : server.Inv) (m : TcpMeets) (hP : P client.sock) (count : Int) :
    ∃ acts ending server', server.takeData m client count = .ok (acts, ending, server') ∧
      Keeps P server acts server' := by
  rw [takeData]
  split
  · obtain ⟨acts, server', hr, hkeeps⟩ := remove_keeps h m hP
    rw [hr]
    exact ⟨acts, none, server', rfl, hkeeps⟩
  · cases m.dataIn with
    | none => exact ⟨[], none, server, rfl, .refl h⟩
    | some does =>
      have hcall := (callback_keeps (P := P) h does).cons (.dataIn client count) rfl
        ⟨rfl, rfl⟩
      dsimp only
      split
      · exact ⟨_, _, _, rfl, hcall⟩
      · obtain ⟨acts, server', hr, hkeeps⟩ := removeIf_keeps hcall.inv
          (asks does.rval SCB_RVAL_CLOSE_CLIENT) m hP
        rw [hr]
        exact ⟨_, _, server', rfl, hcall.trans hkeeps⟩

theorem clientEvent_keeps (h : server.Inv) (m : TcpMeets) (client : SocketPackage) (hP : P client.sock) :
    ∃ acts ending server', server.clientEvent m client = .ok (acts, ending, server') ∧
      Keeps P server acts server' := by
  rw [clientEvent]
  cases m.dataReady with
  | none =>
    obtain ⟨acts, ending, server', hr, hkeeps⟩ := takeData_keeps h m hP m.received
    dsimp only
    rw [hr]
    exact ⟨_, ending, server', rfl, hkeeps.cons (.recv client.sock) rfl ⟨rfl, rfl⟩⟩
  | some ready =>
    obtain ⟨does, count⟩ := ready
    have hcall := (callback_keeps (P := P) h does).cons (.dataReady client) rfl ⟨rfl, rfl⟩
    dsimp only
    split
    · exact ⟨_, _, _, rfl, hcall⟩
    · obtain ⟨removed, server₁, hr, hkeeps⟩ := removeIf_keeps hcall.inv
        (asks does.rval SCB_RVAL_CLOSE_CLIENT) m hP
      have hkeeps := hcall.trans hkeeps
      rw [hr, ok_bind]
      dsimp only
      split
      · exact ⟨_, _, server₁, rfl, hkeeps⟩
      · split
        · exact ⟨_, _, server₁, rfl, hkeeps⟩
        · obtain ⟨taken, ending, server', hr', hkeeps'⟩ := takeData_keeps hkeeps.inv m hP count
          rw [hr']
          exact ⟨_, ending, server', rfl, hkeeps.trans hkeeps'⟩

/-- The ledger of the server in its loop. -/
def loopLedger : Ledger (TcpServer × Ending) TcpAct Int where
  held s := held s.1
  comes := ledger.comes
  goes := ledger.goes

/-- Whose descriptor an event is about. -/
def EventOf (s : TcpServer × Ending) (i : Int × TcpMeets) (fd : Int) : Prop :=
  fd = i.1 ∨ i.1 = s.1.sock ∧ fd = i.2.newSock

/-- What is done about one event: only an event of a descriptor that is not held has it closed. -/
structure Handled (s : TcpServer × Ending) (i : Int × TcpMeets) (acts : List TcpAct)
    (s' : TcpServer × Ending) : Prop where
  inv : s'.1.Inv
  balanced : loopLedger.Balanced s acts s'
  about : ∀ act ∈ acts, act = .closeEvent i.1 ∧ i.1 ∉ held s.1 ∨ About (EventOf s i) act

theorem About.mono {Q : Int → Prop} {act : TcpAct} (h : About P act) (hPQ : ∀ fd, P fd → Q fd) :
    About Q act :=
  ⟨h.1, fun fd hfd => (h.2 fd hfd).imp (hPQ fd) id⟩

theorem handleEvent_keeps {s : TcpServer × Ending} {i : Int × TcpMeets} (h : s.1.Inv) (hroom : Room s i) :
    ∃ acts s', handleEvent s i = .ok (acts, s') ∧ Handled s i acts s' := by
  obtain ⟨server, ending⟩ := s
  rw [handleEvent]
  split
  · exact ⟨[], _, rfl, h, .refl _, fun _ h => absurd h List.not_mem_nil⟩
  · split
    · rename_i hsock
      obtain ⟨acts, ending, server', hr, hkeeps⟩ := serverEvent_keeps h hroom i.2
      rw [hr]
      exact ⟨acts, (server', ending), rfl, hkeeps.inv, hkeeps.balanced, fun act hact =>
        .inr ((hkeeps.about act hact).mono fun _ hfd => .inr ⟨hsock, hfd⟩)⟩
    · rename_i hsock
      rcases ArrayList.findItemByValue_entry h.wf fun client => decide (client.sock = i.1) with
        ⟨hall, hr⟩ | ⟨k, client, -, hclient, hr⟩
      · rw [hr]
        refine ⟨_, _, rfl, h, (Ledger.Balanced.refl _).cons rfl rfl, fun act hact => .inl ?_⟩
        refine ⟨List.mem_singleton.mp hact, fun hheld => ?_⟩
        obtain ⟨hfd | ⟨client, hmem, hfd⟩, -⟩ := mem_held.mp hheld
        · exact hsock hfd
        · exact hall client hmem (decide_eq_true hfd.symm)
      · obtain ⟨acts, ending, server', hr', hkeeps⟩ := clientEvent_keeps (P := (· = i.1)) h i.2 client
          (of_decide_eq_true hclient)
        rw [hr, ok_bind]
        dsimp only
        rw [hr']
        exact ⟨acts, (server', ending), rfl, hkeeps.inv, hkeeps.balanced, fun act hact =>
          .inr ((hkeeps.about act hact).mono fun _ hfd => .inl hfd)⟩

/-- The clients that are cleared are closed one after the other. -/
theorem cleared_keeps (disconnected : SocketPackage → Option Nat) (clients : List SocketPackage) :
    ∀ {server : TcpServer}, server.Inv → ∃ actss server',
      trace (fun server sp => removeClientCb (disconnected sp) server sp) server clients = (actss, server') ∧
        server'.Inv ∧ server'.clientList = server.clientList ∧ actss.flatten.flatMap TcpAct.opened = [] ∧
        ((clients.flatMap fun client => descriptor client.sock) ++ held server).Perm
          (actss.flatten.flatMap ledger.goes ++ held server') ∧
        ∀ act ∈ actss.flatten, About (fun _ => True) act := by
  induction clients with
  | nil => exact fun h => ⟨[], _, rfl, h, rfl, rfl, .refl _, fun _ h => absurd h List.not_mem_nil⟩
  | cons sp clients ih =>
    intro server h
    obtain ⟨⟨h₁, hopened, hperm, habout⟩, hlist⟩ := removeClientCb_settles (P := fun _ => True) h
      (disconnected sp) sp trivial
    obtain ⟨actss, server', hr, hinv, hlist', hopened', hperm', habout'⟩ := ih h₁
    refine ⟨_, server', by rw [trace, hr], hinv, hlist'.trans hlist, ?_, ?_, ?_⟩
    · rw [List.flatten_cons, List.flatMap_append, hopened, hopened']
      rfl
    · refine List.perm_iff_count.mpr fun k => ?_
      have hfirst := hperm.count_eq k
      have hrest := hperm'.count_eq k
      rw [List.flatten_cons, List.flatMap_append, List.flatMap_cons]
      simp only [List.count_append] at hfirst hrest ⊢
      omega
    · rw [List.flatten_cons]
      exact List.forall_mem_append.mpr ⟨habout, habout'⟩

theorem leave_keeps (h : server.Inv) (t : TcpTurn) (rval : AlibError) :
    ∃ acts server', server.leave t rval = .ok (acts, (server', some rval)) ∧
      Keeps (fun _ => True) server acts server' ∧ server'.clientList.entries = [] := by
  obtain ⟨clientList, hr, hwf, hempty, -, hcap, hmax, hfree⟩ := ArrayList.clear_items h.wf
  have h₁ : Inv { server with clientList } :=
    ⟨hwf, by rw [hcap, hmax]; exact h.capacity_le, hfree.trans h.freeItem, h.freed⟩
  obtain ⟨actss, server', htrace, hinv, hlist, hopened, hperm, habout⟩ := cleared_keeps t.disconnected
    server.clientList.entries h₁
  refine ⟨actss.flatten, server', ?_, ⟨hinv, ?_, habout⟩, by rw [hlist]; exact hempty⟩
  · rw [leave, hr, if_pos h.freeItem, ok_bind]
    dsimp only
    rw [htrace]
    rfl
  · change (List.flatMap TcpAct.opened _ ++ held server).Perm _
    rw [hopened, List.nil_append]
    refine List.Perm.trans ?_ hperm
    have hnone : (clientList.entries.flatMap fun client => descriptor client.sock) = [] := by
      rw [hempty]
      rfl
    rw [held, held]
    dsimp only
    rw [hnone, List.append_nil]
    exact List.perm_append_comm

/-- What holds of each event that is handled, in the state in which it is reached. -/
def EachEvent (P : TcpServer × Ending → Int × TcpMeets → Prop) (s : TcpServer × Ending) (t : TcpTurn) :
    Prop :=
  s.2 = none → s.1.threadStop = false → s.1.sock > -1 →
    ∀ events, t.events = some events →
      AllSteps handleEvent P ((if t.stopped then s.1.stopAsync else ([], s.1)).2, none) events

/-- A loop that is left has no clients. -/
def Left (s : TcpServer × Ending) : Prop := s.2.isSome → s.1.clientList.entries = []

/-- An accepted descriptor is a new one. -/
def Fresh (s : TcpServer × Ending) (i : Int × TcpMeets) : Prop :=
  i.1 = s.1.sock → i.2.newSock ∉ held s.1

/-- The kernel reports the descriptors that are listened to, each at most once, and accepts new ones. -/
structure Honest (s : TcpServer × Ending) (t : TcpTurn) : Prop where
  once : ∀ events, t.events = some events → (events.map (·.1)).Nodup
  listed : ∀ events, t.events = some events → ∀ e ∈ events, e.1 ∈ held s.1
  fresh : EachEvent Fresh s t

/-- Only the server's own socket is closed twice. -/
def OnlyServer (acts : List TcpAct) : Prop := ∀ fd, .closeEvent fd ∈ acts → .closeServer fd ∈ acts

/-- No epoll package is lost. -/
def NoDrop (acts : List TcpAct) : Prop := ∀ efd, .dropEpoll efd ∉ acts

theorem NoDrop.append {as bs : List TcpAct} (h : NoDrop as) (h' : NoDrop bs) : NoDrop (as ++ bs) :=
  fun efd hmem => (List.mem_append.mp hmem).elim (h efd) (h' efd)

theorem noDrop {acts : List TcpAct} (h : ∀ act ∈ acts, About P act) : NoDrop acts :=
  fun _ hmem => absurd (h _ hmem).1 (by simp [Stray])

theorem onlyServer {acts : List TcpAct} (h : ∀ act ∈ acts, About P act) : OnlyServer acts :=
  fun fd hfd => absurd (h _ hfd).1 (by simp [Stray])

theorem OnlyServer.append {as bs : List TcpAct} (h : OnlyServer as) (h' : OnlyServer bs) :
    OnlyServer (as ++ bs) := fun fd hfd =>
  List.mem_append.mpr ((List.mem_append.mp hfd).imp (h fd) (h' fd))

/-- Before the events of a turn only the server's socket can go. -/
theorem Keeps.held {server' : TcpServer} {acts : List TcpAct} (h : Keeps (fun _ => False) server acts server')
    {fd : Int} (hfd : fd ∈ server.held) : fd ∈ server'.held ∨ .closeServer fd ∈ acts := by
  have hmem : fd ∈ acts.flatMap ledger.goes ++ server'.held :=
    h.balanced.subset (List.mem_append_right _ hfd)
  refine (List.mem_append.mp hmem).symm.imp id fun hgoes => ?_
  obtain ⟨act, hact, hfd'⟩ := List.mem_flatMap.mp hgoes
  rcases (h.about act hact).2 fd hfd' with hfalse | rfl
  · exact absurd hfalse id
  · exact hact

/-- What is done before a turn's events: perhaps another thread stops the server. -/
theorem stopped_keeps (h : server.Inv) (stopped : Bool) :
    Keeps P server (if stopped then server.stopAsync else ([], server)).1
      (if stopped then server.stopAsync else ([], server)).2 := by
  cases stopped with
  | true => exact stopAsync_keeps h
  | false => exact .refl h

/-- Another descriptor than the event's stays, unless it is the server's and is closed. -/
theorem Handled.held {s s' : TcpServer × Ending} {i : Int × TcpMeets} {acts : List TcpAct}
    (h : Handled s i acts s') (hfresh : Fresh s i) {fd : Int} (hfd : fd ∈ s.1.held) (hne : fd ≠ i.1) :
    fd ∈ s'.1.held ∨ .closeServer fd ∈ acts := by
  have hmem : fd ∈ acts.flatMap ledger.goes ++ s'.1.held :=
    h.balanced.subset (List.mem_append_right _ hfd)
  refine (List.mem_append.mp hmem).symm.imp id fun hgoes => ?_
  obtain ⟨act, hact, hfd'⟩ := List.mem_flatMap.mp hgoes
  rcases h.about act hact with ⟨rfl, -⟩ | habout
  · cases hfd'
  · rcases habout.2 fd hfd' with (heq | ⟨hsock, heq⟩) | rfl
    · exact absurd heq hne
    · exact absurd (heq ▸ hfd) (hfresh hsock)
    · exact hact

theorem Handled.noDrop {s s' : TcpServer × Ending} {i : Int × TcpMeets} {acts : List TcpAct}
    (h : Handled s i acts s') : NoDrop acts := by
  intro efd hmem
  rcases h.about _ hmem with ⟨heq, -⟩ | habout
  · cases heq
  · exact absurd habout.1 (by simp [Stray])

/-- The events of a turn. `closed` are the descriptors that the server has closed before. -/
theorem events_keep (closed : Int → Prop) : ∀ (events : List (Int × TcpMeets)) (s : TcpServer × Ending),
    s.1.Inv → AllSteps handleEvent Room s events →
      ∃ actss s', run handleEvent s events = .ok (actss, s') ∧ s'.1.Inv ∧
        loopLedger.Balanced s actss.flatten s' ∧ NoDrop actss.flatten ∧
        (AllSteps handleEvent Fresh s events → (events.map (·.1)).Nodup →
          (∀ e ∈ events, e.1 ∈ held s.1 ∨ closed e.1) →
            ∀ fd, .closeEvent fd ∈ actss.flatten → closed fd ∨ .closeServer fd ∈ actss.flatten) := by
  intro events
  induction events generalizing closed with
  | nil => exact fun s hs _ => ⟨[], s, rfl, hs, .refl s, fun _ => List.not_mem_nil,
      fun _ _ _ fd hfd => absurd hfd List.not_mem_nil⟩
  | cons i events ih =>
    intro s hs hroom
    obtain ⟨acts, s₁, he, hhandled⟩ := handleEvent_keeps hs hroom.1
    obtain ⟨actss, s₂, hr, h₂, hbal, hdrop, hrest⟩ := ih (fun fd => closed fd ∨ .closeServer fd ∈ acts) s₁
      hhandled.inv (hroom.2 acts s₁ he)
    refine ⟨acts :: actss, s₂, run_cons he hr, h₂, hhandled.balanced.trans hbal,
      hhandled.noDrop.append hdrop, ?_⟩
    intro hfresh honce hlisted fd hfd
    rw [List.map_cons, List.nodup_cons] at honce
    have hothers : ∀ e ∈ events, e.1 ∈ held s₁.1 ∨ closed e.1 ∨ .closeServer e.1 ∈ acts := by
      intro e hmem
      rcases hlisted e (List.mem_cons_of_mem _ hmem) with hheld | hclosed
      · have hne : e.1 ≠ i.1 := fun heq => honce.1 (heq ▸ List.mem_map_of_mem hmem)
        exact (hhandled.held hfresh.1 hheld hne).imp id .inr
      · exact .inr (.inl hclosed)
    rw [List.flatten_cons] at hfd ⊢
    rcases List.mem_append.mp hfd with hfd | hfd
    · rcases hhandled.about _ hfd with ⟨heq, hgone⟩ | habout
      · cases heq
        exact .inl ((hlisted i List.mem_cons_self).resolve_left hgone)
      · exact absurd habout.1 (by simp [Stray])
    · rcases hrest (hfresh.2 acts s₁ he) honce.2 hothers fd hfd with (hclosed | hacts) | hrest
      · exact .inl hclosed
      · exact .inr (List.mem_append_left _ hacts)
      · exact .inr (List.mem_append_right _ hrest)

theorem turn_keeps {s : TcpServer × Ending} {t : TcpTurn} (h : s.1.Inv) (hleft : Left s)
    (hroom : EachEvent Room s t) : ∃ acts s', turn s t = .ok (acts, s') ∧ (s'.1.Inv ∧ Left s') ∧
      loopLedger.Balanced s acts s' ∧ NoDrop acts ∧ (Honest s t → OnlyServer acts) := by
  obtain ⟨server, ending⟩ := s
  unfold turn
  cases ending with
  | some rval =>
    exact ⟨[], _, rfl, ⟨h, hleft⟩, .refl _, fun _ => List.not_mem_nil,
      fun _ fd hfd => absurd hfd List.not_mem_nil⟩
  | none =>
    rw [if_neg (by simp)]
    by_cases hends : server.threadStop = true ∨ ¬server.sock > -1
    · obtain ⟨acts, server', hr, hkeeps, hempty⟩ := leave_keeps h t .ok
      rw [if_pos hends]
      exact ⟨acts, _, hr, ⟨hkeeps.inv, fun _ => hempty⟩, hkeeps.balanced, noDrop hkeeps.about,
        fun _ => onlyServer hkeeps.about⟩
    · rw [if_neg hends]
      rw [not_or, not_not] at hends
      have hevents := hroom rfl (Bool.eq_false_iff.mpr hends.1) hends.2
      have hfresh : Honest (server, none) t → _ := fun hhonest =>
        hhonest.fresh rfl (Bool.eq_false_iff.mpr hends.1) hends.2
      have hstop := stopped_keeps (P := fun _ => False) h t.stopped
      dsimp only at hevents hfresh ⊢
      generalize (if t.stopped then server.stopAsync else ([], server)) = stopped at hstop hevents hfresh
      obtain ⟨stopped, server₁⟩ := stopped
      dsimp only at hstop hevents ⊢
      cases hcome : t.events with
      | none =>
        dsimp only
        split
        · obtain ⟨acts, server', hr, hkeeps, hempty⟩ := leave_keeps hstop.inv t .ok
          rw [hr]
          exact ⟨_, _, rfl, ⟨hkeeps.inv, fun _ => hempty⟩, hstop.balanced.trans hkeeps.balanced,
            (noDrop hstop.about).append (noDrop hkeeps.about),
            fun _ => (onlyServer hstop.about).append (onlyServer hkeeps.about)⟩
        · exact ⟨_, _, rfl, ⟨hstop.inv, fun hs => (by cases hs)⟩, hstop.balanced,
            noDrop hstop.about, fun _ => onlyServer hstop.about⟩
      | some events =>
        obtain ⟨actss, ⟨server₂, ending⟩, hr, hinv, hbal, hdrop, honly⟩ := events_keep
          (fun fd => .closeServer fd ∈ stopped) events (server₁, none) hstop.inv (hevents events hcome)
        have hkeeps : ledger.Balanced server (stopped ++ actss.flatten) server₂ := hstop.balanced.trans hbal
        have hdrop' := (noDrop hstop.about).append hdrop
        have honly' : Honest (server, none) t → OnlyServer (stopped ++ actss.flatten) := by
          intro hhonest fd hfd
          rcases List.mem_append.mp hfd with hfd | hfd
          · exact absurd (hstop.about _ hfd).1 (by simp [Stray])
          · exact List.mem_append.mpr (honly (hfresh hhonest events hcome) (hhonest.once events hcome)
              (fun e he => hstop.held (hhonest.listed events hcome e he)) fd hfd)
        dsimp only
        rw [hr, ok_bind]
        cases ending with
        | none => exact ⟨_, _, rfl, ⟨hinv, fun hs => by cases hs⟩, hkeeps, hdrop', honly'⟩
        | some rval =>
          obtain ⟨acts, server', hr', hkeeps', hempty⟩ := leave_keeps hinv t rval
          dsimp only
          rw [hr']
          exact ⟨_, _, rfl, ⟨hkeeps'.inv, fun _ => hempty⟩, hkeeps.trans hkeeps'.balanced,
            hdrop'.append (noDrop hkeeps'.about), fun hhonest => (honly' hhonest).append (onlyServer hkeeps'.about)⟩

/-- A server with one client. -/
def oneClient : TcpServer := ⟨⟨some [some ⟨100, 5⟩], 1, 1, ULONG_MAX, true⟩, 3, false, false⟩

theorem oneClient_inv : oneClient.Inv :=
  ⟨.mk_some rfl (by decide) rfl (by decide), by decide, rfl, fun h => by cases h⟩

/-- No callback is set, the peer has closed the connection, and `accept` fails. -/
def peerGone : TcpMeets := ⟨-1, none, none, 0, none, 0, none, none⟩

/-- The client's connection is closed, and the callback for that stops the server. -/
def stopsServer : TcpMeets := { peerGone with disconnected := some SCB_RVAL_STOP_SERVER }

/-- Events of the client and of the server. -/
def clientThenServer : TcpTurn := ⟨false, some [(5, stopsServer), (3, peerGone)], fun _ => none⟩

theorem clientThenServer_each {Q : TcpServer × Ending → Int × TcpMeets → Prop}
    (hclient : Q (oneClient, none) (5, stopsServer))
    (hserver : Q (⟨⟨some [none], 0, 1, ULONG_MAX, true⟩, -1, false, false⟩, none) (3, peerGone)) :
    EachEvent Q (oneClient, none) clientThenServer := by
  intro _ _ _ events hevents
  cases hevents
  exact .cons (o := [.recv 5, .disconnected ⟨100, 5⟩, .closeServer 3, .free ⟨100, 5⟩]) hclient (by decide)
    ⟨hserver, fun _ _ _ => trivial⟩

/-- The server's socket is closed a second time. -/
example : run turn (oneClient, none) [clientThenServer] =
    .ok ([[.recv 5, .disconnected ⟨100, 5⟩, .closeServer 3, .free ⟨100, 5⟩, .closeEvent 3]],
      (⟨⟨some [none], 0, 1, ULONG_MAX, true⟩, -1, false, false⟩, none)) := by decide

theorem listenLoop_keeps (h : server.Inv) (hempty : server.clientList.entries = []) (m : TcpStart)
    (hroom : AllSteps turn (EachEvent Room) (server, none) m.turns) :
    ∃ acts s, server.listenLoop m = .ok (acts, s) ∧ s.1.Inv ∧ ledger.Balanced server acts s.1 ∧
      NoDrop acts ∧ (s.2.isSome → s.1.clientList.entries = []) := by
  rw [listenLoop]
  cases m.buffer with
  | false => exact ⟨[], _, rfl, h, .refl server, fun _ => List.not_mem_nil, fun _ => hempty⟩
  | true =>
    have hstep := fun (s : TcpServer × Ending) (t : TcpTurn) (hs : s.1.Inv ∧ Left s) => turn_keeps (t := t) hs.1 hs.2
    obtain ⟨actss, s, hr, ⟨hinv, hleft⟩, hbal⟩ := Ledger.run_balanced (fun s t hs ht =>
      let ⟨acts, s', hr, hkeeps, hbal, _, _⟩ := hstep s t hs ht
      ⟨acts, s', hr, hkeeps, hbal⟩) m.turns (server, none) ⟨h, fun hs => by cases hs⟩ hroom
    obtain ⟨actss', s', hr', hdrop⟩ := run_outputs (fun s t hs ht =>
      let ⟨acts, s', hr, hkeeps, _, hdrop, _⟩ := hstep s t hs ht
      ⟨acts, s', hr, hkeeps, hdrop⟩) m.turns (server, none) ⟨h, fun hs => by cases hs⟩ hroom
    cases hr.symm.trans hr'
    rw [if_pos rfl, hr]
    refine ⟨actss.flatten, s, rfl, hinv, hbal, fun efd hmem => ?_, hleft⟩
    obtain ⟨acts, hacts, hmem⟩ := List.mem_flatten.mp hmem
    exact hdrop acts hacts efd hmem

/-- `bind_and_listen` does not get the socket to listen. -/
def Refused (m : TcpStart) : Prop := m.sock < 0 ∨ m.bound = false ∨ m.listens = false

/-- The server's socket is new, or there is none. -/
theorem bindAndListen_keeps (h : server.Inv) (hsock : server.sock ≤ -1) (hdel : server.deleteState = false)
    (m : TcpStart) : ∃ acts err server', bindAndListen m server = (acts, err, server') ∧ server'.Inv ∧
      ledger.Balanced server acts server' ∧ NoDrop acts ∧ server'.clientList = server.clientList ∧
      server'.deleteState = false ∧ (err ≠ .ok ↔ Refused m) ∧ (err ≠ .ok → server'.sock ≤ -1) := by
  have hnone : descriptor server.sock = [] := if_neg (by omega)
  rw [bindAndListen, if_neg (by omega)]
  have hinv : ∀ sock, Inv { server with sock } := fun sock =>
    ⟨h.wf, h.capacity_le, h.freeItem, fun hfreed => absurd (hdel.symm.trans hfreed) (by simp)⟩
  by_cases hneg : m.sock < 0
  · rw [if_pos hneg]
    refine ⟨_, _, _, rfl, hinv _, ?_, by simp [NoDrop], rfl, hdel, ?_, fun _ => by dsimp only; omega⟩
    · have : descriptor m.sock = [] := if_neg (by omega)
      simp [Ledger.Balanced, ledger, held, TcpAct.opened, TcpAct.closed, TcpAct.left, this, hnone]
    · exact ⟨fun _ => .inl hneg, fun _ => by decide⟩
  · rw [if_neg hneg]
    cases hlistens : m.bound && m.listens with
    | true =>
      rw [Bool.and_eq_true] at hlistens
      refine ⟨_, _, _, rfl, hinv _, ?_, by simp [NoDrop], rfl, hdel, ?_, fun hne => absurd rfl hne⟩
      · simp [Ledger.Balanced, ledger, held, TcpAct.opened, TcpAct.closed, TcpAct.left, hnone]
      · simp [Refused, hneg, hlistens]
    | false =>
      have hclosed : descriptor (-1) = [] := rfl
      refine ⟨_, _, _, rfl, hinv _, ?_, by simp [NoDrop], rfl, hdel, ?_, fun _ => Int.le_refl _⟩
      · simp [Ledger.Balanced, ledger, held, TcpAct.opened, TcpAct.closed, TcpAct.left, hnone, hclosed]
      · exact ⟨fun _ => .inr (Bool.and_eq_false_iff.mp hlistens), fun _ => by decide⟩

theorem held_eq_nil (hsock : server.sock ≤ -1) (hempty : server.clientList.entries = []) :
    held server = [] := by
  rw [held, hempty, descriptor, if_neg (by omega)]
  rfl

/-- What is left when `TcpServer_start` has returned. -/
structure Returned (m : TcpStart) (server : TcpServer) (acts : List TcpAct) (server' : TcpServer) : Prop where
  accounts : (acts.flatMap TcpAct.opened ++ held server).Perm (acts.flatMap fun a => a.closed ++ a.left)
  held_nil : held server' = []
  epoll : ∀ efd, .dropEpoll efd ∈ acts ↔ server.deleteState = false ∧ m.pack = some efd ∧
    (efd = 0 ∨ Refused m ∨ server'.deleteState = true)

/-- The epoll package comes first and goes last. -/
theorem Returned.bracket {server' : TcpServer} {acts : List TcpAct} {m : TcpStart} {efd : Int} {last : TcpAct}
    (hdel : server.deleteState = false) (hpack : m.pack = some efd)
    (hbal : ledger.Balanced server acts server') (hdrop : NoDrop acts) (hheld : held server' = [])
    (hlast : last = .dropEpoll efd ∧ (efd = 0 ∨ Refused m ∨ server'.deleteState = true) ∨
      last = .closeEpoll efd ∧ ¬(efd = 0 ∨ Refused m ∨ server'.deleteState = true)) :
    Returned m server (.epollCreate efd :: (acts ++ [last])) server' := by
  have hgoes : ledger.goes last = descriptor efd ∧ ledger.comes last = [] := by
    rcases hlast with ⟨rfl, -⟩ | ⟨rfl, -⟩
    · exact ⟨rfl, rfl⟩
    · exact ⟨List.append_nil _, rfl⟩
  refine ⟨?_, hheld, fun efd' => ?_⟩
  · have := hbal.bracket (.epollCreate efd) last rfl hgoes.2 hgoes.1
    rw [Ledger.Balanced, show ledger.held server' = [] from hheld, List.append_nil] at this
    exact this
  · have hmem : .dropEpoll efd' ∈ .epollCreate efd :: (acts ++ [last]) ↔ .dropEpoll efd' = last := by
      rw [List.mem_cons, List.mem_append, List.mem_singleton]
      exact ⟨fun h => (h.resolve_left (by simp)).resolve_left (hdrop efd'), fun h => .inr (.inr h)⟩
    rw [hmem]
    rcases hlast with ⟨rfl, hlost⟩ | ⟨rfl, hkept⟩
    · constructor
      · intro heq
        cases heq
        exact ⟨hdel, hpack, hlost⟩
      · rintro ⟨-, hpack', -⟩
        cases hpack.symm.trans hpack'
        rfl
    · refine ⟨fun heq => (by cases heq), ?_⟩
      rintro ⟨-, hpack', hlost⟩
      cases hpack.symm.trans hpack'
      exact absurd hlost hkept

theorem delEpollPack_cases (efd : Int) (lost : Prop) (hlost : ¬lost) :
    delEpollPack efd = .dropEpoll efd ∧ (efd = 0 ∨ lost) ∨
      delEpollPack efd = .closeEpoll efd ∧ ¬(efd = 0 ∨ lost) := by
  rw [delEpollPack]
  split
  · rename_i hzero
    exact .inl ⟨rfl, .inl hzero⟩
  · rename_i hzero
    exact .inr ⟨rfl, fun h => h.elim hzero hlost⟩

/-- When `TcpServer_start` returns, the server has no socket and no client. Every descriptor that was opened
is closed, but for those of the clients that are let go of, and for that of the epoll package exactly where
`bind_and_listen` fails, where the server is freed by a callback, and where it is 0. -/
theorem start_returned (h : server.Inv) (hempty : server.clientList.entries = []) (m : TcpStart)
    (hroom : AllSteps turn (EachEvent Room)
      ((bindAndListen m { server.stopAsync.2 with threadStop := false }).2.2, none) m.turns) :
    ∃ acts err server', start m server = .ok (acts, err, server') ∧
      (err.isSome → Returned m server acts server') := by
  rw [start]
  cases hdel : server.deleteState with
  | true =>
    have hheld := held_eq_nil (h.freed hdel) hempty
    refine ⟨_, _, _, rfl, fun _ => ⟨?_, hheld, fun efd => ?_⟩⟩
    · rw [hheld]
      exact .refl _
    · simp [hdel]
  | false =>
    have hstop := stopAsync_keeps (P := fun _ => True) h
    have hsock := stopAsync_sock server
    have hlist := stopAsync_list server
    have hdel' := (stopAsync_deleteState server).trans hdel
    generalize server.stopAsync = stopped at hroom hstop hsock hlist hdel' ⊢
    obtain ⟨stopped, server₀⟩ := stopped
    dsimp only at hroom hstop hsock hlist hdel' ⊢
    have hempty₀ : server₀.clientList.entries = [] := by rw [hlist, hempty]
    cases hpack : m.pack with
    | none =>
      have hheld := held_eq_nil hsock hempty₀
      refine ⟨_, _, _, rfl, fun _ => ⟨?_, hheld, fun efd => ?_⟩⟩
      · have := hstop.balanced
        rw [Ledger.Balanced, show ledger.held server₀ = [] from hheld, List.append_nil] at this
        exact this
      · simp [hpack, noDrop hstop.about efd]
    | some efd =>
      obtain ⟨bound, err, server₁, hbind, hinv₁, hbal₁, hdrop₁, hlist₁, hdel₁, hrefused,
        hsock₁⟩ :=
        @bindAndListen_keeps { server₀ with threadStop := false }
          ⟨hstop.inv.wf, hstop.inv.capacity_le, hstop.inv.freeItem, hstop.inv.freed⟩ hsock hdel' m
      rw [hbind] at hroom ⊢
      dsimp only at hroom ⊢
      have hempty₁ : server₁.clientList.entries = [] := by rw [hlist₁]; exact hempty₀
      have hbal : ledger.Balanced server (stopped ++ bound) server₁ := hstop.balanced.trans hbal₁
      have hdrop : NoDrop (stopped ++ bound) := (noDrop hstop.about).append hdrop₁
      by_cases hok : err = .ok
      · have hlistens : ¬Refused m := fun h => hrefused.mpr h hok
        -- what is done where the package is deleted at the end
        have hdelPack : ∀ {acts : List TcpAct} {server₂ : TcpServer}, server₂.Inv →
            ledger.Balanced server acts server₂ → NoDrop acts → server₂.clientList.entries = [] →
            server₂.deleteState = false → Returned m server
              (.epollCreate efd :: (acts ++ server₂.stopAsync.1 ++ [delEpollPack efd])) server₂.stopAsync.2 := by
          intro acts server₂ hinv hbal hdrop hempty hdel₂
          have hstop := stopAsync_keeps (P := fun _ => True) hinv
          refine .bracket hdel hpack (hbal.trans hstop.balanced) (hdrop.append (noDrop hstop.about))
            (held_eq_nil (stopAsync_sock server₂) (by rw [stopAsync_list, hempty])) ?_
          refine delEpollPack_cases efd _ (not_or.mpr ⟨hlistens, ?_⟩)
          rw [stopAsync_deleteState, hdel₂]
          exact Bool.false_ne_true
        rw [if_neg (by simp), if_neg (not_not.mpr hok)]
        split
        · exact ⟨_, _, _, rfl, fun _ => hdelPack hinv₁ hbal hdrop hempty₁ hdel₁⟩
        · obtain ⟨turns, ⟨server₂, ending⟩, hr, hinv₂, hbal₂, hdrop₂, hleft⟩ :=
            listenLoop_keeps hinv₁ hempty₁ m hroom
          have hbal := hbal.trans hbal₂
          have hdrop := hdrop.append hdrop₂
          rw [hr, ok_bind]
          cases ending with
          | none => exact ⟨_, none, _, rfl, fun hreturned => by cases hreturned⟩
          | some err =>
            have hempty₂ : server₂.clientList.entries = [] := hleft rfl
            dsimp only
            cases hdel₂ : server₂.deleteState with
            | true =>
              exact ⟨_, _, _, rfl, fun _ => .bracket hdel hpack hbal hdrop
                (held_eq_nil (hinv₂.freed hdel₂) hempty₂) (.inl ⟨rfl, .inr (.inr hdel₂)⟩)⟩
            | false => exact ⟨_, _, _, rfl, fun _ => hdelPack hinv₂ hbal hdrop hempty₂ hdel₂⟩
      · rw [if_neg (by simp), if_pos hok]
        exact ⟨_, _, _, rfl, fun _ => .bracket hdel hpack hbal hdrop (held_eq_nil (hsock₁ hok) hempty₁)
          (.inl ⟨rfl, .inr (.inl (hrefused.mp hok))⟩)⟩

/-- A server that was not started. -/
def unstarted : TcpServer := ⟨⟨none, 0, 0, ULONG_MAX, true⟩, -1, false, false⟩

/-- It gets a socket, and another thread stops it at once. -/
def stoppedAtOnce : TcpStart :=
  ⟨some 4, 3, true, true, 0, true, [⟨true, some [], fun _ => none⟩, ⟨false, none, fun _ => none⟩]⟩

theorem start_returned_stopped : ∃ acts err server', start stoppedAtOnce unstarted = .ok (acts, err, server') ∧
    (err.isSome → Returned stoppedAtOnce unstarted acts server') := by
  refine start_returned ⟨⟨rfl, by decide, rfl, by decide⟩, by decide, rfl, fun h => by cases h⟩ (by decide) stoppedAtOnce ?_
  refine .cons (o := [.closeServer 3]) (fun _ _ _ events hevents => ?_) (by rfl) ⟨?_, fun _ _ _ => trivial⟩
  · cases hevents
    trivial
  · intro _ hstop
    cases hstop

end TcpServer

end AlibC
