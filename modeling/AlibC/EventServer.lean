import AlibC.AlibStringMatch
import AlibC.ArrayListRuns
import AlibC.Epoll
import AlibC.Lib.Audit

/-! `EventServer`: what libevent calls, and what becomes of the memory, the data and the sockets of its
clients. The callbacks of the user call none of the server's functions but `EventServer_stop`. -/
namespace AlibC

open CLang Machine Audit

def ESCB_CLIENT_CLOSE : Nat := 1
def ESCB_SERVER_SHUTDOWN : Nat := 2

/-- `".quit"` -/
def DEFAULT_QUIT_COMMAND : Block := [46, 113, 117, 105, 116, 0]

/-- A pointer that is not `NULL`: one that was given, or what `malloc` has left in its place. -/
inductive EsPtr where
  | given (p : Nat)
  | junk
deriving DecidableEq, Repr

structure EscbPackage where
  addr : Nat
  data : Option EsPtr
  freeDataProc : Option EsPtr
deriving DecidableEq, Repr

/-- A `bufferevent` and what its callbacks are given. `reads` says whether `conn_readcb` is one of them. -/
structure EsClient where
  bev : Nat
  fd : Nat
  package : EscbPackage
  reads : Bool
deriving DecidableEq, Repr

/-- The callbacks of the user may be set at any time, so each event brings its own. -/
structure EventServer where
  addr : Nat
  callbackPackages : ArrayList EscbPackage
  clients : List EsClient
  isRunning : Bool
  handleQuitCommand : Bool
  quitCommand : Option Block
  quitCommandLen : Nat
deriving DecidableEq, Repr

/-- What is to be given back. -/
inductive EsResource where
  | block (addr : Nat)
  /-- The data of a client and the function to free it. -/
  | data (p value : Nat)
  | sock (fd : Nat)
deriving DecidableEq, Repr

inductive EsAct where
  | got (r : EsResource)
  | freed (r : EsResource)
  /-- Nothing is done to it any more. -/
  | left (r : EsResource)
  | dataIn (data : Option EsPtr) (bytes : Block)
  | disconnected (data : Option EsPtr)
  | loopexit
  | loopbreak
deriving DecidableEq, Repr

/-- What `client_con_cb` does: the data and the function that it sets, and what it returns. -/
structure EsConnect where
  rval : Nat
  data : Option (Option Nat)
  freeDataProc : Option (Option Nat)
deriving DecidableEq, Repr

/-- What `listener_cb` meets: the results of `malloc`, with whether the memory holds something else than
`NULL`, and of `bufferevent_socket_new`, `client_con_cb` if there is one, and whether there is a
`data_in_cb`. -/
structure EsAccept where
  fd : Nat
  package : Option Nat
  junkData : Bool
  junkProc : Bool
  bev : Option Nat
  clientCon : Option EsConnect
  dataIn : Bool
deriving DecidableEq, Repr

/-- What happens to a server. -/
inductive EsEvent where
  | accept (m : EsAccept)
  /-- Data has come in: whether `malloc` succeeds, and what `data_in_cb` returns, if there is one. -/
  | readable (bev : Nat) (data : Block) (buffer : Bool) (dataIn : Option Nat)
  /-- Another event of a client, and what `client_discon_cb` returns, if there is one. -/
  | event (bev : Nat) (connected : Bool) (clientDiscon : Option Nat)
  /-- A signal, and what `sig_cb` returns, if there is one. -/
  | signal (sig : Option Nat)
  | start
  | stop
  | setHandleQuitCommand (handle : Bool)
  /-- A C string, without the byte that ends it. -/
  | setQuitCommand (command : Option (List UInt8))
deriving DecidableEq, Repr

namespace EscbPackage

/-- What `client_con_cb` leaves in the package. -/
def fill (package : EscbPackage) (con : EsConnect) : EscbPackage :=
  { package with
    data := match con.data with
      | none => package.data
      | some value => value.map .given
    freeDataProc := match con.freeDataProc with
      | none => package.freeDataProc
      | some p => p.map .given }

/-- `if(package->free_data_proc && package->data) package->free_data_proc(package->data)` -/
def freeData (package : EscbPackage) : Outcome (List EsAct) :=
  match package.freeDataProc, package.data with
  | none, _ => .ok []
  | _, none => .ok []
  | some (.given p), some (.given value) => .ok [.freed (.data p value)]
  | _, _ => .error .dangling

/-- `free_callback_package`. -/
def free (package : EscbPackage) : Outcome (List EsAct) := do
  let acts ← package.freeData
  return acts ++ [.freed (.block package.addr)]

/-- The data that somebody has to free. -/
def owned (package : EscbPackage) : List EsResource :=
  match package.freeDataProc, package.data with
  | some (.given p), some (.given value) => [.data p value]
  | _, _ => []

end EscbPackage

/-- The package as `malloc` has it. -/
def EsAccept.fresh (m : EsAccept) (addr : Nat) : EscbPackage :=
  ⟨addr, if m.junkData then some .junk else none, if m.junkProc then some .junk else none⟩

namespace EventServer

/-- `EventServer_stop`. -/
def stop (server : EventServer) : List EsAct × EventServer := ([.loopexit], { server with isRunning := false })

/-- `bufferevent_free`, with `BEV_OPT_CLOSE_ON_FREE`. -/
def closeBev (server : EventServer) (client : EsClient) : List EsAct × EventServer :=
  ([.freed (.sock client.fd)], { server with clients := server.clients.erase client })

/-- `ArrayList_remove(server->callback_packages, package)`. -/
def removePackage (server : EventServer) (package : EscbPackage) : Outcome (List EsAct × EventServer) := do
  let (freed, callbackPackages) ← server.callbackPackages.remove (some package)
  match freed with
  | [] => return ([], { server with callbackPackages })
  | package :: _ => do
    let acts ← package.free
    return (acts, { server with callbackPackages })

def closeClient (server : EventServer) (client : EsClient) : Outcome (List EsAct × EventServer) := do
  let (acts, server) ← server.removePackage client.package
  return (acts ++ (closeBev server client).1, (closeBev server client).2)

def closeIf (asked : Bool) (server : EventServer) (client : EsClient) : Outcome (List EsAct × EventServer) :=
  if asked then server.closeClient client else .ok ([], server)

def stopIf (asked : Bool) (server : EventServer) : List EsAct × EventServer :=
  if asked then server.stop else ([], server)

/-- What is done with the answer of `data_in_cb` and of `client_discon_cb`. -/
def answer (server : EventServer) (client : EsClient) (rval : Nat) : Outcome (List EsAct × EventServer) := do
  let (closed, server) ← server.closeIf (asks rval ESCB_CLIENT_CLOSE) client
  return (closed ++ (stopIf (asks rval ESCB_SERVER_SHUTDOWN) server).1,
    (stopIf (asks rval ESCB_SERVER_SHUTDOWN) server).2)

/-- The client is taken in. -/
def addClient (server : EventServer) (m : EsAccept) (bev : Nat) (package : EscbPackage) :
    Outcome (List EsAct × EventServer) := do
  let clients := ⟨bev, m.fd, package, m.dataIn || server.handleQuitCommand⟩ :: server.clients
  if package.freeDataProc.isSome then do
    let (stored, callbackPackages) ← server.callbackPackages.add (some package)
    return (if stored then [] else (.block package.addr :: package.owned).map .left,
      { server with callbackPackages, clients })
  else return ([.left (.block package.addr)], { server with clients })

/-- `listener_cb`. -/
def listenerCb (server : EventServer) (m : EsAccept) : Outcome (List EsAct × EventServer) :=
  match m.package with
  | none => .ok ([.got (.sock m.fd), .left (.sock m.fd)], server)
  | some addr =>
    let got := [.got (.sock m.fd), .got (.block addr)]
    match m.bev with
    | none => .ok (got ++ [.left (.sock m.fd), .left (.block addr), .loopbreak], server)
    | some bev =>
      match m.clientCon with
      | none => do
        let (acts, server) ← server.addClient m bev { m.fresh addr with data := some (.given server.addr) }
        return (got ++ acts, server)
      | some con =>
        let package := (m.fresh addr).fill con
        let got := got ++ package.owned.map .got
        if asks con.rval ESCB_CLIENT_CLOSE then do
          let acts ← package.freeData
          return (got ++ [.freed (.sock m.fd)] ++ acts ++ [.left (.block addr)], server)
        else if asks con.rval ESCB_SERVER_SHUTDOWN then do
          let acts ← package.freeData
          return (got ++ .freed (.sock m.fd) :: server.stop.1 ++ acts ++ [.left (.block addr)], server.stop.2)
        else do
          let (acts, server) ← server.addClient m bev package
          return (got ++ acts, server)

/-- Is the data compared with the quit command? -/
def checksQuit (server : EventServer) (data : Block) : Bool :=
  server.handleQuitCommand && server.quitCommandLen ≤ data.length

/-- `str_match` with the quit command. The data is no C string unless the client has sent one. -/
def matchQuit (server : EventServer) (data : Block) (buffer : Bool) : Outcome Int :=
  strMatch (if buffer then some data else none) 0 (some (server.quitCommand.getD DEFAULT_QUIT_COMMAND)) 0

/-- What `conn_readcb` does, given how the data compares with the quit command. -/
def readData (server : EventServer) (client : EsClient) (data : Block) (dataIn : Option Nat) (matched : Int) :
    Outcome (List EsAct × EventServer) :=
  if matched = 0 then .ok ([.loopexit], server)
  else
    match dataIn with
    | none => .ok ([], server)
    | some rval => do
      let (acts, server) ← server.answer client rval
      return (.dataIn client.package.data data :: acts, server)

/-- `conn_readcb`. -/
def connReadcb (server : EventServer) (client : EsClient) (data : Block) (buffer : Bool)
    (dataIn : Option Nat) : Outcome (List EsAct × EventServer) :=
  if !buffer && !data.isEmpty then .error .nullDeref
  else do
    let matched ← if server.checksQuit data then server.matchQuit data buffer else .ok 1
    server.readData client data dataIn matched

/-- `conn_eventcb`. -/
def connEventcb (server : EventServer) (client : EsClient) (connected : Bool) (clientDiscon : Option Nat) :
    Outcome (List EsAct × EventServer) :=
  if connected then .ok ([], server)
  else
    match clientDiscon with
    | none => .ok (server.closeBev client)
    | some rval => do
      let (acts, server) ← server.answer client rval
      return (.disconnected client.package.data :: acts, server)

/-- `signal_cb`. -/
def signalCb (server : EventServer) (sig : Option Nat) : List EsAct × EventServer :=
  match sig with
  | none => server.stop
  | some rval => server.stopIf (asks rval ESCB_SERVER_SHUTDOWN)

/-- `EventServer_set_quit_command`. The length stays what it was when there is no command any more. -/
def setQuitCommand (server : EventServer) (command : Option (List UInt8)) : EventServer :=
  match command with
  | none => { server with quitCommand := none }
  | some cmd => { server with quitCommand := some (cmd ++ [0]), quitCommandLen := cmd.length }

/-- One event. Those of a `bufferevent` that is not there do not come. -/
def step (server : EventServer) : EsEvent → Outcome (List EsAct × EventServer)
  | .accept m => server.listenerCb m
  | .readable bev data buffer dataIn =>
    match server.clients.find? (·.bev = bev) with
    | none => .ok ([], server)
    | some client => if client.reads then server.connReadcb client data buffer dataIn else .ok ([], server)
  | .event bev connected clientDiscon =>
    match server.clients.find? (·.bev = bev) with
    | none => .ok ([], server)
    | some client => server.connEventcb client connected clientDiscon
  | .signal sig => .ok (server.signalCb sig)
  | .start => .ok ([], { server with isRunning := true })
  | .stop => .ok server.stop
  | .setHandleQuitCommand handle => .ok ([], { server with handleQuitCommand := handle })
  | .setQuitCommand command => .ok ([], server.setQuitCommand command)

/-- The packages that `delArrayList` frees. -/
def freeAll : List EscbPackage → Outcome (List EsAct)
  | [] => .ok []
  | package :: packages => do
    let acts ← package.free
    let rest ← freeAll packages
    return acts ++ rest

/-- `delEventServer`. The clients that are left stay as they are. -/
def del (server : EventServer) : Outcome (List EsAct) := do
  let (freed, _) ← server.callbackPackages.clear
  let acts ← freeAll freed
  return acts ++ server.clients.map fun client => .left (.sock client.fd)

/-- What `newEventServer` meets: the results of `malloc`, `event_base_new`, `evconnlistener_new_bind` and
`evsignal_new`, and whether the memory holds `NULL` where the list of packages goes. -/
structure EsNew where
  addr : Option Nat
  base : Bool
  listener : Bool
  signalEvent : Bool
  cleared : Bool
  handleQuitCommand : Bool
deriving DecidableEq, Repr

/-- `newEventServer`. What fails after the base goes through `delEventServer`, before there is a list. -/
def newEventServer (m : EsNew) : Outcome (AlibError × Option EventServer) :=
  match m.addr with
  | none => .ok (.memErr, none)
  | some addr =>
    if !m.base then .ok (.memErr, none)
    else if !m.signalEvent then .error .nullDeref
    else if !m.listener then if m.cleared then .ok (.portInUse, none) else .error .dangling
    else .ok (.ok, (ArrayList.newEx true 0 ULONG_MAX).map fun callbackPackages =>
      ⟨addr, callbackPackages, [], false, m.handleQuitCommand, none, DEFAULT_QUIT_COMMAND.length - 1⟩)

/-- A server goes through the events and is deleted. -/
def lifetime (server : EventServer) (events : List EsEvent) : Outcome (List EsAct × List EsClient) := do
  let (acts, server) ← run step server events
  let deleted ← server.del
  return (acts.flatten ++ deleted, server.clients)

end EventServer

def EsAct.comes : EsAct → List EsResource
  | .got r => [r]
  | _ => []

def EsAct.frees : EsAct → List EsResource
  | .freed r => [r]
  | _ => []

def EsAct.leaves : EsAct → List EsResource
  | .left r => [r]
  | _ => []

/-- It can be freed: nothing that was never set is called, or given to what is called. -/
def EscbPackage.Callable (package : EscbPackage) : Prop :=
  package.freeDataProc = some .junk ∨ package.data = some .junk →
    package.freeDataProc = none ∨ package.data = none

namespace EscbPackage

variable {package : EscbPackage}

theorem freeData_ok (h : package.Callable) :
    package.freeData = .ok (package.owned.map .freed) := by
  obtain ⟨addr, data, proc⟩ := package
  match proc, data with
  | none, _ => rfl
  | some (.given p), none => rfl
  | some .junk, none => rfl
  | some (.given p), some (.given value) => rfl
  | some .junk, some _ => simp [Callable] at h
  | some (.given p), some .junk => simp [Callable] at h

theorem freeData_callable {acts : List EsAct} (h : package.freeData = .ok acts) : package.Callable := by
  obtain ⟨addr, data, proc⟩ := package
  match proc, data with
  | none, _ => exact fun _ => .inl rfl
  | some _, none => exact fun _ => .inr rfl
  | some (.given p), some (.given value) => simp [Callable]
  | some .junk, some _ => simp [freeData] at h
  | some (.given p), some .junk => simp [freeData] at h

theorem freeData_error (h : ¬package.Callable) : ∃ e, package.freeData = .error e := by
  cases hr : package.freeData with
  | error e => exact ⟨e, rfl⟩
  | ok acts => exact absurd (freeData_callable hr) h

theorem free_ok (h : package.Callable) :
    package.free = .ok ((package.owned ++ [EsResource.block package.addr]).map .freed) := by
  rw [free, freeData_ok h, List.map_append]
  rfl

theorem free_callable {acts : List EsAct} (h : package.free = .ok acts) : package.Callable := by
  obtain ⟨as, hs, -⟩ := bind_eq_ok.mp h
  exact freeData_callable hs

end EscbPackage

namespace EventServer

/-- What the packages hold. -/
def kept (packages : List EscbPackage) : List EsResource :=
  packages.flatMap fun package => package.owned ++ [.block package.addr]

/-- What the server is to give back when it is deleted, and what the clients that are there hold. -/
def held (server : EventServer) : List EsResource :=
  kept server.callbackPackages.entries ++ server.clients.map fun client => .sock client.fd

/-- The list holds the packages of the clients that have something to be freed, and each only once. -/
structure Inv (server : EventServer) : Prop where
  wf : server.callbackPackages.WF
  capacity_le : server.callbackPackages.capacity ≤ server.callbackPackages.maxCap
  maxCap : server.callbackPackages.maxCap = ULONG_MAX
  freeItem : server.callbackPackages.freeItem = true
  packages : (server.callbackPackages.entries.map EscbPackage.addr).Nodup
  bevs : (server.clients.map EsClient.bev).Nodup
  addrs : (server.clients.map fun client => client.package.addr).Nodup
  stored : ∀ client ∈ server.clients, client.package.freeDataProc ≠ none →
    client.package ∈ server.callbackPackages.entries
  unstored : ∀ client ∈ server.clients, client.package.freeDataProc = none →
    client.package.addr ∉ server.callbackPackages.entries.map EscbPackage.addr

/-- Each package of the list can be freed. -/
def Clean (server : EventServer) : Prop := ∀ package ∈ server.callbackPackages.entries, package.Callable

def audit : Audit EventServer EsAct EsResource where
  held := held
  comes := EsAct.comes
  goes act := act.frees ++ act.leaves
  leaves := EsAct.leaves
  Inv := Inv
  Clean := Clean

variable {server server' : EventServer} {client : EsClient}

/-- The settings have nothing to do with it. -/
theorem Inv.settings (h : server.Inv) (isRunning handleQuitCommand : Bool) (quitCommand : Option Block)
    (quitCommandLen : Nat) :
    audit.Keeps True [] server [] { server with isRunning, handleQuitCommand, quitCommand, quitCommandLen } :=
  ⟨⟨h.wf, h.capacity_le, h.maxCap, h.freeItem, h.packages, h.bevs, h.addrs, h.stored, h.unstored⟩,
    .refl _, rfl, (and_iff_left trivial).symm⟩

theorem stopIf_keeps (h : server.Inv) (asked : Bool) :
    audit.Keeps True [] server (stopIf asked server).1 (stopIf asked server).2 := by
  cases asked with
  | true => exact (h.settings false server.handleQuitCommand server.quitCommand server.quitCommandLen).cons rfl rfl rfl
  | false => exact .refl h

theorem comes_freed (rs : List EsResource) : (rs.map EsAct.freed).flatMap audit.comes = [] := by
  rw [List.flatMap_map]
  exact List.flatMap_eq_nil_iff.mpr fun _ _ => rfl

theorem goes_freed (rs : List EsResource) : (rs.map EsAct.freed).flatMap audit.goes = rs := by
  rw [List.flatMap_map]
  exact List.flatMap_singleton' rs

/-- Acts that give back `rs`, and nothing else. -/
theorem balanced_frees {rs : List EsResource} (hs : (held server).Perm (rs ++ held server')) :
    audit.Balanced server (rs.map .freed) server' := by
  rw [Ledger.Balanced, comes_freed, goes_freed]
  exact hs

theorem leaves_freed (rs : List EsResource) : (rs.map EsAct.freed).flatMap audit.leaves = [] := by
  rw [List.flatMap_map]
  exact List.flatMap_eq_nil_iff.mpr fun _ _ => rfl

/-- A client less is a socket less. -/
theorem held_erase (hmem : client ∈ server.clients) :
    (held server).Perm (.sock client.fd :: held { server with clients := server.clients.erase client }) := by
  have hp : (server.clients.map fun client => EsResource.sock client.fd).Perm
      (.sock client.fd :: (server.clients.erase client).map fun client => .sock client.fd) :=
    (List.perm_cons_erase hmem).map _
  exact (hp.append_left _).trans List.perm_middle

/-- The bufferevent of a client is freed, and its package stays. -/
theorem closeBev_keeps (h : server.Inv) (hmem : client ∈ server.clients) :
    audit.Keeps True [] server (closeBev server client).1 (closeBev server client).2 := by
  have hsub : (server.clients.erase client).Sublist server.clients := List.erase_sublist
  have hbal : audit.Balanced server (([EsResource.sock client.fd]).map .freed) (closeBev server client).2 :=
    balanced_frees (held_erase hmem)
  refine ⟨⟨h.wf, h.capacity_le, h.maxCap, h.freeItem, h.packages, h.bevs.sublist (hsub.map _),
    h.addrs.sublist (hsub.map _), fun c hc => h.stored c (hsub.subset hc), fun c hc => h.unstored c (hsub.subset hc)⟩,
    hbal, rfl, (and_iff_left trivial).symm⟩

/-- A client is closed: its package is freed if it is in the list. -/
theorem closeClient_cases (h : server.Inv) (hmem : client ∈ server.clients) :
    client.package.freeDataProc = none ∧ server.closeClient client = .ok (closeBev server client) ∨
      client.package ∈ server.callbackPackages.entries ∧ ∃ callbackPackages, server.closeClient client = (client.package.free >>= fun acts =>
          .ok (acts ++ [.freed (.sock client.fd)],
            { server with callbackPackages, clients := server.clients.erase client })) ∧
        (client.package.Callable → audit.Keeps True [] server
          ((client.package.owned ++ [EsResource.block client.package.addr, EsResource.sock client.fd]).map .freed)
          { server with callbackPackages, clients := server.clients.erase client }) := by
  have hbev := closeBev_keeps h hmem
  rcases ArrayList.remove_item h.wf client.package with
    ⟨hnot, hr⟩ | ⟨callbackPackages, pre, post, hr, hwf, hentries, hentries', hcap, hmax, hfree⟩
  · left
    refine ⟨by_contra fun hproc => hnot (h.stored client hmem hproc), ?_⟩
    rw [closeClient, removePackage, hr]
    rfl
  · right
    have hin : client.package ∈ server.callbackPackages.entries := by
      rw [hentries]
      exact List.mem_append_right _ List.mem_cons_self
    have hsub : callbackPackages.entries.Sublist server.callbackPackages.entries := by
      rw [hentries, hentries']
      exact (List.sublist_cons_self _ _).append_left _
    have hkept : ∀ package ∈ server.callbackPackages.entries, package.addr ≠ client.package.addr →
        package ∈ callbackPackages.entries := by
      intro package hp hne
      rw [hentries, List.mem_append, List.mem_cons] at hp
      rw [hentries', List.mem_append]
      exact hp.imp_right fun hp => hp.resolve_left fun he => hne (by rw [he])
    refine ⟨hin, callbackPackages, ?_, fun hcall => ⟨⟨hwf, by rw [hcap, hmax]; exact h.capacity_le,
      hmax.trans h.maxCap, hfree.trans h.freeItem, h.packages.sublist (hsub.map _), hbev.inv.bevs,
      hbev.inv.addrs, fun c hc hproc => ?_, fun c hc hproc haddr => ?_⟩, balanced_frees ?_,
      leaves_freed _, ?_⟩⟩
    · rw [closeClient, removePackage, hr, if_pos h.freeItem, ok_bind]
      dsimp only
      cases client.package.free <;> rfl
    · have hother : client.package.addr ∉
          (server.clients.erase client).map fun client => client.package.addr := by
        have hp := (List.perm_cons_erase hmem).map fun client => client.package.addr
        exact (List.nodup_cons.mp (hp.nodup_iff.mp h.addrs)).1
      refine hkept _ (h.stored c (List.mem_of_mem_erase hc) hproc) fun he => hother ?_
      exact List.mem_map.mpr ⟨c, hc, he⟩
    · exact h.unstored c (List.mem_of_mem_erase hc) hproc ((hsub.map _).subset haddr)
    · refine (held_erase hmem).trans (List.perm_iff_count.mpr fun r => ?_)
      simp only [held, kept, hentries, hentries', List.count_cons, List.count_append, List.flatMap_append,
        List.flatMap_cons, List.count_nil]
      omega
    · refine ⟨fun hclean => ⟨fun package hp => ?_, trivial⟩, fun hclean package hp =>
        hclean.1 package (hsub.subset hp)⟩
      rw [hentries, List.mem_append, List.mem_cons] at hp
      rcases hp with hp | rfl | hp
      · exact hclean package (by show _ ∈ callbackPackages.entries; rw [hentries']; exact List.mem_append_left _ hp)
      · exact hcall
      · exact hclean package (by show _ ∈ callbackPackages.entries; rw [hentries']; exact List.mem_append_right _ hp)

theorem closeClient_handles (h : server.Inv) (hmem : client ∈ server.clients) :
    audit.Handles True [] server (server.closeClient client) := by
  rcases closeClient_cases h hmem with ⟨-, hr⟩ | ⟨hin, callbackPackages, hr, hkeeps⟩
  · rw [hr]
    exact .of_ok (closeBev_keeps h hmem)
  · rw [hr]
    refine ⟨fun acts s he => ?_, fun hc _ => ?_⟩
    · obtain ⟨as, hfree, he⟩ := bind_eq_ok.mp he
      have hcall := EscbPackage.free_callable hfree
      rw [EscbPackage.free_ok hcall] at hfree
      cases hfree
      cases he
      simpa using hkeeps hcall
    · rw [EscbPackage.free_ok (hc _ hin)]
      exact ⟨_, _, rfl⟩

theorem closeIf_handles (h : server.Inv) (hmem : client ∈ server.clients) (asked : Bool) :
    audit.Handles True [] server (closeIf asked server client) := by
  cases asked with
  | true => exact closeClient_handles h hmem
  | false => exact .of_ok (.refl h)

theorem answer_handles (h : server.Inv) (hmem : client ∈ server.clients) (rval : Nat) :
    audit.Handles True [] server (server.answer client rval) := by
  have hanswer : audit.Handles (True ∧ True) ([] ++ []) server (server.answer client rval) :=
    (closeIf_handles h hmem _).andThen (f := fun s => .ok (stopIf (asks rval ESCB_SERVER_SHUTDOWN) s))
      fun _ _ _ hinv => .of_ok (stopIf_keeps hinv _)
  exact hanswer.congr and_self_iff

theorem connEventcb_handles (h : server.Inv) (hmem : client ∈ server.clients) (connected : Bool)
    (clientDiscon : Option Nat) :
    audit.Handles True [] server (server.connEventcb client connected clientDiscon) := by
  unfold connEventcb
  split
  · exact .of_ok (.refl h)
  · cases clientDiscon with
    | none => exact .of_ok (closeBev_keeps h hmem)
    | some rval => exact (answer_handles h hmem rval).tell rfl rfl rfl

/-- The buffer is there, and the comparison with the quit command, where there is one, ends. -/
def SoundRead (server : EventServer) (data : Block) (buffer : Bool) : Prop :=
  (buffer = true ∨ data = []) ∧
    (server.checksQuit data = true → ∃ r, server.matchQuit data buffer = .ok r)

theorem readData_handles (h : server.Inv) (hmem : client ∈ server.clients) (data : Block)
    (dataIn : Option Nat) (matched : Int) :
    audit.Handles True [] server (server.readData client data dataIn matched) := by
  have hquit : audit.Keeps True [] server [.loopexit] server := (Keeps.refl h).cons rfl rfl rfl
  unfold readData
  split
  · exact .of_ok hquit
  · cases dataIn with
    | none => exact .of_ok (.refl h)
    | some rval => exact (answer_handles h hmem rval).tell rfl rfl rfl

theorem connReadcb_handles (h : server.Inv) (hmem : client ∈ server.clients) (data : Block) (buffer : Bool)
    (dataIn : Option Nat) :
    audit.Handles (server.SoundRead data buffer) [] server (server.connReadcb client data buffer dataIn) := by
  have hrest := readData_handles h hmem data dataIn
  unfold connReadcb
  split
  · rename_i hnull
    refine (Handles.of_error .nullDeref).congr ⟨False.elim, fun hs => ?_⟩
    simp only [Bool.and_eq_true, Bool.not_eq_true', List.isEmpty_eq_false_iff] at hnull
    rcases hs.1 with hb | hd
    · rw [hnull.1] at hb
      cases hb
    · exact hnull.2 hd
  · rename_i hnull
    have hbuf : buffer = true ∨ data = [] := by
      cases buffer with
      | true => exact .inl rfl
      | false => simpa using hnull
    cases hchecks : server.checksQuit data with
    | false =>
      refine (hrest 1).congr ⟨fun _ => ⟨hbuf, fun h => ?_⟩, fun _ => trivial⟩
      rw [hchecks] at h
      cases h
    | true =>
      cases hm : server.matchQuit data buffer with
      | error e =>
        refine (Handles.of_error e).congr ⟨False.elim, fun hs => ?_⟩
        obtain ⟨r, hr⟩ := hs.2 hchecks
        rw [hm] at hr
        cases hr
      | ok r => exact (hrest r).congr ⟨fun _ => ⟨hbuf, fun _ => ⟨r, hm⟩⟩, fun _ => trivial⟩

/-- Where nothing is to free the data, nobody keeps the package. -/
def unkept (package : EscbPackage) : List EsResource :=
  if package.freeDataProc.isSome then [] else [.block package.addr]

theorem comes_got (rs : List EsResource) : (rs.map EsAct.got).flatMap audit.comes = rs := by
  rw [List.flatMap_map]
  exact List.flatMap_singleton' rs

theorem goes_got (rs : List EsResource) : (rs.map EsAct.got).flatMap audit.goes = [] := by
  rw [List.flatMap_map]
  exact List.flatMap_eq_nil_iff.mpr fun _ _ => rfl

theorem leaves_got (rs : List EsResource) : (rs.map EsAct.got).flatMap audit.leaves = [] := by
  rw [List.flatMap_map]
  exact List.flatMap_eq_nil_iff.mpr fun _ _ => rfl

theorem addClient_keeps (h : server.Inv) (m : EsAccept) (bev : Nat) (package : EscbPackage)
    (hfit : 8 * server.callbackPackages.nextCap < 2 ^ 64)
    (hentry : package.addr ∉ server.callbackPackages.entries.map EscbPackage.addr)
    (hclient : package.addr ∉ server.clients.map fun client => client.package.addr)
    (hbev : bev ∉ server.clients.map EsClient.bev) :
    ∃ acts server', server.addClient m bev package = .ok (acts, server') ∧
      audit.Keeps package.Callable (unkept package) server
        (.got (.sock m.fd) :: .got (.block package.addr) :: package.owned.map .got ++ acts) server' := by
  have hbevs : (bev :: server.clients.map EsClient.bev).Nodup := List.nodup_cons.mpr ⟨hbev, h.bevs⟩
  have haddrs : (package.addr :: server.clients.map fun client => client.package.addr).Nodup :=
    List.nodup_cons.mpr ⟨hclient, h.addrs⟩
  cases hproc : package.freeDataProc with
  | none =>
    have howned : package.owned = [] := by rw [EscbPackage.owned, hproc]
    have hadd : server.addClient m bev package = .ok ([.left (.block package.addr)], { server with
        clients := ⟨bev, m.fd, package, m.dataIn || server.handleQuitCommand⟩ :: server.clients }) := by
      rw [addClient, hproc]
      rfl
    refine ⟨_, _, hadd, ⟨h.wf, h.capacity_le, h.maxCap, h.freeItem, h.packages,
      hbevs, haddrs, fun c hc hp => ?_, fun c hc hp => ?_⟩, ?_, ?_, ?_⟩
    · rcases List.mem_cons.mp hc with rfl | hc
      · exact absurd hproc hp
      · exact h.stored c hc hp
    · rcases List.mem_cons.mp hc with rfl | hc
      · exact hentry
      · exact h.unstored c hc hp
    · refine Ledger.balanced_iff.mpr fun r => ?_
      simp only [audit, held, kept, howned, EsAct.comes, EsAct.frees, EsAct.leaves, List.map_nil, List.map_cons,
        List.nil_append, List.append_nil, List.cons_append, List.flatMap_cons, List.flatMap_nil,
        List.count_append, List.count_cons, List.count_nil]
      omega
    · rw [howned, unkept, hproc]
      rfl
    · exact (and_iff_left fun _ => .inl hproc).symm
  | some proc =>
    obtain ⟨l, hr, hwf, hcap, hmax, hfree, hperm⟩ :=
      ArrayList.add_unbounded h.wf h.capacity_le h.maxCap hfit package
    have hadd : server.addClient m bev package = .ok ([], { server with
        callbackPackages := l
        clients := ⟨bev, m.fd, package, m.dataIn || server.handleQuitCommand⟩ :: server.clients }) := by
      rw [addClient, hproc, Option.isSome_some, if_pos rfl, hr]
      rfl
    refine ⟨_, _, hadd, ⟨hwf, hcap, hmax, hfree.trans h.freeItem,
      (hperm.map _).nodup_iff.mpr (List.nodup_cons.mpr ⟨hentry, h.packages⟩), hbevs, haddrs,
      fun c hc hp => ?_, fun c hc hp haddr => ?_⟩, ?_, ?_, ?_⟩
    · rcases List.mem_cons.mp hc with rfl | hc
      · exact hperm.mem_iff.mpr List.mem_cons_self
      · exact hperm.mem_iff.mpr (List.mem_cons_of_mem _ (h.stored c hc hp))
    · rcases List.mem_cons.mp hc with rfl | hc
      · rw [hproc] at hp
        cases hp
      · rcases List.mem_cons.mp ((hperm.map _).mem_iff.mp haddr) with he | he
        · exact hclient (List.mem_map.mpr ⟨c, hc, he⟩)
        · exact h.unstored c hc hp he
    · refine Ledger.balanced_iff.mpr fun r => ?_
      have hheld := (hperm.flatMap_right fun package => package.owned ++ [EsResource.block package.addr]).count_eq r
      simp only [List.flatMap_cons, List.count_append, List.count_cons, List.count_nil] at hheld
      simp only [List.flatMap_append, List.flatMap_cons, comes_got, goes_got]
      simp only [audit, held, kept, EsAct.comes, EsAct.frees, EsAct.leaves, List.map_cons, List.flatMap_nil,
        List.count_append, List.count_cons, List.count_nil]
      omega
    · rw [List.flatMap_append, List.flatMap_cons, List.flatMap_cons, leaves_got, unkept, hproc]
      rfl
    · change (∀ package ∈ l.entries, package.Callable) ↔ _
      simp only [hperm.mem_iff]
      rw [List.forall_mem_cons, and_comm]
      rfl

/-- The package of a client that comes, once `client_con_cb` has been asked. -/
def taken (server : EventServer) (m : EsAccept) (addr : Nat) : EscbPackage :=
  match m.clientCon with
  | none => { m.fresh addr with data := some (.given server.addr) }
  | some con => (m.fresh addr).fill con

/-- Does `client_con_cb` turn the client away? -/
def refused (m : EsAccept) : Bool :=
  match m.clientCon with
  | none => false
  | some con => asks con.rval ESCB_CLIENT_CLOSE || asks con.rval ESCB_SERVER_SHUTDOWN

/-- What nobody will free. -/
def lost : EsEvent → List EsResource
  | .accept m =>
    match m.package, m.bev with
    | none, _ => [.sock m.fd]
    | some addr, none => [.sock m.fd, .block addr]
    | some addr, some _ => if refused m then [.block addr] else unkept (m.clientCon.elim (m.fresh addr) (m.fresh addr).fill)
  | _ => []

/-- What comes from `malloc` and `bufferevent_socket_new` is not there yet, and there is room for the list. -/
def Fits (server : EventServer) : EsEvent → Prop
  | .accept m => 8 * server.callbackPackages.nextCap < 2 ^ 64 ∧
    (∀ addr, m.package = some addr → addr ∉ server.callbackPackages.entries.map EscbPackage.addr ∧
      addr ∉ server.clients.map fun client => client.package.addr) ∧
    ∀ bev, m.bev = some bev → bev ∉ server.clients.map EsClient.bev
  | _ => True

/-- A client that is told of by `client_con_cb` is one whose package can be freed. -/
def SoundAccept (server : EventServer) (m : EsAccept) : Prop :=
  ∀ addr, m.package = some addr → m.bev.isSome → (server.taken m addr).Callable

theorem taken_addr (m : EsAccept) (addr : Nat) : (server.taken m addr).addr = addr := by
  rw [taken]
  cases m.clientCon <;> rfl

theorem owned_fresh (m : EsAccept) (addr : Nat) (data : Option EsPtr) :
    ({ m.fresh addr with data } : EscbPackage).owned = [] := by
  cases hj : m.junkProc <;> simp [EsAccept.fresh, EscbPackage.owned, hj]

/-- A client that is turned away: its data is freed, and its package is not. -/
theorem refused_keeps (h : server.Inv) (fd : Nat) (package : EscbPackage) {told : List EsAct}
    (htold : told = [] ∨ told = [.loopexit]) :
    audit.Keeps True [.block package.addr] server (.got (.sock fd) :: .got (.block package.addr) ::
      package.owned.map .got ++ .freed (.sock fd) :: told ++ package.owned.map .freed ++
        [.left (.block package.addr)]) server := by
  have hcomes : told.flatMap audit.comes = [] := by rcases htold with rfl | rfl <;> rfl
  have hgoes : told.flatMap audit.goes = [] := by rcases htold with rfl | rfl <;> rfl
  have hleaves : told.flatMap audit.leaves = [] := by rcases htold with rfl | rfl <;> rfl
  refine .of_perm h (List.perm_iff_count.mpr fun r => ?_) ?_
  · change (List.flatMap audit.comes _).count r = _
    simp only [List.flatMap_append, List.flatMap_cons, comes_got, goes_got, comes_freed, goes_freed,
      hcomes, hgoes]
    simp only [audit, EsAct.comes, EsAct.frees, EsAct.leaves, List.flatMap_nil, List.count_append,
      List.count_cons, List.count_nil]
    omega
  · simp only [List.flatMap_append, List.flatMap_cons, leaves_got, leaves_freed, hleaves]
    rfl

theorem listenerCb_handles (h : server.Inv) {m : EsAccept} (hfit : server.Fits (.accept m)) :
    audit.Handles (server.SoundAccept m) (lost (.accept m)) server (server.listenerCb m) := by
  obtain ⟨hroom, hblock, hbevs⟩ := hfit
  cases hp : m.package with
  | none =>
    have hk : audit.Keeps True [.sock m.fd] server [.got (.sock m.fd), .left (.sock m.fd)] server :=
      .of_perm h (List.Perm.refl _) rfl
    rw [listenerCb, lost, hp]
    refine (Handles.of_ok hk).congr ⟨fun _ addr ha => ?_, fun _ => trivial⟩
    rw [hp] at ha
    cases ha
  | some addr =>
    obtain ⟨hentry, hclient⟩ := hblock addr hp
    cases hb : m.bev with
    | none =>
      have hk : audit.Keeps True [.sock m.fd, .block addr] server [.got (.sock m.fd), .got (.block addr),
          .left (.sock m.fd), .left (.block addr), .loopbreak] server := .of_perm h (List.Perm.refl _) rfl
      rw [listenerCb, lost, hp, hb]
      refine (Handles.of_ok hk).congr ⟨fun _ _ _ hs => ?_, fun _ => trivial⟩
      rw [hb] at hs
      cases hs
    | some bev =>
      have hgood : (server.taken m addr).Callable ↔ server.SoundAccept m := by
        refine ⟨fun hc a ha _ => ?_, fun hs => hs addr hp (by rw [hb]; rfl)⟩
        rw [hp] at ha
        cases ha
        exact hc
      refine Handles.congr ?_ hgood
      have hturned : ∀ (told : List EsAct) (s : EventServer), told = [] ∨ told = [.loopexit] →
          audit.Keeps True [] server [] s → audit.Handles (server.taken m addr).Callable [.block addr] server
            ((server.taken m addr).freeData >>= fun acts => .ok (.got (.sock m.fd) :: .got (.block addr) ::
              (server.taken m addr).owned.map .got ++ .freed (.sock m.fd) :: told ++ acts ++
                [.left (.block addr)], s)) := by
        intro told s htold hs
        by_cases hc : (server.taken m addr).Callable
        · have hk := (refused_keeps h m.fd (server.taken m addr) htold).trans hs
          rw [taken_addr, List.append_nil, List.append_nil] at hk
          rw [EscbPackage.freeData_ok hc]
          exact (Handles.of_ok hk).congr ⟨fun _ => hc, fun _ => ⟨trivial, trivial⟩⟩
        · obtain ⟨e, he⟩ := EscbPackage.freeData_error hc
          rw [he]
          exact (Handles.of_error e).congr ⟨False.elim, hc⟩
      have hadd := addClient_keeps h m bev (server.taken m addr) hroom (by rwa [taken_addr])
        (by rwa [taken_addr]) (hbevs bev hb)
      obtain ⟨acts, s, hr, hk⟩ := hadd
      have hk' := Handles.of_ok hk
      rw [taken_addr] at hk'
      cases hcon : m.clientCon with
      | none =>
        have htaken : server.taken m addr = { m.fresh addr with data := some (.given server.addr) } := by
          rw [taken, hcon]
        rw [htaken] at hr
        rw [htaken, owned_fresh, ← htaken] at hk'
        rw [listenerCb, lost, hp, hb, hcon]
        dsimp only
        have hsame : unkept (server.taken m addr) = unkept (m.fresh addr) := by rw [htaken]; rfl
        rw [hsame] at hk'
        rw [hr, refused, hcon]
        exact hk'
      | some con =>
        have htaken : server.taken m addr = (m.fresh addr).fill con := by rw [taken, hcon]
        have hrefused : refused m = (asks con.rval ESCB_CLIENT_CLOSE || asks con.rval ESCB_SERVER_SHUTDOWN) := by
          rw [refused, hcon]
        rw [htaken] at hr hk' hturned ⊢
        rw [listenerCb, lost, hp, hb, hcon, hrefused]
        dsimp only
        cases hclose : asks con.rval ESCB_CLIENT_CLOSE with
        | true => exact hturned [] server (.inl rfl) (.refl h)
        | false =>
          cases hstop : asks con.rval ESCB_SERVER_SHUTDOWN with
          | true =>
            exact hturned [.loopexit] server.stop.2 (.inr rfl)
              (h.settings false server.handleQuitCommand server.quitCommand server.quitCommandLen)
          | false =>
            rw [hr]
            exact hk'

/-- Nothing that was never set is used by what an event does, or would be by what comes later, and the
comparison with the quit command ends. -/
def Sound (server : EventServer) : EsEvent → Prop
  | .accept m => server.SoundAccept m
  | .readable bev data buffer _ => ∀ client, server.clients.find? (·.bev = bev) = some client →
    client.reads = true → server.SoundRead data buffer
  | _ => True

theorem step_handles (server : EventServer) (e : EsEvent) (h : server.Inv) (hfit : server.Fits e) :
    audit.Handles (server.Sound e) (lost e) server (server.step e) := by
  cases e with
  | accept m => exact listenerCb_handles h hfit
  | readable bev data buffer dataIn =>
    cases hc : server.clients.find? (·.bev = bev) with
    | none =>
      rw [step, hc]
      refine (Handles.of_ok (.refl h)).congr ⟨fun _ client he => ?_, fun _ => trivial⟩
      rw [hc] at he
      cases he
    | some client =>
      rw [step, hc]
      dsimp only
      cases hreads : client.reads with
      | false =>
        refine (Handles.of_ok (.refl h)).congr ⟨fun _ c he hr => ?_, fun _ => trivial⟩
        rw [hc] at he
        cases he
        rw [hreads] at hr
        cases hr
      | true =>
        refine (connReadcb_handles h (List.mem_of_find?_eq_some hc) data buffer dataIn).congr
          ⟨fun hs c he _ => hs, fun hs => hs client hc hreads⟩
  | event bev connected clientDiscon =>
    cases hc : server.clients.find? (·.bev = bev) with
    | none =>
      rw [step, hc]
      exact .of_ok (.refl h)
    | some client =>
      rw [step, hc]
      exact connEventcb_handles h (List.mem_of_find?_eq_some hc) connected clientDiscon
  | signal sig =>
    cases sig with
    | none => exact .of_ok (stopIf_keeps h true)
    | some rval => exact .of_ok (stopIf_keeps h _)
  | start => exact .of_ok (h.settings true _ _ _)
  | stop => exact .of_ok (stopIf_keeps h true)
  | setHandleQuitCommand handle => exact .of_ok (h.settings _ handle _ _)
  | setQuitCommand command =>
    cases command with
    | none => exact .of_ok (h.settings _ _ none _)
    | some cmd => exact .of_ok (h.settings _ _ (some (cmd ++ [0])) cmd.length)

/-- The same of many events. -/
theorem step_runs (events : List EsEvent) (server : EventServer) (h : server.Inv)
    (hfits : AllSteps step Fits server events) : audit.Handles (AllSteps step Sound server events)
      (events.flatMap lost) server ((run step server events).map fun r => (r.1.flatten, r.2)) :=
  run_handles step_handles events server h hfits

theorem freeAll_ok {packages : List EscbPackage} (h : ∀ package ∈ packages, package.Callable) :
    freeAll packages = .ok ((kept packages).map .freed) := by
  induction packages with
  | nil => rfl
  | cons package packages ih =>
    obtain ⟨hp, hps⟩ := List.forall_mem_cons.mp h
    rw [freeAll, EscbPackage.free_ok hp, ih hps, ok_bind, ok_bind, ← List.map_append]
    rfl

theorem freeAll_callable {packages : List EscbPackage} {acts : List EsAct}
    (h : freeAll packages = .ok acts) : ∀ package ∈ packages, package.Callable := by
  induction packages generalizing acts with
  | nil => exact fun _ hp => absurd hp List.not_mem_nil
  | cons package packages ih =>
    obtain ⟨as, hfree, h⟩ := bind_eq_ok.mp h
    obtain ⟨bs, hrest, -⟩ := bind_eq_ok.mp h
    exact List.forall_mem_cons.mpr ⟨EscbPackage.free_callable hfree, ih hrest⟩

/-- The list is freed, and the clients that are there are left. -/
theorem del_eq (h : server.Inv) : server.del = (freeAll server.callbackPackages.entries).map fun acts =>
    acts ++ server.clients.map fun client => .left (.sock client.fd) := by
  obtain ⟨l, hr, -⟩ := ArrayList.clear_items h.wf
  rw [del, hr, if_pos h.freeItem, ok_bind]
  dsimp only
  cases freeAll server.callbackPackages.entries <;> rfl

theorem newEventServer_inv {m : EsNew} {e : AlibError} (h : newEventServer m = .ok (e, some server)) :
    server.Inv ∧ held server = [] ∧ server.Clean := by
  have hserver : ∃ addr, server = ⟨addr, ⟨none, 0, 0, ULONG_MAX, true⟩, [], false, m.handleQuitCommand, none, 5⟩ := by
    unfold newEventServer at h
    split at h
    · cases h
    · split at h
      · cases h
      · split at h
        · cases h
        · split at h
          · split at h <;> cases h
          · cases h
            exact ⟨_, rfl⟩
  obtain ⟨addr, rfl⟩ := hserver
  refine ⟨⟨.mk_null, Nat.zero_le _, rfl, rfl, List.nodup_nil, List.nodup_nil, List.nodup_nil, ?_, ?_⟩, rfl, ?_⟩
  · exact fun _ hc => absurd hc List.not_mem_nil
  · exact fun _ hc => absurd hc List.not_mem_nil
  · exact fun _ hc => absurd hc List.not_mem_nil

/-- What is done when a server is deleted. -/
def deleting (server : EventServer) : List EsAct :=
  (kept server.callbackPackages.entries).map .freed ++ server.clients.map fun client => .left (.sock client.fd)

theorem comes_deleting (server : EventServer) : server.deleting.flatMap EsAct.comes = [] := by
  rw [deleting, List.flatMap_append, List.flatMap_map, List.flatMap_map]
  exact List.append_eq_nil_iff.mpr ⟨List.flatMap_eq_nil_iff.mpr fun _ _ => rfl,
    List.flatMap_eq_nil_iff.mpr fun _ _ => rfl⟩

theorem frees_deleting (server : EventServer) :
    server.deleting.flatMap EsAct.frees = kept server.callbackPackages.entries := by
  rw [deleting, List.flatMap_append, List.flatMap_map, List.flatMap_map]
  have hfreed : (kept server.callbackPackages.entries).flatMap (fun r => [r]) = kept server.callbackPackages.entries :=
    List.flatMap_singleton' _
  have hleft : server.clients.flatMap (fun client => (EsAct.left (.sock client.fd)).frees) = [] :=
    List.flatMap_eq_nil_iff.mpr fun _ _ => rfl
  rw [hleft, List.append_nil]
  exact hfreed

theorem del_ok (h : server.Inv) (hclean : server.Clean) : server.del = .ok server.deleting := by
  rw [del_eq h, freeAll_ok hclean]
  rfl

theorem del_clean (h : server.Inv) {acts : List EsAct} (hdel : server.del = .ok acts) : server.Clean := by
  rw [del_eq h] at hdel
  obtain ⟨freed, hfree, -⟩ := map_eq_ok.mp hdel
  exact freeAll_callable hfree

/-- The memory, the data and the sockets of a server that is deleted: each has been freed, and once, but
for what the events have lost and the sockets of the clients that were still there. -/
theorem lifetime_accounts {m : EsNew} {e : AlibError} (hnew : newEventServer m = .ok (e, some server))
    {events : List EsEvent} (hfits : AllSteps step Fits server events) {acts : List EsAct}
    {clients : List EsClient} (h : server.lifetime events = .ok (acts, clients)) :
    (acts.flatMap EsAct.comes).Perm (acts.flatMap EsAct.frees ++
      (events.flatMap lost ++ clients.map fun client => .sock client.fd)) := by
  obtain ⟨hinv, hheld, -⟩ := newEventServer_inv hnew
  obtain ⟨⟨os, s⟩, hos, h⟩ := bind_eq_ok.mp h
  obtain ⟨deleted, hdel, h⟩ := bind_eq_ok.mp h
  have hk := (step_runs events server hinv hfits).keeps os.flatten s (by rw [hos]; rfl)
  rw [del_ok hk.inv (del_clean hk.inv hdel)] at hdel
  cases hdel
  cases h
  have hbal : (os.flatten.flatMap EsAct.comes ++ held server).Perm
      (os.flatten.flatMap audit.goes ++ held s) := hk.balanced
  have hgoes := (List.flatMap_append_perm os.flatten EsAct.frees EsAct.leaves).symm
  have hleft : os.flatten.flatMap EsAct.leaves = events.flatMap lost := hk.left
  rw [hleft] at hgoes
  rw [hheld, List.append_nil] at hbal
  rw [List.flatMap_append, List.flatMap_append, comes_deleting, frees_deleting, List.append_nil]
  refine hbal.trans ((hgoes.append_right _).trans (List.perm_iff_count.mpr fun r => ?_))
  simp only [held, List.count_append]
  omega

/-- A client comes, is turned off and its data is freed; another one stays. -/
theorem lifetime_accounts_two : ∃ acts clients,
    lifetime ⟨1, ⟨none, 0, 0, ULONG_MAX, true⟩, [], false, true, none, 5⟩
      [.accept ⟨5, some 9, false, true, some 3, some ⟨0, some (some 7), some (some 8)⟩, true⟩,
        .event 3 false (some 1), .accept ⟨6, some 9, false, false, some 3, some ⟨0, none, none⟩, true⟩] =
      .ok (acts, clients) ∧
    (acts.flatMap EsAct.comes).Perm (acts.flatMap EsAct.frees ++ [.block 9, .sock 6]) := by
  have hnew : newEventServer ⟨some 1, true, true, true, true, true⟩ =
      .ok (.ok, some ⟨1, ⟨none, 0, 0, ULONG_MAX, true⟩, [], false, true, none, 5⟩) := rfl
  have hfits : AllSteps step Fits ⟨1, ⟨none, 0, 0, ULONG_MAX, true⟩, [], false, true, none, 5⟩
      [.accept ⟨5, some 9, false, true, some 3, some ⟨0, some (some 7), some (some 8)⟩, true⟩,
        .event 3 false (some 1), .accept ⟨6, some 9, false, false, some 3, some ⟨0, none, none⟩, true⟩] := by
    refine ⟨⟨by decide, fun _ _ => ⟨List.not_mem_nil, List.not_mem_nil⟩, fun _ _ => List.not_mem_nil⟩,
      fun o s h => ⟨trivial, fun o' s' h' => ?_⟩⟩
    cases h
    cases h'
    exact ⟨⟨by decide, fun _ _ => ⟨List.not_mem_nil, List.not_mem_nil⟩, fun _ _ => List.not_mem_nil⟩,
      fun _ _ _ => trivial⟩
  exact ⟨_, _, rfl, lifetime_accounts hnew hfits rfl⟩

/-- The command is matched where the message begins with it, as a C string, and its bytes and the one that
ends it fill words, or its bytes alone do: `str_match` reads eight bytes at a time. -/
theorem matchQuit_zero_iff {cmd : List UInt8} (hcmd : server.quitCommand.getD DEFAULT_QUIT_COMMAND = cmd ++ [0])
    (hproper : 0 ∉ cmd) (data : Block) : server.matchQuit data true = .ok 0 ↔
      (cmd ≠ [] ∧ cmd.length % 8 = 0 ∨ cmd.length % 8 = 7) ∧ ∃ rest, data = cmd ++ 0 :: rest := by
  have hlen2 : calcLen (cmd ++ [0]) 0 = .ok cmd.length := strlen_eq hproper
  rw [matchQuit, hcmd, if_pos rfl, strMatch]
  by_cases h0 : 0 ∈ data
  · obtain ⟨rest, hdata, hno⟩ := exists_text h0
    generalize cstr data = text at hdata hno
    subst hdata
    have hlen : calcLen (text ++ 0 :: rest) 0 = .ok text.length := strlen_eq hno
    rw [hlen, ok_bind, hlen2, ok_bind]
    have hdata : (∃ rest', text ++ 0 :: rest = cmd ++ 0 :: rest') ↔ text = cmd := by
      constructor
      · rintro ⟨rest', he⟩
        rw [← cstr_eq hno, he, cstr_eq hproper]
      · rintro rfl
        exact ⟨rest, rfl⟩
    rw [hdata]
    rcases Nat.lt_trichotomy text.length cmd.length with hlt | heq | hgt
    · rw [if_pos hlt]
      exact ⟨(fun h => by cases h), fun h => absurd (congrArg List.length h.2) (by omega)⟩
    · rw [if_neg (by omega), if_neg (by omega), strMatchFrom_zero_iff rfl heq.symm]
      rw [and_comm (b := text = cmd)]
      refine and_congr_right fun he => ?_
      subst he
      have hpos : text ≠ [] ↔ 0 < text.length := List.length_pos_iff.symm
      rw [hpos]
      simp only [List.length_cons, List.length_nil, ne_eq, reduceCtorEq, not_false_eq_true, and_true]
      omega
    · rw [if_neg (by omega), if_pos hgt]
      exact ⟨(fun h => by cases h), fun h => absurd (congrArg List.length h.2) (by omega)⟩
  · have hfault : calcLen data 0 = .error .outOfBounds := by
      rw [calcLen, if_pos rfl, strlen, deref_some, ok_bind, if_neg h0]
      rfl
    rw [hfault]
    constructor
    · rintro ⟨⟩
    · rintro ⟨-, rest, rfl⟩
      exact absurd (List.mem_append_right _ List.mem_cons_self) h0

/-- Only the quit command ends the loop without a word to anyone. -/
theorem readData_quits_iff {client : EsClient} {data : Block} {dataIn : Option Nat} {matched : Int} :
    server.readData client data dataIn matched = .ok ([.loopexit], server) ↔ matched = 0 := by
  unfold readData
  refine ⟨fun h => by_contra fun hne => ?_, fun h => if_pos h⟩
  rw [if_neg hne] at h
  cases dataIn with
  | none => cases h
  | some rval =>
    obtain ⟨x, -, h⟩ := bind_eq_ok.mp h
    cases h

end EventServer

end AlibC
