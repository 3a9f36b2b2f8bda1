import AlibC.EventServer
import AlibC.MemPoolFailures

/-! `UvTcpServer`: what libuv calls while it runs, and what is done with memory that has been freed. The
callbacks of the user call none of the server's functions. -/
namespace AlibC

open CLang Machine Audit

def USCB_DEFAULT : Nat := 0
def USCB_CLIENT_CLOSE : Nat := 1
def USCB_SERVER_SHUTDOWN : Nat := 2
def USCB_CONTINUE : Nat := 4

/-- A package without its `mem_block`, which is set only while data comes in. -/
structure UscbPackage where
  addr : Nat
  data : Option Nat
  freeDataProc : Option Nat
deriving DecidableEq, Repr

/-- The handle of a client, its socket, and what its `data` points to. -/
structure UvClient where
  handle : Nat
  fd : Nat
  package : UscbPackage
deriving DecidableEq, Repr

/-- What is to be done for a handle that `uv_close` was called for. -/
inductive UvClosing where
  /-- `free_client_handle`. -/
  | client (handle : Nat)
  /-- `close_client_cb`, for a handle whose memory was freed before. -/
  | refused (handle : Nat)
  /-- `close_server_cb`. -/
  | server
deriving DecidableEq, Repr

/-- `isClosing` tells whether `uv_close` was called for the handle of the server. -/
structure UvTcpServer where
  addr : Nat
  handle : Option Nat
  isClosing : Bool
  clientList : ArrayList UvClient
  inputBuffs : MemPool Unit
  handleQuitCommand : Bool
  quitCommand : Option Block
  closings : List UvClosing
deriving DecidableEq, Repr

/-- What is to be given back. -/
inductive UsResource where
  | block (addr : Nat)
  | handle (addr : Nat)
  | sock (fd : Nat)
  /-- The data of a client and the function to free it. -/
  | data (p value : Nat)
deriving DecidableEq, Repr

inductive UsAct where
  | got (r : UsResource)
  | freed (r : UsResource)
  /-- Nothing is done to it any more. -/
  | left (r : UsResource)
  | disconnected (handle : Nat)
  | dataIn (handle : Nat) (bytes : Block)
  | quit (handle : Nat)
  /-- The loop is woken, with a handle of its own. -/
  | wake
deriving DecidableEq, Repr

/-- What `client_con_cb` does: the data and the function that it sets, and what it returns. -/
structure UsConnect where
  rval : Nat
  data : Option (Option Nat)
  freeDataProc : Option (Option Nat)
deriving DecidableEq, Repr

/-- What `client_discon_cb` returns for a handle, if there is one. -/
abbrev UsDiscon : Type := Option (Nat → Nat)

/-- What `client_connection_cb` meets: the results of `malloc` for the handle and the package, the socket if
`uv_tcp_init` succeeds, `client_con_cb` if there is one, and whether `uv_read_start` succeeds. -/
structure UsConnection where
  client : Option Nat
  package : Option Nat
  accepted : Option Nat
  clientCon : Option UsConnect
  reading : Bool
  discon : UsDiscon

/-- Data of a client: the number of bytes, if it is not negative, what the buffer holds, and what `qc_cb` and
`data_in_cb` return, if there are any. -/
structure UsRead where
  nread : Option Nat
  mem : Block
  qc : Option Nat
  dataIn : Option Nat
  discon : UsDiscon

/-- What happens to a server that runs. -/
inductive UsEvent where
  | connection (m : UsConnection)
  | read (handle : Nat) (m : UsRead)
  /-- libuv is through with one of the handles that are to be closed. -/
  | closed (i : Nat) (discon : UsDiscon)
  /-- `SIGINT`, and what `sigint_cb` returns, if there is one. -/
  | sigint (rval : Option Nat)
  | stop
  | removeClient (handle : Nat) (discon : UsDiscon)
  /-- A C string, without the byte that ends it. -/
  | setQuitCommand (handleQuitCmd : Bool) (quitCmd : Option (List UInt8))

/-- The data that somebody has to free. -/
def UscbPackage.owned (package : UscbPackage) : List UsResource :=
  match package.freeDataProc, package.data with
  | some p, some value => [.data p value]
  | _, _ => []

/-- All that there is for a client. -/
def UvClient.owned (client : UvClient) : List UsResource :=
  client.package.owned ++ [.block client.package.addr, .sock client.fd, .handle client.handle]

/-- The package once `client_con_cb` has been asked. -/
def UsConnection.filled (m : UsConnection) (server addr : Nat) : UscbPackage :=
  match m.clientCon with
  | none => ⟨addr, some server, none⟩
  | some con => ⟨addr, con.data.getD (some server), con.freeDataProc.getD none⟩

/-- `(r_code & USCB_CLIENT_CLOSE) || (r_code & USCB_SERVER_SHUTDOWN)` -/
def closesClient (rval : Option Nat) : Bool :=
  rval.any fun rval => asks rval USCB_CLIENT_CLOSE || asks rval USCB_SERVER_SHUTDOWN

namespace UvTcpServer

/-- `UvTcpServer_stop`. -/
def stop (server : UvTcpServer) : List UsAct × UvTcpServer :=
  if server.handle.isSome && !server.isClosing then
    ([.wake], { server with isClosing := true, closings := server.closings ++ [.server] })
  else ([.wake], server)

def stopIf (asked : Bool) (server : UvTcpServer) : List UsAct × UvTcpServer :=
  if asked then server.stop else ([], server)

/-- The call of `client_discon_cb` in `remove_client_cb`. -/
def disconnect (server : UvTcpServer) (client : UvClient) (discon : UsDiscon) : List UsAct × UvTcpServer :=
  match discon with
  | none => ([], server)
  | some cb =>
    (.disconnected client.handle :: (stopIf (asks (cb client.handle) USCB_SERVER_SHUTDOWN) server).1,
      (stopIf (asks (cb client.handle) USCB_SERVER_SHUTDOWN) server).2)

/-- `remove_client_cb`, with the `mem_block` of the package. -/
def removeClientCb (server : UvTcpServer) (client : UvClient) (memBlock : Option Nat) (discon : UsDiscon) :
    Outcome (List UsAct × UvTcpServer) := do
  let (told, server) := server.disconnect client discon
  let inputBuffs ← server.inputBuffs.unreserveBlock memBlock
  return (told ++ (client.package.owned ++ [UsResource.block client.package.addr, .sock client.fd]).map .freed,
    { server with inputBuffs, closings := server.closings ++ [.client client.handle] })

/-- `ArrayList_remove(server->client_list, client)`. -/
def remove (server : UvTcpServer) (client : UvClient) (memBlock : Option Nat) (discon : UsDiscon) :
    Outcome (List UsAct × UvTcpServer) := do
  let (freed, clientList) ← server.clientList.remove (some client)
  match freed with
  | [] => return ([], { server with clientList })
  | client :: _ => removeClientCb { server with clientList } client memBlock discon

def removeIf (asked : Bool) (server : UvTcpServer) (client : UvClient) (memBlock : Option Nat)
    (discon : UsDiscon) : Outcome (List UsAct × UvTcpServer) :=
  if asked then server.remove client memBlock discon else .ok ([], server)

/-- What `ArrayList_clear` does with the clients that it takes out. -/
def removeAll : List UvClient → UvTcpServer → UsDiscon → Outcome (List UsAct × UvTcpServer)
  | [], server, _ => .ok ([], server)
  | client :: clients, server, discon => do
    let (acts, server) ← server.removeClientCb client none discon
    let (rest, server) ← removeAll clients server discon
    return (acts ++ rest, server)

/-- `close_server_cb`. -/
def closeServerCb (server : UvTcpServer) (discon : UsDiscon) : Outcome (List UsAct × UvTcpServer) := do
  let (freed, clientList) ← server.clientList.clear
  let (acts, server) ← removeAll freed { server with clientList } discon
  return (acts ++ (server.handle.toList.map UsResource.handle).map .freed, { server with handle := none })

/-- The callback of one of the handles that are to be closed. -/
def closed (server : UvTcpServer) (i : Nat) (discon : UsDiscon) : Outcome (List UsAct × UvTcpServer) :=
  let rest : UvTcpServer := { server with closings := server.closings.eraseIdx i }
  match server.closings[i]? with
  | none => .ok ([], server)
  | some (.client handle) => .ok ([.freed (.handle handle)], rest)
  | some (.refused _) => .error .dangling
  | some .server => rest.closeServerCb discon

/-- The client is taken in. -/
def addClient (server : UvTcpServer) (client : UvClient) (reading : Bool) (discon : UsDiscon) :
    Outcome (List UsAct × UvTcpServer) := do
  let (stored, clientList) ← server.clientList.add (some client)
  if !stored then return (client.owned.map .left, { server with clientList })
  else removeIf (!reading) { server with clientList } client none discon

/-- `client_connection_cb`. -/
def clientConnectionCb (server : UvTcpServer) (m : UsConnection) : Outcome (List UsAct × UvTcpServer) :=
  match m.client, m.package, m.accepted with
  | none, _, _ => .ok ([], server)
  | some handle, none, _ => .ok ([.got (.handle handle), .freed (.handle handle)], server)
  | some handle, some addr, none =>
    .ok ([.got (.handle handle), .got (.block addr), .freed (.handle handle), .freed (.block addr)], server)
  | some handle, some addr, some fd =>
    let client := ⟨handle, fd, m.filled server.addr addr⟩
    let got := client.owned.map .got
    if closesClient (m.clientCon.map UsConnect.rval) then
      let (told, server) := stopIf ((m.clientCon.map UsConnect.rval).any (asks · USCB_SERVER_SHUTDOWN))
        { server with closings := server.closings ++ [.refused handle] }
      .ok (got ++ [.freed (.sock fd), .freed (.handle handle), .freed (.block addr)] ++
        client.package.owned.map .left ++ told, server)
    else do
      let (acts, server) ← server.addClient client m.reading m.discon
      return (got ++ acts, server)

/-- `str_match` of the data and the quit command. -/
def matchQuit (server : UvTcpServer) (mem : Block) (nread : Nat) : Outcome Int :=
  strMatch (some mem) nread (some (server.quitCommand.getD DEFAULT_QUIT_COMMAND)) 0

/-- How the data compares with the quit command, where there is one. -/
def compareQuit (server : UvTcpServer) (mem : Block) (nread : Nat) : Outcome Int :=
  if server.handleQuitCommand then server.matchQuit mem nread else .ok 1

/-- The calls of `qc_cb` and `data_in_cb` in `client_data_in_cb`. -/
def answerData (server : UvTcpServer) (client : UvClient) (m : UsRead) (memBlock nread : Nat) (matched : Int) :
    Outcome (List UsAct × UvTcpServer) :=
  if matched = 0 then
    match m.qc with
    | none => .ok server.stop
    | some rval => do
      let (acts, server) ← server.removeIf (asks rval USCB_CLIENT_CLOSE) client (some memBlock) m.discon
      let (told, server) := stopIf (!asks rval USCB_CONTINUE) server
      return (.quit client.handle :: acts ++ told, server)
  else
    match m.dataIn with
    | none => .ok ([], server)
    | some rval => do
      let (acts, server) ← server.removeIf (closesClient (some rval)) client (some memBlock) m.discon
      let (told, server) := stopIf (asks rval USCB_SERVER_SHUTDOWN) server
      return (.dataIn client.handle (m.mem.take nread) :: acts ++ told, server)

/-- What `client_data_in_cb` does before the label `f_return`. -/
def takeData (server : UvTcpServer) (client : UvClient) (m : UsRead) (memBlock : Nat) :
    Outcome (List UsAct × UvTcpServer) :=
  match m.nread with
  | none => server.remove client (some memBlock) m.discon
  | some nread => do
    let matched ← server.compareQuit m.mem nread
    server.answerData client m memBlock nread matched

/-- `MemPool_unreserve_block(&package->mem_block)`, at `f_return`. The package has gone with the client. -/
def giveBack (server : UvTcpServer) (client : UvClient) (memBlock : Nat) : Outcome UvTcpServer :=
  if client ∈ server.clientList.entries then do
    let inputBuffs ← server.inputBuffs.unreserveBlock (some memBlock)
    return { server with inputBuffs }
  else .error .dangling

section

variable (allocCb : Nat → Option Unit × Nat)

/-- `client_buff_init` and `client_data_in_cb`. -/
def clientDataInCb (server : UvTcpServer) (client : UvClient) (m : UsRead) :
    Outcome (List UsAct × UvTcpServer) := do
  let (memBlock, inputBuffs) ← server.inputBuffs.reserveBlock allocCb
  match memBlock with
  | none => throw .nullDeref
  | some memBlock => do
    let (acts, server) ← takeData { server with inputBuffs } client m memBlock
    let server ← server.giveBack client memBlock
    return (acts, server)

/-- `signal_interrupt_cb`. -/
def signalInterruptCb (server : UvTcpServer) (rval : Option Nat) : List UsAct × UvTcpServer :=
  match rval with
  | none => server.stop
  | some rval => stopIf (asks rval USCB_SERVER_SHUTDOWN || asks rval USCB_DEFAULT) server

/-- `UvTcpServer_set_quit_command`. -/
def setQuitCommand (server : UvTcpServer) (handleQuitCmd : Bool) (quitCmd : Option (List UInt8)) : UvTcpServer :=
  { server with
    handleQuitCommand := handleQuitCmd
    quitCommand := if handleQuitCmd then quitCmd.map (· ++ [0]) else none }

/-- One event. Those of a client that is not in the list do not come. -/
def step (server : UvTcpServer) : UsEvent → Outcome (List UsAct × UvTcpServer)
  | .connection m => server.clientConnectionCb m
  | .read handle m =>
    match server.clientList.entries.find? (·.handle = handle) with
    | none => .ok ([], server)
    | some client => server.clientDataInCb allocCb client m
  | .closed i discon => server.closed i discon
  | .sigint rval => .ok (server.signalInterruptCb rval)
  | .stop => .ok server.stop
  | .removeClient handle discon =>
    match server.clientList.entries.find? (·.handle = handle) with
    | none => .ok ([], server)
    | some client => server.remove client none discon
  | .setQuitCommand handleQuitCmd quitCmd => .ok ([], server.setQuitCommand handleQuitCmd quitCmd)

/-- `newUvTcpServer`. -/
def newUvTcpServer (addr : Nat) (handleQuitCommand : Bool) : Outcome (Option UvTcpServer) := do
  let inputBuffs ← MemPool.newEx allocCb 1 256
  match ArrayList.new true, inputBuffs with
  | some clientList, some inputBuffs =>
    return some ⟨addr, none, false, clientList, inputBuffs, handleQuitCommand, none, []⟩
  | _, _ => return none

/-- `UvTcpServer_start`, where nothing fails, up to the loop. -/
def start (server : UvTcpServer) (handle : Nat) : List UsAct × UvTcpServer :=
  (server.stop.1 ++ [.got (.handle handle)], { server.stop.2 with handle := some handle, isClosing := false })

/-- What is to be closed is closed. -/
def closeAll (server : UvTcpServer) (discon : UsDiscon) : Outcome (List UsAct × UvTcpServer) :=
  (run (fun server (_ : UvClosing) => server.closed 0 discon) server server.closings).map fun r =>
    (r.1.flatten, r.2)

/-- A server is started and goes through the events. The loop does not end before what is to be closed is
closed: where this is the server, its clients come after it. -/
def session (server : UvTcpServer) (handle : Nat) (events : List UsEvent) (discon : UsDiscon) :
    Outcome (List UsAct × UvTcpServer) := do
  let (told, server) := server.start handle
  let (acts, server) ← run (step allocCb) server events
  let (closed, server) ← server.closeAll discon
  let (last, server) ← server.closeAll discon
  return (told ++ acts.flatten ++ closed ++ last, server)

end

end UvTcpServer

def UsAct.comes : UsAct → List UsResource
  | .got r => [r]
  | _ => []

def UsAct.frees : UsAct → List UsResource
  | .freed r => [r]
  | _ => []

def UsAct.leaves : UsAct → List UsResource
  | .left r => [r]
  | _ => []

def UsAct.goes (act : UsAct) : List UsResource := act.frees ++ act.leaves

/-- What libuv still holds of a client. -/
def UvClosing.owned : UvClosing → List UsResource
  | .client handle => [.handle handle]
  | _ => []

namespace MemPool

/-- A block that is taken and given back leaves a pool as it was. -/
theorem Holds.borrow {pool : MemPool Unit} {allocCb : Nat → Option Unit × Nat} (h : Holds pool []) :
    ∃ a pool', pool.reserveBlock allocCb = .ok (some a, pool') ∧ pool'.unreserveBlock (some a) = .ok pool := by
  have hpos := h.full.pos
  obtain ⟨a, blocks, hfind, hmod, -, hout, -⟩ := h.reserve hpos
  obtain ⟨b, hb⟩ : ∃ b, pool.blocks.cell a = some b := by
    rw [Heap.modify] at hmod
    cases hb : pool.blocks.cell a with
    | none =>
      rw [hb] at hmod
      cases hmod
    | some b => exact ⟨b, rfl⟩
  have hcount : pool.reservedCount = 0 := h.count_eq
  have hres : b.reserved = false := by
    by_contra hr
    rw [Bool.not_eq_false, ← isReserved_eq hb] at hr
    exact hout ((h.mem_iff a).mpr ⟨Heap.lt_of_cell hb, hr⟩)
  have hcap := h.full.capacity_eq
  refine ⟨a, _, reserveBlock_found (by omega) hfind hb, ?_⟩
  have hput : (pool.blocks.put a (some { b with reserved := true })).cell a = some { b with reserved := true } := by
    rw [Heap.cell_put hb, Function.update_self]
  have hback : sizeSub (sizeAdd pool.reservedCount 1) 1 = pool.reservedCount := by
    rw [hcount]
    decide
  rw [unreserveBlock_eq hput rfl, Heap.put_put, hback, ← hres, Heap.put_cell hb]

end MemPool

namespace UvTcpServer

def held (server : UvTcpServer) : List UsResource :=
  server.clientList.entries.flatMap UvClient.owned ++ server.closings.flatMap UvClosing.owned ++
    server.handle.toList.map .handle

/-- The clients of a list are told by their handles. -/
structure Listed (l : ArrayList UvClient) : Prop where
  wf : l.WF
  capacity_le : l.capacity ≤ l.maxCap
  maxCap : l.maxCap = ULONG_MAX
  freeItem : l.freeItem = true
  handles : (l.entries.map UvClient.handle).Nodup

/-- `uv_close` has been called for what is to be closed. -/
def Closing (server : UvTcpServer) : Prop := .server ∈ server.closings → server.isClosing = true

/-- There are no clients once the server is closed. Its buffers are those that it was made with. -/
structure Inv (new server : UvTcpServer) : Prop where
  addr : server.addr = new.addr
  closing : Closing server
  listed : Listed server.clientList
  ended : server.handle = none → server.clientList.entries = []
  buffs : server.inputBuffs = new.inputBuffs

/-- No handle is to be closed whose memory was freed. -/
def Clean (server : UvTcpServer) : Prop := ∀ handle, UvClosing.refused handle ∉ server.closings

def audit (new : UvTcpServer) : Audit UvTcpServer UsAct UsResource where
  held := held
  comes := UsAct.comes
  goes := UsAct.goes
  leaves := UsAct.leaves
  Inv := Inv new
  Clean := Clean

variable {new server server' : UvTcpServer} {client : UvClient}

/-- What is owed goes, beside the list of clients. -/
structure Drops (owed : List UsResource) (server : UvTcpServer) (acts : List UsAct) (server' : UvTcpServer) :
    Prop where
  addr : server'.addr = server.addr
  list : server'.clientList = server.clientList
  handle : server'.handle = server.handle
  buffs : server'.inputBuffs = server.inputBuffs
  comes : acts.flatMap UsAct.comes = []
  goes : (owed ++ held server).Perm (acts.flatMap UsAct.goes ++ held server')
  leaves : acts.flatMap UsAct.leaves = []
  closing : Closing server → Closing server'
  closings : ∃ more, server'.closings = server.closings ++ more ∧ ∀ handle, .refused handle ∉ more

theorem Drops.refl (server : UvTcpServer) : Drops [] server [] server :=
  ⟨rfl, rfl, rfl, rfl, rfl, .refl _, rfl, id, [], (List.append_nil _).symm, fun _ => List.not_mem_nil⟩

theorem Drops.refused {owed : List UsResource} {acts : List UsAct} (h : Drops owed server acts server')
    (handle : Nat) : .refused handle ∈ server'.closings ↔ .refused handle ∈ server.closings := by
  obtain ⟨more, hmore, hnot⟩ := h.closings
  rw [hmore, List.mem_append]
  exact or_iff_left (hnot handle)

theorem Drops.trans {owed owed' : List UsResource} {as bs : List UsAct} {server₁ : UvTcpServer}
    (h : Drops owed server as server₁) (h' : Drops owed' server₁ bs server') :
    Drops (owed ++ owed') server (as ++ bs) server' := by
  refine ⟨h'.addr.trans h.addr, h'.list.trans h.list, h'.handle.trans h.handle, h'.buffs.trans h.buffs, ?_, ?_, ?_,
    h'.closing ∘ h.closing, ?_⟩
  · rw [List.flatMap_append, h.comes, h'.comes]
    rfl
  · refine List.perm_iff_count.mpr fun r => ?_
    have hg := h.goes.count_eq r
    have hg' := h'.goes.count_eq r
    simp only [List.flatMap_append, List.count_append] at hg hg' ⊢
    omega
  · rw [List.flatMap_append, h.leaves, h'.leaves]
    rfl
  · obtain ⟨more, hmore, hnot⟩ := h.closings
    obtain ⟨more', hmore', hnot'⟩ := h'.closings
    refine ⟨more ++ more', by rw [hmore', hmore, List.append_assoc], fun handle hin => ?_⟩
    exact (List.mem_append.mp hin).elim (hnot handle) (hnot' handle)

/-- Something is told first. -/
theorem Drops.cons {owed : List UsResource} {acts : List UsAct} (h : Drops owed server acts server')
    {act : UsAct} (hcomes : act.comes = []) (hgoes : act.goes = []) (hleaves : act.leaves = []) :
    Drops owed server (act :: acts) server' := by
  refine ⟨h.addr, h.list, h.handle, h.buffs, ?_, ?_, ?_, h.closing, h.closings⟩
  · rw [List.flatMap_cons, hcomes, h.comes]
    rfl
  · rw [List.flatMap_cons, hgoes]
    exact h.goes
  · rw [List.flatMap_cons, hleaves, h.leaves]
    rfl

theorem stop_drops (server : UvTcpServer) : Drops [] server server.stop.1 server.stop.2 := by
  have hwake : Drops [] server [.wake] server := (Drops.refl server).cons rfl rfl rfl
  rw [stop]
  split
  · refine ⟨rfl, rfl, rfl, rfl, rfl, ?_, rfl, fun _ _ => rfl, [.server], rfl, by simp⟩
    · change (held server).Perm (held _)
      rw [held, held, List.flatMap_append]
      simp [UvClosing.owned]
  · exact hwake

theorem stopIf_drops (asked : Bool) (server : UvTcpServer) :
    Drops [] server (stopIf asked server).1 (stopIf asked server).2 := by
  cases asked with
  | true => exact stop_drops server
  | false => exact .refl server

theorem disconnect_drops (server : UvTcpServer) (client : UvClient) (discon : UsDiscon) :
    Drops [] server (server.disconnect client discon).1 (server.disconnect client discon).2 := by
  cases discon with
  | none => exact .refl server
  | some cb => exact (stopIf_drops _ server).cons rfl rfl rfl

theorem goes_freed (rs : List UsResource) : (rs.map UsAct.freed).flatMap UsAct.goes = rs := by
  rw [List.flatMap_map]
  exact List.flatMap_singleton' rs

theorem comes_freed (rs : List UsResource) : (rs.map UsAct.freed).flatMap UsAct.comes = [] := by
  rw [List.flatMap_map]
  exact List.flatMap_eq_nil_iff.mpr fun _ _ => rfl

theorem leaves_freed (rs : List UsResource) : (rs.map UsAct.freed).flatMap UsAct.leaves = [] := by
  rw [List.flatMap_map]
  exact List.flatMap_eq_nil_iff.mpr fun _ _ => rfl

/-- A client is given up: its handle goes once it is closed. -/
theorem removeClientCb_drops (server : UvTcpServer) (client : UvClient) (discon : UsDiscon) :
    ∃ acts server', server.removeClientCb client none discon = .ok (acts, server') ∧
      Drops client.owned server acts server' := by
  have hdis := disconnect_drops server client discon
  refine ⟨_, _, rfl, ?_⟩
  have hfree : Drops client.owned (server.disconnect client discon).2
      ((client.package.owned ++ [UsResource.block client.package.addr, .sock client.fd]).map .freed)
      { (server.disconnect client discon).2 with
        closings := (server.disconnect client discon).2.closings ++ [.client client.handle] } := by
    refine ⟨rfl, rfl, rfl, rfl, comes_freed _, ?_, leaves_freed _, fun hc hin => ?_, _, rfl, by simp⟩
    · refine List.perm_iff_count.mpr fun r => ?_
      rw [goes_freed, held, held, UvClient.owned, List.flatMap_append]
      simp only [List.flatMap_cons, List.flatMap_nil, UvClosing.owned, List.count_append, List.count_cons,
        List.count_nil]
      omega
    · exact hc ((List.mem_append.mp hin).resolve_right fun h => by cases List.mem_singleton.mp h)
  exact hdis.trans hfree

theorem removeAll_drops (discon : UsDiscon) (clients : List UvClient) : ∀ server : UvTcpServer,
    ∃ acts server', removeAll clients server discon = .ok (acts, server') ∧
      Drops (clients.flatMap UvClient.owned) server acts server' := by
  induction clients with
  | nil => exact fun server => ⟨[], server, rfl, .refl server⟩
  | cons client clients ih =>
    intro server
    obtain ⟨as, server₁, hr, hd⟩ := removeClientCb_drops server client discon
    obtain ⟨bs, server₂, hr', hd'⟩ := ih server₁
    refine ⟨as ++ bs, server₂, ?_, hd.trans hd'⟩
    rw [removeAll, hr, ok_bind]
    dsimp only
    rw [hr']
    rfl

theorem Inv.drops {owed : List UsResource} {acts : List UsAct} (h : Inv new server)
    (hd : Drops owed server acts server') : Inv new server' := by
  refine ⟨hd.addr.trans h.addr, hd.closing h.closing, ?_, fun hh => ?_, hd.buffs.trans h.buffs⟩
  · rw [hd.list]
    exact h.listed
  · rw [hd.list]
    exact h.ended (hd.handle.symm.trans hh)

/-- What leaves the list is given up. -/
theorem Drops.keeps {owed : List UsResource} {acts : List UsAct} {server₁ : UvTcpServer}
    (hd : Drops owed server₁ acts server') (h : Inv new server₁)
    (hheld : (held server).Perm (owed ++ held server₁)) (hclosings : server₁.closings = server.closings) :
    (audit new).Keeps True [] server acts server' := by
  refine ⟨h.drops hd, ?_, hd.leaves, ?_⟩
  · change (acts.flatMap UsAct.comes ++ held server).Perm _
    rw [hd.comes]
    exact hheld.trans hd.goes
  · rw [and_true]
    refine forall_congr' fun handle => not_congr ?_
    rw [hd.refused, hclosings]

/-- Nothing but the list of clients is left alone. -/
theorem Drops.keeps_self {acts : List UsAct} (hd : Drops [] server acts server') (h : Inv new server) :
    (audit new).Keeps True [] server acts server' :=
  hd.keeps h (.refl _) rfl

theorem Listed.removed {l : ArrayList UvClient} (h : Listed l) (hmem : client ∈ l.entries) :
    ∃ l', l.remove (some client) = .ok ([client], l') ∧ Listed l' ∧ l.entries.Perm (client :: l'.entries) := by
  rcases ArrayList.remove_item h.wf client with
    ⟨hnot, -⟩ | ⟨l', pre, post, hr, hwf, hentries, hentries', hcap, hmax, hfree⟩
  · exact absurd hmem hnot
  · have hperm : l.entries.Perm (client :: l'.entries) := by
      rw [hentries, hentries']
      exact List.perm_middle
    refine ⟨l', by rw [hr, if_pos h.freeItem], ⟨hwf, by rw [hcap, hmax]; exact h.capacity_le,
      hmax.trans h.maxCap, hfree.trans h.freeItem, ?_⟩, hperm⟩
    exact (List.nodup_cons.mp ((hperm.map _).nodup_iff.mp h.handles)).2

theorem Listed.not_mem {l l' : ArrayList UvClient} (h : Listed l) (hperm : l.entries.Perm (client :: l'.entries)) :
    client ∉ l'.entries := fun hmem =>
  (List.nodup_cons.mp ((hperm.map UvClient.handle).nodup_iff.mp h.handles)).1 (List.mem_map_of_mem hmem)

theorem held_removed {l : ArrayList UvClient} (hperm : server.clientList.entries.Perm (client :: l.entries)) :
    (held server).Perm (client.owned ++ held { server with clientList := l }) := by
  refine List.perm_iff_count.mpr fun r => ?_
  have hcount := (hperm.flatMap_right UvClient.owned).count_eq r
  rw [List.flatMap_cons, List.count_append] at hcount
  simp only [held, List.count_append]
  omega

/-- A client is removed outside of its own callback. -/
theorem remove_keeps (h : Inv new server) (hmem : client ∈ server.clientList.entries) (discon : UsDiscon) :
    ∃ acts server', server.remove client none discon = .ok (acts, server') ∧
      (audit new).Keeps True [] server acts server' := by
  obtain ⟨l, hr, hl, hperm⟩ := h.listed.removed hmem
  obtain ⟨acts, server', hcb, hd⟩ := removeClientCb_drops { server with clientList := l } client discon
  refine ⟨acts, server', ?_, hd.keeps ⟨h.addr, h.closing, hl, fun hh => ?_, h.buffs⟩ (held_removed hperm) rfl⟩
  · rw [remove, hr, ok_bind]
    exact hcb
  · rw [h.ended hh] at hmem
    cases hmem

theorem removeClientCb_list {memBlock : Option Nat} {discon : UsDiscon} {acts : List UsAct}
    (hr : server.removeClientCb client memBlock discon = .ok (acts, server')) :
    server'.clientList = server.clientList := by
  obtain ⟨inputBuffs, -, hr⟩ := bind_eq_ok.mp hr
  cases hr
  exact (disconnect_drops server client discon).list

/-- A client that has been removed is in the list no more. -/
theorem remove_gone {memBlock : Option Nat} {discon : UsDiscon} {acts : List UsAct}
    (h : Listed server.clientList) (hmem : client ∈ server.clientList.entries)
    (hr : server.remove client memBlock discon = .ok (acts, server')) :
    client ∉ server'.clientList.entries := by
  obtain ⟨l, hl, -, hperm⟩ := h.removed hmem
  rw [remove, hl, ok_bind] at hr
  rw [removeClientCb_list hr]
  exact h.not_mem hperm

/-- Does what is called for the data ask to close the client? -/
def removes (m : UsRead) (matched : Int) : Bool :=
  if matched = 0 then m.qc.any (asks · USCB_CLIENT_CLOSE) else closesClient m.dataIn

/-- A client is left alone. -/
theorem answerData_stays {m : UsRead} {matched : Int} (hstays : removes m matched = false)
    (memBlock nread : Nat) : ∃ acts server',
      server.answerData client m memBlock nread matched = .ok (acts, server') ∧ Drops [] server acts server' := by
  rw [removes] at hstays
  unfold answerData
  by_cases hzero : matched = 0
  · rw [if_pos hzero] at hstays ⊢
    cases hqc : m.qc with
    | none => exact ⟨_, _, rfl, stop_drops server⟩
    | some rval =>
      rw [hqc] at hstays
      have hclose : asks rval USCB_CLIENT_CLOSE = false := hstays
      dsimp only
      rw [hclose]
      exact ⟨_, _, rfl, (stopIf_drops _ server).cons rfl rfl rfl⟩
  · rw [if_neg hzero] at hstays ⊢
    cases hdata : m.dataIn with
    | none => exact ⟨_, _, rfl, .refl server⟩
    | some rval =>
      rw [hdata] at hstays
      dsimp only
      rw [hstays]
      exact ⟨_, _, rfl, (stopIf_drops _ server).cons rfl rfl rfl⟩

/-- A client that is to be closed is removed. -/
theorem answerData_gone {m : UsRead} {memBlock nread : Nat} {matched : Int} {acts : List UsAct}
    (h : Listed server.clientList) (hmem : client ∈ server.clientList.entries) (hgone : removes m matched = true)
    (hr : server.answerData client m memBlock nread matched = .ok (acts, server')) :
    client ∉ server'.clientList.entries := by
  rw [removes] at hgone
  unfold answerData at hr
  by_cases hzero : matched = 0
  · rw [if_pos hzero] at hgone hr
    cases hqc : m.qc with
    | none =>
      rw [hqc] at hgone
      cases hgone
    | some rval =>
      rw [hqc] at hgone hr
      have hclose : asks rval USCB_CLIENT_CLOSE = true := hgone
      dsimp only at hr
      rw [hclose] at hr
      obtain ⟨⟨as, server₁⟩, hrem, hr⟩ := bind_eq_ok.mp hr
      cases hr
      rw [(stopIf_drops _ server₁).list]
      exact remove_gone h hmem hrem
  · rw [if_neg hzero] at hgone hr
    cases hdata : m.dataIn with
    | none =>
      rw [hdata] at hgone
      cases hgone
    | some rval =>
      rw [hdata] at hgone hr
      dsimp only at hr
      rw [hgone] at hr
      obtain ⟨⟨as, server₁⟩, hrem, hr⟩ := bind_eq_ok.mp hr
      cases hr
      rw [(stopIf_drops _ server₁).list]
      exact remove_gone h hmem hrem

/-- Data comes in, its comparison with the quit command ends, and nobody asks to close the client. -/
def SoundRead (server : UvTcpServer) (m : UsRead) : Prop :=
  ∃ nread matched, m.nread = some nread ∧ server.compareQuit m.mem nread = .ok matched ∧ removes m matched = false

/-- Otherwise the client is removed, if that ends at all. -/
theorem takeData_gone {m : UsRead} {memBlock : Nat} {acts : List UsAct} (h : Listed server.clientList)
    (hmem : client ∈ server.clientList.entries) (hsound : ¬server.SoundRead m)
    (hr : server.takeData client m memBlock = .ok (acts, server')) : client ∉ server'.clientList.entries := by
  unfold takeData at hr
  cases hread : m.nread with
  | none =>
    rw [hread] at hr
    exact remove_gone h hmem hr
  | some nread =>
    rw [hread] at hr
    obtain ⟨matched, hmatched, hr⟩ := bind_eq_ok.mp hr
    refine answerData_gone h hmem ?_ hr
    by_contra hstays
    exact hsound ⟨nread, matched, hread, hmatched, Bool.eq_false_iff.mpr hstays⟩

theorem takeData_stays {m : UsRead} (hsound : server.SoundRead m) (memBlock : Nat) : ∃ acts server',
    server.takeData client m memBlock = .ok (acts, server') ∧ Drops [] server acts server' := by
  obtain ⟨nread, matched, hread, hmatched, hstays⟩ := hsound
  have hanswer := @answerData_stays server client m matched hstays memBlock nread
  unfold takeData
  rw [hread]
  dsimp only
  rw [hmatched]
  exact hanswer

/-- The buffer is back in the pool. -/
theorem Drops.backed {owed : List UsResource} {acts : List UsAct} {inputBuffs pool : MemPool Unit}
    (hd : Drops owed { server with inputBuffs } acts server') (h : server.inputBuffs = pool) :
    Drops owed server acts { server' with inputBuffs := pool } :=
  ⟨hd.addr, hd.list, hd.handle, h.symm, hd.comes, hd.goes, hd.leaves, hd.closing, hd.closings⟩

theorem clientDataInCb_handles {allocCb : Nat → Option Unit × Nat} (hpool : MemPool.Holds new.inputBuffs [])
    (h : Inv new server) (hmem : client ∈ server.clientList.entries) (m : UsRead) :
    (audit new).Handles (server.SoundRead m) [] server (server.clientDataInCb allocCb client m) := by
  obtain ⟨memBlock, inputBuffs, hres, hback⟩ := @MemPool.Holds.borrow new.inputBuffs allocCb hpool
  have hread : server.clientDataInCb allocCb client m =
      (takeData { server with inputBuffs } client m memBlock >>= fun x =>
        giveBack x.2 client memBlock >>= fun s => .ok (x.1, s)) := by
    rw [clientDataInCb, h.buffs, hres]
    rfl
  rw [hread]
  by_cases hsound : server.SoundRead m
  · obtain ⟨acts, server', hr, hd⟩ := @takeData_stays { server with inputBuffs } client m hsound memBlock
    have hgive : giveBack server' client memBlock = .ok { server' with inputBuffs := new.inputBuffs } := by
      rw [giveBack, hd.list, if_pos hmem, hd.buffs, hback]
      rfl
    rw [hr, ok_bind, hgive]
    exact (Handles.of_ok ((hd.backed h.buffs).keeps_self h)).congr ⟨fun _ => hsound, fun _ => trivial⟩
  · refine (Handles.of_fails fun acts s he => ?_).congr ⟨False.elim, hsound⟩
    obtain ⟨⟨as, server'⟩, hr, he⟩ := bind_eq_ok.mp he
    obtain ⟨server₁, hgive, -⟩ := bind_eq_ok.mp he
    have hgone := @takeData_gone { server with inputBuffs } _ _ _ _ _ h.listed hmem hsound hr
    rw [giveBack, if_neg hgone] at hgive
    cases hgive

/-- All clients are given up, and the server is closed. -/
theorem closeServerCb_keeps (h : Inv new server) (discon : UsDiscon) :
    ∃ acts server', server.closeServerCb discon = .ok (acts, server') ∧
      (audit new).Keeps True [] server acts server' := by
  obtain ⟨l, hr, hwf, hentries, -, hcap, hmax, hfree⟩ := ArrayList.clear_items h.listed.wf
  obtain ⟨acts, server', hall, hd⟩ :=
    removeAll_drops discon server.clientList.entries { server with clientList := l }
  have hl : Listed l := ⟨hwf, by rw [hcap, hmax]; exact h.listed.capacity_le, hmax.trans h.listed.maxCap,
    hfree.trans h.listed.freeItem, by rw [hentries]; exact List.nodup_nil⟩
  refine ⟨acts ++ (server'.handle.toList.map UsResource.handle).map .freed, { server' with handle := none },
    ?_, ⟨⟨hd.addr.trans h.addr, hd.closing h.closing, hd.list ▸ hl,
      fun _ => by rw [hd.list]; exact hentries, hd.buffs.trans h.buffs⟩, ?_, ?_, ?_⟩⟩
  · rw [closeServerCb, hr, if_pos h.listed.freeItem, ok_bind]
    dsimp only
    rw [hall]
    rfl
  · refine List.perm_iff_count.mpr fun r => ?_
    have hgoes := hd.goes.count_eq r
    change (List.flatMap UsAct.comes _ ++ held server).count r = (List.flatMap UsAct.goes _ ++ held _).count r
    rw [List.flatMap_append, List.flatMap_append, hd.comes, comes_freed, goes_freed]
    simp only [held, hd.list, hentries, List.flatMap_nil, List.count_append, List.count_nil,
      Option.toList_none, List.map_nil] at hgoes ⊢
    omega
  · change List.flatMap UsAct.leaves _ = []
    rw [List.flatMap_append, hd.leaves, leaves_freed]
    rfl
  · rw [and_true]
    exact forall_congr' fun handle => not_congr (hd.refused handle)

/-- libuv is through with a handle. -/
theorem erase_keeps (h : Inv new server) {i : Nat} {closing : UvClosing}
    (hi : server.closings[i]? = some closing) (hnot : ∀ handle, closing ≠ .refused handle) :
    (audit new).Keeps True [] server (closing.owned.map .freed)
      { server with closings := server.closings.eraseIdx i } := by
  obtain ⟨hlt, hget⟩ := List.getElem?_eq_some_iff.mp hi
  have hperm : (closing :: server.closings.eraseIdx i).Perm server.closings := by
    rw [← hget]
    exact List.getElem_cons_eraseIdx_perm hlt
  have hclosing : Closing { server with closings := server.closings.eraseIdx i } := fun hin =>
    h.closing (hperm.mem_iff.mp (List.mem_cons_of_mem _ hin))
  refine ⟨⟨h.addr, hclosing, h.listed, h.ended, h.buffs⟩, List.perm_iff_count.mpr fun r => ?_, leaves_freed _, ?_⟩
  · change (List.flatMap UsAct.comes _ ++ held server).count r = (List.flatMap UsAct.goes _ ++ held _).count r
    have hcount := (hperm.flatMap_right UvClosing.owned).count_eq r
    rw [List.flatMap_cons, List.count_append] at hcount
    rw [comes_freed, goes_freed]
    simp only [held, List.count_append, List.count_nil]
    omega
  · rw [and_true]
    refine forall_congr' fun handle => not_congr ?_
    rw [← hperm.mem_iff, List.mem_cons]
    exact (or_iff_right fun he => hnot handle he.symm).symm

theorem closed_handles (h : Inv new server) (i : Nat) (discon : UsDiscon) :
    (audit new).Handles True [] server (server.closed i discon) := by
  cases hi : server.closings[i]? with
  | none =>
    rw [closed, hi]
    exact .of_ok (.refl h)
  | some closing =>
    rw [closed, hi]
    cases closing with
    | client handle =>
      exact .of_ok (erase_keeps h hi fun _ he => by cases he)
    | refused handle =>
      have hunclean : ¬server.Clean := fun hc => hc handle (List.mem_of_getElem? hi)
      exact .of_unclean hunclean .dangling
    | server =>
      have hk := erase_keeps h hi fun _ he => by cases he
      obtain ⟨acts, server', hr, hk'⟩ := closeServerCb_keeps hk.inv discon
      dsimp only
      rw [hr]
      exact .of_ok ((hk.trans hk').congr (and_self_iff))

theorem comes_got (rs : List UsResource) : (rs.map UsAct.got).flatMap UsAct.comes = rs := by
  rw [List.flatMap_map]
  exact List.flatMap_singleton' rs

theorem goes_got (rs : List UsResource) : (rs.map UsAct.got).flatMap UsAct.goes = [] := by
  rw [List.flatMap_map]
  exact List.flatMap_eq_nil_iff.mpr fun _ _ => rfl

theorem leaves_got (rs : List UsResource) : (rs.map UsAct.got).flatMap UsAct.leaves = [] := by
  rw [List.flatMap_map]
  exact List.flatMap_eq_nil_iff.mpr fun _ _ => rfl

theorem goes_left (rs : List UsResource) : (rs.map UsAct.left).flatMap UsAct.goes = rs := by
  rw [List.flatMap_map]
  exact List.flatMap_singleton' rs

theorem comes_left (rs : List UsResource) : (rs.map UsAct.left).flatMap UsAct.comes = [] := by
  rw [List.flatMap_map]
  exact List.flatMap_eq_nil_iff.mpr fun _ _ => rfl

theorem leaves_left (rs : List UsResource) : (rs.map UsAct.left).flatMap UsAct.leaves = rs := by
  rw [List.flatMap_map]
  exact List.flatMap_singleton' rs

/-- A client comes: the handle is a new one, the server is not closed and there is room for the list. -/
theorem addClient_keeps (h : Inv new server) (hopen : server.handle ≠ none)
    (hfit : 8 * server.clientList.nextCap < 2 ^ 64)
    (hnew : client.handle ∉ server.clientList.entries.map UvClient.handle) (reading : Bool) (discon : UsDiscon) :
    ∃ acts server', server.addClient client reading discon = .ok (acts, server') ∧
      (audit new).Keeps True [] server (client.owned.map .got ++ acts) server' := by
  obtain ⟨l, hr, hwf, hcap, hmax, hfree, hperm⟩ :=
    ArrayList.add_unbounded h.listed.wf h.listed.capacity_le h.listed.maxCap hfit client
  have hadded : (audit new).Keeps True [] server (client.owned.map .got) { server with clientList := l } := by
    refine ⟨⟨h.addr, h.closing, ⟨hwf, hcap, hmax, hfree.trans h.listed.freeItem, ?_⟩,
      fun hh => absurd hh hopen, h.buffs⟩, List.perm_iff_count.mpr fun r => ?_, leaves_got _, (and_iff_left trivial).symm⟩
    · exact (hperm.map _).nodup_iff.mpr (List.nodup_cons.mpr ⟨hnew, h.listed.handles⟩)
    · change (List.flatMap UsAct.comes _ ++ held server).count r = (List.flatMap UsAct.goes _ ++ held _).count r
      have hcount := (hperm.flatMap_right UvClient.owned).count_eq r
      rw [List.flatMap_cons, List.count_append] at hcount
      rw [comes_got, goes_got]
      simp only [held, List.count_append, List.count_nil]
      omega
  cases reading with
  | true =>
    refine ⟨[], { server with clientList := l }, ?_, by rwa [List.append_nil]⟩
    rw [addClient, hr]
    rfl
  | false =>
    have hmem : client ∈ l.entries := hperm.mem_iff.mpr List.mem_cons_self
    obtain ⟨acts, server', hrem, hk⟩ := remove_keeps hadded.inv hmem discon
    refine ⟨acts, server', ?_, (hadded.trans hk).congr and_self_iff⟩
    rw [addClient, hr, ok_bind]
    exact hrem

/-- `client_con_cb` turns the client away. -/
def refuses (m : UsConnection) : Bool := closesClient (m.clientCon.map UsConnect.rval)

/-- What nobody will free: the data of a client that is turned away. -/
def lost (new : UvTcpServer) : UsEvent → List UsResource
  | .connection m =>
    match m.client, m.package, m.accepted with
    | some _, some addr, some _ => if refuses m then (m.filled new.addr addr).owned else []
    | _, _, _ => []
  | _ => []

/-- Clients come to a server that is open, with a handle that is not there yet, and there is room for the
list. -/
def Fits (server : UvTcpServer) : UsEvent → Prop
  | .connection m => server.handle ≠ none ∧ 8 * server.clientList.nextCap < 2 ^ 64 ∧
    ∀ handle, m.client = some handle → handle ∉ server.clientList.entries.map UvClient.handle
  | _ => True

/-- No client is turned away. -/
def SoundConnection (m : UsConnection) : Prop :=
  m.client.isSome → m.package.isSome → m.accepted.isSome → refuses m = false

theorem filled_addr (m : UsConnection) (server addr : Nat) : (m.filled server addr).addr = addr := by
  rw [UsConnection.filled]
  cases m.clientCon <;> rfl

/-- A client that is turned away: libuv is left with the handle. -/
theorem refused_keeps (h : Inv new server) (client : UvClient) (asked : Bool) :
    (audit new).Keeps False client.package.owned server
      (client.owned.map .got ++ [.freed (.sock client.fd), .freed (.handle client.handle),
        .freed (.block client.package.addr)] ++ client.package.owned.map .left ++
          (stopIf asked { server with closings := server.closings ++ [.refused client.handle] }).1)
      (stopIf asked { server with closings := server.closings ++ [.refused client.handle] }).2 := by
  have hd := stopIf_drops asked { server with closings := server.closings ++ [.refused client.handle] }
  have hinv : Inv new { server with closings := server.closings ++ [.refused client.handle] } :=
    ⟨h.addr, fun hin => h.closing ((List.mem_append.mp hin).resolve_right fun he => by
      cases List.mem_singleton.mp he), h.listed, h.ended, h.buffs⟩
  refine ⟨hinv.drops hd, List.perm_iff_count.mpr fun r => ?_, ?_, ?_⟩
  · change (List.flatMap UsAct.comes _ ++ held server).count r = (List.flatMap UsAct.goes _ ++ held _).count r
    have hgoes := hd.goes.count_eq r
    simp only [List.flatMap_append, comes_got, goes_got, comes_left, goes_left, hd.comes]
    simp only [held, UvClient.owned, UsAct.goes, UsAct.comes, UsAct.frees, UsAct.leaves, UvClosing.owned,
      List.flatMap_append, List.flatMap_cons, List.flatMap_nil, List.count_append, List.count_cons,
      List.count_nil] at hgoes ⊢
    omega
  · change List.flatMap UsAct.leaves _ = _
    rw [List.flatMap_append, List.flatMap_append, List.flatMap_append, leaves_got, leaves_left, hd.leaves,
      List.append_nil]
    rfl
  · rw [and_false, iff_false]
    intro hc
    exact hc client.handle ((hd.refused _).mpr (List.mem_append_right _ List.mem_cons_self))

theorem clientConnectionCb_handles (h : Inv new server) {m : UsConnection} (hfit : server.Fits (.connection m)) :
    (audit new).Handles (SoundConnection m) (lost new (.connection m)) server (server.clientConnectionCb m) := by
  obtain ⟨hopen, hroom, hhandle⟩ := hfit
  cases hc : m.client with
  | none =>
    rw [clientConnectionCb, lost, hc]
    refine (Handles.of_ok (.refl h)).congr ⟨fun _ hs => ?_, fun _ => trivial⟩
    rw [hc] at hs
    cases hs
  | some handle =>
    cases hp : m.package with
    | none =>
      have hk : (audit new).Keeps True [] server [.got (.handle handle), .freed (.handle handle)] server :=
        .of_perm h (List.Perm.refl _) rfl
      rw [clientConnectionCb, lost, hc, hp]
      refine (Handles.of_ok hk).congr ⟨fun _ _ hs => ?_, fun _ => trivial⟩
      rw [hp] at hs
      cases hs
    | some addr =>
      cases ha : m.accepted with
      | none =>
        have hk : (audit new).Keeps True [] server [.got (.handle handle), .got (.block addr),
            .freed (.handle handle), .freed (.block addr)] server := .of_perm h (List.Perm.refl _) rfl
        rw [clientConnectionCb, lost, hc, hp, ha]
        refine (Handles.of_ok hk).congr ⟨fun _ _ _ hs => ?_, fun _ => trivial⟩
        rw [ha] at hs
        cases hs
      | some fd =>
        have hsound : SoundConnection m ↔ refuses m = false := by
          rw [SoundConnection, hc, hp, ha]
          simp
        rw [clientConnectionCb, lost, hc, hp, ha]
        dsimp only
        cases hr : refuses m with
        | true =>
          have hcloses : closesClient (m.clientCon.map UsConnect.rval) = true := hr
          have hk := refused_keeps h ⟨handle, fd, m.filled server.addr addr⟩
            ((m.clientCon.map UsConnect.rval).any (asks · USCB_SERVER_SHUTDOWN))
          dsimp only at hk
          rw [filled_addr] at hk
          rw [if_pos hcloses, if_pos rfl, ← h.addr]
          refine (Handles.of_ok hk).congr ⟨False.elim, fun hs => ?_⟩
          rw [hsound, hr] at hs
          cases hs
        | false =>
          have hcloses : closesClient (m.clientCon.map UsConnect.rval) = false := hr
          obtain ⟨acts, server', hadd, hk⟩ := @addClient_keeps new server
            ⟨handle, fd, m.filled server.addr addr⟩ h hopen hroom (hhandle handle hc) m.reading m.discon
          rw [hcloses, if_neg Bool.false_ne_true, if_neg Bool.false_ne_true, hadd]
          exact (Handles.of_ok hk).congr ⟨fun _ => hsound.mpr hr, fun _ => trivial⟩

/-- Nothing that has been freed is used by what an event does, or will be by what comes later, and the
comparison with the quit command ends. -/
def Sound (server : UvTcpServer) : UsEvent → Prop
  | .connection m => SoundConnection m
  | .read handle m => ∀ client, server.clientList.entries.find? (·.handle = handle) = some client →
    server.SoundRead m
  | _ => True

theorem step_handles (allocCb : Nat → Option Unit × Nat) (hpool : MemPool.Holds new.inputBuffs [])
    (server : UvTcpServer) (e : UsEvent) (h : Inv new server) (hfit : server.Fits e) :
    (audit new).Handles (server.Sound e) (lost new e) server (server.step allocCb e) := by
  cases e with
  | connection m => exact clientConnectionCb_handles h hfit
  | read handle m =>
    cases hc : server.clientList.entries.find? (·.handle = handle) with
    | none =>
      rw [step, hc]
      refine (Handles.of_ok (.refl h)).congr ⟨fun _ client he => ?_, fun _ => trivial⟩
      rw [hc] at he
      cases he
    | some client =>
      rw [step, hc]
      exact (clientDataInCb_handles hpool h (List.mem_of_find?_eq_some hc) m).congr
        ⟨fun hs _ _ => hs, fun hs => hs client hc⟩
  | closed i discon => exact closed_handles h i discon
  | sigint rval =>
    cases rval with
    | none => exact .of_ok ((stop_drops server).keeps_self h)
    | some rval => exact .of_ok ((stopIf_drops _ server).keeps_self h)
  | stop => exact .of_ok ((stop_drops server).keeps_self h)
  | removeClient handle discon =>
    cases hc : server.clientList.entries.find? (·.handle = handle) with
    | none =>
      rw [step, hc]
      exact .of_ok (.refl h)
    | some client =>
      obtain ⟨acts, server', hr, hk⟩ := remove_keeps h (List.mem_of_find?_eq_some hc) discon
      rw [step, hc]
      dsimp only
      rw [hr]
      exact .of_ok hk
  | setQuitCommand handleQuitCmd quitCmd =>
    exact .of_ok ⟨⟨h.addr, h.closing, h.listed, h.ended, h.buffs⟩, .refl _, rfl, (and_iff_left trivial).symm⟩

theorem newUvTcpServer_eq {allocCb : Nat → Option Unit × Nat} {addr : Nat} {handleQuitCommand : Bool}
    (hnew : newUvTcpServer allocCb addr handleQuitCommand = .ok (some new)) :
    ∃ inputBuffs, MemPool.newEx allocCb 1 256 = .ok (some inputBuffs) ∧
      new = ⟨addr, none, false, ⟨some (List.replicate 4 none), 0, 4, ULONG_MAX, true⟩, inputBuffs,
        handleQuitCommand, none, []⟩ := by
  obtain ⟨inputBuffs, hpool, hnew⟩ := bind_eq_ok.mp hnew
  have hlist : (ArrayList.new true : Option (ArrayList UvClient)) =
      some ⟨some (List.replicate 4 none), 0, 4, ULONG_MAX, true⟩ := rfl
  rw [hlist] at hnew
  cases inputBuffs with
  | none => cases hnew
  | some inputBuffs =>
    cases hnew
    exact ⟨inputBuffs, hpool, rfl⟩

/-- A server that has been made and started has its handle, and nothing else. -/
theorem start_inv {allocCb : Nat → Option Unit × Nat} {addr : Nat} {handleQuitCommand : Bool}
    (hnew : newUvTcpServer allocCb addr handleQuitCommand = .ok (some new)) (handle : Nat) :
    MemPool.Holds new.inputBuffs [] ∧ Inv new (new.start handle).2 ∧ (new.start handle).2.Clean ∧
      held (new.start handle).2 = [.handle handle] ∧
      (new.start handle).1 = [.wake, .got (.handle handle)] := by
  obtain ⟨inputBuffs, hpool, rfl⟩ := newUvTcpServer_eq hnew
  have hlist : ArrayList.newEx true 4 0 =
      some (⟨some (List.replicate 4 none), 0, 4, ULONG_MAX, true⟩ : ArrayList UvClient) := rfl
  have hcap : 4 ≤ ULONG_MAX := by decide
  refine ⟨MemPool.newEx_holds (Nat.le_refl 1) hpool, ⟨rfl, fun hin => absurd hin List.not_mem_nil,
    ⟨(ArrayList.newEx_inv hlist).wf, hcap, rfl, rfl, List.nodup_nil⟩, fun _ => rfl, rfl⟩,
    fun _ => List.not_mem_nil, rfl, rfl⟩

variable {allocCb : Nat → Option Unit × Nat} {discon : UsDiscon}

/-- Nothing is to be closed but clients. -/
def OnlyClients (closings : List UvClosing) : Prop := ∀ closing ∈ closings, ∃ handle, closing = .client handle

theorem stop_closing (h : server.isClosing = true) : server.stop.2 = server := by
  rw [stop, h, Bool.not_true, Bool.and_false]
  rfl

theorem disconnect_closing (h : server.isClosing = true) (client : UvClient) (discon : UsDiscon) :
    (server.disconnect client discon).2 = server := by
  cases discon with
  | none => rfl
  | some cb =>
    change (stopIf _ server).2 = server
    cases asks (cb client.handle) USCB_SERVER_SHUTDOWN with
    | true => exact stop_closing h
    | false => rfl

theorem removeClientCb_closing {discon : UsDiscon} {acts : List UsAct} (h : server.isClosing = true)
    (hr : server.removeClientCb client none discon = .ok (acts, server')) :
    server'.isClosing = true ∧ server'.closings = server.closings ++ [.client client.handle] := by
  have hdis := disconnect_closing h client discon
  obtain ⟨inputBuffs, -, hr⟩ := bind_eq_ok.mp hr
  cases hr
  refine ⟨?_, ?_⟩
  · change (server.disconnect client discon).2.isClosing = true
    rw [hdis, h]
  · change (server.disconnect client discon).2.closings ++ _ = _
    rw [hdis]

/-- The clients of a server that is closed come after it. -/
theorem removeAll_closing (discon : UsDiscon) (clients : List UvClient) :
    ∀ {server server' : UvTcpServer} {acts : List UsAct}, server.isClosing = true →
      removeAll clients server discon = .ok (acts, server') →
      server'.closings = server.closings ++ clients.map fun client => .client client.handle := by
  induction clients with
  | nil =>
    intro server server' acts _ hr
    cases hr
    exact (List.append_nil _).symm
  | cons client clients ih =>
    intro server server' acts h hr
    obtain ⟨⟨as, server₁⟩, hcb, hr⟩ := bind_eq_ok.mp hr
    obtain ⟨⟨bs, server₂⟩, hrest, hr⟩ := bind_eq_ok.mp hr
    cases hr
    obtain ⟨hclosing, hone⟩ := removeClientCb_closing h hcb
    rw [ih hclosing hrest, hone, List.append_assoc]
    rfl

theorem closeServerCb_closing {acts : List UsAct} (h : Listed server.clientList)
    (hclosing : server.isClosing = true) {discon : UsDiscon}
    (hr : server.closeServerCb discon = .ok (acts, server')) :
    server'.closings = server.closings ++ server.clientList.entries.map fun client => .client client.handle := by
  obtain ⟨l, hl, -⟩ := ArrayList.clear_items h.wf
  rw [closeServerCb, hl, if_pos h.freeItem, ok_bind] at hr
  obtain ⟨⟨as, server₁⟩, hall, hr⟩ := bind_eq_ok.mp hr
  cases hr
  have hclients := @removeAll_closing discon _ { server with clientList := l } _ _ hclosing hall
  exact hclients

/-- A handle whose memory was freed does not get through, and only the server leaves something to close. -/
theorem closed_closings (h : Inv new server) {closing : UvClosing} {rest : List UvClosing} {discon : UsDiscon}
    {acts : List UsAct} (hclosings : server.closings = closing :: rest)
    (hr : server.closed 0 discon = .ok (acts, server')) :
    (∀ handle, closing ≠ .refused handle) ∧ ∃ more, server'.closings = rest ++ more ∧ OnlyClients more ∧
      (closing ≠ .server → more = []) := by
  have hi : server.closings[0]? = some closing := by rw [hclosings]; rfl
  have hrest : server.closings.eraseIdx 0 = rest := by rw [hclosings]; rfl
  rw [closed, hi, hrest] at hr
  cases closing with
  | refused handle => cases hr
  | client handle =>
    cases hr
    exact ⟨(fun _ he => by cases he), [], (List.append_nil _).symm, fun _ hin => absurd hin List.not_mem_nil,
      fun _ => rfl⟩
  | server =>
    have hclosing : server.isClosing = true := h.closing (List.mem_of_getElem? hi)
    have hclients := @closeServerCb_closing { server with closings := rest } _ _ h.listed hclosing discon hr
    refine ⟨(fun _ he => by cases he), _, hclients, fun closing hin => ?_, fun hne => absurd rfl hne⟩
    obtain ⟨client, -, he⟩ := List.mem_map.mp hin
    exact ⟨client.handle, he.symm⟩

theorem run_closings {discon : UsDiscon} (closings : List UvClosing) : ∀ {server server' : UvTcpServer}
    {os : List (List UsAct)} {rest : List UvClosing}, Inv new server → server.closings = closings ++ rest →
    run (fun server (_ : UvClosing) => server.closed 0 discon) server closings = .ok (os, server') →
      (∀ handle, .refused handle ∉ closings) ∧ ∃ more, server'.closings = rest ++ more ∧ OnlyClients more ∧
        (.server ∉ closings → more = []) := by
  induction closings with
  | nil =>
    intro server server' os rest _ hclosings hr
    cases hr
    exact ⟨fun _ => List.not_mem_nil, [], by rw [hclosings]; exact (List.append_nil _).symm,
      fun _ hin => absurd hin List.not_mem_nil, fun _ => rfl⟩
  | cons closing closings ih =>
    intro server server' os rest h hclosings hr
    obtain ⟨⟨acts, server₁⟩, hclosed, hr⟩ := bind_eq_ok.mp hr
    obtain ⟨⟨os', server₂⟩, hr', he⟩ := bind_eq_ok.mp hr
    cases he
    have hinv : Inv new server₁ := ((closed_handles h 0 discon).keeps acts server₁ hclosed).inv
    rw [List.cons_append] at hclosings
    obtain ⟨hnot, more, hmore, honly, hnil⟩ := closed_closings h hclosings hclosed
    rw [List.append_assoc] at hmore
    obtain ⟨hnot', more', hmore', honly', hnil'⟩ := ih hinv hmore hr'
    refine ⟨fun handle hin => ?_, more ++ more', by rw [hmore', List.append_assoc], fun c hc => ?_, fun hin => ?_⟩
    · rcases List.mem_cons.mp hin with he | hin
      · exact hnot handle he.symm
      · exact hnot' handle hin
    · exact (List.mem_append.mp hc).elim (honly c) (honly' c)
    · rw [hnil fun he => hin (he ▸ List.mem_cons_self), hnil' fun hc => hin (List.mem_cons_of_mem _ hc)]
      rfl

/-- What gets through was sound, and leaves nothing but clients; where there were only clients, it leaves
nothing. -/
theorem closeAll_closings (h : Inv new server) {discon : UsDiscon} {acts : List UsAct}
    (hr : server.closeAll discon = .ok (acts, server')) :
    server.Clean ∧ OnlyClients server'.closings ∧ (OnlyClients server.closings → server'.closings = []) := by
  obtain ⟨⟨os, s⟩, hrun, he⟩ := map_eq_ok.mp hr
  cases he
  obtain ⟨hnot, more, hmore, honly, hnil⟩ :=
    run_closings server.closings h (List.append_nil _).symm hrun
  rw [List.nil_append] at hmore
  refine ⟨hnot, by rw [hmore]; exact honly, fun hclients => ?_⟩
  rw [hmore]
  refine hnil fun hin => ?_
  obtain ⟨handle, he⟩ := hclients _ hin
  cases he

/-- What is to be closed is closed, where nothing of it was freed. -/
theorem closeAll_handles (h : Inv new server) (discon : UsDiscon) :
    (audit new).Handles True [] server (server.closeAll discon) := by
  have hstep : ∀ (server : UvTcpServer) (closing : UvClosing), Inv new server → True →
      (audit new).Handles True [] server (server.closed 0 discon) := fun _ _ h _ => closed_handles h 0 discon
  have hrun := run_handles (a := audit new) hstep server.closings server h
    (allSteps_of_forall (fun _ _ => trivial) _ _)
  have hnone : server.closings.flatMap (fun _ => ([] : List UsResource)) = [] :=
    List.flatMap_eq_nil_iff.mpr fun _ _ => rfl
  rw [hnone] at hrun
  exact hrun.congr ⟨fun _ => trivial, fun _ => allSteps_of_forall (fun _ _ => trivial) _ _⟩

variable {allocCb : Nat → Option Unit × Nat} {addr handle : Nat} {handleQuitCommand : Bool}
  {events : List UsEvent} {discon : UsDiscon}

theorem run_keeps (hpool : MemPool.Holds new.inputBuffs []) (h : Inv new server)
    (hfits : AllSteps (step allocCb) Fits server events) {os : List (List UsAct)}
    (hr : run (step allocCb) server events = .ok (os, server')) :
    (audit new).Keeps (AllSteps (step allocCb) Sound server events) (events.flatMap (lost new)) server
      os.flatten server' := by
  have hrun := run_handles (a := audit new) (step_handles allocCb hpool) events server h hfits
  exact hrun.keeps _ _ (by rw [hr]; rfl)

/-- Only a client that is turned away is lost. -/
theorem sound_lost (server : UvTcpServer) (e : UsEvent) (h : server.Sound e) : lost new e = [] := by
  cases e with
  | connection m =>
    cases hc : m.client with
    | none => rw [lost, hc]
    | some handle =>
      cases hp : m.package with
      | none => rw [lost, hc, hp]
      | some addr =>
        cases ha : m.accepted with
        | none => rw [lost, hc, hp, ha]
        | some fd =>
          have hrefuses : refuses m = false := h (by rw [hc]; rfl) (by rw [hp]; rfl) (by rw [ha]; rfl)
          rw [lost, hc, hp, ha]
          dsimp only
          rw [hrefuses]
          rfl
  | read handle m => rfl
  | closed i discon => rfl
  | sigint rval => rfl
  | stop => rfl
  | removeClient handle discon => rfl
  | setQuitCommand handleQuitCmd quitCmd => rfl

/-- All that came in a session that ends is given back, once, but for what a server that is not closed
still has. -/
theorem session_accounts (hnew : newUvTcpServer allocCb addr handleQuitCommand = .ok (some new))
    (hfits : AllSteps (step allocCb) Fits (new.start handle).2 events) {acts : List UsAct}
    (hr : new.session allocCb handle events discon = .ok (acts, server)) :
    (acts.flatMap UsAct.comes).Perm (acts.flatMap UsAct.frees ++ held server) ∧ 
      server.inputBuffs = new.inputBuffs ∧ (server.handle = none → held server = []) := by
  obtain ⟨hpool, hinv, hclean, hheld, htold⟩ := start_inv hnew handle
  obtain ⟨⟨os, s⟩, hrun, hr⟩ := bind_eq_ok.mp hr
  obtain ⟨⟨closed, s₁⟩, hall, hr⟩ := bind_eq_ok.mp hr
  obtain ⟨⟨last, s₂⟩, hall', hr⟩ := bind_eq_ok.mp hr
  cases hr
  have hrun : run (step allocCb) (new.start handle).2 events = .ok (os, s) := hrun
  have hk := run_keeps hpool hinv hfits hrun
  have hk₁ := (closeAll_handles hk.inv discon).keeps closed s₁ hall
  have hk₂ := (closeAll_handles hk₁.inv discon).keeps last server hall'
  obtain ⟨hc, honly, -⟩ := closeAll_closings hk.inv hall
  obtain ⟨-, -, hnone⟩ := closeAll_closings hk₁.inv hall'
  have hsound : AllSteps (step allocCb) Sound (new.start handle).2 events := (hk.clean.mp hc).2
  have hlost : events.flatMap (lost new) = [] :=
    List.flatMap_eq_nil_iff.mpr (hsound.forall_mem sound_lost hrun)
  have hboth := (hk.trans hk₁).trans hk₂
  refine ⟨?_, hk₂.inv.buffs, fun hh => ?_⟩
  · have hbal : ((os.flatten ++ closed ++ last).flatMap UsAct.comes ++ held (new.start handle).2).Perm
        ((os.flatten ++ closed ++ last).flatMap UsAct.goes ++ held server) := hboth.balanced
    have hleft : (os.flatten ++ closed ++ last).flatMap UsAct.leaves = events.flatMap (lost new) ++ [] ++ [] :=
      hboth.left
    have hgoes := (List.flatMap_append_perm (os.flatten ++ closed ++ last) UsAct.frees UsAct.leaves).symm
    rw [hleft, hlost, List.append_nil, List.append_nil, List.append_nil] at hgoes
    rw [hheld] at hbal
    change List.Perm (((new.start handle).1 ++ os.flatten ++ closed ++ last).flatMap UsAct.comes)
      (((new.start handle).1 ++ os.flatten ++ closed ++ last).flatMap UsAct.frees ++ held server)
    rw [htold, List.append_assoc, List.append_assoc, ← List.append_assoc os.flatten]
    change List.Perm (.handle handle :: (os.flatten ++ closed ++ last).flatMap UsAct.comes)
      ((os.flatten ++ closed ++ last).flatMap UsAct.frees ++ held server)
    exact (List.perm_append_comm.trans hbal).trans (hgoes.append_right _)
  · change _ ++ _ ++ _ = []
    rw [hk₂.inv.ended hh, hnone honly, hh]
    rfl

/-- A client sends something, and the server is stopped. -/
theorem session_accounts_stop : ∃ acts server,
    session (fun _ => (some (), 65536)) ⟨1, none, false, ⟨some [none, none, none, none], 0, 4, ULONG_MAX, true⟩,
      ⟨⟨some [some 0], 1, 1, 256, true⟩, 0, ⟨[some ⟨some (), 65536, false⟩]⟩⟩, false, none, []⟩ 5
      [.connection ⟨some 6, some 7, some 8, some ⟨0, some (some 9), some (some 10)⟩, true, none⟩,
        .read 6 ⟨some 1, [65], none, some 4, none⟩, .stop] none = .ok (acts, server) ∧
    (acts.flatMap UsAct.comes).Perm (acts.flatMap UsAct.frees ++ held server) := by
  have hnew : newUvTcpServer (fun _ => (some (), 65536)) 1 false = .ok (some ⟨1, none, false,
      ⟨some [none, none, none, none], 0, 4, ULONG_MAX, true⟩,
      ⟨⟨some [some 0], 1, 1, 256, true⟩, 0, ⟨[some ⟨some (), 65536, false⟩]⟩⟩, false, none, []⟩) := rfl
  have hfits : AllSteps (step fun _ => (some (), 65536)) Fits (start ⟨1, none, false,
      ⟨some [none, none, none, none], 0, 4, ULONG_MAX, true⟩,
      ⟨⟨some [some 0], 1, 1, 256, true⟩, 0, ⟨[some ⟨some (), 65536, false⟩]⟩⟩, false, none, []⟩ 5).2
      [.connection ⟨some 6, some 7, some 8, some ⟨0, some (some 9), some (some 10)⟩, true, none⟩,
        .read 6 ⟨some 1, [65], none, some 4, none⟩, .stop] :=
    ⟨⟨Option.some_ne_none 5, Nat.le_of_ble_eq_true rfl, fun _ _ => List.not_mem_nil⟩,
      fun _ _ _ => ⟨trivial, fun _ _ _ => ⟨trivial, fun _ _ _ => trivial⟩⟩⟩
  exact ⟨_, _, rfl, (session_accounts hnew hfits (show session _ _ 5 _ none = _ from rfl)).1⟩

end UvTcpServer

end AlibC
