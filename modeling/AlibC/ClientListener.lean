import AlibC.ArrayListRuns
import AlibC.Epoll

/-! The loop of `ClientListener`: batches of epoll events, handled one after the other against the list
of clients, while other threads add clients or stop the listener. -/
namespace AlibC

open CLang Machine

/-- `socket_package` with its address. -/
structure SocketPackage where
  addr : Nat
  sock : Int
deriving DecidableEq, Repr

/-- The flags of the `flag_pole` that the threads use are fields of their own. -/
structure ClientListener where
  clientList : ArrayList SocketPackage
  efd : Int
  threadCreated : Bool
  threadIsRunning : Bool
  threadStop : Bool
deriving DecidableEq, Repr

/-- What the handling of one event meets: what the callbacks return, `none` for one that is not set, with
the count that `data_ready` gives, and what `recv` returns. -/
structure ClientMeets where
  dataReady : Option (Nat × Int)
  received : Int
  dataIn : Option Nat
  disconnected : Option Nat

/-- What is done to descriptors and clients. -/
inductive ClientAct where
  | close (fd : Int)
  | dataReady (client : SocketPackage)
  | recv (fd : Int)
  | dataIn (client : SocketPackage) (count : Int)
  | disconnected (client : SocketPackage)
  /-- `close_and_free_socket_package`. -/
  | free (client : SocketPackage)
  | closeEpoll (efd : Int)
deriving DecidableEq, Repr

namespace ClientListener

/-- `remove_client_cb`, which the list calls with a client that was removed. -/
def removeClientCb (m : ClientMeets) (listener : ClientListener) (sp : SocketPackage) :
    List ClientAct × ClientListener :=
  match m.disconnected with
  | none => ([.free sp], listener)
  | some rval =>
    if asks rval SCB_RVAL_STOP_SERVER then
      ([.disconnected sp, .closeEpoll listener.efd, .free sp],
        { listener with threadStop := true, efd := -1 })
    else ([.disconnected sp, .free sp], listener)

/-- `ArrayList_remove_tsafe(listener->client_list, client)`. At most one item is removed. -/
def remove (m : ClientMeets) (listener : ClientListener) (client : SocketPackage) :
    Outcome (List ClientAct × ClientListener) := do
  let (freed, clientList) ← listener.clientList.remove (some client)
  match freed with
  | [] => return ([], { listener with clientList })
  | sp :: _ => return removeClientCb m { listener with clientList } sp

def removeIfAsked (m : ClientMeets) (listener : ClientListener) (client : SocketPackage) (rval : Nat) :
    Outcome (List ClientAct × ClientListener) :=
  if asks rval SCB_RVAL_CLOSE_CLIENT then listener.remove m client else .ok ([], listener)

/-- What is done with the data of a client. The loop ends if an error code is returned. -/
def takeData (m : ClientMeets) (listener : ClientListener) (client : SocketPackage) (count : Int) :
    Outcome (List ClientAct × Option AlibError × ClientListener) :=
  if count < 1 then do
    let (acts, listener) ← listener.remove m client
    return (acts, none, listener)
  else
    match m.dataIn with
    | none => .ok ([], none, listener)
    | some rval => do
      let (acts, listener) ← listener.removeIfAsked m client rval
      return (.dataIn client count :: acts, if asks rval SCB_RVAL_STOP_SERVER then some .ok else none,
        listener)

/-- An event of a client that is in the list. -/
def clientEvent (m : ClientMeets) (listener : ClientListener) (e : EpollEvent) (client : SocketPackage) :
    Outcome (List ClientAct × Option AlibError × ClientListener) :=
  if e.failed then do
    let (acts, listener) ← listener.remove m client
    return (acts, none, listener)
  else
    match m.dataReady with
    | none => do
      let (acts, ending, listener) ← listener.takeData m client m.received
      return (.recv client.sock :: acts, ending, listener)
    | some (rval, count) => do
      let (acts, listener) ← listener.removeIfAsked m client rval
      if asks rval SCB_RVAL_STOP_SERVER then
        return (.dataReady client :: acts, some .ok, { listener with threadStop := true })
      else if asks rval (SCB_RVAL_HANDLED ||| SCB_RVAL_CLOSE_CLIENT) then
        return (.dataReady client :: acts, none, listener)
      else do
        let (taken, ending, listener) ← listener.takeData m client count
        return (.dataReady client :: (acts ++ taken), ending, listener)

/-- One event of a batch whose first event has the descriptor `firstFd`: `triggered_events->data.fd`.
Nothing is done once the loop is left. -/
def handleEvent (firstFd : Int) (s : ClientListener × Option AlibError) (i : EpollEvent × ClientMeets) :
    Outcome (List ClientAct × (ClientListener × Option AlibError)) :=
  if s.2.isSome then .ok ([], s)
  else do
    match ← s.1.clientList.findItemByValue fun client => client.sock = i.1.fd with
    | none => return ([.close firstFd], s)
    | some (_, client) => do
      let (acts, ending, listener) ← s.1.clientEvent i.2 i.1 client
      return (acts, listener, ending)

/-- What `epoll_wait` returns: a batch, or nothing within a second, or an error. -/
inductive Wait where
  | batch (first : EpollEvent × ClientMeets) (rest : List (EpollEvent × ClientMeets))
  | timeout
  | error

/-- What one turn of `listen_loop` meets: what `client_list_empty` returns if it is set, what
`epoll_wait` returns, and whether the mutex is locked and unlocked without an error. -/
structure Turn where
  clientListEmpty : Option Nat
  wait : Wait
  locks : Bool
  unlocks : Bool

/-- What the thread of the loop does, and what other threads do in between. -/
inductive Move where
  | turn (t : Turn)
  /-- `ArrayList_add_tsafe` in `ClientListener_add_socket_package`. -/
  | added (client : SocketPackage)
  /-- `ClientListener_stop`. -/
  | stopped

structure Listening where
  listener : ClientListener
  /-- `rval`, once the loop is left. -/
  ending : Option AlibError
  /-- The thread is in `pthread_cond_wait`. -/
  waiting : Bool

/-- The loop gets as far as `epoll_wait`. -/
def Listening.polls (s : Listening) : Bool :=
  !s.listener.threadStop && s.listener.clientList.count ≠ 0

/-- One turn of `listen_loop`. -/
def turn (s : Listening) (t : Turn) : Outcome (List (List ClientAct) × Listening) :=
  if s.polls then
    match t.wait with
    | .timeout => .ok ([], { s with waiting := false })
    | .error =>
      .ok ([], { s with
        ending :=
          if s.listener.threadStop then some .ok
          else if s.listener.efd > -1 then none
          else some .checkErrno
        waiting := false })
    | .batch first rest =>
      if t.locks then do
        let (acts, listener, ending) ← run (handleEvent first.1.fd) (s.listener, none) (first :: rest)
        return (acts, ⟨listener, if t.unlocks then ending else some .mutexErr, false⟩)
      else .ok ([], { s with ending := some .mutexErr, waiting := false })
  else if s.listener.threadStop then .ok ([], { s with ending := some .ok, waiting := false })
  else if s.waiting then .ok ([], s)
  else if asks (t.clientListEmpty.getD 0) SCB_RVAL_STOP_SERVER then .ok ([], { s with ending := some .ok })
  else .ok ([], { s with waiting := true })

/-- `listen_loop` and the other threads. -/
def move (s : Listening) (i : Move) : Outcome (List (List ClientAct) × Listening) :=
  match i with
  | .turn t => if s.ending.isSome then .ok ([], s) else turn s t
  | .added client => do
    let (_, clientList) ← s.listener.clientList.add (some client)
    return ([], { s with listener := { s.listener with clientList } })
  | .stopped =>
    .ok ([], { s with listener := { s.listener with
      threadStop := s.listener.threadStop || s.listener.threadIsRunning, efd := -1 } })

/-- Where `listen_loop` starts, with or without memory for its buffer. -/
def start (listener : ClientListener) (buffer : Bool) : Listening :=
  ⟨listener, if buffer then none else some .memErr, false⟩

end ClientListener

/-- Something that is done with a client, short of freeing it. -/
def ClientAct.Uses (client : SocketPackage) : ClientAct → Prop
  | .close _ | .free _ => False
  | .recv fd => fd = client.sock
  | .dataReady c | .dataIn c _ | .disconnected c => c = client
  | .closeEpoll _ => True

/-- What is done for a client, and the clients after it: it stays in the list, or it is taken out and
freed as the last thing. -/
inductive HandledFor (entries : List SocketPackage) (client : SocketPackage) :
    List ClientAct → List SocketPackage → Prop
  | kept {acts : List ClientAct} (uses : ∀ act ∈ acts, act.Uses client) :
    HandledFor entries client acts entries
  | removed {acts : List ClientAct} {pre post : List SocketPackage}
    (split : entries = pre ++ client :: post) (uses : ∀ act ∈ acts, act.Uses client) :
    HandledFor entries client (acts ++ [.free client]) (pre ++ post)

/-- What is done for an event on the descriptor `fd`. -/
inductive HandledAlone (entries : List SocketPackage) (fd : Int) :
    List ClientAct → List SocketPackage → Prop
  | listed {client : SocketPackage} {acts : List ClientAct} {entries' : List SocketPackage}
    (mem : client ∈ entries) (sock : client.sock = fd) (handled : HandledFor entries client acts entries') :
    HandledAlone entries fd acts entries'
  | unlisted (none : ∀ client ∈ entries, client.sock ≠ fd) : HandledAlone entries fd [.close fd] entries

theorem HandledFor.cons {entries entries' : List SocketPackage} {client : SocketPackage}
    {acts : List ClientAct} {act : ClientAct} (h : HandledFor entries client acts entries')
    (hact : act.Uses client) : HandledFor entries client (act :: acts) entries' := by
  cases h with
  | kept uses => exact .kept (List.forall_mem_cons.mpr ⟨hact, uses⟩)
  | removed split uses => exact .removed split (List.forall_mem_cons.mpr ⟨hact, uses⟩)

theorem HandledAlone.unlisted_acts {entries entries' : List SocketPackage} {fd : Int}
    {acts : List ClientAct} (h : HandledAlone entries fd acts entries')
    (hunlisted : ∀ client ∈ entries, client.sock ≠ fd) : acts = [.close fd] := by
  cases h with
  | listed mem sock => exact absurd sock (hunlisted _ mem)
  | unlisted => rfl

namespace ClientListener

/-- The event is handled right. -/
def Right (firstFd : Int) (s : ClientListener × Option AlibError) (i : EpollEvent × ClientMeets) : Prop :=
  s.2 = none → ∃ acts s', handleEvent firstFd s i = .ok (acts, s') ∧
    HandledAlone s.1.clientList.entries i.1.fd acts s'.1.clientList.entries

/-- The descriptor of the event is that of a client in the list, or that of the first event of its
batch. -/
def Known (firstFd : Int) (s : ClientListener × Option AlibError) (i : EpollEvent × ClientMeets) : Prop :=
  s.2 = none → (∃ client ∈ s.1.clientList.entries, client.sock = i.1.fd) ∨ i.1.fd = firstFd

/-- What holds of each event of a batch, in the state in which it is reached. -/
def EachEvent (P : Int → ClientListener × Option AlibError → EpollEvent × ClientMeets → Prop)
    (s : Listening) : Move → Prop
  | .turn { wait := .batch first rest, locks := true, .. } => s.ending = none → s.polls = true →
    AllSteps (handleEvent first.1.fd) (P first.1.fd) (s.listener, none) (first :: rest)
  | _ => True

/-- The list has room for a client that is added, or may grow. -/
def Room (s : Listening) : Move → Prop
  | .added _ => 8 * s.listener.clientList.nextCap < 2 ^ 64
  | _ => True

/-- The list of clients is as it should be. -/
structure Inv (listener : ClientListener) : Prop where
  wf : listener.clientList.WF
  capacity_le : listener.clientList.capacity ≤ listener.clientList.maxCap
  freeItem : listener.clientList.freeItem = true

variable {listener : ClientListener} {m : ClientMeets} {client : SocketPackage}

/-- The callback only touches the client, and leaves the list. -/
theorem removeClientCb_eq (m : ClientMeets) (listener : ClientListener) (sp : SocketPackage) :
    ∃ acts listener', removeClientCb m listener sp = (acts ++ [.free sp], listener') ∧
      (∀ act ∈ acts, act.Uses sp) ∧ listener'.clientList = listener.clientList := by
  rw [removeClientCb]
  cases m.disconnected with
  | none => exact ⟨[], listener, rfl, by simp, rfl⟩
  | some rval =>
    dsimp only
    split
    · exact ⟨[.disconnected sp, .closeEpoll listener.efd], _, rfl, by simp [ClientAct.Uses], rfl⟩
    · exact ⟨[.disconnected sp], listener, rfl, by simp [ClientAct.Uses], rfl⟩

/-- The ways in which the handling of an event goes on: the list is as it should be, and only the client
was touched. -/
def Leaves (listener : ClientListener) (client : SocketPackage) (acts : List ClientAct)
    (listener' : ClientListener) : Prop :=
  listener'.Inv ∧ HandledFor listener.clientList.entries client acts listener'.clientList.entries

theorem Leaves.cons {listener' : ClientListener} {acts : List ClientAct} {act : ClientAct}
    (h : Leaves listener client acts listener') (hact : act.Uses client) :
    Leaves listener client (act :: acts) listener' :=
  ⟨h.1, h.2.cons hact⟩

theorem remove_client (h : listener.Inv) (hmem : client ∈ listener.clientList.entries)
    (m : ClientMeets) : ∃ acts listener', listener.remove m client = .ok (acts, listener') ∧
      Leaves listener client acts listener' := by
  rcases ArrayList.remove_item h.wf client with
    ⟨hnot, -⟩ | ⟨clientList, pre, post, hr, hwf, hentries, hentries', hcap, hmax, hfree⟩
  · exact absurd hmem hnot
  · obtain ⟨acts, listener', hcb, huses, hlist⟩ :=
      removeClientCb_eq m { listener with clientList } client
    refine ⟨acts ++ [.free client], listener', ?_, ⟨?_, ?_, ?_⟩, ?_⟩
    · rw [remove, hr, if_pos h.freeItem, ok_bind]
      dsimp only
      rw [hcb]
      rfl
    · rw [hlist]
      exact hwf
    · rw [hlist, hcap, hmax]
      exact h.capacity_le
    · rw [hlist, hfree]
      exact h.freeItem
    · rw [hlist, hentries']
      exact .removed hentries huses

/-- A client that does not ask to be closed stays as it is. -/
theorem removeIfAsked_eq (h : listener.Inv) (hmem : client ∈ listener.clientList.entries)
    (m : ClientMeets) (rval : Nat) : ∃ acts listener',
      listener.removeIfAsked m client rval = .ok (acts, listener') ∧ Leaves listener client acts listener' ∧
      (asks rval SCB_RVAL_CLOSE_CLIENT = false → acts = [] ∧ listener' = listener) := by
  rw [removeIfAsked]
  by_cases hasks : asks rval SCB_RVAL_CLOSE_CLIENT = true
  · obtain ⟨acts, listener', hr, hleaves⟩ := remove_client h hmem m
    rw [if_pos hasks]
    exact ⟨acts, listener', hr, hleaves, fun hnot => absurd (hasks.symm.trans hnot) (by decide)⟩
  · rw [if_neg hasks]
    exact ⟨[], listener, rfl, ⟨h, .kept (by simp)⟩, fun _ => ⟨rfl, rfl⟩⟩

theorem takeData_eq (h : listener.Inv) (hmem : client ∈ listener.clientList.entries) (m : ClientMeets)
    (count : Int) : ∃ acts ending listener', listener.takeData m client count = .ok (acts, ending, listener') ∧
      Leaves listener client acts listener' := by
  rw [takeData]
  split
  · obtain ⟨acts, listener', hr, hleaves⟩ := remove_client h hmem m
    exact ⟨acts, none, listener', by rw [hr]; rfl, hleaves⟩
  · cases m.dataIn with
    | none => exact ⟨[], none, listener, rfl, h, .kept (by simp)⟩
    | some rval =>
      obtain ⟨acts, listener', hr, hleaves, -⟩ := removeIfAsked_eq h hmem m rval
      dsimp only
      rw [hr]
      exact ⟨_, _, listener', rfl, hleaves.cons rfl⟩

theorem asks_or (rval a b : Nat) : asks rval (a ||| b) = (asks rval a || asks rval b) := by
  simp [asks, Nat.and_or_distrib_left]

/-- An event of a listed client concerns this client only. -/
theorem clientEvent_eq (h : listener.Inv) (hmem : client ∈ listener.clientList.entries) (m : ClientMeets)
    (e : EpollEvent) : ∃ acts ending listener',
      listener.clientEvent m e client = .ok (acts, ending, listener') ∧ Leaves listener client acts listener' := by
  rw [clientEvent]
  split
  · obtain ⟨acts, listener', hr, hleaves⟩ := remove_client h hmem m
    exact ⟨acts, none, listener', by rw [hr]; rfl, hleaves⟩
  · cases m.dataReady with
    | none =>
      obtain ⟨acts, ending, listener', hr, hleaves⟩ := takeData_eq h hmem m m.received
      dsimp only
      rw [hr]
      exact ⟨_, ending, listener', rfl, hleaves.cons rfl⟩
    | some ready =>
      obtain ⟨rval, count⟩ := ready
      obtain ⟨acts, listener', hr, hleaves, hsame⟩ := removeIfAsked_eq h hmem m rval
      dsimp only
      rw [hr, ok_bind]
      dsimp only
      split
      · exact ⟨_, _, _, rfl, ⟨hleaves.1.wf, hleaves.1.capacity_le, hleaves.1.freeItem⟩,
          @HandledFor.cons _ _ _ _ (.dataReady client) hleaves.2 rfl⟩
      · split
        · exact ⟨_, _, listener', rfl, hleaves.cons rfl⟩
        · rename_i hgo
          -- The client was not removed, so that it may still be used.
          rw [asks_or, Bool.or_eq_true, not_or, Bool.not_eq_true, Bool.not_eq_true] at hgo
          obtain ⟨rfl, rfl⟩ := hsame hgo.2
          obtain ⟨taken, ending, listener'', htake, hleaves'⟩ := takeData_eq h hmem m count
          rw [htake]
          exact ⟨_, ending, listener'', rfl, hleaves'.cons rfl⟩

/-- One event: the list stays as it should be. The event is handled alone, or its descriptor is in no
list and the first one is closed. -/
theorem handleEvent_eq (firstFd : Int) {s : ClientListener × Option AlibError}
    {i : EpollEvent × ClientMeets} (h : s.1.Inv) : ∃ acts s', handleEvent firstFd s i = .ok (acts, s') ∧
      s'.1.Inv ∧ (s.2 = none →
        (∃ client ∈ s.1.clientList.entries, client.sock = i.1.fd ∧
          HandledFor s.1.clientList.entries client acts s'.1.clientList.entries) ∨
        (∀ client ∈ s.1.clientList.entries, client.sock ≠ i.1.fd) ∧ acts = [.close firstFd] ∧
          s'.1 = s.1) := by
  obtain ⟨listener, ending⟩ := s
  rw [handleEvent]
  cases ending with
  | some rval => exact ⟨[], (listener, some rval), rfl, h, nofun⟩
  | none =>
    dsimp only at h ⊢
    rw [if_neg (by decide)]
    rcases ArrayList.findItemByValue_entry h.wf fun client => decide (client.sock = i.1.fd) with
      ⟨hnone, hr⟩ | ⟨k, client, hmem, hfound, hr⟩
    · rw [hr]
      exact ⟨_, _, rfl, h, fun _ => .inr ⟨fun c hc => by simpa using hnone c hc, rfl, rfl⟩⟩
    · obtain ⟨acts, ending, listener', hr', h', hhandled⟩ := clientEvent_eq h hmem i.2 i.1
      rw [hr, ok_bind]
      dsimp only
      rw [hr']
      exact ⟨acts, (listener', ending), rfl, h', fun _ =>
        .inl ⟨client, hmem, of_decide_eq_true hfound, hhandled⟩⟩

/-- An event is handled right exactly if its descriptor is known. -/
theorem right_iff {firstFd : Int} {s : ClientListener × Option AlibError} {i : EpollEvent × ClientMeets}
    (h : s.1.Inv) : Right firstFd s i ↔ Known firstFd s i := by
  obtain ⟨acts, s', hr, -, hone⟩ := @handleEvent_eq firstFd s i h
  refine forall_congr' fun hnone => ?_
  rcases hone hnone with ⟨client, hmem, hsock, hhandled⟩ | ⟨hunlisted, rfl, hsame⟩
  · exact iff_of_true ⟨acts, s', hr, .listed hmem hsock hhandled⟩ (.inl ⟨client, hmem, hsock⟩)
  · constructor
    · rintro ⟨acts', s₁, hr', hright⟩
      obtain ⟨rfl, rfl⟩ := Prod.mk.inj (Except.ok.inj (hr.symm.trans hr'))
      have hacts := hright.unlisted_acts hunlisted
      exact .inr (ClientAct.close.inj (List.head_eq_of_cons_eq hacts)).symm
    · rintro (⟨client, hmem, hsock⟩ | rfl)
      · exact absurd hsock (hunlisted client hmem)
      · refine ⟨_, s', hr, ?_⟩
        rw [hsame]
        exact .unlisted hunlisted

theorem handleEvent_keeps {firstFd : Int} {s s' : ClientListener × Option AlibError}
    {i : EpollEvent × ClientMeets} {acts : List ClientAct} (h : s.1.Inv)
    (hr : handleEvent firstFd s i = .ok (acts, s')) : s'.1.Inv := by
  obtain ⟨acts', s₁, hr', h', -⟩ := @handleEvent_eq firstFd s i h
  cases hr.symm.trans hr'
  exact h'

/-- A move ends, and keeps the list as it should be. -/
theorem move_eq {s : Listening} {i : Move} (h : s.listener.Inv) (hroom : Room s i) :
    ∃ acts s', move s i = .ok (acts, s') ∧ s'.listener.Inv := by
  cases i with
  | added client =>
    obtain ⟨stored, clientList, hadd, hwf, hcap, hfree, -⟩ :=
      ArrayList.add_keeps h.wf h.capacity_le hroom client
    rw [move, hadd]
    exact ⟨_, _, rfl, hwf, hcap, hfree.trans h.freeItem⟩
  | stopped => exact ⟨_, _, rfl, h.wf, h.capacity_le, h.freeItem⟩
  | turn t =>
    rw [move]
    split
    · exact ⟨_, _, rfl, h⟩
    · rw [turn]
      split
      · cases t.wait with
        | timeout => exact ⟨_, _, rfl, h⟩
        | error => exact ⟨_, _, rfl, h⟩
        | batch first rest =>
          dsimp only
          split
          · obtain ⟨acts, s', hrun, h'⟩ := run_invariant
              (fun s i hs _ => by
                obtain ⟨acts, s', hr, h', -⟩ := @handleEvent_eq first.1.fd s i hs
                exact ⟨acts, s', hr, h'⟩) (first :: rest) (s.listener, none) h
              (allSteps_of_forall (fun _ _ => trivial) _ _)
            rw [hrun]
            exact ⟨_, _, rfl, h'⟩
          · exact ⟨_, _, rfl, h⟩
      · split
        · exact ⟨_, _, rfl, h⟩
        · split
          · exact ⟨_, _, rfl, h⟩
          · split
            · exact ⟨_, _, rfl, h⟩
            · exact ⟨_, _, rfl, h⟩

/-- The loop runs without a fault. Every event of every batch is handled for its own client alone, or
closes its own descriptor, exactly if each descriptor without a client is that of the first event of its
batch. -/
theorem listenLoop_right_iff {listener : ClientListener} (h : listener.Inv) (buffer : Bool)
    (moves : List Move) (hroom : AllSteps move Room (listener.start buffer) moves) :
    (∃ acts s, run move (listener.start buffer) moves = .ok (acts, s)) ∧
      (AllSteps move (EachEvent Right) (listener.start buffer) moves ↔
        AllSteps move (EachEvent Known) (listener.start buffer) moves) := by
  constructor
  · obtain ⟨acts, s, hr, -⟩ := @run_invariant _ _ _ move Room (fun s => s.listener.Inv)
      (fun s i hs hi => move_eq hs hi) moves (listener.start buffer) h hroom
    exact ⟨acts, s, hr⟩
  · refine @allSteps_congr _ _ _ move _ _ _ (fun s => s.listener.Inv) (fun s i hs _ => ?_)
      (fun s i acts s' hs hi _ hr => ?_) moves _ h hroom
    · cases i with
      | added => exact Iff.rfl
      | stopped => exact Iff.rfl
      | turn t =>
        obtain ⟨empty, wait, locks, unlocks⟩ := t
        cases wait with
        | timeout => exact Iff.rfl
        | error => exact Iff.rfl
        | batch first rest =>
          cases locks with
          | false => exact Iff.rfl
          | true =>
            refine forall_congr' fun _ => forall_congr' fun _ => ?_
            exact @allSteps_congr _ _ _ _ _ _ _ (fun s => s.1.Inv) (fun s i hs _ => right_iff hs)
              (fun s i acts s' hs _ _ hr => handleEvent_keeps hs hr) _ _ hs
              (allSteps_of_forall (fun _ _ => trivial) _ _)
    · obtain ⟨acts', s₁, hr', h'⟩ := move_eq hs hi
      cases hr.symm.trans hr'
      exact h'

/-- A listener with two clients. -/
def twoClients : ClientListener :=
  ⟨⟨some [some ⟨100, 7⟩, some ⟨200, 8⟩], 2, 2, ULONG_MAX, true⟩, 4, true, true, false⟩

theorem twoClients_inv : twoClients.Inv :=
  ⟨.mk_some rfl (by decide) rfl (by decide), by decide, rfl⟩

/-- No callback is set, and the peer has closed the connection. -/
def peerClosed : ClientMeets := ⟨none, 0, none, none⟩

theorem listenLoop_right_iff_two :
    (∃ acts s, run move (twoClients.start true)
        [.turn ⟨none, .batch (⟨8, EPOLLIN⟩, peerClosed) [(⟨7, EPOLLERR⟩, peerClosed)], true, true⟩] =
          .ok (acts, s)) ∧
      (AllSteps move (EachEvent Right) (twoClients.start true)
          [.turn ⟨none, .batch (⟨8, EPOLLIN⟩, peerClosed) [(⟨7, EPOLLERR⟩, peerClosed)], true, true⟩] ↔
        AllSteps move (EachEvent Known) (twoClients.start true)
          [.turn ⟨none, .batch (⟨8, EPOLLIN⟩, peerClosed) [(⟨7, EPOLLERR⟩, peerClosed)], true, true⟩]) :=
  listenLoop_right_iff twoClients_inv true _ ⟨trivial, fun _ _ _ => trivial⟩

/-- An event of a client and one of a descriptor that is no longer listed: the client, which stays in the
list, has its descriptor closed. -/
theorem handleEvent_closes_client :
    run (handleEvent 7) (twoClients, none)
        [(⟨7, EPOLLIN⟩, ⟨none, 5, none, none⟩), (⟨9, EPOLLIN⟩, peerClosed)] =
          .ok ([[.recv 7], [.close 7]], (twoClients, none)) ∧
      ¬AllSteps move (EachEvent Right) (twoClients.start true)
        [.turn ⟨none, .batch (⟨7, EPOLLIN⟩, ⟨none, 5, none, none⟩) [(⟨9, EPOLLIN⟩, peerClosed)], true,
          true⟩] := by
  refine ⟨by decide, fun h => ?_⟩
  have hsecond := ((h.1 rfl (by decide)).2 _ _ (by rfl)).1
  obtain ⟨acts, s', hr, hright⟩ := hsecond rfl
  have hacts : acts = [.close 9] := hright.unlisted_acts (by decide)
  have hclosed : acts = [.close 7] := by
    cases hr
    rfl
  exact absurd (hacts.symm.trans hclosed) (by decide)

end ClientListener

end AlibC
