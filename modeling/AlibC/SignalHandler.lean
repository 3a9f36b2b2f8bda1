import AlibC.ArrayListInvariant
import AlibC.Lib.Machine

/-! The signal handler: callbacks registered by signal number. -/
namespace AlibC

open CLang

/-- A registered callback. Callbacks and user data are only told apart. -/
structure SignalData (C D : Type) where
  cb : Option C
  userData : Option D
deriving DecidableEq, Repr

structure SignalHandler (C D : Type) where
  sig : Int
  sdList : Option (ArrayList (SignalData C D))
deriving DecidableEq, Repr

namespace SignalHandler

variable {C D : Type}

/-- `SIGNAL_HANDLER_LIST`. Nothing else points to the handlers in it. -/
abbrev Handlers (C D : Type) := Option (ArrayList (SignalHandler C D))

/-- A call `cb(signum, user_data)`. -/
structure Call (C D : Type) where
  cb : C
  signum : Int
  userData : Option D
deriving DecidableEq, Repr

/-- `(*cbs)->cb(signum, (*cbs)->user_data)`, unless there is no callback. -/
def call (signum : Int) (sd : SignalData C D) : List (Call C D) :=
  match sd.cb with
  | none => []
  | some cb => [⟨cb, signum, sd.userData⟩]

/-- The slot and the handler found with `compare_int_ptr`. -/
def findHandler (list : ArrayList (SignalHandler C D)) (signum : Int) :
    Outcome (Option (Nat × SignalHandler C D)) :=
  list.findItemByValue (·.sig = signum)

/-- The list after the handler its slot points to has changed. -/
def putHandler (list : ArrayList (SignalHandler C D)) (slot : Nat) (sh : SignalHandler C D) :
    ArrayList (SignalHandler C D) :=
  { list with list := list.list.map fun cells => overwrite cells slot [some sh] }

/-- `signal_handler_proc`: the callbacks called, in order. -/
def signalHandlerProc (handlers : Handlers C D) (signum : Int) : Outcome (List (Call C D)) :=
  match handlers with
  | none => .ok []
  | some list => do
    match ← findHandler list signum with
    | none => return []
    | some (_, sh) =>
      match sh.sdList with
      | none => return []
      | some sdList =>
        let (calls, _) ← sdList.visit fun sd => (call signum sd, false)
        return calls

/-- The end of `signal_handler_register`, from where there is a handler. -/
def addData (sh : SignalHandler C D) (sd : SignalData C D) :
    Outcome (AlibError × SignalHandler C D) :=
  match sh.sdList.or (ArrayList.new true) with
  | none => .ok (.memErr, sh)
  | some sdList => do
    let (added, sdList) ← sdList.add (some sd)
    return (if added then .ok else .memErr, { sh with sdList := some sdList })

/-- `sigaction` tells whether the system call of that name fails. -/
def register (sigaction : Int → Bool) (handlers : Handlers C D) (signum : Int)
    (cb : Option C) (userData : Option D) : Outcome (AlibError × Handlers C D) :=
  match handlers.or (ArrayList.new true) with
  | none => .ok (.memErr, none)
  | some list => do
    match ← findHandler list signum with
    | some (slot, sh) =>
      let (err, sh) ← addData sh ⟨cb, userData⟩
      return (err, some (putHandler list slot sh))
    | none =>
      if sigaction signum then return (.unknownErr, some list)
      else
        -- the source adds the handler first; the two lists have nothing to do with each other
        let (err, sh) ← addData ⟨signum, ArrayList.new true⟩ ⟨cb, userData⟩
        let (_, list) ← list.add (some sh)
        return (err, some list)

variable [DecidableEq C] [DecidableEq D]

/-- The test of `signal_handler_deregister`: `NULL` matches everything. -/
def deregisters (cb : Option C) (userData : Option D) (sd : SignalData C D) : Bool :=
  (sd.userData = userData || userData = none) && (sd.cb = cb || cb = none)

def deregister (handlers : Handlers C D) (signum : Int) (cb : Option C) (userData : Option D) :
    Outcome (Handlers C D) :=
  match handlers with
  | none => .ok none
  | some list => do
    match ← findHandler list signum with
    | none => return some list
    | some (slot, sh) =>
      match sh.sdList with
      | none => return some list
      | some sdList =>
        if sdList.list = none then return some list
        else
          let (_, sdList) ← sdList.visit fun sd =>
            (([] : List (Call C D)), deregisters cb userData sd)
          if list.count ≠ list.capacity then
            let (_, sdList) ← sdList.shrink
            return some (putHandler list slot { sh with sdList := some sdList })
          else return some (putHandler list slot { sh with sdList := some sdList })

end SignalHandler

end AlibC
