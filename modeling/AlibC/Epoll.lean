import Mathlib.Tactic.Common

/-! Events of epoll, and what the callbacks of the servers ask for. -/
namespace AlibC

/-- `struct epoll_event`: the descriptor, and the bits of what happened to it. -/
structure EpollEvent where
  fd : Int
  events : Nat
deriving DecidableEq, Repr

abbrev EPOLLIN : Nat := 1

abbrev EPOLLERR : Nat := 8

abbrev EPOLLHUP : Nat := 16

/-- `(event_it->events & (EPOLLERR | EPOLLHUP)) || !(event_it->events & EPOLLIN)` -/
def EpollEvent.failed (e : EpollEvent) : Bool :=
  e.events &&& (EPOLLERR ||| EPOLLHUP) ≠ 0 || e.events &&& EPOLLIN = 0

/-- Bits of a `server_cb_rval`. -/
abbrev SCB_RVAL_CLOSE_CLIENT : Nat := 1

abbrev SCB_RVAL_STOP_SERVER : Nat := 2

abbrev SCB_RVAL_HANDLED : Nat := 4

/-- `rval & flag` -/
def asks (rval flag : Nat) : Bool := rval &&& flag ≠ 0

end AlibC
