import Mathlib.Tactic.Common

namespace AlibC

/-- `alib_error`. The codes of the source are given by `AlibError.code`. -/
inductive AlibError where
  | deviceNotFound | stateErr | overflow | fileNotFound | tcpRecvErr | fileFormatErr
  | timeout | badIndex | internalMaxReached | threadErr | fileWriteErr | fileReadErr
  | fileOpenErr | fileErr | checkErrno | objCorruption | tcpSendErr | tcpConnectErr
  | fdErr | unknownErr | portInUse | mutexErr | memErr | badArg | ok
deriving DecidableEq, Repr

def AlibError.code : AlibError → Int
  | deviceNotFound => -24 | stateErr => -23 | overflow => -22 | fileNotFound => -21
  | tcpRecvErr => -20 | fileFormatErr => -19 | timeout => -18 | badIndex => -17
  | internalMaxReached => -16 | threadErr => -15 | fileWriteErr => -14
  | fileReadErr => -13 | fileOpenErr => -12 | fileErr => -11 | checkErrno => -10
  | objCorruption => -9 | tcpSendErr => -8 | tcpConnectErr => -7 | fdErr => -6
  | unknownErr => -5 | portInUse => -4 | mutexErr => -3 | memErr => -2 | badArg => -1
  | ok => 0

/-- The codes count up to zero. -/
theorem AlibError.code_eq (e : AlibError) : e.code = e.ctorIdx - 24 := by
  cases e <;> rfl

theorem AlibError.code_injective : Function.Injective AlibError.code := by
  intro a b h
  rw [AlibError.code_eq, AlibError.code_eq] at h
  have hidx : a.ctorIdx = b.ctorIdx := by omega
  rw [← AlibError.ofNat_ctorIdx a, hidx, AlibError.ofNat_ctorIdx]

end AlibC
