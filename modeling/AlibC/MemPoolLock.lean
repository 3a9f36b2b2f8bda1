import AlibC.MemPoolRuns

/-! A `MemPool` with the mutex of its array. -/
namespace AlibC

open CLang

structure LockedMemPool (δ : Type) where
  pool : MemPool δ
  useMutex : Bool
  /-- Whether the mutex is held. -/
  held : Bool
deriving DecidableEq, Repr

namespace LockedMemPool

variable {δ : Type}

def lock (m : LockedMemPool δ) : Outcome (LockedMemPool δ) :=
  if m.useMutex then if m.held then .error .deadlock else .ok { m with held := true }
  else .ok m

def unlock (m : LockedMemPool δ) : LockedMemPool δ :=
  if m.useMutex then { m with held := false } else m

section

variable (allocCb : Nat → Option δ × Nat)

/-- The way out of the loop where a block cannot be made is behind the unlock. -/
def fillResizedMemory (m : LockedMemPool δ) : Outcome (AlibError × LockedMemPool δ) := do
  let m ← m.lock
  let (code, pool) ← m.pool.fillResizedMemory allocCb
  return (code, if code = .ok then { m with pool }.unlock else { m with pool })

def expand (m : LockedMemPool δ) : Outcome (AlibError × LockedMemPool δ) :=
  if m.pool.array.capacity = m.pool.array.maxCap then .ok (.internalMaxReached, m)
  else do
    let m ← m.lock
    let (dropped, array) ← m.pool.array.resize m.pool.newCap
    let m := { m with pool := { m.pool with
      array, blocks := dropped.foldl (fun blocks a => blocks.put a none) m.pool.blocks } }.unlock
    if array.capacity = array.count then return (.memErr, m)
    else m.fillResizedMemory allocCb

def makeRoom (m : LockedMemPool δ) : Outcome (AlibError × LockedMemPool δ) :=
  if m.pool.reservedCount = m.pool.array.capacity then m.expand allocCb else .ok (.ok, m)

def reserveBlock (m : LockedMemPool δ) : Outcome (Option Nat × LockedMemPool δ) := do
  let (code, m) ← m.makeRoom allocCb
  if code = .ok then
    match ← MemPool.findUnreserved m.pool.array.list m.pool.blocks 0 m.pool.array.capacity with
    | none => return (none, m)
    | some a =>
      let blocks ← m.pool.blocks.modify (some a) fun block => { block with reserved := true }
      return (some a, { m with pool := { m.pool with
        reservedCount := sizeAdd m.pool.reservedCount 1, blocks } })
  else return (none, m)

def unreserveBlock (m : LockedMemPool δ) (block : Option Nat) : Outcome (LockedMemPool δ) := do
  let pool ← m.pool.unreserveBlock block
  return { m with pool }

/-- `newMemPool_ex`. -/
def newEx (startCap maxCap : Nat) (useMutex : Bool) : Outcome (Option (LockedMemPool δ)) :=
  match ArrayList.newEx true startCap maxCap with
  | none => .ok none
  | some array => do
    let (code, m) ← fillResizedMemory allocCb ⟨⟨array, 0, ⟨[]⟩⟩, useMutex, false⟩
    return if code = .ok then some m else none

end

variable {allocCb : Nat → Option δ × Nat} {m : LockedMemPool δ}

theorem lock_eq (h : m.held = false) : m.lock = .ok { m with held := m.useMutex } := by
  obtain ⟨pool, useMutex, held⟩ := m
  dsimp only at h
  subst h
  cases useMutex with
  | false => rfl
  | true => rfl

theorem unlock_eq (pool : MemPool δ) (useMutex : Bool) :
    unlock ⟨pool, useMutex, useMutex⟩ = ⟨pool, useMutex, false⟩ := by
  cases useMutex with
  | false => rfl
  | true => rfl

/-- The mutex is held afterwards where a block could not be made. -/
theorem fillResizedMemory_eq (h : m.held = false) {code : AlibError} {pool : MemPool δ}
    (hr : m.pool.fillResizedMemory allocCb = .ok (code, pool)) :
    m.fillResizedMemory allocCb =
      .ok (code, ⟨pool, m.useMutex, m.useMutex && decide (code ≠ .ok)⟩) := by
  rw [fillResizedMemory, lock_eq h, ok_bind, hr]
  by_cases hc : code = .ok
  · have hok : decide (code ≠ .ok) = false := decide_eq_false fun hne => hne hc
    rw [hok, Bool.and_false, ← unlock_eq, ok_bind]
    simp only [hc, if_pos]
    rfl
  · have hfail : decide (code ≠ .ok) = true := decide_eq_true hc
    rw [hfail, Bool.and_true, ok_bind]
    simp only [if_neg hc]
    rfl

/-- An expansion that finds room for more slots does with the pool what it does without a mutex. -/
theorem expand_eq (h : m.held = false) (hne : m.pool.array.capacity ≠ m.pool.array.maxCap)
    {code : AlibError} {pool : MemPool δ} (hr : m.pool.expand allocCb = .ok (code, pool))
    (hgrown : pool.array.count ≠ pool.array.capacity ∨ code = .ok) :
    m.expand allocCb = .ok (code, ⟨pool, m.useMutex, m.useMutex && decide (code ≠ .ok)⟩) := by
  rw [MemPool.expand, if_neg hne] at hr
  obtain ⟨⟨dropped, array⟩, hres, hr⟩ := bind_eq_ok.mp hr
  rw [expand, if_neg hne, lock_eq h, ok_bind]
  dsimp only at hr ⊢
  rw [hres, ok_bind]
  dsimp only
  rw [unlock_eq]
  by_cases hcap : array.capacity = array.count
  · rw [if_pos hcap] at hr
    cases hr
    exact absurd hgrown (by rw [not_or]; exact ⟨fun hc => hc hcap.symm, by decide⟩)
  · rw [if_neg hcap] at hr ⊢
    exact fillResizedMemory_eq rfl hr

/-- Once there is room a block is handed out as without a mutex. -/
theorem reserveBlock_eq {m' : LockedMemPool δ} (hr : m.makeRoom allocCb = .ok (.ok, m'))
    (hp : m.pool.makeRoom allocCb = .ok (.ok, m'.pool)) :
    m.reserveBlock allocCb = do
      let (block, pool) ← m.pool.reserveBlock allocCb
      return (block, { m' with pool }) := by
  rw [reserveBlock, MemPool.reserveBlock, hr, hp, ok_bind, ok_bind]
  dsimp only
  rw [if_pos rfl, if_pos rfl]
  cases MemPool.findUnreserved m'.pool.array.list m'.pool.blocks 0 m'.pool.array.capacity with
  | error e => rfl
  | ok found =>
    cases found with
    | none => rfl
    | some a =>
      rw [ok_bind, ok_bind]
      dsimp only
      cases m'.pool.blocks.modify (some a) fun block => { block with reserved := true } with
      | error e => rfl
      | ok blocks => rfl

/-- A call that needs no room takes no mutex. -/
theorem reserveBlock_roomy (hne : m.pool.reservedCount ≠ m.pool.array.capacity) :
    m.reserveBlock allocCb = do
      let (block, pool) ← m.pool.reserveBlock allocCb
      return (block, { m with pool }) := by
  apply reserveBlock_eq
  · rw [makeRoom, if_neg hne]
  · rw [MemPool.makeRoom, if_neg hne]

/-- A call that makes room gives the mutex back. -/
theorem reserveBlock_grown (h : m.held = false)
    (hfull : m.pool.reservedCount = m.pool.array.capacity)
    (hne : m.pool.array.capacity ≠ m.pool.array.maxCap) {pool : MemPool δ}
    (hr : m.pool.expand allocCb = .ok (.ok, pool)) :
    m.reserveBlock allocCb = do
      let (block, pool) ← m.pool.reserveBlock allocCb
      return (block, { m with pool }) := by
  have hheld : m = ⟨m.pool, m.useMutex, false⟩ := by rw [← h]
  have hexp := expand_eq h hne hr (.inr rfl)
  have hok : decide (AlibError.ok ≠ .ok) = false := by decide
  rw [hok, Bool.and_false] at hexp
  have hlift := @reserveBlock_eq δ allocCb m ⟨pool, m.useMutex, false⟩
    (by rw [makeRoom, if_pos hfull, hexp]) (by rw [MemPool.makeRoom, if_pos hfull, hr])
  rw [hlift]
  conv => rhs; rw [hheld]

/-- Where not all blocks can be made nothing is handed out, and the mutex is kept. -/
theorem reserveBlock_failed (h : m.held = false)
    (hfull : m.pool.reservedCount = m.pool.array.capacity)
    (hne : m.pool.array.capacity ≠ m.pool.array.maxCap) {pool : MemPool δ}
    (hr : m.pool.expand allocCb = .ok (.memErr, pool))
    (hgrown : pool.array.count ≠ pool.array.capacity) :
    m.reserveBlock allocCb = .ok (none, ⟨pool, m.useMutex, m.useMutex⟩) := by
  have hexp := expand_eq h hne hr (.inl hgrown)
  have hfail : decide (AlibError.memErr ≠ .ok) = true := by decide
  rw [hfail, Bool.and_true] at hexp
  rw [reserveBlock, makeRoom, if_pos hfull, hexp]
  rfl

end LockedMemPool

end AlibC
