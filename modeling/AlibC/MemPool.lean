import AlibC.ArrayListInvariant
import AlibC.Lib.Heap

/-! `MemPool`: blocks that are handed out and taken back. A block is told by its address. -/
namespace AlibC

open CLang

structure MemPoolBlock (δ : Type) where
  data : Option δ
  dataSize : Nat
  /-- Whether `reserving_pool` is set. The only pool it is ever set to is that of the block. -/
  reserved : Bool
deriving DecidableEq, Repr

structure MemPool (δ : Type) where
  array : ArrayList Nat
  reservedCount : Nat
  blocks : Heap (MemPoolBlock δ)
deriving DecidableEq, Repr

namespace MemPool

variable {δ : Type}

/-- `2 ^ 64 / 32`: so many objects of 32 bytes, the size of `MemPoolBlock`, have an address. -/
def MAX_BLOCKS : Nat := 576460752303423488

section

variable (allocCb : Nat → Option δ × Nat)

/-- `allocCb` tells what each call of the callback stores in `data` and `size`. Nothing but
the address space limits `malloc`. -/
def newMemPoolBlock (blocks : Heap (MemPoolBlock δ)) : Option Nat × Heap (MemPoolBlock δ) :=
  if blocks.fresh < MAX_BLOCKS then
    match allocCb blocks.fresh with
    | (none, size) => (none, (blocks.alloc ⟨none, size, false⟩).put blocks.fresh none)
    | (some data, size) => (some blocks.fresh, blocks.alloc ⟨some data, size, false⟩)
  else (none, blocks)

/-- The loop of `fill_resized_memory` with `n` slots to go. The slot to fill is the one at
`count`. -/
def fillLoop : Nat → MemPool δ → Outcome (AlibError × MemPool δ)
  | 0, pool => .ok (.ok, pool)
  | n + 1, pool => do
    let (block, blocks) := newMemPoolBlock allocCb pool.blocks
    let list ← store pool.array.list pool.array.count [block]
    match block with
    | none => return (.memErr, { pool with array := { pool.array with list }, blocks })
    | some _ =>
      fillLoop n { pool with
        array := { pool.array with list, count := sizeAdd pool.array.count 1 }, blocks }

def fillResizedMemory (pool : MemPool δ) : Outcome (AlibError × MemPool δ) :=
  fillLoop allocCb (pool.array.capacity - pool.array.count) pool

/-- The capacity that `expand` asks for. -/
def newCap (pool : MemPool δ) : Nat :=
  if sizeMul pool.array.capacity 2 < pool.array.capacity then ULONG_MAX
  else sizeMul pool.array.capacity 2

def expand (pool : MemPool δ) : Outcome (AlibError × MemPool δ) :=
  if pool.array.capacity = pool.array.maxCap then .ok (.internalMaxReached, pool)
  else do
    let (dropped, array) ← pool.array.resize pool.newCap
    let pool := { pool with
      array, blocks := dropped.foldl (fun blocks a => blocks.put a none) pool.blocks }
    if array.capacity = array.count then return (.memErr, pool)
    else fillResizedMemory allocCb pool

def makeRoom (pool : MemPool δ) : Outcome (AlibError × MemPool δ) :=
  if pool.reservedCount = pool.array.capacity then pool.expand allocCb else .ok (.ok, pool)

/-- The first block without a reserving pool in the `n` slots from `i` on. -/
def findUnreserved (list : Option (List (Option Nat))) (blocks : Heap (MemPoolBlock δ)) :
    Nat → Nat → Outcome (Option Nat)
  | _, 0 => .ok none
  | i, n + 1 => do
    let cell ← load list i 1
    let block ← blocks.get cell.head?.join
    if block.reserved then findUnreserved list blocks (i + 1) n else return cell.head?.join

def reserveBlock (pool : MemPool δ) : Outcome (Option Nat × MemPool δ) := do
  let (code, pool) ← pool.makeRoom allocCb
  if code = .ok then
    match ← findUnreserved pool.array.list pool.blocks 0 pool.array.capacity with
    | none => return (none, pool)
    | some a =>
      let blocks ← pool.blocks.modify (some a) fun block => { block with reserved := true }
      return (some a, { pool with reservedCount := sizeAdd pool.reservedCount 1, blocks })
  else return (none, pool)

def unreserveBlock (pool : MemPool δ) (block : Option Nat) : Outcome (MemPool δ) :=
  match block with
  | none => .ok pool
  | some a => do
    let b ← pool.blocks.get block
    if b.reserved then
      let blocks ← pool.blocks.modify (some a) fun block => { block with reserved := false }
      return { pool with reservedCount := sizeSub pool.reservedCount 1, blocks }
    else .error .nullDeref

/-- `newMemPool_ex`. -/
def newEx (startCap maxCap : Nat) : Outcome (Option (MemPool δ)) :=
  match ArrayList.newEx true startCap maxCap with
  | none => .ok none
  | some array => do
    let (code, pool) ← fillResizedMemory allocCb ⟨array, 0, ⟨[]⟩⟩
    return if code = .ok then some pool else none

end

def isReserved (blocks : Heap (MemPoolBlock δ)) (a : Nat) : Bool :=
  (blocks.cell a).any (·.reserved)

theorem isReserved_eq {blocks : Heap (MemPoolBlock δ)} {a : Nat} {b : MemPoolBlock δ}
    (hb : blocks.cell a = some b) : isReserved blocks a = b.reserved := by
  rw [isReserved, hb]
  rfl

variable {allocCb : Nat → Option δ × Nat}

/-- A new block at this address can be made. -/
def Constructs (allocCb : Nat → Option δ × Nat) (a : Nat) : Prop :=
  a < MAX_BLOCKS ∧ (allocCb a).1 ≠ none

theorem newMemPoolBlock_eq {blocks : Heap (MemPoolBlock δ)} (h : Constructs allocCb blocks.fresh) :
    ∃ b : MemPoolBlock δ, b.reserved = false ∧
      newMemPoolBlock allocCb blocks = (some blocks.fresh, blocks.alloc b) := by
  obtain ⟨hlt, hdata⟩ := h
  cases he : allocCb blocks.fresh with
  | mk data size =>
    cases data with
    | none => exact absurd (by rw [he]) hdata
    | some data => exact ⟨⟨some data, size, false⟩, rfl, by rw [newMemPoolBlock, if_pos hlt, he]⟩

/-- Where none can be made, the blocks there are stay. -/
theorem newMemPoolBlock_failed {blocks : Heap (MemPoolBlock δ)}
    (h : ¬Constructs allocCb blocks.fresh) :
    ∃ blocks', newMemPoolBlock allocCb blocks = (none, blocks') ∧
      ∀ a < blocks.fresh, blocks'.cell a = blocks.cell a := by
  rw [newMemPoolBlock]
  by_cases hlt : blocks.fresh < MAX_BLOCKS
  · rw [if_pos hlt]
    cases he : allocCb blocks.fresh with
    | mk data size =>
      cases data with
      | none =>
        refine ⟨_, rfl, fun a ha => ?_⟩
        have hb := Heap.cell_alloc blocks ⟨none, size, false⟩
        rw [Heap.cell_put (by rw [hb, Function.update_self]), Function.update_of_ne (by omega), hb,
          Function.update_of_ne (by omega)]
      | some data => exact absurd ⟨hlt, by rw [he]; exact Option.some_ne_none data⟩ h
  · rw [if_neg hlt]
    exact ⟨blocks, rfl, fun _ _ => rfl⟩

/-- What making blocks leaves of the blocks there are: the same ones, and new ones that are
not reserved. -/
structure Grows (blocks blocks' : Heap (MemPoolBlock δ)) : Prop where
  fresh_le : blocks.fresh ≤ blocks'.fresh
  old : ∀ a < blocks.fresh, blocks'.cell a = blocks.cell a
  new : ∀ a, blocks.fresh ≤ a → a < blocks'.fresh →
    ∃ b, blocks'.cell a = some b ∧ b.reserved = false

/-- Of `n` new blocks the first `j` were made, and the next one, if there is one, cannot be. The blocks
there were are as before. -/
structure Made (allocCb : Nat → Option δ × Nat) (blocks blocks' : Heap (MemPoolBlock δ)) (n j : Nat) :
    Prop where
  le : j ≤ n
  old : ∀ a < blocks.fresh, blocks'.cell a = blocks.cell a
  new : ∀ a, blocks.fresh ≤ a → a < blocks.fresh + j →
    ∃ b, blocks'.cell a = some b ∧ b.reserved = false
  constructs : ∀ k < j, Constructs allocCb (blocks.fresh + k)
  fresh_eq : j = n → blocks'.fresh = blocks.fresh + n
  stops : j < n → ¬Constructs allocCb (blocks.fresh + j)

theorem made_zero (blocks : Heap (MemPoolBlock δ)) : Made allocCb blocks blocks 0 0 := by
  refine ⟨Nat.le_refl 0, fun _ _ => rfl, fun a hge hlt => ?_, fun k hk => ?_, fun _ => rfl,
    fun h => absurd h (Nat.lt_irrefl 0)⟩
  · omega
  · exact absurd hk (Nat.not_lt_zero k)

theorem Made.succ {n j : Nat} {blocks blocks' : Heap (MemPoolBlock δ)} {b : MemPoolBlock δ}
    (hc : Constructs allocCb blocks.fresh) (hb : b.reserved = false)
    (h : Made allocCb (blocks.alloc b) blocks' n j) :
    Made allocCb blocks blocks' (n + 1) (j + 1) := by
  obtain ⟨hle, hold, hnew, hcs, hf, hno⟩ := h
  rw [Heap.fresh_alloc] at hold hnew hcs hf hno
  have hsum : ∀ k, blocks.fresh + 1 + k = blocks.fresh + (k + 1) := fun k => by omega
  refine ⟨Nat.succ_le_succ hle, fun a ha => ?_, fun a hge hlt => ?_, fun k hk => ?_, fun h => ?_,
    fun h => ?_⟩
  · rw [hold a (by omega), Heap.cell_alloc, Function.update_of_ne (by omega)]
  · by_cases ha : a = blocks.fresh
    · refine ⟨b, ?_, hb⟩
      rw [hold a (by omega), Heap.cell_alloc, ha, Function.update_self]
    · exact hnew a (by omega) (by omega)
  · cases k with
    | zero => exact hc
    | succ k =>
      rw [← hsum]
      exact hcs k (by omega)
  · rw [hf (by omega), hsum]
  · rw [← hsum]
    exact hno (by omega)

theorem made_none {n : Nat} {blocks blocks' : Heap (MemPoolBlock δ)}
    (hc : ¬Constructs allocCb blocks.fresh)
    (hold : ∀ a < blocks.fresh, blocks'.cell a = blocks.cell a) :
    Made allocCb blocks blocks' (n + 1) 0 := by
  refine ⟨Nat.zero_le _, hold, fun a hge hlt => ?_, fun k hk => ?_, fun h => ?_, fun _ => hc⟩
  · omega
  · exact absurd hk (Nat.not_lt_zero k)
  · exact absurd h (Nat.succ_ne_zero n).symm

/-- Where they all can be made they are. -/
theorem Made.all {n j : Nat} {blocks blocks' : Heap (MemPoolBlock δ)}
    (h : Made allocCb blocks blocks' n j) (hcs : ∀ k < n, Constructs allocCb (blocks.fresh + k)) :
    j = n :=
  Nat.le_antisymm h.le (Nat.le_of_not_lt fun hlt => h.stops hlt (hcs j hlt))

theorem Made.grows {n : Nat} {blocks blocks' : Heap (MemPoolBlock δ)}
    (h : Made allocCb blocks blocks' n n) : Grows blocks blocks' := by
  have hf := h.fresh_eq rfl
  exact ⟨by omega, h.old, fun a hge hlt => h.new a hge (by omega)⟩

/-- The free slots at the end are filled with new blocks, up to the first one that cannot be
made. -/
theorem fillLoop_made {n : Nat} : ∀ {pool : MemPool δ},
    pool.array.list = some ((List.range pool.blocks.fresh).map some ++ List.replicate n none) →
    pool.array.count = pool.blocks.fresh → pool.blocks.fresh + n < 2 ^ 64 →
    ∃ j blocks, fillLoop allocCb n pool = .ok (if j = n then .ok else .memErr,
        ⟨⟨some ((List.range (pool.blocks.fresh + j)).map some ++ List.replicate (n - j) none),
          pool.blocks.fresh + j, pool.array.capacity, pool.array.maxCap, pool.array.freeItem⟩,
          pool.reservedCount, blocks⟩) ∧
      Made allocCb pool.blocks blocks n j := by
  induction n with
  | zero =>
    intro pool hlist hcount _
    refine ⟨0, pool.blocks, ?_, made_zero pool.blocks⟩
    rw [Nat.sub_self, Nat.add_zero, ← hlist, ← hcount]
    rfl
  | succ n ih =>
    intro pool hlist hcount hfit
    have hlen : ((List.range pool.blocks.fresh).map some).length = pool.blocks.fresh := by simp
    have hstore : ∀ d, store (some ((List.range pool.blocks.fresh).map some ++
        List.replicate (n + 1) none)) pool.blocks.fresh [d] =
          .ok (some ((List.range pool.blocks.fresh).map some ++ d :: List.replicate n none)) := by
      intro d
      have h := store_cell (d := d)
        (show (List.range pool.blocks.fresh).map some ++ List.replicate (n + 1) none =
          (List.range pool.blocks.fresh).map some ++ none :: List.replicate n none from rfl)
      rwa [hlen] at h
    by_cases hc : Constructs allocCb pool.blocks.fresh
    · obtain ⟨b, hb, hnew⟩ := newMemPoolBlock_eq hc
      have hfresh := Heap.fresh_alloc pool.blocks b
      obtain ⟨j, blocks, hr, hm⟩ := @ih
        ⟨⟨some ((List.range (pool.blocks.alloc b).fresh).map some ++ List.replicate n none),
          pool.blocks.fresh + 1, pool.array.capacity, pool.array.maxCap, pool.array.freeItem⟩,
          pool.reservedCount, pool.blocks.alloc b⟩ rfl hfresh.symm (by
            dsimp only
            omega)
      dsimp only at hr hm
      rw [hfresh] at hr
      refine ⟨j + 1, blocks, ?_, hm.succ hc hb⟩
      have hsum : pool.blocks.fresh + 1 + j = pool.blocks.fresh + (j + 1) := by omega
      have hcode : (if j + 1 = n + 1 then AlibError.ok else .memErr) =
          if j = n then AlibError.ok else .memErr := by
        congr 1
        exact propext Nat.succ_inj
      rw [fillLoop, hnew]
      dsimp only
      rw [hlist, hcount, hstore, ok_bind, sizeAdd_eq (by omega), hcode, ← hsum,
        Nat.add_sub_add_right, ← hr, List.range_succ, List.map_append, List.append_assoc]
      rfl
    · obtain ⟨blocks, hnew, hold⟩ := newMemPoolBlock_failed hc
      refine ⟨0, blocks, ?_, made_none hc hold⟩
      rw [fillLoop, hnew]
      dsimp only
      rw [hlist, hcount, hstore, ok_bind, if_neg (Nat.succ_ne_zero n).symm]
      rfl

end MemPool

end AlibC
