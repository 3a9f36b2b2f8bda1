import AlibC.MemPoolLock

/-! What is left of a `MemPool` when a block of an expansion cannot be made. -/
namespace AlibC

open CLang Machine

namespace MemPool

variable {δ : Type} {allocCb : Nat → Option δ × Nat} {pool : MemPool δ} {handles : List Nat}

/-- The pool of the blocks that were made. -/
def created (pool : MemPool δ) : MemPool δ :=
  ⟨{ pool.array with
      list := pool.array.list.map (·.take pool.array.count), capacity := pool.array.count },
    pool.reservedCount, ⟨pool.blocks.cells.take pool.array.count⟩⟩

/-- The blocks that were made are in the first slots, and the slots behind them are free. Where there
are none of these no block was missed. -/
structure Partly (pool : MemPool δ) (handles : List Nat) : Prop where
  holds : Holds pool.created handles
  list_eq : pool.array.list = some ((List.range pool.array.count).map some ++
    List.replicate (pool.array.capacity - pool.array.count) none)
  count_le : pool.array.count ≤ pool.array.capacity
  created_eq : pool.array.count = pool.array.capacity → pool.created = pool

theorem cell_take (blocks : Heap (MemPoolBlock δ)) (n a : Nat) :
    Heap.cell ⟨blocks.cells.take n⟩ a = if a < n then blocks.cell a else none := by
  rw [Heap.cell, List.getElem?_take]
  split
  · rfl
  · rfl

theorem Full.created_eq (h : Full pool) : pool.created = pool := by
  obtain ⟨⟨list, count, capacity, maxCap, freeItem⟩, reservedCount, ⟨cells⟩⟩ := pool
  obtain ⟨hlist, hcount, hcap, -, -, -⟩ := h
  dsimp only [Heap.fresh] at hlist hcount hcap
  subst hlist hcount hcap
  have hlen : ((List.range cells.length).map some).length = cells.length := by
    rw [List.length_map, List.length_range]
  rw [created]
  dsimp only [Option.map_some]
  rw [List.take_of_length_le (Nat.le_of_eq hlen), List.take_length]

theorem Holds.partly (h : Holds pool handles) : Partly pool handles := by
  have hcap : pool.array.count = pool.array.capacity := by
    rw [h.full.count_eq, h.full.capacity_eq]
  refine ⟨h.full.created_eq.symm ▸ h, ?_, Nat.le_of_eq hcap, fun _ => h.full.created_eq⟩
  rw [hcap, Nat.sub_self, List.replicate_zero, List.append_nil, h.full.capacity_eq]
  exact h.full.list_eq

/-- A pool without free slots is filled. -/
theorem Partly.holds_of_full (h : Partly pool handles)
    (hcap : pool.array.count = pool.array.capacity) : Holds pool handles := by
  have hh := h.holds
  rwa [h.created_eq hcap] at hh

theorem Partly.fresh_eq (h : Partly pool handles) : pool.created.blocks.fresh = pool.array.count :=
  h.holds.full.count_eq.symm

theorem Partly.reserved_eq (h : Partly pool handles) : pool.reservedCount = handles.length :=
  h.holds.count_eq

theorem created_put (n a : Nat) (v : Option (MemPoolBlock δ)) :
    created ⟨pool.array, n, pool.blocks.put a v⟩ =
      ⟨pool.created.array, n, pool.created.blocks.put a v⟩ := by
  rw [created]
  dsimp only [Heap.put, created]
  rw [List.take_set]

theorem Partly.put (h : Partly pool handles) {n a : Nat} {v : Option (MemPoolBlock δ)}
    {handles' : List Nat}
    (hh : Holds ⟨pool.created.array, n, pool.created.blocks.put a v⟩ handles') :
    Partly ⟨pool.array, n, pool.blocks.put a v⟩ handles' := by
  refine ⟨?_, h.list_eq, h.count_le, fun hcap => ?_⟩
  · rw [created_put]
    exact hh
  · rw [created_put, h.created_eq hcap]

/-- A search that ends at a block does so with more slots behind it. -/
theorem findUnreserved_append {cells rest : List (Option Nat)} {blocks blocks' : Heap (MemPoolBlock δ)}
    (hcell : ∀ a b, blocks.cell a = some b → blocks'.cell a = some b) {n : Nat} :
    ∀ {i k a : Nat}, findUnreserved (some cells) blocks i n = .ok (some a) →
      findUnreserved (some (cells ++ rest)) blocks' i (n + k) = .ok (some a) := by
  induction n with
  | zero =>
    intro i k a hr
    cases hr
  | succ n ih =>
    intro i k a hr
    rw [findUnreserved] at hr
    obtain ⟨cell, hload, hr⟩ := bind_eq_ok.mp hr
    obtain ⟨block, hget, hr⟩ := bind_eq_ok.mp hr
    obtain ⟨blk, hblk, hle, rfl⟩ := load_inv hload Nat.one_ne_zero
    cases hblk
    have hload' : load (some (cells ++ rest)) i 1 = .ok ((cells.drop i).take 1) := by
      rw [load_some (by rw [List.length_append]; omega),
        List.drop_append_of_le_length (by omega),
        List.take_append_of_le_length (by rw [List.length_drop]; omega)]
    rw [Nat.succ_add, findUnreserved, hload', ok_bind]
    cases hptr : ((cells.drop i).take 1).head?.join with
    | none =>
      rw [hptr] at hget
      cases hget
    | some p =>
      rw [hptr] at hget hr
      rw [Heap.get] at hget
      cases hb : blocks.cell p with
      | none =>
        rw [hb] at hget
        cases hget
      | some b =>
        rw [hb] at hget
        cases hget
        rw [Heap.get_eq (hcell p _ hb), ok_bind]
        by_cases hres : block.reserved = true
        · rw [if_pos hres] at hr ⊢
          exact ih hr
        · rw [if_neg hres] at hr ⊢
          exact hr

/-- A search that finds no block before a free slot uses what is not there. -/
theorem findUnreserved_hole {blocks : Heap (MemPoolBlock δ)} {rest : List (Option Nat)} {n : Nat}
    {as : List Nat} : ∀ {pre : List Nat},
    (∀ a ∈ as, ∃ b, blocks.cell a = some b ∧ b.reserved = true) →
      findUnreserved (some ((pre ++ as).map some ++ none :: rest)) blocks pre.length
        (as.length + (n + 1)) = .error .nullDeref := by
  induction as with
  | nil =>
    intro pre _
    have hlen : (pre.map (some : Nat → Option Nat)).length = pre.length := List.length_map _
    have hload : load (some (pre.map some ++ none :: rest)) pre.length 1 = .ok [none] := by
      rw [← hlen, load_some (by simp), List.drop_left]
      rfl
    rw [List.append_nil, List.length_nil, Nat.zero_add, findUnreserved, hload]
    rfl
  | cons a as ih =>
    intro pre hall
    obtain ⟨⟨b, hb, hres⟩, hall⟩ := List.forall_mem_cons.mp hall
    have hlen : (pre.map (some : Nat → Option Nat)).length = pre.length := List.length_map _
    have hload : load (some ((pre ++ a :: as).map some ++ none :: rest)) pre.length 1 =
        .ok [some a] := by
      rw [List.map_append, List.append_assoc, ← hlen, load_some (by simp), List.drop_left]
      rfl
    rw [List.length_cons, Nat.succ_add, findUnreserved, hload, ok_bind]
    dsimp only [List.head?_cons, Option.join_some]
    rw [Heap.get_eq hb, ok_bind, if_pos hres]
    have hr := @ih (pre ++ [a]) hall
    rw [List.append_assoc, List.length_append] at hr
    exact hr

/-- Handing out a block without an expansion. -/
theorem reserveBlock_found (hne : pool.reservedCount ≠ pool.array.capacity) {a : Nat}
    {b : MemPoolBlock δ}
    (hfind : findUnreserved pool.array.list pool.blocks 0 pool.array.capacity = .ok (some a))
    (hb : pool.blocks.cell a = some b) :
    pool.reserveBlock allocCb = .ok (some a, ⟨pool.array, sizeAdd pool.reservedCount 1,
      pool.blocks.put a (some { b with reserved := true })⟩) := by
  rw [reserveBlock, makeRoom, if_neg hne, ok_bind]
  dsimp only
  rw [if_pos rfl, hfind, ok_bind]
  dsimp only
  rw [Heap.modify_eq hb]
  rfl

theorem Partly.cell_eq (pool : MemPool δ) {a : Nat} {b : MemPoolBlock δ}
    (hb : pool.created.blocks.cell a = some b) : pool.blocks.cell a = some b := by
  have htake := cell_take pool.blocks pool.array.count a
  rw [created] at hb
  dsimp only at hb
  rw [htake] at hb
  split at hb
  · exact hb
  · cases hb

/-- While a block that was made is free, one is handed out as if there were no other slots. -/
theorem Partly.reserve (h : Partly pool handles) (hlt : handles.length < pool.array.count) :
    ∃ a n v, a ∉ handles ∧
      pool.reserveBlock allocCb = .ok (some a, ⟨pool.array, n, pool.blocks.put a v⟩) ∧
      pool.created.reserveBlock allocCb =
        .ok (some a, created ⟨pool.array, n, pool.blocks.put a v⟩) ∧
      Partly ⟨pool.array, n, pool.blocks.put a v⟩ (a :: handles) := by
  have hle := h.count_le
  have hcount := h.reserved_eq
  have hcap : pool.created.array.capacity = pool.array.count := rfl
  have hres : pool.created.reservedCount = pool.reservedCount := rfl
  obtain ⟨a, blocks, hfind, hmod, hh, hout, -⟩ := h.holds.reserve (by rw [h.fresh_eq]; exact hlt)
  obtain ⟨b, hb⟩ : ∃ b, pool.created.blocks.cell a = some b := by
    rw [Heap.modify] at hmod
    cases hb : pool.created.blocks.cell a with
    | none =>
      rw [hb] at hmod
      cases hmod
    | some b => exact ⟨b, rfl⟩
  rw [Heap.modify_eq hb] at hmod
  cases hmod
  have hreal : findUnreserved pool.array.list pool.blocks 0 pool.array.capacity = .ok (some a) := by
    rw [hcap, h.holds.full.list_eq, h.fresh_eq] at hfind
    have hmore := @findUnreserved_append δ _
      (List.replicate (pool.array.capacity - pool.array.count) none) _ pool.blocks
      (fun _ _ => Partly.cell_eq pool) _ _ (pool.array.capacity - pool.array.count) _ hfind
    rwa [← h.list_eq, Nat.add_sub_of_le hle] at hmore
  refine ⟨a, sizeAdd pool.reservedCount 1, some { b with reserved := true }, hout,
    reserveBlock_found (by omega) hreal (Partly.cell_eq pool hb), ?_, h.put hh⟩
  rw [created_put, ← hres]
  exact reserveBlock_found (by omega) hfind hb

/-- Once they are all reserved, the search runs into a free slot. -/
theorem Partly.reserve_hole (h : Partly pool handles) (hall : handles.length = pool.array.count)
    (hlt : pool.array.count < pool.array.capacity) :
    pool.reserveBlock allocCb = .error .nullDeref := by
  have hcount := h.reserved_eq
  have hsucc : pool.array.capacity - pool.array.count =
      pool.array.capacity - pool.array.count - 1 + 1 := by omega
  have hcap : (List.range pool.array.count).length +
      (pool.array.capacity - pool.array.count - 1 + 1) = pool.array.capacity := by
    rw [List.length_range]
    omega
  have hres : ∀ a ∈ List.range pool.array.count, ∃ b, pool.blocks.cell a = some b ∧
      b.reserved = true := by
    intro a ha
    rw [List.mem_range, ← h.fresh_eq] at ha
    obtain ⟨b, hb⟩ := h.holds.full.alive a ha
    have hreserved := h.holds.all_reserved (hall.trans h.fresh_eq.symm) a ha
    rw [isReserved_eq hb] at hreserved
    exact ⟨b, Partly.cell_eq pool hb, hreserved⟩
  have hfind := @findUnreserved_hole δ pool.blocks
    (List.replicate (pool.array.capacity - pool.array.count - 1) none)
    (pool.array.capacity - pool.array.count - 1) _ [] hres
  rw [hcap, List.nil_append, ← List.replicate_succ, ← hsucc, ← h.list_eq] at hfind
  rw [reserveBlock, makeRoom, if_neg (by omega), ok_bind]
  dsimp only
  rw [if_pos rfl]
  have hfind' : findUnreserved pool.array.list pool.blocks 0 pool.array.capacity =
    .error .nullDeref := hfind
  rw [hfind']
  rfl

theorem unreserveBlock_eq {a : Nat} {b : MemPoolBlock δ} (hb : pool.blocks.cell a = some b)
    (hres : b.reserved = true) :
    pool.unreserveBlock (some a) = .ok ⟨pool.array, sizeSub pool.reservedCount 1,
      pool.blocks.put a (some { b with reserved := false })⟩ := by
  rw [unreserveBlock, Heap.get_eq hb, ok_bind, if_pos hres, Heap.modify_eq hb]
  rfl

/-- A block is taken back as if there were no other slots. -/
theorem Partly.unreserve (h : Partly pool handles) {a : Nat} (ha : a ∈ handles) :
    ∃ n v, pool.unreserveBlock (some a) = .ok ⟨pool.array, n, pool.blocks.put a v⟩ ∧
      pool.created.unreserveBlock (some a) = .ok (created ⟨pool.array, n, pool.blocks.put a v⟩) ∧
      Partly ⟨pool.array, n, pool.blocks.put a v⟩ (handles.erase a) := by
  obtain ⟨hlt, hres⟩ := (h.holds.mem_iff a).mp ha
  obtain ⟨b, hb⟩ := h.holds.full.alive a hlt
  rw [isReserved_eq hb] at hres
  obtain ⟨n, blocks, hr, hh, -⟩ := h.holds.unreserve ha
  have hr' := unreserveBlock_eq hb hres
  have hreal := unreserveBlock_eq (Partly.cell_eq pool hb) hres
  have hcount : pool.created.reservedCount = pool.reservedCount := rfl
  rw [hcount] at hr'
  generalize sizeSub pool.reservedCount 1 = k at hr' hreal
  rw [hr] at hr'
  cases hr'
  refine ⟨n, some { b with reserved := false }, hreal, ?_, h.put hh⟩
  rw [created_put]
  exact hr

/-- The blocks that were made are those at the first addresses, and they have an address. -/
theorem Full.made_le {blocks : Heap (MemPoolBlock δ)} {n j : Nat} (h : Full pool)
    (hm : Made allocCb pool.blocks blocks n j) :
    pool.blocks.fresh + j ≤ blocks.fresh ∧ pool.blocks.fresh + j ≤ MAX_BLOCKS := by
  have hpos := h.pos
  cases j with
  | zero =>
    obtain ⟨b, hb⟩ := h.alive (pool.blocks.fresh - 1) (by omega)
    rw [← hm.old _ (by omega)] at hb
    have hin : pool.blocks.fresh - 1 < blocks.fresh := Heap.lt_of_cell hb
    exact ⟨by omega, h.le_max⟩
  | succ j =>
    obtain ⟨b, hb, -⟩ := hm.new (pool.blocks.fresh + j) (by omega) (by omega)
    exact ⟨Heap.lt_of_cell hb, (hm.constructs j (Nat.lt_succ_self j)).1⟩

/-- Without the block that could not be made the blocks are the old ones and those that were made. -/
theorem Made.grows_take {blocks blocks' : Heap (MemPoolBlock δ)} {n j : Nat}
    (hm : Made allocCb blocks blocks' n j)
    (hfresh : Heap.fresh ⟨blocks'.cells.take (blocks.fresh + j)⟩ = blocks.fresh + j) :
    Grows blocks ⟨blocks'.cells.take (blocks.fresh + j)⟩ := by
  refine ⟨by omega, fun a ha => ?_, fun a hge ha => ?_⟩
  · rw [cell_take, if_pos (by omega), hm.old a ha]
  · rw [hfresh] at ha
    rw [cell_take, if_pos ha]
    exact hm.new a hge ha

/-- What is left of an expansion that does not make all its blocks. -/
theorem Holds.expand_failed (h : Holds pool handles)
    (hne : pool.array.capacity ≠ pool.array.maxCap)
    (hno : ∃ k < pool.blocks.fresh, ¬Constructs allocCb (pool.blocks.fresh + k)) :
    ∃ pool', pool.expand allocCb = .ok (.memErr, pool') ∧ Partly pool' handles ∧
      pool'.array.count ≠ pool'.array.capacity ∧ pool'.reservedCount = pool.reservedCount ∧
      ∀ a ∈ handles, pool'.blocks.cell a = pool.blocks.cell a := by
  obtain ⟨j, blocks, hr, hm⟩ := @expand_made δ allocCb pool h.full hne
  obtain ⟨hlast, hmax⟩ := h.full.made_le hm
  have hlt : j < pool.blocks.fresh := by
    apply Nat.lt_of_le_of_ne hm.le
    rintro rfl
    obtain ⟨k, hk, hfail⟩ := hno
    exact hfail (hm.constructs k hk)
  rw [if_neg (Nat.ne_of_lt hlt)] at hr
  have hfresh : Heap.fresh ⟨blocks.cells.take (pool.blocks.fresh + j)⟩ = pool.blocks.fresh + j :=
    List.length_take_of_le hlast
  have hg := hm.grows_take hfresh
  refine ⟨_, hr, ⟨?_, ?_, ?_, fun hcap => ?_⟩, ?_, rfl, fun a ha => ?_⟩
  · have hlen : ((List.range (pool.blocks.fresh + j)).map (some : Nat → Option Nat)).length =
        pool.blocks.fresh + j := by rw [List.length_map, List.length_range]
    rw [created]
    dsimp only [Option.map_some]
    rw [List.take_left' hlen]
    exact h.grow (h.full.grow hg (by rw [hfresh]) hfresh.symm hfresh.symm
      (by rw [hfresh]; exact hmax)) hg
  · dsimp only
    rw [Nat.add_sub_add_left]
  · dsimp only
    omega
  · dsimp only at hcap
    omega
  · dsimp only
    omega
  · exact hm.old a ((h.mem_iff a).mp ha).1

end MemPool

namespace LockedMemPool

open MemPool (Op Constructs Holds Partly)
variable {δ : Type} {allocCb : Nat → Option δ × Nat} {m : LockedMemPool δ} {handles : List Nat}

/-- One call on a pool while the handles of the list are out. -/
def step (allocCb : Nat → Option δ × Nat) (s : LockedMemPool δ × List Nat) :
    Op → Outcome (Option Nat × (LockedMemPool δ × List Nat))
  | .reserve => do
    let (block, m) ← s.1.reserveBlock allocCb
    return (block, m, block.toList ++ s.2)
  | .unreserve block => do return (none, ← s.1.unreserveBlock (some block), s.2.erase block)

/-- Only a handle that is out is given back. -/
def Admitted (s : LockedMemPool δ × List Nat) : Op → Prop
  | .reserve => True
  | .unreserve block => block ∈ s.2

/-- The call has to expand the pool, and one of the new blocks cannot be made. -/
def FailsToExpand (allocCb : Nat → Option δ × Nat) (s : LockedMemPool δ × List Nat) (op : Op) :
    Prop :=
  op = .reserve ∧ s.1.pool.reservedCount = s.1.pool.array.capacity ∧
    s.1.pool.array.capacity ≠ s.1.pool.array.maxCap ∧
    ∃ k < s.1.pool.newCap - s.1.pool.array.capacity,
      ¬Constructs allocCb (s.1.pool.blocks.fresh + k)

/-- The same with only the blocks that were made. -/
def created (s : LockedMemPool δ × List Nat) : LockedMemPool δ × List Nat :=
  ({ s.1 with pool := s.1.pool.created }, s.2)

/-- What a call has to do. If a block of an expansion cannot be made it returns none, gives the
mutex back and leaves the reserved blocks alone; any other call is one on the blocks that were made. -/
def Usable (allocCb : Nat → Option δ × Nat) (s : LockedMemPool δ × List Nat) (op : Op) : Prop :=
  ∃ block s', step allocCb s op = .ok (block, s') ∧
    (FailsToExpand allocCb s op → block = none ∧ s'.1.held = false ∧ s'.2 = s.2 ∧
      s'.1.pool.reservedCount = s.1.pool.reservedCount ∧
      ∀ a ∈ s.2, s'.1.pool.blocks.cell a = s.1.pool.blocks.cell a) ∧
    (¬FailsToExpand allocCb s op → step allocCb (created s) op = .ok (block, created s'))

/-- No expansion fails while there is a mutex, and no block is asked for when those that were made are
all reserved and there are slots behind them. -/
def Survives (allocCb : Nat → Option δ × Nat) (s : LockedMemPool δ × List Nat) (op : Op) : Prop :=
  op = .reserve → (FailsToExpand allocCb s op → s.1.useMutex = false) ∧
    ¬(s.1.pool.reservedCount = s.1.pool.array.count ∧
      s.1.pool.array.count < s.1.pool.array.capacity)

/-- The mutex is free, and the blocks that were made are in the first slots. A pool that was made
without blocks never has any. -/
structure Lasting (s : LockedMemPool δ × List Nat) : Prop where
  held_eq : s.1.held = false
  state : Partly s.1.pool s.2 ∨
    ∃ max, 0 < max ∧ s.1.pool = ⟨⟨none, 0, 0, max, true⟩, 0, ⟨[]⟩⟩ ∧ s.2 = []

/-- A block that was made is free. -/
theorem step_found (h : Partly m.pool handles) (hlt : handles.length < m.pool.array.count) :
    ∃ block s', step allocCb (m, handles) .reserve = .ok (block, s') ∧
      step allocCb (created (m, handles)) .reserve = .ok (block, created s') ∧
      s'.1.held = m.held ∧ Partly s'.1.pool s'.2 := by
  have hcount := h.reserved_eq
  have hle := h.count_le
  obtain ⟨a, n, v, -, hr, hc, h'⟩ := @Partly.reserve δ allocCb m.pool handles h hlt
  have hreal := @reserveBlock_roomy δ allocCb m (by omega)
  have hmade := @reserveBlock_roomy δ allocCb { m with pool := m.pool.created }
    (show m.pool.reservedCount ≠ m.pool.array.count by omega)
  rw [hr] at hreal
  dsimp only at hmade
  rw [hc] at hmade
  refine ⟨some a, ({ m with pool := ⟨m.pool.array, n, m.pool.blocks.put a v⟩ }, a :: handles), ?_, ?_,
    rfl, h'⟩
  · rw [step]
    dsimp only
    rw [hreal]
    rfl
  · rw [step, created]
    dsimp only
    rw [hmade]
    rfl

/-- All slots hold blocks that are reserved, and there can be no more. -/
theorem step_full (h : Holds m.pool handles) (hall : handles.length = m.pool.blocks.fresh)
    (hmax : m.pool.array.capacity = m.pool.array.maxCap) :
    step allocCb (m, handles) .reserve = .ok (none, (m, handles)) := by
  have hcap := h.full.capacity_eq
  have hcount := h.count_eq
  rw [step, reserveBlock, makeRoom, if_pos (by dsimp only; omega), expand, if_pos hmax]
  rfl

/-- All slots hold blocks that are reserved, and there are made as many again. -/
theorem step_expands (h : Holds m.pool handles) (hheld : m.held = false)
    (hall : handles.length = m.pool.blocks.fresh)
    (hne : m.pool.array.capacity ≠ m.pool.array.maxCap)
    (hcb : ∀ k < m.pool.blocks.fresh, Constructs allocCb (m.pool.blocks.fresh + k)) :
    ∃ block s', step allocCb (m, handles) .reserve = .ok (block, s') ∧
      s'.1.held = false ∧ Holds s'.1.pool s'.2 := by
  have hcap := h.full.capacity_eq
  have hcount := h.count_eq
  obtain ⟨array, blocks, hexp, -⟩ := MemPool.expand_eq h.full hne hcb
  obtain ⟨a, pool', hr, h', -⟩ := MemPool.reserveBlock_eq h fun _ => ⟨hne, hcb⟩
  have hreal := reserveBlock_grown hheld (by omega) hne hexp
  rw [hr] at hreal
  refine ⟨some a, ({ m with pool := pool' }, a :: handles), ?_, hheld, h'⟩
  rw [step]
  dsimp only
  rw [hreal]
  rfl

/-- All slots hold blocks that are reserved, and not as many can be made again. -/
theorem step_fails (h : Holds m.pool handles) (hheld : m.held = false)
    (hall : handles.length = m.pool.blocks.fresh)
    (hne : m.pool.array.capacity ≠ m.pool.array.maxCap)
    (hno : ∃ k < m.pool.blocks.fresh, ¬Constructs allocCb (m.pool.blocks.fresh + k)) :
    ∃ pool', step allocCb (m, handles) .reserve =
        .ok (none, (⟨pool', m.useMutex, m.useMutex⟩, handles)) ∧
      Partly pool' handles ∧ pool'.reservedCount = m.pool.reservedCount ∧
      ∀ a ∈ handles, pool'.blocks.cell a = m.pool.blocks.cell a := by
  have hcap := h.full.capacity_eq
  have hcount := h.count_eq
  obtain ⟨pool', hexp, h', hgrown, hres, hsame⟩ := h.expand_failed hne hno
  refine ⟨pool', ?_, h', hres, hsame⟩
  rw [step]
  dsimp only
  rw [reserveBlock_failed hheld (by omega) hne hexp hgrown]
  rfl

/-- All blocks that were made are reserved, and there are slots behind them. -/
theorem step_hole (h : Partly m.pool handles) (hall : handles.length = m.pool.array.count)
    (hlt : m.pool.array.count < m.pool.array.capacity) :
    step allocCb (m, handles) .reserve = .error .nullDeref := by
  have hcount := h.reserved_eq
  rw [step]
  dsimp only
  rw [reserveBlock_roomy (by omega), h.reserve_hole hall hlt]
  rfl

theorem step_unreserve (h : Partly m.pool handles) {a : Nat} (ha : a ∈ handles) :
    ∃ s', step allocCb (m, handles) (.unreserve a) = .ok (none, s') ∧
      step allocCb (created (m, handles)) (.unreserve a) = .ok (none, created s') ∧
      s'.1.held = m.held ∧ Partly s'.1.pool s'.2 := by
  obtain ⟨n, v, hr, hc, h'⟩ := h.unreserve ha
  refine ⟨({ m with pool := ⟨m.pool.array, n, m.pool.blocks.put a v⟩ }, handles.erase a), ?_, ?_, rfl,
    h'⟩
  · rw [step, unreserveBlock, hr]
    rfl
  · rw [step, created, unreserveBlock]
    dsimp only
    rw [hc]
    rfl

/-- A pool without blocks gives none. -/
theorem step_empty {max : Nat} (hmax : 0 < max) (useMutex held : Bool) (hheld : held = false) :
    step allocCb (⟨⟨⟨none, 0, 0, max, true⟩, 0, ⟨[]⟩⟩, useMutex, held⟩, []) .reserve =
      .ok (none, (⟨⟨⟨none, 0, 0, max, true⟩, 0, ⟨[]⟩⟩, useMutex, held⟩, [])) := by
  have hne : ¬(0 = max) := Nat.ne_of_lt hmax
  subst hheld
  rw [step, reserveBlock, makeRoom, if_pos rfl, expand]
  dsimp only
  rw [if_neg hne, lock_eq rfl]
  cases useMutex with
  | false => rfl
  | true => rfl

theorem failsToExpand_iff (h : Holds m.pool handles) :
    FailsToExpand allocCb (m, handles) .reserve ↔ handles.length = m.pool.blocks.fresh ∧
      m.pool.array.capacity ≠ m.pool.array.maxCap ∧
      ∃ k < m.pool.blocks.fresh, ¬Constructs allocCb (m.pool.blocks.fresh + k) := by
  have hroom : m.pool.newCap - m.pool.array.capacity = m.pool.blocks.fresh := by
    rw [MemPool.newCap_eq h.full, h.full.capacity_eq, Nat.add_sub_cancel]
  rw [FailsToExpand]
  dsimp only
  rw [hroom, h.count_eq, h.full.capacity_eq]
  exact and_iff_right rfl

theorem created_eq (h : Holds m.pool handles) : created (m, handles) = (m, handles) := by
  rw [created, h.full.created_eq]

/-- What is to be known of one call: when it does what it has to do, and what it keeps if it does. -/
structure Decided (allocCb : Nat → Option δ × Nat) (s : LockedMemPool δ × List Nat) (op : Op) :
    Prop where
  usable_iff : Usable allocCb s op ↔ Survives allocCb s op
  lasting : Usable allocCb s op → ∀ block s', step allocCb s op = .ok (block, s') → Lasting s'

/-- A call on the blocks that were made. -/
theorem decided_of_same {s s' : LockedMemPool δ × List Nat} {op : Op} {block : Option Nat}
    (hs : step allocCb s op = .ok (block, s'))
    (hc : step allocCb (created s) op = .ok (block, created s'))
    (hno : ¬FailsToExpand allocCb s op)
    (hroom : op = .reserve → ¬(s.1.pool.reservedCount = s.1.pool.array.count ∧
      s.1.pool.array.count < s.1.pool.array.capacity)) (hl : Lasting s') :
    Decided allocCb s op := by
  refine ⟨iff_of_true ⟨block, s', hs, fun hf => absurd hf hno, fun _ => hc⟩
    fun hop => ⟨fun hf => absurd hf hno, hroom hop⟩, fun _ block₁ s₁ hs₁ => ?_⟩
  rw [hs] at hs₁
  cases hs₁
  exact hl

/-- A call that does not end and is not one to survive. -/
theorem decided_of_fault {s : LockedMemPool δ × List Nat} {op : Op} {e : Fault}
    (hs : step allocCb s op = .error e) (hno : ¬Survives allocCb s op) : Decided allocCb s op := by
  have hnot : ¬Usable allocCb s op := by
    rintro ⟨block, s', hs', -⟩
    rw [hs] at hs'
    cases hs'
  exact ⟨iff_of_false hnot hno, fun hu => absurd hu hnot⟩

/-- An expansion that fails is survived without a mutex. -/
theorem decided_fails (h : Holds m.pool handles) (hheld : m.held = false)
    (hf : FailsToExpand allocCb (m, handles) .reserve)
    (hroom : ¬(m.pool.reservedCount = m.pool.array.count ∧
      m.pool.array.count < m.pool.array.capacity)) :
    Decided allocCb (m, handles) .reserve := by
  obtain ⟨hall, hne, hno⟩ := (failsToExpand_iff h).mp hf
  obtain ⟨pool', hs, h', hres, hsame⟩ := step_fails h hheld hall hne hno
  have huse : Usable allocCb (m, handles) .reserve ↔ m.useMutex = false := by
    constructor
    · rintro ⟨block, s', hs', hfail, -⟩
      rw [hs] at hs'
      cases hs'
      exact (hfail hf).2.1
    · intro hmutex
      exact ⟨none, _, hs, fun _ => ⟨rfl, hmutex, rfl, hres, hsame⟩, fun hnf => absurd hf hnf⟩
  refine ⟨huse.trans ⟨fun hmutex _ => ⟨fun _ => hmutex, hroom⟩, fun hsv => (hsv rfl).1 hf⟩,
    fun hu block s' hs' => ?_⟩
  rw [hs] at hs'
  cases hs'
  exact ⟨huse.mp hu, .inl h'⟩

/-- All slots hold blocks that are reserved: there can be no more of them, or an expansion works, or
it does not. -/
theorem decided_filled (h : Holds m.pool handles) (hheld : m.held = false)
    (hall : handles.length = m.pool.blocks.fresh) : Decided allocCb (m, handles) .reserve := by
  have hfull : m.pool.array.count = m.pool.array.capacity :=
    h.full.count_eq.trans h.full.capacity_eq.symm
  have hroom : ¬(m.pool.reservedCount = m.pool.array.count ∧
      m.pool.array.count < m.pool.array.capacity) := fun hc => by omega
  by_cases hf : FailsToExpand allocCb (m, handles) .reserve
  · exact decided_fails h hheld hf hroom
  · by_cases hne : m.pool.array.capacity = m.pool.array.maxCap
    · have hs := @step_full δ allocCb m handles h hall hne
      exact decided_of_same hs (by rw [created_eq h]; exact hs) hf (fun _ => hroom)
        ⟨hheld, .inl h.partly⟩
    · have hcb : ∀ k < m.pool.blocks.fresh, Constructs allocCb (m.pool.blocks.fresh + k) := by
        intro k hk
        by_contra hno
        exact hf ((failsToExpand_iff h).mpr ⟨hall, hne, k, hk, hno⟩)
      obtain ⟨block, s', hs, hheld', h'⟩ := step_expands h hheld hall hne hcb
      refine decided_of_same hs ?_ hf (fun _ => hroom) ⟨hheld', .inl h'.partly⟩
      rw [created_eq h, created_eq h']
      exact hs

theorem decided_partly {s : LockedMemPool δ × List Nat} {op : Op} (h : Partly s.1.pool s.2)
    (hheld : s.1.held = false) (hok : Admitted s op) : Decided allocCb s op := by
  obtain ⟨m, handles⟩ := s
  have hcount := h.reserved_eq
  have hle := h.count_le
  dsimp only at h hheld hcount hle
  cases op with
  | unreserve a =>
    obtain ⟨s', hs, hc, hheld', h'⟩ := step_unreserve h hok
    exact decided_of_same hs hc (fun hf => by cases hf.1) (fun hop => by cases hop)
      ⟨hheld'.trans hheld, .inl h'⟩
  | reserve =>
    have hmade := h.holds.length_le
    rw [h.fresh_eq] at hmade
    by_cases hlt : handles.length < m.pool.array.count
    · obtain ⟨block, s', hs, hc, hheld', h'⟩ := step_found h hlt
      refine decided_of_same hs hc (fun hf => ?_) (fun _ => ?_) ⟨hheld'.trans hheld, .inl h'⟩
      · have hfull := hf.2.1
        dsimp only at hfull
        omega
      · dsimp only
        omega
    · have hall : handles.length = m.pool.array.count := by omega
      by_cases hcap : m.pool.array.count < m.pool.array.capacity
      · exact decided_of_fault (step_hole h hall hcap) fun hsv =>
          (hsv rfl).2 ⟨hcount.trans hall, hcap⟩
      · have hh := h.holds_of_full (by omega)
        exact decided_filled hh hheld (by rw [hall, hh.full.count_eq])

theorem decided {s : LockedMemPool δ × List Nat} {op : Op} (hs : Lasting s)
    (hok : Admitted s op) : Decided allocCb s op := by
  rcases hs.state with h | ⟨max, hmax, hpool, hnil⟩
  · exact decided_partly h hs.held_eq hok
  · obtain ⟨⟨pool, useMutex, held⟩, handles⟩ := s
    have hheld := hs.held_eq
    dsimp only at hpool hnil hheld
    subst hpool hnil
    cases op with
    | unreserve a => cases hok
    | reserve =>
      have hstep := @step_empty δ allocCb max hmax useMutex held hheld
      refine decided_of_same hstep hstep (fun hf => ?_) (fun _ hc => absurd hc.2 (Nat.lt_irrefl 0)) hs
      obtain ⟨-, -, -, k, hk, -⟩ := hf
      exact absurd hk (Nat.not_lt_zero k)

/-- A new pool is one without a mutex, and the mutex is free. -/
theorem newEx_eq {start max : Nat} {useMutex : Bool}
    (hnew : newEx allocCb start max useMutex = .ok (some m)) :
    MemPool.newEx allocCb start max = .ok (some m.pool) ∧ m.held = false := by
  rw [newEx] at hnew
  rw [MemPool.newEx]
  cases harr : (ArrayList.newEx true start max : Option (ArrayList Nat)) with
  | none =>
    rw [harr] at hnew
    cases hnew
  | some array =>
    rw [harr] at hnew
    dsimp only at hnew ⊢
    cases hfill : MemPool.fillResizedMemory allocCb ⟨array, 0, ⟨[]⟩⟩ with
    | error e =>
      rw [fillResizedMemory, lock_eq rfl, ok_bind, hfill] at hnew
      cases hnew
    | ok filled =>
      obtain ⟨code, pool⟩ := filled
      have hfill' := @fillResizedMemory_eq δ allocCb ⟨⟨array, 0, ⟨[]⟩⟩, useMutex, false⟩ rfl code
        pool hfill
      rw [hfill', ok_bind] at hnew
      dsimp only at hnew
      by_cases hc : code = .ok
      · subst hc
        rw [if_pos rfl] at hnew
        cases hnew
        exact ⟨rfl, Bool.and_false useMutex⟩
      · rw [if_neg hc] at hnew
        cases hnew

theorem newEx_lasting {start max : Nat} {useMutex : Bool}
    (hnew : newEx allocCb start max useMutex = .ok (some m)) : Lasting (m, []) := by
  obtain ⟨hpool, hheld⟩ := newEx_eq hnew
  refine ⟨hheld, ?_⟩
  cases start with
  | succ start => exact .inl (MemPool.newEx_holds (Nat.succ_pos start) hpool).partly
  | zero =>
    refine .inr ⟨if max = 0 then ULONG_MAX else max, ?_, ?_, rfl⟩
    · split
      · decide
      · omega
    · rw [MemPool.newEx, ArrayList.newEx] at hpool
      generalize (if max = 0 then ULONG_MAX else max) = maxCap at hpool ⊢
      dsimp only at hpool
      rw [if_neg (Nat.not_lt_zero maxCap), if_pos rfl] at hpool
      exact (Option.some.inj (Except.ok.inj hpool)).symm

/-- A pool stays usable through a run exactly when no expansion fails while there is a mutex, and after
one that failed no more blocks are asked for than were made. -/
theorem run_usable_iff {start max : Nat} {useMutex : Bool} {ops : List Op}
    (hnew : newEx allocCb start max useMutex = .ok (some m))
    (hok : AllSteps (step allocCb) Admitted (m, []) ops) :
    AllSteps (step allocCb) (Usable allocCb) (m, []) ops ↔
      AllSteps (step allocCb) (Survives allocCb) (m, []) ops :=
  allSteps_congr (fun _ _ hs hok => (decided hs hok).usable_iff)
    (fun _ _ _ _ hs hok hu he => (decided hs hok).lasting hu _ _ he) ops _ (newEx_lasting hnew) hok

/-- The second block cannot be made, and there is no mutex. -/
theorem run_usable_two :
    AllSteps (step fun k => (if k = 1 then none else some k, 64))
        (Usable fun k => (if k = 1 then none else some k, 64))
        (⟨⟨⟨some [some 0], 1, 1, 4, true⟩, 0, ⟨[some ⟨some 0, 64, false⟩]⟩⟩, false, false⟩, [])
        [.reserve, .reserve, .unreserve 0] ↔
      AllSteps (step fun k => (if k = 1 then none else some k, 64))
        (Survives fun k => (if k = 1 then none else some k, 64))
        (⟨⟨⟨some [some 0], 1, 1, 4, true⟩, 0, ⟨[some ⟨some 0, 64, false⟩]⟩⟩, false, false⟩, [])
        [.reserve, .reserve, .unreserve 0] := by
  apply @run_usable_iff Nat (fun k => (if k = 1 then none else some k, 64)) _ 1 4 false _ rfl
  refine AllSteps.cons trivial (show step _ _ _ = .ok (some 0, ⟨⟨⟨some [some 0], 1, 1, 4, true⟩, 1,
    ⟨[some ⟨some 0, 64, true⟩]⟩⟩, false, false⟩, [0]) from rfl) ?_
  refine AllSteps.cons trivial (show step _ _ _ = .ok (none, ⟨⟨⟨some [some 0, none], 1, 2, 4, true⟩,
    1, ⟨[some ⟨some 0, 64, true⟩, none]⟩⟩, false, false⟩, [0]) from rfl) ?_
  exact AllSteps.cons (show 0 ∈ [0] by decide) (show step _ _ _ = .ok (none,
    ⟨⟨⟨some [some 0, none], 1, 2, 4, true⟩, 0, ⟨[some ⟨some 0, 64, false⟩, none]⟩⟩, false, false⟩,
    []) from rfl) trivial

/-- The second block cannot be made: the mutex is kept, and the next call uses the slot it was to
have. -/
theorem reserve_uses_empty_slot :
    (do
      let m ← deref (← newEx (fun k => (if k = 1 then none else some k, 64)) 1 4 true)
      let (blocks, s) ← run (step fun k => (if k = 1 then none else some k, 64)) (m, [])
        [.reserve, .reserve]
      return (blocks, s.1.held) : Outcome (List (Option Nat) × Bool)) =
        .ok ([some 0, none], true) ∧
    (do
      let m ← deref (← newEx (fun k => (if k = 1 then none else some k, 64)) 1 4 true)
      run (step fun k => (if k = 1 then none else some k, 64)) (m, [])
        [.reserve, .reserve, .reserve] :
        Outcome (List (Option Nat) × (LockedMemPool Nat × List Nat))) = .error .nullDeref := by
  decide

end LockedMemPool

end AlibC
