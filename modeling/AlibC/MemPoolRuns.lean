import AlibC.MemPool
import AlibC.Lib.Machine

/-! Runs of a `MemPool`: the handles that are out, the blocks that are reserved, and the
slots of the array. -/
namespace AlibC.MemPool

open CLang Machine
variable {δ : Type} {allocCb : Nat → Option δ × Nat} {pool : MemPool δ} {handles : List Nat}

inductive Op where
  | reserve
  | unreserve (block : Nat)
deriving DecidableEq, Repr

/-- One call on a pool while the handles of the list are out. -/
def step (allocCb : Nat → Option δ × Nat) (s : MemPool δ × List Nat) :
    Op → Outcome (Option Nat × (MemPool δ × List Nat))
  | .reserve => do
    let (block, pool) ← s.1.reserveBlock allocCb
    return (block, pool, block.toList ++ s.2)
  | .unreserve block => do return (none, ← s.1.unreserveBlock (some block), s.2.erase block)

/-- The allocations of a call succeed and it is given a handle that is out. -/
def Admitted (s : MemPool δ × List Nat) : Op → Prop
  | .reserve => s.1.reservedCount = s.1.array.capacity → s.1.array.capacity ≠ s.1.array.maxCap →
      s.1.blocks.fresh + (s.1.newCap - s.1.array.capacity) ≤ MAX_BLOCKS
  | .unreserve block => block ∈ s.2

/-- The three counts of reserved blocks agree, and the slots are filled with the blocks
that were ever made. -/
def Sound (s : MemPool δ × List Nat) : Prop :=
  s.1.reservedCount = s.2.length ∧
    s.1.array.entries.countP (isReserved s.1.blocks) = s.2.length ∧
    (s.1.array.list = some (s.1.array.entries.map some) ∧
      s.1.array.entries.length = s.1.array.capacity) ∧
    s.1.array.entries.Nodup ∧ ∀ a, a < s.1.blocks.fresh ↔ a ∈ s.1.array.entries

/-- What a call does to the blocks, and what it returns. -/
def Effect (s : MemPool δ × List Nat) (op : Op) (block : Option Nat) (s' : MemPool δ × List Nat) :
    Prop :=
  match op, block with
  | .reserve, none => s' = s ∧ s.1.reservedCount = s.1.array.maxCap
  | .reserve, some a => a ∉ s.2 ∧ s'.2 = a :: s.2 ∧ isReserved s'.1.blocks a = true ∧
      ∀ b < s.1.blocks.fresh, b ≠ a → s'.1.blocks.cell b = s.1.blocks.cell b
  | .unreserve a, _ => s'.2 = s.2.erase a ∧ isReserved s'.1.blocks a = false ∧
      s'.1.array = s.1.array ∧ ∀ b, b ≠ a → s'.1.blocks.cell b = s.1.blocks.cell b

/-- Every slot holds the address of a block, and no block is in two of them. -/
structure Full (pool : MemPool δ) : Prop where
  list_eq : pool.array.list = some ((List.range pool.blocks.fresh).map some)
  count_eq : pool.array.count = pool.blocks.fresh
  capacity_eq : pool.array.capacity = pool.blocks.fresh
  pos : 0 < pool.blocks.fresh
  le_max : pool.blocks.fresh ≤ MAX_BLOCKS
  alive : ∀ a < pool.blocks.fresh, ∃ b, pool.blocks.cell a = some b

/-- The handles that are out are the blocks that are reserved. -/
structure Holds (pool : MemPool δ) (handles : List Nat) : Prop where
  full : Full pool
  nodup : handles.Nodup
  mem_iff : ∀ a, a ∈ handles ↔ a < pool.blocks.fresh ∧ isReserved pool.blocks a = true
  count_eq : pool.reservedCount = handles.length

theorem Full.entries_eq (h : Full pool) : pool.array.entries = List.range pool.blocks.fresh := by
  rw [ArrayList.entries, h.list_eq, Option.getD_some, Slots.reduceOption_map_some]

theorem Full.wf (h : Full pool) : pool.array.WF := by
  have hmax : MAX_BLOCKS = 2 ^ 59 := by decide
  have hle := h.le_max
  have hpos := h.pos
  have hcap := h.capacity_eq
  refine ⟨?_, ?_, ?_, by omega⟩
  · rw [h.list_eq, Option.getD_some, List.length_map, List.length_range, hcap]
  · rw [h.list_eq]
    exact iff_of_false (Option.some_ne_none _) (by omega)
  · rw [h.count_eq, h.entries_eq, List.length_range]

/-- The reserved blocks are counted by the handles. -/
theorem Holds.countP_eq (h : Holds pool handles) :
    (List.range pool.blocks.fresh).countP (isReserved pool.blocks) = handles.length := by
  rw [List.countP_eq_length_filter]
  apply List.Perm.length_eq
  refine (List.perm_ext_iff_of_nodup (List.nodup_range.filter _) h.nodup).mpr fun a => ?_
  rw [List.mem_filter, List.mem_range, h.mem_iff]

theorem Holds.sound (h : Holds pool handles) : Sound (pool, handles) := by
  have he := h.full.entries_eq
  refine ⟨h.count_eq, ?_, ⟨?_, ?_⟩, ?_, fun a => ?_⟩
  · rw [he, h.countP_eq]
  · rw [he, h.full.list_eq]
  · rw [he, h.full.capacity_eq, List.length_range]
  · rw [he]
    exact List.nodup_range
  · rw [he, List.mem_range]

theorem Holds.length_le (h : Holds pool handles) : handles.length ≤ pool.blocks.fresh := by
  rw [← h.countP_eq]
  exact Nat.le_trans List.countP_le_length (Nat.le_of_eq List.length_range)

/-- With fewer handles out than there are blocks, one block is free. -/
theorem Holds.exists_free (h : Holds pool handles) (hlt : handles.length < pool.blocks.fresh) :
    ∃ a, (List.range pool.blocks.fresh).find? (fun a => !isReserved pool.blocks a) = some a := by
  apply Option.isSome_iff_exists.mp
  by_contra hnone
  rw [Option.not_isSome_iff_eq_none, List.find?_eq_none] at hnone
  have hall : (List.range pool.blocks.fresh).countP (isReserved pool.blocks) =
      (List.range pool.blocks.fresh).length :=
    List.countP_eq_length.mpr fun a ha => by simpa using hnone a ha
  rw [h.countP_eq, List.length_range] at hall
  omega

/-- With as many handles out as there are blocks, none is free. -/
theorem Holds.all_reserved (h : Holds pool handles)
    (hall : handles.length = pool.blocks.fresh) :
    ∀ a < pool.blocks.fresh, isReserved pool.blocks a = true := by
  have hlen : (List.range pool.blocks.fresh).length = pool.blocks.fresh := List.length_range
  have hcount := List.countP_eq_length.mp (h.countP_eq.trans (hall.trans hlen.symm))
  exact fun a ha => hcount a (List.mem_range.mpr ha)

theorem findUnreserved_eq {blocks : Heap (MemPoolBlock δ)} {as : List Nat} :
    ∀ {pre : List Nat}, (∀ a ∈ as, ∃ b, blocks.cell a = some b) →
      findUnreserved (some ((pre ++ as).map some)) blocks pre.length as.length =
        .ok (as.find? fun a => !isReserved blocks a) := by
  induction as with
  | nil =>
    intro pre _
    rfl
  | cons a as ih =>
    intro pre halive
    obtain ⟨⟨b, hb⟩, halive⟩ := List.forall_mem_cons.mp halive
    have hload : load (some ((pre ++ a :: as).map some)) pre.length 1 = .ok [some a] := by
      rw [List.map_append, ← List.length_map (f := some), load_some (by simp), List.drop_left]
      rfl
    rw [List.length_cons, findUnreserved, hload, ok_bind]
    dsimp only [List.head?_cons, Option.join_some]
    rw [Heap.get_eq hb, ok_bind, List.find?_cons, isReserved_eq hb]
    cases hr : b.reserved with
    | false => rfl
    | true =>
      have hr := @ih (pre ++ [a]) halive
      rw [List.append_assoc, List.length_append] at hr
      exact hr

theorem newCap_eq (h : Full pool) : pool.newCap = pool.blocks.fresh + pool.blocks.fresh := by
  have hmax : MAX_BLOCKS = 2 ^ 59 := by decide
  have hle := h.le_max
  have hmul : sizeMul pool.array.capacity 2 = pool.blocks.fresh + pool.blocks.fresh := by
    rw [h.capacity_eq, sizeMul_eq (by omega)]
    omega
  rw [newCap, hmul, h.capacity_eq, if_neg (by omega)]

/-- With new blocks behind the others every slot is still filled. -/
theorem Full.grow (h : Full pool) {blocks : Heap (MemPoolBlock δ)} {array : ArrayList Nat}
    {reservedCount : Nat} (hg : Grows pool.blocks blocks)
    (hlist : array.list = some ((List.range blocks.fresh).map some))
    (hcount : array.count = blocks.fresh) (hcap : array.capacity = blocks.fresh)
    (hle : blocks.fresh ≤ MAX_BLOCKS) : Full ⟨array, reservedCount, blocks⟩ := by
  refine ⟨hlist, hcount, hcap, Nat.lt_of_lt_of_le h.pos hg.fresh_le, hle, fun a ha => ?_⟩
  by_cases hold : a < pool.blocks.fresh
  · obtain ⟨b, hb⟩ := h.alive a hold
    exact ⟨b, (hg.old a hold).trans hb⟩
  · obtain ⟨b, hb, -⟩ := hg.new a (Nat.le_of_not_lt hold) ha
    exact ⟨b, hb⟩

/-- `expand` doubles the number of slots, and fills the new ones up to the first block that cannot be
made. -/
theorem expand_made (h : Full pool) (hne : pool.array.capacity ≠ pool.array.maxCap) :
    ∃ j blocks, pool.expand allocCb = .ok (if j = pool.blocks.fresh then .ok else .memErr,
        ⟨⟨some ((List.range (pool.blocks.fresh + j)).map some ++
            List.replicate (pool.blocks.fresh - j) none), pool.blocks.fresh + j,
          pool.blocks.fresh + pool.blocks.fresh, pool.array.maxCap, pool.array.freeItem⟩,
          pool.reservedCount, blocks⟩) ∧
      Made allocCb pool.blocks blocks pool.blocks.fresh j := by
  have hmax : MAX_BLOCKS = 2 ^ 59 := by decide
  have hle := h.le_max
  have hpos := h.pos
  have hcap := h.capacity_eq
  obtain ⟨cells, l', hs, hr, -, hl'⟩ := ArrayList.resize_grow h.wf (n := pool.newCap)
    (by omega) (by rw [newCap_eq h]; omega) (by rw [newCap_eq h]; omega)
  cases h.list_eq.symm.trans hs
  rw [newCap_eq h, hcap, Nat.add_sub_cancel] at hl'
  obtain ⟨j, blocks, hfill, hmade⟩ := @fillLoop_made δ allocCb pool.blocks.fresh
    ⟨l', pool.reservedCount, pool.blocks⟩ (by rw [hl']) (by rw [hl']; exact h.count_eq)
    (by dsimp only; omega)
  rw [hl'] at hfill
  refine ⟨j, blocks, ?_, hmade⟩
  have hn : pool.blocks.fresh + pool.blocks.fresh - pool.array.count = pool.blocks.fresh := by
    rw [h.count_eq, Nat.add_sub_cancel]
  rw [expand, if_neg hne, hr, ok_bind, hl']
  dsimp only
  rw [if_neg (by rw [h.count_eq]; omega), List.foldl_nil, fillResizedMemory]
  dsimp only
  rw [hn]
  exact hfill

/-- Where all of them can be made there are twice as many blocks. -/
theorem expand_eq (h : Full pool) (hne : pool.array.capacity ≠ pool.array.maxCap)
    (hcb : ∀ k < pool.blocks.fresh, Constructs allocCb (pool.blocks.fresh + k)) :
    ∃ array blocks, pool.expand allocCb = .ok (.ok, ⟨array, pool.reservedCount, blocks⟩) ∧
      Full ⟨array, pool.reservedCount, blocks⟩ ∧
      blocks.fresh = pool.blocks.fresh + pool.blocks.fresh ∧
      array.maxCap = pool.array.maxCap ∧ Grows pool.blocks blocks := by
  have hpos := h.pos
  have hlast := (hcb (pool.blocks.fresh - 1) (by omega)).1
  obtain ⟨j, blocks, hr, hm⟩ := @expand_made δ allocCb pool h hne
  have hall := hm.all hcb
  subst hall
  have hf := hm.fresh_eq rfl
  rw [if_pos rfl, Nat.sub_self, List.replicate_zero, List.append_nil, ← hf] at hr
  exact ⟨_, blocks, hr, h.grow hm.grows rfl rfl rfl (by omega), hf, rfl, hm.grows⟩

theorem Holds.grow (h : Holds pool handles) {array : ArrayList Nat}
    {blocks : Heap (MemPoolBlock δ)} (hfull : Full ⟨array, pool.reservedCount, blocks⟩)
    (hg : Grows pool.blocks blocks) : Holds ⟨array, pool.reservedCount, blocks⟩ handles := by
  refine ⟨hfull, h.nodup, fun a => ?_, h.count_eq⟩
  rw [h.mem_iff]
  dsimp only
  have hle := hg.fresh_le
  by_cases ha : a < pool.blocks.fresh
  · rw [isReserved, isReserved, hg.old a ha]
    exact and_congr_left fun _ => iff_of_true ha (by omega)
  · refine iff_of_false (fun hc => ha hc.1) fun hc => ?_
    obtain ⟨b, hb, hr⟩ := hg.new a (Nat.le_of_not_lt ha) hc.1
    rw [isReserved_eq hb, hr] at hc
    exact absurd hc.2 Bool.false_ne_true

theorem isReserved_put {blocks : Heap (MemPoolBlock δ)} {a : Nat} {b : MemPoolBlock δ}
    (hb : blocks.cell a = some b) (r : Bool) (c : Nat) :
    isReserved (blocks.put a (some { b with reserved := r })) c =
      if c = a then r else isReserved blocks c := by
  rw [isReserved, Heap.cell_put hb]
  by_cases hc : c = a
  · rw [if_pos hc, hc, Function.update_self]
    rfl
  · rw [if_neg hc, Function.update_of_ne hc]
    rfl

/-- A change of `reserving_pool` of one block. -/
theorem Full.put (h : Full pool) {a : Nat} {b : MemPoolBlock δ} (hb : pool.blocks.cell a = some b)
    (r : Bool) (n : Nat) :
    Full ⟨pool.array, n, pool.blocks.put a (some { b with reserved := r })⟩ := by
  have hfresh := Heap.fresh_put pool.blocks a (some { b with reserved := r })
  refine ⟨?_, ?_, ?_, ?_, ?_, fun c hc => ?_⟩
  · rw [hfresh]
    exact h.list_eq
  · rw [hfresh]
    exact h.count_eq
  · rw [hfresh]
    exact h.capacity_eq
  · rw [hfresh]
    exact h.pos
  · rw [hfresh]
    exact h.le_max
  · rw [hfresh] at hc
    rw [Heap.cell_put hb]
    by_cases hca : c = a
    · exact ⟨_, by rw [hca, Function.update_self]⟩
    · rw [Function.update_of_ne hca]
      exact h.alive c hc

theorem Holds.put (h : Holds pool handles) {a : Nat} {b : MemPoolBlock δ}
    (hb : pool.blocks.cell a = some b) (ha : a < pool.blocks.fresh) (r : Bool) {n : Nat}
    {handles' : List Nat} (hnd : handles'.Nodup) (hn : n = handles'.length)
    (hmem : ∀ c, c ∈ handles' ↔ if c = a then r = true else c ∈ handles) :
    Holds ⟨pool.array, n, pool.blocks.put a (some { b with reserved := r })⟩ handles' := by
  refine ⟨h.full.put hb r n, hnd, fun c => ?_, hn⟩
  rw [isReserved_put hb, Heap.fresh_put, hmem]
  by_cases hca : c = a
  · rw [if_pos hca, if_pos hca]
    exact (and_iff_right (hca ▸ ha)).symm
  · rw [if_neg hca, if_neg hca]
    exact h.mem_iff c

/-- Handing out a block that is free. -/
theorem Holds.reserve (h : Holds pool handles) (hlt : handles.length < pool.blocks.fresh) :
    ∃ a blocks, findUnreserved pool.array.list pool.blocks 0 pool.array.capacity = .ok (some a) ∧
      pool.blocks.modify (some a) (fun block => { block with reserved := true }) = .ok blocks ∧
      Holds ⟨pool.array, sizeAdd pool.reservedCount 1, blocks⟩ (a :: handles) ∧ a ∉ handles ∧
      isReserved blocks a = true ∧ (∀ c, c ≠ a → blocks.cell c = pool.blocks.cell c) ∧
      blocks.fresh = pool.blocks.fresh := by
  have hmax : MAX_BLOCKS < 2 ^ 64 := by decide
  have hle := h.full.le_max
  have hcount := h.count_eq
  obtain ⟨a, ha⟩ := h.exists_free hlt
  have hfree := List.find?_some ha
  have hmem := List.mem_range.mp (List.mem_of_find?_eq_some ha)
  have hout : a ∉ handles := by
    intro hin
    rw [((h.mem_iff a).mp hin).2] at hfree
    cases hfree
  obtain ⟨b, hb⟩ := h.full.alive a hmem
  have hfind := @findUnreserved_eq δ pool.blocks (List.range pool.blocks.fresh) []
    fun c hc => h.full.alive c (List.mem_range.mp hc)
  rw [List.nil_append, List.length_range, List.length_nil, ha] at hfind
  refine ⟨a, _, ?_, Heap.modify_eq hb _, h.put hb hmem true (List.nodup_cons.mpr ⟨hout, h.nodup⟩)
    ?_ fun c => ?_, hout, ?_, fun c hca => ?_, Heap.fresh_put _ _ _⟩
  · rw [h.full.list_eq, h.full.capacity_eq]
    exact hfind
  · rw [sizeAdd_eq (by omega), hcount]
    rfl
  · rw [List.mem_cons]
    by_cases hca : c = a
    · rw [if_pos hca]
      exact iff_of_true (.inl hca) rfl
    · rw [if_neg hca]
      exact or_iff_right hca
  · rw [isReserved_put hb, if_pos rfl]
  · rw [Heap.cell_put hb, Function.update_of_ne hca]

/-- A handle that is out is taken back. -/
theorem Holds.unreserve (h : Holds pool handles) {a : Nat} (ha : a ∈ handles) :
    ∃ n blocks, pool.unreserveBlock (some a) = .ok ⟨pool.array, n, blocks⟩ ∧
      Holds ⟨pool.array, n, blocks⟩ (handles.erase a) ∧
      isReserved blocks a = false ∧ ∀ c, c ≠ a → blocks.cell c = pool.blocks.cell c := by
  have hmax : MAX_BLOCKS < 2 ^ 64 := by decide
  have hle := h.full.le_max
  have hlen := h.length_le
  have hcount := h.count_eq
  obtain ⟨hmem, hres⟩ := (h.mem_iff a).mp ha
  obtain ⟨b, hb⟩ := h.full.alive a hmem
  rw [isReserved_eq hb] at hres
  have hpos := List.length_pos_of_mem ha
  refine ⟨sizeSub pool.reservedCount 1, _, ?_,
    h.put hb hmem false (h.nodup.erase a) ?_ fun c => ?_, ?_, fun c hca => ?_⟩
  · rw [unreserveBlock, Heap.get_eq hb, ok_bind, if_pos hres, Heap.modify_eq hb]
    rfl
  · rw [sizeSub_eq (by omega) (by omega), hcount, List.length_erase_of_mem ha]
  · rw [h.nodup.mem_erase_iff]
    by_cases hca : c = a
    · rw [if_pos hca]
      exact iff_of_false (fun hc => hc.1 hca) Bool.false_ne_true
    · rw [if_neg hca]
      exact and_iff_right hca
  · rw [isReserved_put hb, if_pos rfl]
  · rw [Heap.cell_put hb, Function.update_of_ne hca]

theorem reserveBlock_full (h : Holds pool handles) (hall : handles.length = pool.blocks.fresh)
    (hmax : pool.array.capacity = pool.array.maxCap) :
    pool.reserveBlock allocCb = .ok (none, pool) ∧ pool.reservedCount = pool.array.maxCap := by
  have hcount : pool.reservedCount = pool.array.capacity := by
    rw [h.count_eq, hall, h.full.capacity_eq]
  refine ⟨?_, hcount.trans hmax⟩
  rw [reserveBlock, makeRoom, if_pos hcount, expand, if_pos hmax]
  rfl

/-- A block that is handed out is none of those that are out. -/
theorem reserveBlock_eq (h : Holds pool handles)
    (hroom : handles.length = pool.blocks.fresh → pool.array.capacity ≠ pool.array.maxCap ∧
      ∀ k < pool.blocks.fresh, Constructs allocCb (pool.blocks.fresh + k)) :
    ∃ a pool', pool.reserveBlock allocCb = .ok (some a, pool') ∧ Holds pool' (a :: handles) ∧
      (a ∉ handles ∧ isReserved pool'.blocks a = true ∧
        ∀ c < pool.blocks.fresh, c ≠ a → pool'.blocks.cell c = pool.blocks.cell c) ∧
      pool'.array.maxCap = pool.array.maxCap ∧
      pool'.blocks.fresh = if handles.length = pool.blocks.fresh then
        pool.blocks.fresh + pool.blocks.fresh else pool.blocks.fresh := by
  have hcap := h.full.capacity_eq
  have hcount := h.count_eq
  by_cases hall : handles.length = pool.blocks.fresh
  · obtain ⟨hne, hcb⟩ := hroom hall
    have hpos := h.full.pos
    have hfull : pool.reservedCount = pool.array.capacity := by omega
    obtain ⟨array, blocks, hr, hf, hfresh, hmax, hg⟩ := expand_eq h.full hne hcb
    obtain ⟨a, blocks', hfind, hmod, h', hout, hres, hsame, hfresh'⟩ :=
      (h.grow hf hg).reserve (by rw [hall]; dsimp only; omega)
    refine ⟨a, _, ?_, h', ⟨hout, hres, fun c hc hca => (hsame c hca).trans (hg.old c hc)⟩, hmax, ?_⟩
    · rw [reserveBlock, makeRoom, if_pos hfull, hr, ok_bind]
      dsimp only at hfind hmod ⊢
      rw [if_pos rfl, hfind, ok_bind]
      dsimp only
      rw [hmod]
      rfl
    · rw [if_pos hall]
      exact hfresh'.trans hfresh
  · have hlt := Nat.lt_of_le_of_ne h.length_le hall
    obtain ⟨a, blocks, hfind, hmod, h', hout, hres, hsame, hfresh'⟩ := h.reserve hlt
    refine ⟨a, _, ?_, h', ⟨hout, hres, fun c _ hca => hsame c hca⟩, rfl, ?_⟩
    · rw [reserveBlock, makeRoom, if_neg (by omega), ok_bind]
      dsimp only
      rw [if_pos rfl, hfind, ok_bind]
      dsimp only
      rw [hmod]
      rfl
    · rw [if_neg hall]
      exact hfresh'

/-- The blocks of an expansion that is admitted can be made. -/
theorem Holds.constructs (hcb : ∀ k, (allocCb k).1 ≠ none) (h : Holds pool handles)
    (hok : Admitted (pool, handles) .reserve) (hall : handles.length = pool.blocks.fresh)
    (hne : pool.array.capacity ≠ pool.array.maxCap) :
    ∀ k < pool.blocks.fresh, Constructs allocCb (pool.blocks.fresh + k) := by
  have hcap := h.full.capacity_eq
  have hcount := h.count_eq
  have hfit := hok (show pool.reservedCount = pool.array.capacity by omega) hne
  dsimp only at hfit
  rw [newCap_eq h.full, hcap, Nat.add_sub_cancel] at hfit
  exact fun k hk => ⟨by omega, hcb _⟩

theorem step_holds (hcb : ∀ k, (allocCb k).1 ≠ none) {s : MemPool δ × List Nat} {op : Op}
    (h : Holds s.1 s.2) (hok : Admitted s op) :
    ∃ block s', step allocCb s op = .ok (block, s') ∧ Holds s'.1 s'.2 ∧ Effect s op block s' := by
  obtain ⟨pool, handles⟩ := s
  cases op with
  | reserve =>
    by_cases hroom : handles.length = pool.blocks.fresh → pool.array.capacity ≠ pool.array.maxCap
    · obtain ⟨a, pool', hr, h', ⟨hout, hres, hsame⟩, -⟩ := @reserveBlock_eq δ allocCb _ _ h
        fun hall => ⟨hroom hall, h.constructs hcb hok hall (hroom hall)⟩
      exact ⟨some a, (pool', a :: handles), by rw [step, hr]; rfl, h', hout, rfl, hres, hsame⟩
    · rw [Classical.not_imp, Ne, Classical.not_not] at hroom
      obtain ⟨hr, hmax⟩ := @reserveBlock_full δ allocCb _ _ h hroom.1 hroom.2
      exact ⟨none, (pool, handles), by rw [step, hr]; rfl, h, rfl, hmax⟩
  | unreserve a =>
    obtain ⟨n, blocks, hr, h', hres, hsame⟩ := h.unreserve hok
    exact ⟨none, (⟨pool.array, n, blocks⟩, handles.erase a), by rw [step, hr]; rfl, h', rfl, hres,
      rfl, hsame⟩

/-- A new pool is filled with blocks. -/
theorem newEx_fills {start max : Nat} (hstart : 1 ≤ start)
    (hnew : newEx allocCb start max = .ok (some pool)) :
    pool.array.list = some ((List.range pool.blocks.fresh).map some) ∧
      pool.array.count = pool.blocks.fresh ∧ pool.array.capacity = start ∧
      pool.reservedCount = 0 ∧ pool.blocks.fresh = start ∧ start ≤ MAX_BLOCKS ∧
      Grows ⟨[]⟩ pool.blocks ∧ pool.array.maxCap = (if max = 0 then ULONG_MAX else max) ∧
      start ≤ pool.array.maxCap := by
  rw [newEx, ArrayList.newEx] at hnew
  generalize (if max = 0 then ULONG_MAX else max) = maxCap at hnew ⊢
  split at hnew
  · cases hnew
  · rename_i array harray
    split at harray
    · cases harray
    · rename_i hle
      rw [if_neg (Nat.ne_of_gt hstart), ArrayList.calloc] at harray
      split at harray
      · rename_i hbytes
        cases harray
        obtain ⟨⟨code, pool'⟩, hfill, hnew⟩ := bind_eq_ok.mp hnew
        rw [fillResizedMemory] at hfill
        dsimp only at hfill hnew
        rw [Nat.sub_zero] at hfill
        obtain ⟨j, blocks, hr, hm⟩ := @fillLoop_made δ allocCb start
          ⟨⟨some (List.replicate start none), 0, start, maxCap, true⟩, 0, ⟨[]⟩⟩ rfl rfl
          (by dsimp only [Heap.fresh, List.length_nil]; omega)
        rw [hr] at hfill
        dsimp only [Heap.fresh, List.length_nil] at hfill
        simp only [Nat.zero_add] at hfill
        by_cases hall : j = start
        · subst hall
          rw [if_pos rfl, Nat.sub_self, List.replicate_zero, List.append_nil] at hfill
          cases hfill
          rw [if_pos rfl] at hnew
          cases hnew
          have hf : blocks.fresh = j := (hm.fresh_eq rfl).trans (Nat.zero_add j)
          have hlast : 0 + (j - 1) < MAX_BLOCKS := (hm.constructs (j - 1) (by omega)).1
          refine ⟨?_, hf.symm, rfl, rfl, hf, by omega, hm.grows, rfl, Nat.le_of_not_lt hle⟩
          dsimp only
          rw [hf]
        · rw [if_neg hall] at hfill
          cases hfill
          rw [if_neg (by decide)] at hnew
          cases hnew
      · cases harray

theorem newEx_holds {start max : Nat} (hstart : 1 ≤ start)
    (hnew : newEx allocCb start max = .ok (some pool)) : Holds pool [] := by
  obtain ⟨hlist, hcount, hcap, hres, hf, hfit, hg, -⟩ := newEx_fills hstart hnew
  have hnew : ∀ a < pool.blocks.fresh, ∃ b, pool.blocks.cell a = some b ∧ b.reserved = false :=
    fun a ha => hg.new a (Nat.zero_le a) ha
  refine ⟨⟨hlist, hcount, hcap.trans hf.symm, hf ▸ hstart, hf ▸ hfit, fun a ha => ?_⟩,
    List.nodup_nil, fun a => ?_, hres⟩
  · obtain ⟨b, hb, -⟩ := hnew a ha
    exact ⟨b, hb⟩
  · refine iff_of_false List.not_mem_nil fun hc => ?_
    obtain ⟨b, hb, hr⟩ := hnew a hc.1
    rw [isReserved_eq hb, hr] at hc
    exact absurd hc.2 Bool.false_ne_true

/-- In every state that is reached, and at every call from there. -/
theorem run_keeps_blocks {start max : Nat} {ops : List Op} (hcb : ∀ k, (allocCb k).1 ≠ none)
    (hstart : 1 ≤ start) (hnew : newEx allocCb start max = .ok (some pool))
    (hok : AllSteps (step allocCb) Admitted (pool, []) ops) :
    ∃ outs s, run (step allocCb) (pool, []) ops = .ok (outs, s) ∧ Sound s ∧
      ∀ op, Admitted s op → ∃ block s', step allocCb s op = .ok (block, s') ∧ Sound s' ∧
        Effect s op block s' := by
  obtain ⟨outs, s, hr, h⟩ := @run_invariant _ _ _ (step allocCb) Admitted
    (fun s => Holds s.1 s.2) (fun s op h hok => by
      obtain ⟨block, s', hs, h', -⟩ := step_holds hcb h hok
      exact ⟨block, s', hs, h'⟩) ops _ (newEx_holds hstart hnew) hok
  refine ⟨outs, s, hr, h.sound, fun op hok => ?_⟩
  obtain ⟨block, s', hs, h', heff⟩ := step_holds hcb h hok
  exact ⟨block, s', hs, h'.sound, heff⟩

theorem run_keeps_blocks_two :
    ∃ outs s, run (step fun k => (some k, 64)) (⟨⟨some [some 0], 1, 1, 3, true⟩, 0,
      ⟨[some ⟨some 0, 64, false⟩]⟩⟩, []) [.reserve, .reserve, .unreserve 0, .reserve] =
        .ok (outs, s) ∧ Sound s ∧ ∀ op, Admitted s op → ∃ block s',
          step (fun k => (some k, 64)) s op = .ok (block, s') ∧ Sound s' ∧
            Effect s op block s' := by
  apply @run_keeps_blocks Nat (fun k => (some k, 64)) _ 1 3 _ (fun k => Option.some_ne_none k)
    (Nat.le_refl 1) rfl
  refine AllSteps.cons (fun h => absurd h (by decide)) (show step _ _ _ = .ok (some 0,
    ⟨⟨some [some 0], 1, 1, 3, true⟩, 1, ⟨[some ⟨some 0, 64, true⟩]⟩⟩, [0]) from rfl) ?_
  refine AllSteps.cons (fun _ _ => by decide) (show step _ _ _ = .ok (some 1,
    ⟨⟨some [some 0, some 1], 2, 2, 3, true⟩, 2,
      ⟨[some ⟨some 0, 64, true⟩, some ⟨some 1, 64, true⟩]⟩⟩, [1, 0]) from rfl) ?_
  refine AllSteps.cons (show 0 ∈ [1, 0] by decide) (show step _ _ _ = .ok (none,
    ⟨⟨some [some 0, some 1], 2, 2, 3, true⟩, 1,
      ⟨[some ⟨some 0, 64, false⟩, some ⟨some 1, 64, true⟩]⟩⟩, [1]) from rfl) ?_
  exact AllSteps.cons (fun h => absurd h (by decide)) (show step _ _ _ = .ok (some 0,
    ⟨⟨some [some 0, some 1], 2, 2, 3, true⟩, 2,
      ⟨[some ⟨some 0, 64, true⟩, some ⟨some 1, 64, true⟩]⟩⟩, [0, 1]) from rfl) trivial

end AlibC.MemPool
