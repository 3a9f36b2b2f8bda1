import AlibC.Lib.Block

/-! The copying primitives of `alib_string.c`, on ranges of one block. -/
namespace AlibC

open CLang

/-- Memory of bytes. -/
abbrev Block := List UInt8

variable {α : Type}

/-- `memcpy_back`: the cells are copied one by one, the last one first. A `NULL` block
is returned as it is. -/
def memcpyBackLoop (blk : List α) (t f : Nat) : Nat → Outcome (List α)
  | 0 => .ok blk
  | count + 1 => do
    let c ← load (some blk) (f + count) 1
    let p ← store (some blk) (t + count) c
    let blk' ← deref p
    memcpyBackLoop blk' t f count

def memcpyBack (p : Option (List α)) (t f count : Nat) : Outcome (Option (List α)) :=
  match p with
  | none => .ok none
  | some blk => do
    let blk' ← memcpyBackLoop blk t f count
    return some blk'

/-- `memcpy_safe`: the ranges may overlap, the direction is chosen by their order. -/
def memcpySafe (p : Option (List α)) (t f count : Nat) : Outcome (Option (List α)) :=
  match p with
  | none => .ok none
  | some blk =>
    if t > f then memcpyBack (some blk) t f count
    else memcpyWithin (some blk) t f count

/-- The first loop of `strncpy_back`: how many steps the two pointers take, and whether a
terminator was met in the string written to. -/
def strncpyBackScan (blk : Block) (t f : Nat) : Nat → Bool → Outcome (Nat × Bool)
  | 0, hit => .ok (0, hit)
  | count + 1, hit => do
    let t₀ ← load (some blk) t 1
    let f₀ ← load (some blk) f 1
    if f₀ = [0] then return (0, hit || t₀ = [0])
    else
      let (k, hit) ← strncpyBackScan blk (t + 1) (f + 1) count (hit || t₀ = [0])
      return (k + 1, hit)

/-- Its second part: a terminator is stored one byte behind the pointer `t`. -/
def strncpyBackMark (blk : Block) (t : Nat) (hit : Bool) : Outcome (Option Block) := do
  let t₀ ← load (some blk) t 1
  if t₀ = [0] ∨ hit then store (some blk) (t + 1) [0] else return some blk

/-- `strncpy_back` from `f` to `t` inside one block. -/
def strncpyBack (p : Option Block) (t f : Nat) (count : Int) : Outcome (Option Block) := do
  let blk ← deref p
  let (k, hit) ← strncpyBackScan blk t f count.toNat false
  let p ← strncpyBackMark blk (t + k) hit
  memcpyBack p t f (k + 1)

theorem overwrite_succ {blk : List α} {t count : Nat} {c : α} {cs : List α}
    (hcs : cs.length = count) (h : t + count + 1 ≤ blk.length) :
    overwrite (overwrite blk (t + count) [c]) t cs = overwrite blk t (cs ++ [c]) := by
  apply List.ext_getElem?
  intro i
  have hl : t ≤ (overwrite blk (t + count) [c]).length := by
    rw [length_overwrite (by simp; omega)]
    omega
  rw [getElem?_overwrite hl, getElem?_overwrite (by omega), getElem?_overwrite (by omega)]
  simp only [List.length_append, List.length_singleton, hcs]
  split
  · rw [if_pos (by omega)]
  · split
    · rw [if_pos (by omega), List.getElem?_append_left (by omega)]
    · by_cases hi : i = t + count
      · subst hi
        simp [← hcs]
      · rw [if_neg (by omega), if_neg (by omega)]

/-- Copying backwards is right when the target does not lie below the source, also
when the ranges overlap. -/
theorem memcpyBackLoop_eq {blk : List α} {t f count : Nat} (h : f ≤ t)
    (ht : t + count ≤ blk.length) : memcpyBackLoop blk t f count =
      .ok (overwrite blk t ((blk.drop f).take count)) := by
  induction count generalizing blk with
  | zero => simp [memcpyBackLoop, overwrite]
  | succ count ih =>
    have hc : (f + count) < blk.length := by omega
    have hcell : (blk.drop (f + count)).take 1 = [blk[f + count]] := by
      rw [List.drop_eq_getElem_cons hc]
      rfl
    have hlen : (overwrite blk (t + count) [blk[f + count]]).length = blk.length :=
      length_overwrite (by simp; omega)
    have hsrc : ((overwrite blk (t + count) [blk[f + count]]).drop f).take count =
        (blk.drop f).take count := by
      rw [List.take_drop, List.take_drop, take_overwrite_of_le (by omega) (by omega)]
    rw [memcpyBackLoop, load_some (by omega), ok_bind, hcell, store_some (by simp; omega),
      ok_bind, deref_some, ok_bind, ih (by omega), hsrc]
    rw [overwrite_succ (by simp; omega) (by omega)]
    congr 2
    rw [List.take_add_one, List.getElem?_drop, List.getElem?_eq_getElem hc]
    rfl

theorem memcpyBack_eq {blk : List α} {t f count : Nat} (h : f ≤ t)
    (ht : t + count ≤ blk.length) : memcpyBack (some blk) t f count =
      .ok (some (overwrite blk t ((blk.drop f).take count))) := by
  simp [memcpyBack, memcpyBackLoop_eq h ht]

/-- A backward copy of which the last cell is out of bounds faults at once. -/
theorem memcpyBack_fault {blk : List α} {t f count : Nat} (hc : 0 < count)
    (h : blk.length < f + count ∨ blk.length < t + count) :
    memcpyBack (some blk) t f count = .error .outOfBounds := by
  obtain ⟨n, rfl⟩ := Nat.exists_eq_succ_of_ne_zero (Nat.ne_of_gt hc)
  by_cases hf : f + n + 1 ≤ blk.length
  · have hl : ((blk.drop (f + n)).take 1).length = 1 := by simp; omega
    have hs : store (some blk) (t + n) ((blk.drop (f + n)).take 1) = .error .outOfBounds := by
      rw [store, if_neg (by omega), deref_some, ok_bind, if_neg (by omega)]
    rw [memcpyBack, memcpyBackLoop, load_some hf, ok_bind, hs]
    rfl
  · have hl : load (some blk) (f + n) 1 = .error .outOfBounds := by
      rw [load, if_neg Nat.one_ne_zero, deref_some, ok_bind, if_neg hf]
    rw [memcpyBack, memcpyBackLoop, hl]
    rfl

theorem memcpyBackLoop_length {t f count : Nat} : ∀ {blk blk' : List α},
    memcpyBackLoop blk t f count = .ok blk' → blk'.length = blk.length := by
  induction count with
  | zero =>
    intro blk blk' h
    cases h
    rfl
  | succ count ih =>
    intro blk blk' h
    obtain ⟨c, -, h⟩ := bind_eq_ok.mp h
    obtain ⟨p, hstore, h⟩ := bind_eq_ok.mp h
    obtain ⟨blk₁, hderef, h⟩ := bind_eq_ok.mp h
    cases p with
    | none => cases hderef
    | some blk₂ =>
      cases hderef
      exact (ih h).trans (store_inv hstore).1

/-- Moving cells inside a block keeps its length. -/
theorem memcpySafe_length {p q : Option (List α)} {t f count : Nat}
    (h : memcpySafe p t f count = .ok q) : (q.getD []).length = (p.getD []).length := by
  cases p with
  | none =>
    cases h
    rfl
  | some blk =>
    rw [memcpySafe] at h
    split at h
    · obtain ⟨blk', hloop, h⟩ := bind_eq_ok.mp h
      cases h
      exact memcpyBackLoop_length hloop
    · exact memcpyWithin_length h

/-- The loop runs over `count` bytes when none of them is a terminator. -/
theorem strncpyBackScan_eq {blk : Block} {count : Nat} : ∀ {t f : Nat} {hit : Bool},
    t + count ≤ blk.length → f + count ≤ blk.length → 0 ∉ (blk.drop f).take count →
    ∃ hit', strncpyBackScan blk t f count hit = .ok (count, hit') := by
  induction count with
  | zero => intro t f hit _ _ _; exact ⟨hit, rfl⟩
  | succ count ih =>
    intro t f hit ht hf h0
    have hlt : f < blk.length := by omega
    have hcons : (blk.drop f).take (count + 1) = blk[f] :: (blk.drop (f + 1)).take count := by
      rw [List.drop_eq_getElem_cons hlt, List.take_succ_cons]
    have hone : (blk.drop f).take 1 = [blk[f]] := by
      rw [List.drop_eq_getElem_cons hlt]
      rfl
    rw [hcons, List.mem_cons, not_or] at h0
    obtain ⟨hit', hr⟩ := @ih (t + 1) (f + 1) (hit || (blk.drop t).take 1 = [0])
      (by omega) (by omega) h0.2
    refine ⟨hit', ?_⟩
    have hne : [blk[f]] ≠ [0] := fun he => h0.1 (List.cons.inj he).1.symm
    rw [strncpyBackScan, load_some (by omega), load_some (by omega), ok_bind, ok_bind, hone,
      if_neg hne, hr]
    rfl

/-- The terminator stored lies behind all that is read afterwards. -/
theorem strncpyBackMark_eq {blk : Block} {t : Nat} (ht : t + 1 < blk.length) (hit : Bool) :
    ∃ blk', strncpyBackMark blk t hit = .ok (some blk') ∧ blk'.length = blk.length ∧
      blk'.take (t + 1) = blk.take (t + 1) := by
  rw [strncpyBackMark, load_some (by omega), ok_bind]
  split
  · refine ⟨overwrite blk (t + 1) [0], store_some (by simp; omega), ?_, ?_⟩
    · exact length_overwrite (by simp; omega)
    · exact take_overwrite_of_le (Nat.le_refl _) (by omega)
  · exact ⟨blk, rfl, rfl, rfl⟩

/-- With one byte to spare behind the target the text and its terminator are moved. -/
theorem strncpyBack_eq {blk : Block} {t f count : Nat} (h : f ≤ t)
    (ht : t + count + 1 < blk.length) (h0 : 0 ∉ (blk.drop f).take count) :
    ∃ blk', strncpyBack (some blk) t f count =
        .ok (some (overwrite blk' t ((blk.drop f).take (count + 1)))) ∧
      blk'.length = blk.length ∧ blk'.take (t + count + 1) = blk.take (t + count + 1) := by
  obtain ⟨hit, hs⟩ := @strncpyBackScan_eq blk count t f false (by omega) (by omega) h0
  obtain ⟨blk', hm, hlen, htake⟩ := strncpyBackMark_eq ht hit
  have hsrc : (blk'.drop f).take (count + 1) = (blk.drop f).take (count + 1) := by
    have hle : f + (count + 1) ≤ t + count + 1 := by omega
    rw [List.take_drop, List.take_drop, ← Nat.min_eq_left hle, ← List.take_take, htake,
      List.take_take]
  refine ⟨blk', ?_, hlen, htake⟩
  rw [strncpyBack, deref_some, ok_bind, Int.toNat_natCast, hs, ok_bind]
  simp only [hm, ok_bind]
  rw [memcpyBack_eq h (by omega), hsrc]

end AlibC
