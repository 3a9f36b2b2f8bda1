import AlibC.AlibString
import AlibC.Lib.Word

/-! Turning the bytes of a value around in the memory. -/
namespace AlibC

open CLang

/-- The loop of `flip_endianess`. Both pointers move up. -/
def flipLoop : Nat → Block → Nat → Int → Outcome Block
  | 0, _, _, _ => .error .diverges
  | fuel + 1, mem, itBegin, itEnd =>
    if itBegin < itEnd then do
      let holder ← load (some mem) itBegin 1
      let last ← load (some mem) itEnd.toNat 1
      let p ← store (some mem) itBegin last
      let p ← store p itEnd.toNat holder
      let mem ← deref p
      flipLoop fuel mem (itBegin + 1) (itEnd + 1)
    else .ok mem

/-- The fuel is one round for each byte of the memory, and one more. -/
def flipEndianess (mem : Block) (itm size : Nat) : Outcome Block :=
  flipLoop (mem.length + 1) mem itm (itm + size - 1)

/-- What flipping has to leave: the bytes in reverse order and the others where they were, so that a
second time brings the memory back and a load gives the number of the other byte order. -/
def Flips (mem : Block) (itm size : Nat) : Prop :=
  ∃ mem', flipEndianess mem itm size = .ok mem' ∧
    mem' = overwrite mem itm ((mem.drop itm).take size).reverse ∧
    flipEndianess mem' itm size = .ok mem ∧
    ofBytes ((mem'.drop itm).take size) = ofBytesBE ((mem.drop itm).take size) ∧
    ofBytesBE ((mem'.drop itm).take size) = ofBytes ((mem.drop itm).take size)

variable {mem : Block} {itm size : Nat}

/-- The distance of the pointers stays, so that bytes are swapped until the memory is over. -/
theorem flipLoop_fault {d : Nat} (hd : 0 < d) : ∀ (fuel : Nat) {mem : Block} {itBegin : Nat},
    itBegin ≤ mem.length → mem.length < itBegin + fuel →
    flipLoop fuel mem itBegin (itBegin + d : Nat) = .error .outOfBounds := by
  intro fuel
  induction fuel with
  | zero =>
    intro mem itBegin hin hfuel
    omega
  | succ fuel ih =>
    intro mem itBegin hin hfuel
    have hgo : (itBegin : Int) < (itBegin + d : Nat) := by omega
    rw [flipLoop, if_pos hgo, Int.toNat_natCast]
    by_cases hend : itBegin + d + 1 ≤ mem.length
    · rw [load_some (by omega), ok_bind, load_some hend, ok_bind]
      generalize hh : (mem.drop itBegin).take 1 = holder
      generalize hl : (mem.drop (itBegin + d)).take 1 = last
      have hholder : holder.length = 1 := by
        rw [← hh]
        exact List.length_take_of_le (by rw [List.length_drop]; omega)
      have hlast : last.length = 1 := by
        rw [← hl]
        exact List.length_take_of_le (by rw [List.length_drop]; omega)
      have hlen : (overwrite mem itBegin last).length = mem.length := length_overwrite (by omega)
      have hlen' : (overwrite (overwrite mem itBegin last) (itBegin + d) holder).length =
          mem.length := (length_overwrite (by omega)).trans hlen
      have hnext : ((itBegin + d : Nat) : Int) + 1 = (itBegin + 1 + d : Nat) := by omega
      rw [store_some (by omega), ok_bind, store_some (by omega), ok_bind, deref_some, ok_bind, hnext]
      exact ih (by omega) (by omega)
    · have hload : load (some mem) (itBegin + d) 1 = .error .outOfBounds := by
        rw [load, if_neg Nat.one_ne_zero, deref_some, ok_bind, if_neg hend]
      rw [hload]
      by_cases hfirst : itBegin + 1 ≤ mem.length
      · rw [load_some hfirst]
        rfl
      · rw [load, if_neg Nat.one_ne_zero, deref_some, ok_bind, if_neg hfirst]
        rfl

theorem flipEndianess_fault (h : itm + size ≤ mem.length) (hsize : 2 ≤ size) :
    flipEndianess mem itm size = .error .outOfBounds := by
  have hend : (itm : Int) + size - 1 = (itm + (size - 1) : Nat) := by omega
  rw [flipEndianess, hend]
  exact flipLoop_fault (by omega) _ (by omega) (by omega)

/-- Of no byte and of a single one nothing is moved. -/
theorem flipEndianess_small (mem : Block) (itm : Nat) (hsize : size ≤ 1) :
    flipEndianess mem itm size = .ok mem := by
  rw [flipEndianess, flipLoop, if_neg (by omega)]

theorem reverse_small {s : Block} (h : s.length ≤ 1) : s.reverse = s := by
  match s, h with
  | [], _ => rfl
  | [_], _ => rfl

/-- The bytes are reversed exactly where there are fewer than two of them. -/
theorem flips_iff (h : itm + size ≤ mem.length) : Flips mem itm size ↔ size ≤ 1 := by
  constructor
  · rintro ⟨mem', hflip, -⟩
    by_contra hsize
    rw [flipEndianess_fault h (by omega)] at hflip
    cases hflip
  · intro hsize
    have hlen : ((mem.drop itm).take size).length ≤ 1 :=
      Nat.le_trans (List.length_take_le _ _) hsize
    have hrev := reverse_small hlen
    have hflip := flipEndianess_small mem itm hsize
    refine ⟨mem, hflip, ?_, hflip, ?_, ?_⟩
    · rw [hrev, overwrite_self h]
    · rw [← ofBytes_reverse, hrev]
    · rw [← ofBytesBE_reverse, hrev]

theorem flips_one : 1 + 1 ≤ ([1, 2] : Block).length ∧ (Flips [1, 2] 1 1 ↔ 1 ≤ 1) :=
  ⟨by decide, flips_iff (by decide)⟩

/-- The two bytes are swapped, and then the second one with the one behind it, until the end of the
memory is passed. -/
theorem flip_leaves_memory :
    flipEndianess [1, 2, 3, 4] 0 2 = .error .outOfBounds ∧ ¬Flips [1, 2, 3, 4] 0 2 := by
  have hflip : flipEndianess [1, 2, 3, 4] 0 2 = .error .outOfBounds := by decide
  refine ⟨hflip, ?_⟩
  rintro ⟨mem', hok, -⟩
  rw [hflip] at hok
  cases hok

end AlibC
