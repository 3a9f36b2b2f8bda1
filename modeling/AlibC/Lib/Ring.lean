import AlibC.Lib.Block

/-! A queue laid out in a block that is used as a ring. -/
namespace Ring

open CLang
variable {α : Type}

/-- The cell `i` places behind `b` in a ring of `n` cells, for `i` up to `n`. -/
def slot (n b i : Nat) : Nat := if b + i < n then b + i else b + i - n

/-- From the cell `b` on, and around the end of the block, the queue `q` is stored. -/
structure Holds (blk : List α) (b : Nat) (q : List α) : Prop where
  begin_lt : b < blk.length
  length_le : q.length ≤ blk.length
  cell : ∀ i, i < q.length → blk[slot blk.length b i]? = q[i]?

variable {blk q d : List α} {b n : Nat}

theorem slot_lt {i : Nat} (hb : b < n) (hi : i ≤ n) : slot n b i < n := by
  unfold slot
  split <;> omega

/-- Steps around the ring add up, as long as they do not lap it. -/
theorem slot_add {k i : Nat} (hb : b < n) (h : k + i ≤ n) : slot n (slot n b k) i = slot n b (k + i) := by
  have hk := slot_lt hb (show k ≤ n by omega)
  by_cases hwrap : b + k < n
  · rw [slot, slot, slot, if_pos hwrap, Nat.add_assoc]
  · have hback : slot n b k = b + k - n := if_neg hwrap
    rw [hback, slot, if_pos (by omega), slot, if_neg (by omega)]
    omega

theorem Holds.nil (h : b < blk.length) : Holds blk b [] :=
  ⟨h, Nat.zero_le _, fun _ hi => by simp at hi⟩

/-- Leaving out the first `n` cells. -/
theorem Holds.drop (h : Holds blk b q) (hn : n ≤ q.length) :
    Holds blk (slot blk.length b n) (q.drop n) := by
  have hb := h.begin_lt
  have hl := h.length_le
  refine ⟨slot_lt hb (by omega), by simp; omega, ?_⟩
  intro i hi
  rw [List.length_drop] at hi
  rw [slot_add hb (by omega), h.cell (n + i) (by omega), List.getElem?_drop]

/-- A front part that does not reach the end of the block. -/
theorem Holds.take_eq (h : Holds blk b q) (hn : n ≤ q.length) (hb : b + n ≤ blk.length) :
    (blk.drop b).take n = q.take n := by
  apply List.ext_getElem?
  intro i
  rw [List.getElem?_take, List.getElem?_take, List.getElem?_drop]
  split
  · rw [← h.cell i (by omega), slot, if_pos (by omega)]
  · rfl

/-- A front part that continues at the start of the block. -/
theorem Holds.take_wrap (h : Holds blk b q) (hn : n ≤ q.length) (hb : blk.length ≤ b + n) :
    (blk.drop b).take (blk.length - b) ++ blk.take (n - (blk.length - b)) = q.take n := by
  have hlt := h.begin_lt
  have hl := h.length_le
  have hfront := h.take_eq (n := blk.length - b) (by omega) (by omega)
  have hslot : slot blk.length b (blk.length - b) = 0 := by
    rw [slot, if_neg (by omega)]
    omega
  have hback := (h.drop (n := blk.length - b) (by omega)).take_eq (n := n - (blk.length - b))
    (by simp; omega) (by rw [hslot]; omega)
  rw [hslot, List.drop_zero] at hback
  rw [hfront, hback, ← List.take_add]
  congr 1
  omega

/-- Cells written behind the queue join it. They may not run over the end of the block. -/
theorem Holds.append (h : Holds blk b q) {e : Nat}
    (he : e = b + q.length ∨ e + blk.length = b + q.length) (hroom : q.length + d.length ≤ blk.length)
    (hend : e + d.length ≤ blk.length) : Holds (overwrite blk e d) b (q ++ d) := by
  have hb := h.begin_lt
  have hlen := length_overwrite hend
  refine ⟨by rwa [hlen], by rw [hlen]; simpa using hroom, ?_⟩
  intro i hi
  rw [List.length_append] at hi
  rw [hlen, getElem?_overwrite (by omega)]
  by_cases hq : i < q.length
  · have hs : slot blk.length b i < e ∨ e + d.length ≤ slot blk.length b i := by
      unfold slot
      split <;> omega
    rw [List.getElem?_append_left hq, ← h.cell i hq]
    obtain hs | hs := hs
    · rw [if_pos hs]
    · rw [if_neg (by omega), if_neg (by omega)]
  · have hs : slot blk.length b i = e + (i - q.length) := by
      unfold slot
      split <;> omega
    rw [List.getElem?_append_right (by omega), hs, if_neg (by omega), if_pos (by omega)]
    congr 1
    omega

/-- The same for cells that continue at the start of the block. -/
theorem Holds.append_two (h : Holds blk b q) {d' : List α} {e k m : Nat} (hd : d.length = k)
    (hd' : d'.length = m) (hk : k = blk.length - e)
    (he : e = b + q.length ∨ e = blk.length ∧ b + q.length = 0)
    (hroom : e ≤ blk.length ∧ q.length + k + m ≤ blk.length) :
    Holds (overwrite (overwrite blk e d) 0 d') b (q ++ (d ++ d')) := by
  have hfst : Holds (overwrite blk e d) b (q ++ d) := by
    obtain he | ⟨he, -⟩ := he
    · exact h.append (Or.inl he) (by omega) (by omega)
    · have hd0 : d = [] := List.eq_nil_of_length_eq_zero (by omega)
      simpa [hd0] using h
  have hol : (overwrite blk e d).length = blk.length := length_overwrite (by omega)
  have hql : (q ++ d).length = q.length + k := by rw [List.length_append, hd]
  rw [← List.append_assoc]
  exact hfst.append (by omega) (by omega) (by omega)

theorem slot_cases (n b i : Nat) :
    b + i < n ∧ slot n b i = b + i ∨ n ≤ b + i ∧ slot n b i + n = b + i := by
  unfold slot
  split <;> omega

theorem slot_eq_mod {k : Nat} (hb : b < n) (hk : k ≤ n) : slot n b k = (b + k) % n := by
  unfold slot
  split
  · exact (Nat.mod_eq_of_lt ‹_›).symm
  · rw [Nat.mod_eq_sub_mod (by omega), Nat.mod_eq_of_lt (by omega)]

/-- Cells written from `e` on, around the end of the block. -/
def write (blk : List α) (e : Nat) (d : List α) : List α :=
  overwrite (overwrite blk e (d.take (blk.length - e))) 0 (d.drop (blk.length - e))

theorem length_write {e : Nat} (he : e ≤ blk.length) (hd : d.length ≤ blk.length) :
    (write blk e d).length = blk.length := by
  have hfst : (overwrite blk e (d.take (blk.length - e))).length = blk.length :=
    length_overwrite (by rw [List.length_take]; omega)
  rw [write, length_overwrite, hfst]
  rw [List.length_drop, hfst]
  omega

theorem getElem?_write {e : Nat} (he : e ≤ blk.length) (hd : d.length ≤ blk.length) {p : Nat}
    (hp : p < blk.length) : (write blk e d)[p]? =
      if e ≤ p ∧ p - e < d.length then d[p - e]?
      else if p + (blk.length - e) < d.length then d[p + (blk.length - e)]? else blk[p]? := by
  have hfst : (d.take (blk.length - e)).length = min (blk.length - e) d.length := List.length_take
  have hsnd : (d.drop (blk.length - e)).length = d.length - (blk.length - e) := List.length_drop
  rw [write, getElem?_overwrite (Nat.zero_le _), if_neg (Nat.not_lt_zero p), getElem?_overwrite he,
    hsnd, hfst, List.getElem?_drop]
  by_cases hwrap : p + (blk.length - e) < d.length
  · rw [if_pos (by omega), if_neg (by omega), if_pos hwrap]
    congr 1
    omega
  · rw [if_neg (by omega), if_neg hwrap]
    by_cases hin : e ≤ p ∧ p - e < d.length
    · rw [if_neg (by omega), if_pos (by omega), if_pos hin, List.getElem?_take_of_lt (by omega)]
    · rw [if_neg hin]
      split
      · rfl
      · rw [if_neg (by omega)]

/-- Where two steps around the ring lead. -/
theorem slot_slot {k i : Nat} (hb : b < n) (hk : k ≤ n) (hi : i < n) :
    slot n (slot n b k) i < n ∧ (slot n (slot n b k) i = b + k + i ∨
      slot n (slot n b k) i + n = b + k + i ∨ slot n (slot n b k) i + n + n = b + k + i) := by
  have hone := slot_cases n b k
  have htwo := slot_cases n (slot n b k) i
  refine ⟨slot_lt (slot_lt hb hk) (Nat.le_of_lt hi), ?_⟩
  omega

/-- Cells that are written behind a queue push out as many at its front as there is no room for. -/
theorem Holds.write (h : Holds blk b q) {e : Nat} (hle : e ≤ blk.length)
    (he : e = b + q.length ∨ e + blk.length = b + q.length ∨ e = b + q.length + blk.length)
    (hd : d.length ≤ blk.length) :
    Holds (write blk e d) (slot blk.length b (q.length + d.length - blk.length))
      ((q ++ d).drop (q.length + d.length - blk.length)) := by
  have hb := h.begin_lt
  have hl := h.length_le
  have hlen := length_write hle hd
  obtain ⟨lost, hlost⟩ : ∃ lost, lost = q.length + d.length - blk.length := ⟨_, rfl⟩
  rw [← hlost]
  refine ⟨by rw [hlen]; exact slot_lt hb (by omega), ?_, ?_⟩
  · rw [hlen, List.length_drop, List.length_append]
    omega
  · intro i hi
    rw [List.length_drop, List.length_append] at hi
    obtain ⟨hp, hplace⟩ := @slot_slot b blk.length lost i hb (by omega) (by omega)
    rw [hlen, getElem?_write hle hd hp, List.getElem?_drop]
    by_cases hq : lost + i < q.length
    · rw [List.getElem?_append_left hq, ← h.cell _ hq, ← slot_add hb (by omega)]
      -- none of the cells written is there
      generalize slot blk.length (slot blk.length b lost) i = p at hp hplace
      rw [if_neg (by omega), if_neg (by omega)]
    · rw [List.getElem?_append_right (by omega)]
      generalize slot blk.length (slot blk.length b lost) i = p at hp hplace
      by_cases hin : e ≤ p ∧ p - e < d.length
      · rw [if_pos hin]
        congr 1
        omega
      · rw [if_neg hin, if_pos (by omega)]
        congr 1
        omega

end Ring
