import Mathlib.Algebra.Order.Group.Nat
import Mathlib.Tactic.Common

/-! Numbers as they lie in memory, the lowest byte first, and arrays of 64-bit words. -/
namespace CLang

/-- The lowest `k` bytes of a number. -/
def leBytes : Nat → Nat → List UInt8
  | 0, _ => []
  | k + 1, n => UInt8.ofNat n :: leBytes k (n / 256)

/-- The number that bytes stand for. -/
def ofBytes : List UInt8 → Nat
  | [] => 0
  | b :: bs => b.toNat + 256 * ofBytes bs

/-- The number that bytes stand for when the highest byte comes first. -/
def ofBytesBE (bs : List UInt8) : Nat := bs.foldl (fun n b => 256 * n + b.toNat) 0

/-- The first `count` words of a block. -/
def words : Nat → List UInt8 → List Nat
  | 0, _ => []
  | count + 1, blk => ofBytes (blk.take 8) :: words count (blk.drop 8)

variable {n : Nat} {ns : List Nat}

@[simp] theorem length_leBytes (k n : Nat) : (leBytes k n).length = k := by
  induction k generalizing n with
  | zero => rfl
  | succ k ih => rw [leBytes, List.length_cons, ih]

theorem ofBytes_leBytes (k n : Nat) : ofBytes (leBytes k n) = n % 256 ^ k := by
  induction k generalizing n with
  | zero => rw [leBytes, ofBytes, pow_zero, Nat.mod_one]
  | succ k ih =>
    have hbyte : (UInt8.ofNat n).toNat = n % 256 := UInt8.toNat_ofNat
    rw [leBytes, ofBytes, ih, hbyte, pow_succ', Nat.mod_mul]

/-- A word is what its eight bytes stand for. -/
theorem ofBytes_word (h : n < 2 ^ 64) : ofBytes (leBytes 8 n) = n := by
  rw [ofBytes_leBytes]
  exact Nat.mod_eq_of_lt h

/-- Bytes of one number are told by what they stand for. -/
theorem ofBytes_inj {bs cs : List UInt8} (h : bs.length = cs.length) :
    ofBytes bs = ofBytes cs ↔ bs = cs := by
  refine ⟨fun heq => ?_, fun heq => heq ▸ rfl⟩
  induction bs generalizing cs with
  | nil => exact (List.eq_nil_of_length_eq_zero h.symm).symm
  | cons b bs ih =>
    cases cs with
    | nil => cases h
    | cons c cs =>
      rw [ofBytes, ofBytes] at heq
      have hb := b.toNat_lt
      have hc := c.toNat_lt
      have hhead : b = c := UInt8.toNat_inj.mp (by omega)
      rw [hhead, ih (Nat.succ.inj h) (by omega)]

/-- One order is the other one read backwards. -/
theorem ofBytes_reverse (bs : List UInt8) : ofBytes bs.reverse = ofBytesBE bs := by
  rw [ofBytesBE, List.foldl_eq_foldr_reverse]
  induction bs.reverse with
  | nil => rfl
  | cons b bs ih => rw [ofBytes, List.foldr_cons, ih, Nat.add_comm]

theorem ofBytesBE_reverse (bs : List UInt8) : ofBytesBE bs.reverse = ofBytes bs := by
  rw [← ofBytes_reverse, List.reverse_reverse]

/-- The bytes of words one behind the other. -/
def wordsBytes (ns : List Nat) : List UInt8 := ns.flatMap (leBytes 8)

@[simp] theorem length_wordsBytes (ns : List Nat) : (wordsBytes ns).length = 8 * ns.length := by
  induction ns with
  | nil => rfl
  | cons n ns ih =>
    rw [wordsBytes] at *
    rw [List.flatMap_cons, List.length_append, ih, length_leBytes, List.length_cons]
    omega

theorem wordsBytes_append (ms ns : List Nat) :
    wordsBytes (ms ++ ns) = wordsBytes ms ++ wordsBytes ns := List.flatMap_append

theorem wordsBytes_singleton (n : Nat) : wordsBytes [n] = leBytes 8 n := by
  rw [wordsBytes, List.flatMap_singleton]

/-- Words are read back as they were stored. -/
theorem words_wordsBytes (h : ∀ n ∈ ns, n < 2 ^ 64) : words ns.length (wordsBytes ns) = ns := by
  induction ns with
  | nil => rfl
  | cons n ns ih =>
    have hcons : wordsBytes (n :: ns) = leBytes 8 n ++ wordsBytes ns := List.flatMap_cons
    rw [List.length_cons, words, hcons, List.take_left' (length_leBytes 8 n),
      List.drop_left' (length_leBytes 8 n), ofBytes_word (h n List.mem_cons_self),
      ih fun m hm => h m (List.mem_cons_of_mem n hm)]

end CLang
