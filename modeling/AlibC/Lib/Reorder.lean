import Mathlib.Data.List.InsertIdx
import Mathlib.Data.List.Perm.Basic

/-! Moving a block of a list to another place of it. -/
namespace Reorder

variable {A : Type} {pre mid ys post xs : List A} {a : A} {index count : Nat}

/-- A list is split at one of its objects. -/
theorem exists_item (hin : index < xs.length) :
    ∃ pre a post, xs = pre ++ a :: post ∧ pre.length = index ∧ xs[index]? = some a ∧
      xs.eraseIdx index = pre ++ post := by
  refine ⟨xs.take index, xs[index], xs.drop (index + 1), ?_,
    List.length_take_of_le (Nat.le_of_lt hin), List.getElem?_eq_getElem hin,
    List.eraseIdx_eq_take_drop_succ xs index⟩
  rw [← List.drop_eq_getElem_cons hin, List.take_append_drop]

/-- A list is split at a block, which is not empty and ends with the list if it is too long. -/
theorem exists_block (hin : index < xs.length) (hcount : 1 ≤ count) :
    ∃ pre ys rest, xs = pre ++ ys ++ rest ∧ index = pre.length ∧ ys ≠ [] ∧
      min count (ys ++ rest).length = ys.length := by
  refine ⟨xs.take index, (xs.drop index).take count, (xs.drop index).drop count, ?_, ?_, ?_, ?_⟩
  · rw [List.append_assoc, List.take_append_drop, List.take_append_drop]
  · rw [List.length_take_of_le (Nat.le_of_lt hin)]
  · rw [ne_eq, List.take_eq_nil_iff, List.drop_eq_nil_iff]
    omega
  · rw [List.take_append_drop, List.length_take]

theorem nodup_between (h : (pre ++ post).Nodup) (hy : ys.Nodup)
    (hdis : ∀ a ∈ pre ++ post, a ∉ ys) : (pre ++ ys ++ post).Nodup := by
  have hx := List.nodup_append.mp h
  rw [List.append_assoc, List.nodup_append, List.nodup_append]
  refine ⟨hx.1, ⟨hy, hx.2.1, ?_⟩, ?_⟩
  · rintro a ha b hb rfl
    exact hdis a (List.mem_append_right _ hb) ha
  · rintro a ha b hb rfl
    rcases List.mem_append.mp hb with hb | hb
    · exact hdis a (List.mem_append_left _ ha) hb
    · exact hx.2.2 a ha a hb rfl

/-- The `count` objects from index `i` on are cut out and put back so that the first of them is
at index `j`. -/
def relocate (xs : List A) (i j count : Nat) : List A :=
  (xs.take i ++ xs.drop (i + count)).take j ++ (xs.drop i).take count ++
    (xs.take i ++ xs.drop (i + count)).drop j

theorem relocate_append (j : Nat) : relocate (pre ++ ys ++ post) pre.length j ys.length =
    (pre ++ post).take j ++ ys ++ (pre ++ post).drop j := by
  have htake : (pre ++ ys ++ post).take pre.length = pre := by
    rw [List.append_assoc, List.take_left]
  have hdrop : (pre ++ ys ++ post).drop (pre.length + ys.length) = post := by
    rw [← List.length_append, List.drop_left]
  have hblock : ((pre ++ ys ++ post).drop pre.length).take ys.length = ys := by
    rw [List.append_assoc, List.drop_left, List.take_left]
  rw [relocate, htake, hdrop, hblock]

theorem relocate_ahead : relocate (pre ++ ys ++ (mid ++ post)) pre.length
    (pre.length + mid.length) ys.length = pre ++ mid ++ ys ++ post := by
  rw [relocate_append, ← List.append_assoc pre mid post, ← List.length_append, List.take_left,
    List.drop_left]

theorem relocate_back : relocate (pre ++ mid ++ ys ++ post) (pre.length + mid.length)
    pre.length ys.length = pre ++ ys ++ (mid ++ post) := by
  rw [← List.length_append, relocate_append, List.append_assoc pre mid post, List.take_left,
    List.drop_left]

/-- Put back where it was, the block changes nothing. -/
theorem relocate_self (xs : List A) (i count : Nat) : relocate xs i i count = xs := by
  by_cases hi : i ≤ xs.length
  · have hlen : (xs.take i).length = i := List.length_take_of_le hi
    have htake : (xs.take i ++ xs.drop (i + count)).take i = xs.take i := List.take_left' hlen
    have hdrop : (xs.take i ++ xs.drop (i + count)).drop i = xs.drop (i + count) :=
      List.drop_left' hlen
    rw [relocate, htake, hdrop, List.append_assoc, ← List.drop_drop, List.take_append_drop,
      List.take_append_drop]
  · have hle : xs.length ≤ i := by omega
    rw [relocate, List.take_of_length_le hle, List.drop_eq_nil_of_le (by omega),
      List.drop_eq_nil_of_le hle, List.append_nil, List.take_nil, List.append_nil,
      List.take_append_drop]

theorem perm_relocate (xs : List A) (i j count : Nat) : (relocate xs i j count).Perm xs := by
  have hrest : (relocate xs i j count).Perm
      ((xs.drop i).take count ++ (xs.take i ++ xs.drop (i + count))) := by
    rw [relocate, List.append_assoc]
    refine (List.perm_append_comm_assoc _ _ _).trans ?_
    rw [List.take_append_drop]
  refine hrest.trans ((List.perm_append_comm_assoc _ _ _).trans ?_)
  rw [← List.drop_drop, List.take_append_drop, List.take_append_drop]

theorem insertIdx_eq {j : Nat} (hj : j ≤ xs.length) (a : A) :
    xs.insertIdx j a = xs.take j ++ a :: xs.drop j := by
  induction xs generalizing j with
  | nil =>
    obtain rfl := Nat.le_zero.mp hj
    rfl
  | cons b xs ih =>
    cases j with
    | zero => rfl
    | succ j =>
      rw [List.insertIdx_succ_cons, ih (Nat.le_of_succ_le_succ hj)]
      rfl

/-- One object is moved by erasing and inserting it. -/
theorem relocate_one {i j : Nat} (ha : xs[i]? = some a) (hj : j < xs.length) :
    relocate xs i j 1 = (xs.eraseIdx i).insertIdx j a := by
  obtain ⟨hi, hx⟩ := List.getElem?_eq_some_iff.mp ha
  have hlen : (xs.eraseIdx i).length = xs.length - 1 := List.length_eraseIdx_of_lt hi
  have hone : (xs.drop i).take 1 = [a] := by
    rw [List.drop_eq_getElem_cons hi, hx]
    rfl
  rw [insertIdx_eq (by omega), List.eraseIdx_eq_take_drop_succ, relocate, hone, List.append_assoc]
  rfl

/-- An object stays, at an end or where it was, or it passes the objects `mid`. -/
theorem move_cases {i j : Nat} (hi : i < xs.length) :
    (i = j ∨ ∃ pre a, xs = pre ++ [a] ∧ i = pre.length ∧ i < j) ∨
    (∃ pre a mid post, xs = pre ++ a :: (mid ++ post) ∧ i = pre.length ∧ i < j ∧ mid ≠ [] ∧
      min (j - i) (mid ++ post).length = mid.length) ∨
    ∃ pre t mid a post, xs = pre ++ t :: (mid ++ a :: post) ∧ j = pre.length ∧
      i = pre.length + (mid.length + 1) := by
  have hsplit : xs = xs.take i ++ xs[i] :: xs.drop (i + 1) := by
    rw [← List.drop_eq_getElem_cons hi, List.take_append_drop]
  have hlen : i = (xs.take i).length := (List.length_take_of_le (Nat.le_of_lt hi)).symm
  generalize xs.take i = pre at *
  generalize xs[i] = a at *
  generalize xs.drop (i + 1) = post at *
  subst hsplit
  rcases Nat.lt_trichotomy i j with hlt | heq | hgt
  · cases post with
    | nil => exact .inl (.inr ⟨pre, a, rfl, hlen, hlt⟩)
    | cons b post =>
      refine .inr (.inl ⟨pre, a, (b :: post).take (j - i), (b :: post).drop (j - i), ?_, hlen, hlt,
        ?_, ?_⟩)
      · rw [List.take_append_drop]
      · rw [ne_eq, List.take_eq_nil_iff]
        simp only [reduceCtorEq, or_false]
        omega
      · rw [List.take_append_drop, List.length_take]
  · exact .inl (.inl heq)
  · have hj : j < pre.length := by omega
    have hpre : pre = pre.take j ++ pre[j] :: pre.drop (j + 1) := by
      rw [← List.drop_eq_getElem_cons hj, List.take_append_drop]
    refine .inr (.inr ⟨pre.take j, pre[j], pre.drop (j + 1), a, post, ?_, ?_, ?_⟩)
    · conv => lhs; rw [hpre]
      rw [List.append_assoc, List.cons_append]
    · rw [List.length_take_of_le (Nat.le_of_lt hj)]
    · rw [List.length_take_of_le (Nat.le_of_lt hj), List.length_drop]
      omega

theorem moved_ahead : ((pre ++ a :: (mid ++ post)).eraseIdx pre.length).insertIdx
    (pre.length + mid.length) a = pre ++ mid ++ a :: post := by
  have hget : (pre ++ a :: (mid ++ post))[pre.length]? = some a := by
    rw [List.getElem?_append_right (Nat.le_refl _), Nat.sub_self]
    rfl
  have h := @relocate_ahead A pre mid [a] post
  rw [List.append_assoc, List.singleton_append] at h
  rw [← relocate_one hget (by simp only [List.length_append, List.length_cons]; omega)]
  exact h.trans (List.append_assoc _ _ _)

theorem moved_back {t : A} : ((pre ++ t :: (mid ++ a :: post)).eraseIdx
    (pre.length + (mid.length + 1))).insertIdx pre.length a = pre ++ a :: t :: (mid ++ post) := by
  have hx : pre ++ t :: (mid ++ a :: post) = pre ++ (t :: mid) ++ [a] ++ post := by simp
  have hget : (pre ++ t :: (mid ++ a :: post))[pre.length + (mid.length + 1)]? = some a := by
    have hlen : (pre ++ t :: mid).length = pre.length + (mid.length + 1) := by simp
    rw [← hlen, hx, List.append_assoc, List.getElem?_append_right (Nat.le_refl _), Nat.sub_self]
    rfl
  have h := @relocate_back A pre (t :: mid) [a] post
  rw [← hx] at h
  rw [← relocate_one hget (by simp)]
  refine h.trans ?_
  rw [List.append_assoc]
  rfl

theorem moved_same {i j : Nat} (ha : xs[i]? = some a) (hij : i = j) :
    (xs.eraseIdx i).insertIdx j a = xs := by
  obtain ⟨hi, -⟩ := List.getElem?_eq_some_iff.mp ha
  subst hij
  rw [← relocate_one ha hi, relocate_self]

/-- In a list without repetitions every object is where it stands. -/
theorem idxOf_split [DecidableEq A] (hnd : (pre ++ a :: post).Nodup) :
    (pre ++ a :: post).idxOf a = pre.length := by
  have ha : a ∉ pre := fun hp => (List.nodup_append.mp hnd).2.2 a hp a List.mem_cons_self rfl
  rw [List.idxOf_append, if_neg ha, List.idxOf_cons_self, Nat.zero_add]

theorem take_drop_idxOf [DecidableEq A] (hnd : (pre ++ a :: post).Nodup) :
    (pre ++ a :: post).take ((pre ++ a :: post).idxOf a) = pre ∧
      (pre ++ a :: post).drop ((pre ++ a :: post).idxOf a) = a :: post ∧
      (pre ++ a :: post).take ((pre ++ a :: post).idxOf a + 1) = pre ++ [a] ∧
      (pre ++ a :: post).drop ((pre ++ a :: post).idxOf a + 1) = post := by
  have hlen : (pre ++ [a]).length = pre.length + 1 := List.length_append
  have hsplit : pre ++ a :: post = (pre ++ [a]) ++ post := by simp
  rw [idxOf_split hnd]
  refine ⟨List.take_left, List.drop_left, ?_, ?_⟩
  · rw [hsplit]
    exact List.take_left' hlen
  · rw [hsplit]
    exact List.drop_left' hlen

end Reorder
