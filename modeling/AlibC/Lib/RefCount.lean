import Mathlib.Data.List.Basic
import Mathlib.Data.List.Count

/-! Reference counting. Objects are numbered as they are made; a cell holds the count of a
live object and is `none` once the object is released. -/
namespace RefCount

structure Counts where
  cells : List (Option Nat)
  /-- The objects released, in order. -/
  released : List Nat
deriving DecidableEq, Repr

/-- The counts are right for the references `refs` held somewhere, and an object is released
once, as soon as nobody holds it. -/
structure Exact (c : Counts) (refs : List Nat) : Prop where
  cell_eq : ∀ a, a < c.cells.length →
    c.cells[a]? = some (if refs.count a = 0 then none else some (refs.count a))
  released_eq : ∀ a, c.released.count a =
    if a < c.cells.length ∧ refs.count a = 0 then 1 else 0
  refs_lt : ∀ a ∈ refs, a < c.cells.length

variable {c : Counts} {refs refs' : List Nat} {a : Nat}

theorem Exact.perm (h : Exact c refs) (hp : refs.Perm refs') : Exact c refs' where
  cell_eq b hb := by rw [h.cell_eq b hb, hp.count_eq]
  released_eq b := by rw [h.released_eq, hp.count_eq]
  refs_lt b hb := h.refs_lt b (hp.mem_iff.mpr hb)

theorem exact_nil : Exact ⟨[], []⟩ [] :=
  ⟨fun _ h => absurd h (Nat.not_lt_zero _), fun _ => by simp, fun _ h => by cases h⟩

/-- What a holder of a reference can rely on. -/
theorem Exact.held (h : Exact c refs) (ha : a ∈ refs) :
    a < c.cells.length ∧ c.cells[a]? = some (some (refs.count a)) ∧ 0 < refs.count a := by
  have hpos := List.count_pos_iff.mpr ha
  refine ⟨h.refs_lt a ha, ?_, hpos⟩
  rw [h.cell_eq a (h.refs_lt a ha), if_neg (by omega)]

theorem Exact.released_lt (h : Exact c refs) (ha : a ∈ c.released) : a < c.cells.length := by
  have hpos := List.count_pos_iff.mpr ha
  rw [h.released_eq] at hpos
  split at hpos
  · rename_i hlt
    exact hlt.1
  · cases hpos

/-- A new object starts with one reference. -/
theorem Exact.make (h : Exact c refs) :
    Exact ⟨c.cells ++ [some 1], c.released⟩ (c.cells.length :: refs) := by
  have hnew : refs.count c.cells.length = 0 :=
    List.count_eq_zero.mpr fun hm => Nat.lt_irrefl _ (h.refs_lt _ hm)
  constructor
  · intro b hb
    rw [List.length_append, List.length_singleton] at hb
    by_cases hlast : b = c.cells.length
    · subst hlast
      rw [List.getElem?_append_right (Nat.le_refl _), List.count_cons_self, hnew]
      simp
    · rw [List.getElem?_append_left (by omega), h.cell_eq b (by omega),
        List.count_cons_of_ne (fun he => hlast he.symm)]
  · intro b
    rw [h.released_eq]
    by_cases hlast : b = c.cells.length
    · subst hlast
      rw [List.count_cons_self]
      simp
    · rw [List.count_cons_of_ne (fun he => hlast he.symm), List.length_append,
        List.length_singleton]
      congr 1
      rw [eq_iff_iff]
      omega
  · intro b hb
    rw [List.length_append, List.length_singleton]
    cases List.mem_cons.mp hb with
    | inl heq => omega
    | inr hmem => exact Nat.lt_succ_of_lt (h.refs_lt b hmem)

/-- The references to one object change, and its cell with them. -/
theorem Exact.set (h : Exact c refs) (hlt : a < c.cells.length) {cell : Option Nat} {released : List Nat}
    (hcell : cell = if refs'.count a = 0 then none else some (refs'.count a))
    (hgone : released.count a = if refs'.count a = 0 then 1 else 0)
    (hother : ∀ b, a ≠ b → refs'.count b = refs.count b ∧ released.count b = c.released.count b)
    (hrefs : ∀ b ∈ refs', b < c.cells.length) : Exact ⟨c.cells.set a cell, released⟩ refs' := by
  constructor
  · intro b hb
    rw [List.length_set] at hb
    by_cases hab : a = b
    · subst hab
      rw [List.getElem?_set_self hlt, hcell]
    · rw [List.getElem?_set_ne hab, h.cell_eq b hb, (hother b hab).1]
  · intro b
    rw [List.length_set]
    by_cases hab : a = b
    · subst hab
      rw [hgone]
      simp only [hlt, true_and]
    · rw [(hother b hab).2, h.released_eq, (hother b hab).1]
  · intro b hb
    rw [List.length_set]
    exact hrefs b hb

/-- Another reference to an object that is held. -/
theorem Exact.take (h : Exact c refs) (ha : a ∈ refs) :
    Exact ⟨c.cells.set a (some (refs.count a + 1)), c.released⟩ (a :: refs) := by
  obtain ⟨hlt, -, hpos⟩ := h.held ha
  refine h.set hlt ?_ ?_ (fun b hab => ⟨List.count_cons_of_ne hab, rfl⟩) ?_
  · rw [List.count_cons_self, if_neg (by omega)]
  · rw [h.released_eq, List.count_cons_self, if_neg (by omega), if_neg (by omega)]
  · exact List.forall_mem_cons.mpr ⟨hlt, h.refs_lt⟩

/-- One of several references is given up. -/
theorem Exact.drop (h : Exact c (a :: refs)) (ha : a ∈ refs) :
    Exact ⟨c.cells.set a (some (refs.count a)), c.released⟩ refs := by
  have hpos := List.count_pos_iff.mpr ha
  have hheld := List.forall_mem_cons.mp h.refs_lt
  refine h.set hheld.1 ?_ ?_ (fun b hab => ⟨(List.count_cons_of_ne hab).symm, rfl⟩) hheld.2
  · rw [if_neg (by omega)]
  · rw [h.released_eq, List.count_cons_self, if_neg (by omega), if_neg (by omega)]

/-- The last reference is given up. -/
theorem Exact.release (h : Exact c (a :: refs)) (ha : a ∉ refs) :
    Exact ⟨c.cells.set a none, c.released ++ [a]⟩ refs := by
  have hzero := List.count_eq_zero.mpr ha
  have hheld := List.forall_mem_cons.mp h.refs_lt
  refine h.set hheld.1 ?_ ?_ (fun b hab => ⟨(List.count_cons_of_ne hab).symm, ?_⟩) hheld.2
  · rw [if_pos hzero]
  · rw [List.count_append, h.released_eq, List.count_cons_self, if_neg (by omega), if_pos hzero,
      List.count_singleton_self]
  · have hother : [a].count b = 0 := List.count_eq_zero.mpr (by simpa using Ne.symm hab)
    rw [List.count_append, hother, Nat.add_zero]

end RefCount
