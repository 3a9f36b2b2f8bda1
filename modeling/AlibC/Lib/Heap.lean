import AlibC.Lib.Outcome
import AlibC.Lib.Linked
import Mathlib.Data.List.Perm.Subperm

/-! Objects of one type and their addresses. An address is never given out twice. -/
namespace CLang

open Function

/-- The objects allocated so far, in order; `none` stands where one was freed. -/
structure Heap (α : Type) where
  cells : List (Option α)
deriving DecidableEq, Repr

namespace Heap

variable {α : Type} {h : Heap α} {a b : Nat} {x : α}

/-- The object at an address. -/
def cell (h : Heap α) (a : Nat) : Option α := h.cells[a]?.join

/-- `*p`. -/
def get (h : Heap α) (p : Option Nat) : Outcome α :=
  match p with
  | none => .error .nullDeref
  | some a =>
    match h.cell a with
    | none => .error .dangling
    | some x => .ok x

def put (h : Heap α) (a : Nat) (v : Option α) : Heap α := ⟨h.cells.set a v⟩

/-- An assignment to members of `*p`. -/
def modify (h : Heap α) (p : Option Nat) (f : α → α) : Outcome (Heap α) :=
  match p with
  | none => .error .nullDeref
  | some a =>
    match h.cell a with
    | none => .error .dangling
    | some x => .ok (h.put a (some (f x)))

/-- The address that `malloc` returns next. -/
def fresh (h : Heap α) : Nat := h.cells.length

def alloc (h : Heap α) (x : α) : Heap α := ⟨h.cells ++ [some x]⟩

theorem lt_of_cell (hx : h.cell a = some x) : a < h.cells.length := by
  by_contra hge
  rw [cell, List.getElem?_eq_none (by omega)] at hx
  cases hx

theorem get_eq (hx : h.cell a = some x) : h.get (some a) = .ok x := by
  rw [get, hx]

theorem modify_eq (hx : h.cell a = some x) (f : α → α) :
    h.modify (some a) f = .ok (h.put a (some (f x))) := by
  rw [modify, hx]

theorem cell_put (hx : h.cell a = some x) (v : Option α) :
    (h.put a v).cell = update h.cell a v := by
  funext c
  by_cases hc : c = a
  · subst hc
    rw [update_self, cell, put, List.getElem?_set_self (lt_of_cell hx)]
    rfl
  · rw [update_of_ne hc, cell, put, List.getElem?_set_ne (Ne.symm hc)]
    rfl

/-- An assignment leaves the other objects alone. -/
theorem cell_modify {h' : Heap α} {p : Option Nat} {f : α → α} (hr : h.modify p f = .ok h')
    (hb : p ≠ some b) : h'.cell b = h.cell b := by
  cases p with
  | none => cases hr
  | some a =>
    rw [modify] at hr
    cases hx : h.cell a with
    | none =>
      rw [hx] at hr
      cases hr
    | some x =>
      rw [hx] at hr
      cases hr
      rw [cell_put hx, update_of_ne (fun hc => hb (by rw [hc]))]

/-- An assignment to other members leaves a member of every object alone. -/
theorem map_cell_modify {β : Type} {h' : Heap α} {p : Option Nat} {f : α → α} {g : α → β}
    (hr : h.modify p f = .ok h') (hg : ∀ x, g (f x) = g x) (c : Nat) :
    (h'.cell c).map g = (h.cell c).map g := by
  cases p with
  | none => cases hr
  | some a =>
    rw [modify] at hr
    cases hx : h.cell a with
    | none =>
      rw [hx] at hr
      cases hr
    | some x =>
      rw [hx] at hr
      cases hr
      rw [cell_put hx]
      by_cases hc : c = a
      · rw [hc, update_self, hx, Option.map_some, Option.map_some, hg]
      · rw [update_of_ne hc]

theorem cell_alloc (h : Heap α) (x : α) :
    (h.alloc x).cell = update h.cell h.fresh (some x) := by
  funext c
  by_cases hc : c = h.fresh
  · subst hc
    rw [update_self, cell, alloc, fresh, List.getElem?_append_right (Nat.le_refl _), Nat.sub_self]
    rfl
  · rw [update_of_ne hc, cell, alloc, cell]
    by_cases hlt : c < h.cells.length
    · rw [List.getElem?_append_left hlt]
    · have hgt : h.cells.length < c := by
        rw [fresh] at hc
        omega
      rw [List.getElem?_eq_none (by simp; omega), List.getElem?_eq_none (by omega)]

@[simp] theorem fresh_put (h : Heap α) (a : Nat) (v : Option α) : (h.put a v).fresh = h.fresh :=
  List.length_set

@[simp] theorem fresh_alloc (h : Heap α) (x : α) : (h.alloc x).fresh = h.fresh + 1 := by
  rw [fresh, alloc, List.length_append, List.length_singleton, fresh]

theorem put_put (h : Heap α) (a : Nat) (v w : Option α) : (h.put a v).put a w = h.put a w :=
  congrArg Heap.mk (List.set_set v)

/-- Writing what is there already. -/
theorem put_cell (hx : h.cell a = some x) : h.put a (some x) = h := by
  refine congrArg Heap.mk (List.ext_getElem? fun i => ?_)
  rw [List.getElem?_set]
  split
  · subst i
    rw [if_pos (lt_of_cell hx)]
    exact (Option.join_eq_some_iff.mp hx).symm
  · rfl

theorem cell_fresh (h : Heap α) : h.cell h.fresh = none := by
  rw [cell, fresh, List.getElem?_eq_none (Nat.le_refl _)]
  rfl

/-- The links of the objects that are alive. -/
def links (next : α → Option Nat) (h : Heap α) (a : Nat) : Option (Option Nat) :=
  (h.cell a).map next

variable {next : α → Option Nat}

theorem links_eq (hx : h.cell a = some x) : links next h a = some (next x) := by
  rw [links, hx]
  rfl

theorem links_put (hx : h.cell a = some x) (v : Option α) :
    links next (h.put a v) = update (links next h) a (v.map next) := by
  funext c
  rw [links, cell_put hx]
  by_cases hc : c = a
  · rw [hc, update_self, update_self]
  · rw [update_of_ne hc, update_of_ne hc, links]

theorem links_alloc (h : Heap α) (x : α) :
    links next (h.alloc x) = update (links next h) h.fresh (some (next x)) := by
  funext c
  rw [links, cell_alloc]
  by_cases hc : c = h.fresh
  · rw [hc, update_self, update_self]
    rfl
  · rw [update_of_ne hc, update_of_ne hc, links]

/-- The objects of a chain are alive. -/
theorem exists_cell {p q : Option Nat} {xs : List Nat} (hs : Linked.Seg (links next h) p xs q)
    (ha : a ∈ xs) : ∃ x, h.cell a = some x := by
  obtain ⟨r, hr⟩ := hs.exists_link ha
  obtain ⟨x, hx, -⟩ := Option.map_eq_some_iff.mp hr
  exact ⟨x, hx⟩

/-- A chain that ends has no more objects than were ever allocated. -/
theorem length_le {p : Option Nat} {xs : List Nat} (hs : Linked.Seg (links next h) p xs none) :
    xs.length ≤ h.cells.length := by
  have hsub : xs ⊆ List.range h.cells.length := by
    intro a ha
    obtain ⟨x, hx⟩ := exists_cell hs ha
    exact List.mem_range.mpr (lt_of_cell hx)
  have hle := (hs.nodup.subperm hsub).length_le
  rwa [List.length_range] at hle

end Heap

end CLang
