import Mathlib.Tactic.Common

/-! Queues that keep so many items at most, and give up the oldest one for a new one. -/

/-- The items that were given up, and those that are held, each from the oldest on. -/
structure BoundedQueue (ε : Type) where
  gone : List ε
  held : List ε

namespace BoundedQueue

variable {ε : Type}

def empty : BoundedQueue ε := ⟨[], []⟩

def pop : BoundedQueue ε → BoundedQueue ε
  | ⟨gone, []⟩ => ⟨gone, []⟩
  | ⟨gone, x :: held⟩ => ⟨gone ++ [x], held⟩

def append (q : BoundedQueue ε) (x : ε) : BoundedQueue ε := { q with held := q.held ++ [x] }

def push (m : Nat) (q : BoundedQueue ε) (x : ε) : BoundedQueue ε :=
  if (q.append x).held.length > m then (q.append x).pop else q.append x

/-- All of `xs` are there in order: first what was given up, then what is held. -/
structure Within (m : Nat) (q : BoundedQueue ε) (xs : List ε) : Prop where
  split : xs = q.gone ++ q.held
  bound : q.held.length ≤ m

variable {m : Nat} {q : BoundedQueue ε} {xs : List ε}

theorem within_empty (m : Nat) : Within m (empty : BoundedQueue ε) [] := ⟨rfl, Nat.zero_le m⟩

@[simp] theorem length_append (q : BoundedQueue ε) (x : ε) :
    (q.append x).held.length = q.held.length + 1 :=
  List.length_append

@[simp] theorem length_pop (q : BoundedQueue ε) : q.pop.held.length = q.held.length - 1 := by
  obtain ⟨gone, held⟩ := q
  cases held with
  | nil => rfl
  | cons x held => rfl

theorem pop_split (q : BoundedQueue ε) : q.pop.gone ++ q.pop.held = q.gone ++ q.held := by
  obtain ⟨gone, held⟩ := q
  cases held with
  | nil => rfl
  | cons x held => exact List.append_assoc gone [x] held

theorem Within.pop (h : Within m q xs) : Within m q.pop xs := by
  refine ⟨h.split.trans q.pop_split.symm, ?_⟩
  have hbound := h.bound
  rw [length_pop]
  omega

theorem Within.push (h : Within m q xs) (x : ε) : Within m (q.push m x) (xs ++ [x]) := by
  have hsplit : xs ++ [x] = (q.append x).gone ++ (q.append x).held := by
    rw [h.split, List.append_assoc]
    rfl
  have hbound := h.bound
  rw [BoundedQueue.push]
  split
  · refine ⟨hsplit.trans (q.append x).pop_split.symm, ?_⟩
    rw [length_pop, length_append]
    omega
  · exact ⟨hsplit, by omega⟩

end BoundedQueue
