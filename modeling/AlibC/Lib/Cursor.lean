import AlibC.Lib.Machine

/-! A cursor between the items of a list. -/

/-- The items before the cursor, nearest first, and those after it. -/
structure Cursor (α : Type) where
  passed : List α
  ahead : List α

namespace Cursor

open Machine
variable {α : Type}

inductive Move where
  | next
  | prev
  | toBegin
  | toEnd
deriving DecidableEq, Repr

/-- The item that follows, if there is one, with the cursor behind it. -/
def next : Cursor α → Option α × Cursor α
  | ⟨passed, []⟩ => (none, ⟨passed, []⟩)
  | ⟨passed, a :: ahead⟩ => (some a, ⟨a :: passed, ahead⟩)

/-- The list read from its other end. -/
def flip (c : Cursor α) : Cursor α := ⟨c.ahead, c.passed⟩

def prev (c : Cursor α) : Option α × Cursor α := (c.flip.next.1, c.flip.next.2.flip)

/-- The whole list. -/
def items (c : Cursor α) : List α := c.passed.reverse ++ c.ahead

def step (c : Cursor α) : Move → Option α × Cursor α
  | .next => c.next
  | .prev => c.prev
  | .toBegin => (none, ⟨[], c.items⟩)
  | .toEnd => (none, ⟨c.items.reverse, []⟩)

@[simp] theorem flip_flip (c : Cursor α) : c.flip.flip = c := rfl

@[simp] theorem items_flip (c : Cursor α) : c.flip.items = c.items.reverse := by
  simp [items, flip]

theorem items_next (c : Cursor α) : c.next.2.items = c.items := by
  obtain ⟨passed, _ | ⟨a, ahead⟩⟩ := c
  · rfl
  · simp [next, items]

/-- A cursor stays in its list. -/
theorem items_step (c : Cursor α) (m : Move) : (c.step m).2.items = c.items := by
  cases m with
  | next => exact items_next c
  | prev => rw [step, prev, items_flip, items_next, items_flip, List.reverse_reverse]
  | toBegin => exact List.nil_append _
  | toEnd => simp [step, items]

/-- Every item that is ahead is met once, in order. -/
theorem trace_next (ahead : List α) (k : Nat) : ∀ passed : List α,
    trace step ⟨passed, ahead⟩ (List.replicate (ahead.length + k) .next) =
      (ahead.map some ++ List.replicate k none, ⟨ahead.reverse ++ passed, []⟩) := by
  induction ahead with
  | nil =>
    intro passed
    rw [List.length_nil, Nat.zero_add]
    induction k with
    | zero => rfl
    | succ k ih =>
      rw [List.replicate_succ, trace, step, next, ih]
      rfl
  | cons a ahead ih =>
    intro passed
    rw [List.length_cons, Nat.succ_add, List.replicate_succ, trace, step, next, ih]
    simp

/-- To go back is to go on in the list read from its other end. -/
theorem trace_prev (n : Nat) : ∀ c : Cursor α, trace step c (List.replicate n .prev) =
    ((trace step c.flip (List.replicate n .next)).1, (trace step c.flip (List.replicate n .next)).2.flip) := by
  induction n with
  | zero => exact fun _ => rfl
  | succ n ih =>
    intro c
    rw [List.replicate_succ, List.replicate_succ, trace, trace, ih]
    rfl

/-- There and back: every item in order, and every item in the reverse order. -/
theorem trace_next_prev (items : List α) (k l : Nat) :
    (trace step ⟨[], items⟩ (List.replicate (items.length + k) .next ++
      List.replicate (items.length + l) .prev)).1 =
      items.map some ++ List.replicate k none ++ (items.reverse.map some ++ List.replicate l none) := by
  have hback := trace_next items.reverse l []
  rw [List.length_reverse] at hback
  rw [trace_append, trace_next, trace_prev, List.append_nil]
  change _ ++ (trace step ⟨[], items.reverse⟩ _).1 = _
  rw [hback]

end Cursor
