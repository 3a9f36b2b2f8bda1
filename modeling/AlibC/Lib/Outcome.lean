import Mathlib.Tactic.Common

/-! Results of C computations. A step that leaves the guarantees of the language
stops with a fault; nothing is assumed about what a real machine does then. -/
namespace CLang

/-- The ways a computation can leave defined behaviour. -/
inductive Fault where
  | nullDeref
  | outOfBounds
  /-- A pointer into a block that was freed or moved is used. -/
  | dangling
  /-- `memcpy` between ranges that share a byte. -/
  | overlap
  /-- A loop that never ends. -/
  | diverges
  /-- A thread locks a mutex it already holds. -/
  | deadlock
  /-- A result of signed arithmetic that its type cannot hold. -/
  | overflow
deriving DecidableEq, Repr

abbrev Outcome (α : Type) := Except Fault α

variable {α β : Type}

@[simp] theorem ok_bind (a : α) (f : α → Outcome β) : (Except.ok a >>= f) = f a := rfl

@[simp] theorem error_bind (e : Fault) (f : α → Outcome β) :
    ((Except.error e : Outcome α) >>= f) = .error e := rfl

@[simp] theorem pure_ok (a : α) : (pure a : Outcome α) = .ok a := rfl

@[simp] theorem throw_error (e : Fault) : (throw e : Outcome α) = .error e := rfl

/-- A computation that ended without a fault went through each of its parts. -/
theorem bind_eq_ok {x : Outcome α} {f : α → Outcome β} {b : β} :
    (x >>= f) = .ok b ↔ ∃ a, x = .ok a ∧ f a = .ok b := by
  cases x with
  | error e => simp
  | ok a => simp

theorem map_eq_ok {x : Outcome α} {f : α → β} {b : β} :
    x.map f = .ok b ↔ ∃ a, x = .ok a ∧ f a = b := by
  cases x with
  | error e => simp [Except.map]
  | ok a => simp [Except.map]

/-- A pointer that is dereferenced must not be `NULL`. -/
def deref (p : Option α) : Outcome α :=
  match p with
  | none => .error .nullDeref
  | some a => .ok a

@[simp] theorem deref_some (a : α) : deref (some a) = .ok a := rfl

@[simp] theorem deref_none : deref (none : Option α) = .error .nullDeref := rfl

/-- The result of arithmetic on `long`. -/
def checkLong (n : Int) : Outcome Int :=
  if -9223372036854775808 ≤ n ∧ n ≤ 9223372036854775807 then .ok n else .error .overflow

/-- The result of arithmetic on `int`. -/
def checkInt (n : Int) : Outcome Int :=
  if -2147483648 ≤ n ∧ n ≤ 2147483647 then .ok n else .error .overflow

theorem checkInt_eq {n : Nat} (h : n ≤ 2147483647) : checkInt n = .ok n := if_pos (by omega)

theorem checkInt_overflow {n : Nat} (h : 2147483647 < n) : checkInt n = .error .overflow :=
  if_neg (by omega)

section Ensures

/-- If the computation ends without a fault, its result is as told. -/
def Ensures (r : Outcome α) (P : α → Prop) : Prop := ∀ a, r = .ok a → P a

variable {r : Outcome α} {f : α → Outcome β} {P : α → Prop} {R : β → Prop}

theorem ensures_ok {a : α} (h : P a) : Ensures (.ok a) P := by
  intro b hb
  cases hb
  exact h

theorem ensures_error (e : Fault) (P : α → Prop) : Ensures (.error e) P := fun _ h => by cases h

/-- What the first part ensures is given to the second one. -/
theorem Ensures.bind (hr : Ensures r P) (hf : ∀ a, P a → Ensures (f a) R) :
    Ensures (r >>= f) R := by
  intro b hb
  obtain ⟨a, ha, hb⟩ := bind_eq_ok.mp hb
  exact hf a (hr a ha) b hb

theorem Ensures.ite {c : Prop} [Decidable c] {s : Outcome α} (hr : c → Ensures r P)
    (hs : ¬c → Ensures s P) : Ensures (if c then r else s) P := by
  split
  · exact hr ‹_›
  · exact hs ‹_›

/-- The second part ensures it whatever the first one gives. -/
theorem Ensures.of_any (hf : ∀ a, Ensures (f a) R) : Ensures (r >>= f) R := by
  intro b hb
  obtain ⟨a, -, hb⟩ := bind_eq_ok.mp hb
  exact hf a b hb

end Ensures

end CLang
