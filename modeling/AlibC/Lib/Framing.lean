import AlibC.Lib.Machine
import Mathlib.Data.List.Basic

/-! Messages cut out of a stream one after another, and why it does not matter in
which pieces the stream arrives. -/
namespace Framing

variable {α β ι : Type}

/-- Takes one message from the front of a stream, or waits for more of it. More input
never changes a message that was found. -/
structure Parser (α β : Type) where
  parse : List α → Option (β × List α)
  rest_lt : ∀ {s : List α} {m : β} {r : List α}, parse s = some (m, r) → r.length < s.length
  parse_append : ∀ {s : List α} {m : β} {r : List α} (t : List α),
    parse s = some (m, r) → parse (s ++ t) = some (m, r ++ t)

namespace Parser

variable (P : Parser α β)

/-- All messages of the stream, and what is left to wait with. -/
def decode (s : List α) : List β × List α :=
  match h : P.parse s with
  | none => ([], s)
  | some (m, r) =>
    have := P.rest_lt h
    (m :: (decode r).1, (decode r).2)
termination_by s.length

theorem decode_none {s : List α} (h : P.parse s = none) : P.decode s = ([], s) := by
  rw [decode]
  split
  · rfl
  · simp_all

theorem decode_some {s r : List α} {m : β} (h : P.parse s = some (m, r)) :
    P.decode s = (m :: (P.decode r).1, (P.decode r).2) := by
  rw [decode]
  split
  · simp_all
  · rename_i m' r' h'
    obtain ⟨rfl, rfl⟩ : m' = m ∧ r' = r := by simpa using h'.symm.trans h
    rfl

/-- Induction over the messages of a stream. -/
theorem stream_induction {motive : List α → Prop}
    (wait : ∀ s, P.parse s = none → motive s)
    (message : ∀ s m r, P.parse s = some (m, r) → motive r → motive s) :
    ∀ s, motive s := by
  intro s
  induction hn : s.length using Nat.strongRecOn generalizing s with
  | _ n ih =>
    subst hn
    cases h : P.parse s with
    | none => exact wait s h
    | some mr => exact message s mr.1 mr.2 h (ih _ (P.rest_lt h) _ rfl)

/-- Decoding stops only where it has to wait. -/
theorem parse_decode (s : List α) : P.parse (P.decode s).2 = none := by
  induction s using P.stream_induction with
  | wait s h => rw [P.decode_none h, h]
  | message s m r h ih => rw [P.decode_some h, ih]

theorem decode_append (s t : List α) : P.decode (s ++ t) =
    ((P.decode s).1 ++ (P.decode ((P.decode s).2 ++ t)).1,
      (P.decode ((P.decode s).2 ++ t)).2) := by
  induction s using P.stream_induction with
  | wait s h => simp [P.decode_none h]
  | message s m r h ih => simp [P.decode_some h, P.decode_some (P.parse_append t h), ih]

/-- One piece of the stream arrives behind the bytes that wait. -/
def feed (waiting piece : List α) : List β × List α := P.decode (waiting ++ piece)

/-- Fed piece by piece, the stream gives the messages it gives as a whole. -/
theorem trace_feed (piece : ι → List α) (is : List ι) : ∀ waiting, P.parse waiting = none →
    ((Machine.trace (fun w i => P.feed w (piece i)) waiting is).1.flatten,
      (Machine.trace (fun w i => P.feed w (piece i)) waiting is).2) =
        P.decode (waiting ++ (is.map piece).flatten) := by
  induction is with
  | nil =>
    intro waiting h
    simp [Machine.trace, P.decode_none h]
  | cons i is ih =>
    intro waiting _
    have h := ih (P.feed waiting (piece i)).2 (P.parse_decode _)
    rw [List.map_cons, List.flatten_cons, ← List.append_assoc,
      P.decode_append (waiting ++ piece i)]
    simp only [Machine.trace, List.flatten_cons, feed] at h ⊢
    rw [← h]

/-- What each step of such a run may assume can be checked on the stream. -/
theorem allTrace_feed (piece : ι → List α) {Ok : List α → ι → Prop} (is : List ι) :
    ∀ waiting, P.parse waiting = none →
      (∀ pre i post, is = pre ++ i :: post →
        Ok (P.decode (waiting ++ (pre.map piece).flatten)).2 i) →
      Machine.AllTrace (fun w i => P.feed w (piece i)) Ok waiting is := by
  induction is with
  | nil => intro waiting _ _; trivial
  | cons i is ih =>
    intro waiting hw h
    refine ⟨by simpa [P.decode_none hw] using h [] i is rfl, ih _ (P.parse_decode _) ?_⟩
    intro pre j post hs
    have := h (i :: pre) j post (by rw [hs]; rfl)
    rwa [List.map_cons, List.flatten_cons, ← List.append_assoc, P.decode_append] at this

/-- The bytes that wait were all received. -/
theorem length_decode_le (s : List α) : (P.decode s).2.length ≤ s.length := by
  induction s using P.stream_induction with
  | wait s h => simp [P.decode_none h]
  | message s m r h ih =>
    have := P.rest_lt h
    simp only [P.decode_some h]
    omega

end Parser

end Framing
