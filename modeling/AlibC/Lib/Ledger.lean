import AlibC.Lib.Machine
import Mathlib.Data.List.Perm.Basic
import Mathlib.Data.List.Count

/-! What a machine takes over and gives away. Of all that came in, each is still held or has gone out. -/
namespace Machine

open CLang

variable {σ ι ω κ : Type}

/-- What is held in a state, and what an action takes over and gives away. -/
structure Ledger (σ ω κ : Type) where
  held : σ → List κ
  comes : ω → List κ
  goes : ω → List κ

namespace Ledger

variable {b : Ledger σ ω κ} {s s' s'' : σ} {as bs : List ω}

/-- Between `s` and `s'`, with the actions `as`, nothing is lost and nothing goes out twice. -/
def Balanced (b : Ledger σ ω κ) (s : σ) (as : List ω) (s' : σ) : Prop :=
  (as.flatMap b.comes ++ b.held s).Perm (as.flatMap b.goes ++ b.held s')

theorem balanced_iff [DecidableEq κ] : b.Balanced s as s' ↔ ∀ k,
    (as.flatMap b.comes).count k + (b.held s).count k =
      (as.flatMap b.goes).count k + (b.held s').count k := by
  rw [Balanced, List.perm_iff_count]
  simp only [List.count_append]

/-- Actions that concern nothing that is counted. -/
theorem Balanced.of_none (hs : b.held s' = b.held s) (h : ∀ a ∈ as, b.comes a = [] ∧ b.goes a = []) :
    b.Balanced s as s' := by
  rw [Balanced, List.flatMap_eq_nil_iff.mpr fun a ha => (h a ha).1,
    List.flatMap_eq_nil_iff.mpr fun a ha => (h a ha).2, hs]

theorem Balanced.refl (s : σ) : b.Balanced s [] s := List.Perm.refl _

theorem Balanced.trans (h : b.Balanced s as s') (h' : b.Balanced s' bs s'') :
    b.Balanced s (as ++ bs) s'' := by
  classical
  rw [balanced_iff] at h h' ⊢
  intro k
  have := h k
  have := h' k
  rw [List.flatMap_append, List.flatMap_append, List.count_append, List.count_append]
  omega

/-- An action that concerns nothing that is counted, before others. -/
theorem Balanced.cons (h : b.Balanced s as s') {a : ω} (hcomes : b.comes a = []) (hgoes : b.goes a = []) :
    b.Balanced s (a :: as) s' := by
  rw [Balanced, List.flatMap_cons, List.flatMap_cons, hcomes, hgoes]
  exact h

/-- Only what is held matters. -/
theorem Balanced.congr (h : b.Balanced s as s') {t t' : σ} (ht : b.held t = b.held s)
    (ht' : b.held t' = b.held s') : b.Balanced t as t' := by
  rw [Balanced, ht, ht']
  exact h

/-- Something is taken over. -/
theorem balanced_take {a : ω} {k : κ} (hcomes : b.comes a = [k]) (hgoes : b.goes a = [])
    (hs : (b.held s').Perm (k :: b.held s)) : b.Balanced s [a] s' := by
  rw [Balanced, List.flatMap_singleton, List.flatMap_singleton, hcomes, hgoes]
  exact hs.symm

/-- Something is given away. -/
theorem balanced_give {a : ω} {k : κ} (hcomes : b.comes a = []) (hgoes : b.goes a = [k])
    (hs : (b.held s).Perm (k :: b.held s')) : b.Balanced s [a] s' := by
  rw [Balanced, List.flatMap_singleton, List.flatMap_singleton, hcomes, hgoes]
  exact hs

/-- Something is taken over first, and given away last. -/
theorem Balanced.bracket (h : b.Balanced s as s') (a a' : ω) (hgoes : b.goes a = [])
    (hcomes : b.comes a' = []) (hback : b.goes a' = b.comes a) : b.Balanced s (a :: (as ++ [a'])) s' := by
  classical
  rw [balanced_iff] at h ⊢
  intro k
  have := h k
  simp only [List.flatMap_cons, List.flatMap_append, List.flatMap_nil, List.count_append, hgoes, hcomes,
    hback, List.count_nil]
  omega

/-- Where every admitted step keeps the balance and an invariant, every admitted run does. -/
theorem run_balanced {step : σ → ι → Outcome (List ω × σ)} {Ok : σ → ι → Prop} {Inv : σ → Prop}
    (hstep : ∀ s i, Inv s → Ok s i → ∃ as s', step s i = .ok (as, s') ∧ Inv s' ∧ b.Balanced s as s') :
    ∀ (is : List ι) (s : σ), Inv s → AllSteps step Ok s is →
      ∃ os s', run step s is = .ok (os, s') ∧ Inv s' ∧ b.Balanced s os.flatten s' := by
  intro is
  induction is with
  | nil => exact fun s hs _ => ⟨[], s, rfl, hs, .refl s⟩
  | cons i is ih =>
    intro s hs hok
    obtain ⟨as, s₁, he, h₁, hb⟩ := hstep s i hs hok.1
    obtain ⟨os, s₂, hr, h₂, hb'⟩ := ih s₁ h₁ (hok.2 as s₁ he)
    exact ⟨as :: os, s₂, run_cons he hr, h₂, hb.trans hb'⟩

/-- The same for a machine that cannot fault. -/
theorem trace_balanced {step : σ → ι → List ω × σ} {Inv : σ → Prop}
    (hstep : ∀ s i, Inv s → Inv (step s i).2 ∧ b.Balanced s (step s i).1 (step s i).2) (is : List ι) :
    ∀ s : σ, Inv s → Inv (trace step s is).2 ∧ b.Balanced s (trace step s is).1.flatten (trace step s is).2 := by
  induction is with
  | nil => exact fun s hs => ⟨hs, .refl s⟩
  | cons i is ih =>
    intro s hs
    obtain ⟨h₁, hb⟩ := hstep s i hs
    obtain ⟨h₂, hb'⟩ := ih _ h₁
    exact ⟨h₂, hb.trans hb'⟩

end Ledger

end Machine
