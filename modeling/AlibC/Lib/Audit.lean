import AlibC.Lib.Ledger

/-! Handling that is accounted for: what it loses is told, and whether the state is still sound after it.
A fault may come at once, or when what has been spoiled is used. -/
namespace Machine

open CLang

/-- A ledger, what an action lets go of without giving it back, an invariant, and whether everything that
is held can still be used. -/
structure Audit (σ ω κ : Type) extends Ledger σ ω κ where
  leaves : ω → List κ
  Inv : σ → Prop
  Clean : σ → Prop

namespace Audit

variable {σ ω ι κ : Type} {a : Audit σ ω κ} {s s' s'' : σ} {as bs : List ω} {good good' : Prop}
  {lost lost' : List κ} {r : Outcome (List ω × σ)}

/-- What is held is accounted for, `lost` is let go of, and `good` decides if the state stays sound. -/
structure Keeps (a : Audit σ ω κ) (good : Prop) (lost : List κ) (s : σ) (as : List ω) (s' : σ) : Prop where
  inv : a.Inv s'
  balanced : a.toLedger.Balanced s as s'
  left : as.flatMap a.leaves = lost
  clean : a.Clean s' ↔ a.Clean s ∧ good

theorem Keeps.refl (h : a.Inv s) : a.Keeps True [] s [] s :=
  ⟨h, .refl s, rfl, (and_iff_left trivial).symm⟩

theorem Keeps.trans (h : a.Keeps good lost s as s') (h' : a.Keeps good' lost' s' bs s'') :
    a.Keeps (good ∧ good') (lost ++ lost') s (as ++ bs) s'' :=
  ⟨h'.inv, h.balanced.trans h'.balanced, by rw [List.flatMap_append, h.left, h'.left], by
    rw [h'.clean, h.clean, and_assoc]⟩

/-- Something is told first. -/
theorem Keeps.cons (h : a.Keeps good lost s as s') {act : ω} (hcomes : a.comes act = [])
    (hgoes : a.goes act = []) (hleaves : a.leaves act = []) : a.Keeps good lost s (act :: as) s' := by
  refine ⟨h.inv, h.balanced.cons hcomes hgoes, ?_, h.clean⟩
  rw [List.flatMap_cons, hleaves, h.left]
  rfl

theorem Keeps.congr (h : a.Keeps good lost s as s') (hgood : good ↔ good') : a.Keeps good' lost s as s' :=
  ⟨h.inv, h.balanced, h.left, by rw [h.clean, hgood]⟩

/-- What comes goes at once, and the state is as it was. -/
theorem Keeps.of_perm (h : a.Inv s) (hp : (as.flatMap a.comes).Perm (as.flatMap a.goes))
    (hl : as.flatMap a.leaves = lost) : a.Keeps True lost s as s :=
  ⟨h, hp.append_right _, hl, (and_iff_left trivial).symm⟩

/-- Whatever the handling ends with, everything is accounted for, and it does not fault where the state is
sound and stays so. -/
structure Handles (a : Audit σ ω κ) (good : Prop) (lost : List κ) (s : σ) (r : Outcome (List ω × σ)) :
    Prop where
  keeps : ∀ as s', r = .ok (as, s') → a.Keeps good lost s as s'
  ends : a.Clean s → good → ∃ as s', r = .ok (as, s')

/-- It does not fault where the state is sound, and all is accounted for. -/
theorem Handles.run (h : a.Handles good lost s r) (hc : a.Clean s) (hg : good) :
    ∃ as s', r = .ok (as, s') ∧ a.Keeps good lost s as s' := by
  obtain ⟨as, s', hr⟩ := h.ends hc hg
  exact ⟨as, s', hr, h.keeps as s' hr⟩

theorem Handles.of_ok (h : a.Keeps good lost s as s') : a.Handles good lost s (.ok (as, s')) := by
  refine ⟨fun as₁ s₁ he => ?_, fun _ _ => ⟨as, s', rfl⟩⟩
  cases he
  exact h

/-- It never comes to an end. -/
theorem Handles.of_fails (h : ∀ as s', r ≠ .ok (as, s')) : a.Handles False lost s r :=
  ⟨fun as s' he => absurd he (h as s'), fun _ hg => hg.elim⟩

theorem Handles.of_error (e : Fault) : a.Handles False lost s (.error e) :=
  .of_fails fun _ _ he => by cases he

/-- What has been spoiled is used. -/
theorem Handles.of_unclean (h : ¬a.Clean s) (e : Fault) : a.Handles good lost s (.error e) :=
  ⟨(fun _ _ he => by cases he), fun hc _ => absurd hc h⟩

theorem Handles.congr (h : a.Handles good lost s r) (hgood : good ↔ good') : a.Handles good' lost s r :=
  ⟨fun as s' he => (h.keeps as s' he).congr hgood, fun hc hg => h.ends hc (hgood.mpr hg)⟩

/-- Something is told before. -/
theorem Handles.tell (h : a.Handles good lost s r) {act : ω} (hcomes : a.comes act = [])
    (hgoes : a.goes act = []) (hleaves : a.leaves act = []) :
    a.Handles good lost s (r >>= fun x => .ok (act :: x.1, x.2)) := by
  refine ⟨fun acts s₁ he => ?_, fun hc hg => ?_⟩
  · obtain ⟨⟨as, s'⟩, hr, he⟩ := bind_eq_ok.mp he
    cases he
    exact (h.keeps as _ hr).cons hcomes hgoes hleaves
  · obtain ⟨as, s', hr⟩ := h.ends hc hg
    exact ⟨act :: as, s', by rw [hr]; rfl⟩

/-- One thing is done after another. -/
theorem Handles.andThen (h : a.Handles good lost s r) {f : σ → Outcome (List ω × σ)}
    (hf : ∀ as s', r = .ok (as, s') → a.Inv s' → a.Handles good' lost' s' (f s')) :
    a.Handles (good ∧ good') (lost ++ lost') s
      (r >>= fun x => (f x.2).map fun y => (x.1 ++ y.1, y.2)) := by
  refine ⟨fun acts s₁ he => ?_, fun hc hg => ?_⟩
  · obtain ⟨⟨as, s'⟩, hr, he⟩ := bind_eq_ok.mp he
    obtain ⟨⟨bs, s''⟩, hr', he⟩ := map_eq_ok.mp he
    cases he
    have hk := h.keeps as s' hr
    exact hk.trans ((hf as s' hr hk.inv).keeps bs _ hr')
  · obtain ⟨as, s', hr⟩ := h.ends hc hg.1
    have hk := h.keeps as s' hr
    obtain ⟨bs, s'', hr'⟩ := (hf as s' hr hk.inv).ends (hk.clean.mpr ⟨hc, hg.1⟩) hg.2
    exact ⟨as ++ bs, s'', by rw [hr, ok_bind, hr']; rfl⟩

/-- What is so of every admitted step is so of every admitted run: the run loses what its steps lose, and
is sound exactly where each of them is. -/
theorem run_handles {step : σ → ι → Outcome (List ω × σ)} {Ok Good : σ → ι → Prop} {lost : ι → List κ}
    (hstep : ∀ s i, a.Inv s → Ok s i → a.Handles (Good s i) (lost i) s (step s i)) (is : List ι) :
    ∀ s : σ, a.Inv s → AllSteps step Ok s is → a.Handles (AllSteps step Good s is) (is.flatMap lost) s
      ((run step s is).map fun r => (r.1.flatten, r.2)) := by
  induction is with
  | nil => exact fun s hs => fun _ => .of_ok (.refl hs)
  | cons i is ih =>
    intro s hs hok
    have hrun : (run step s (i :: is)).map (fun r => (r.1.flatten, r.2)) =
        (step s i >>= fun x => ((run step x.2 is).map fun r => (r.1.flatten, r.2)).map
          fun y => (x.1 ++ y.1, y.2)) := by
      rw [run]
      cases step s i with
      | error e => rfl
      | ok x =>
        rw [ok_bind, ok_bind]
        dsimp only
        cases run step x.2 is <;> rfl
    have hboth : a.Handles (Good s i ∧ ∀ as s', step s i = .ok (as, s') → AllSteps step Good s' is)
        (lost i ++ is.flatMap lost) s (step s i >>= fun x =>
          ((run step x.2 is).map fun r => (r.1.flatten, r.2)).map fun y => (x.1 ++ y.1, y.2)) := by
      refine (hstep s i hs hok.1).andThen
        (f := fun s => (run step s is).map fun r => (r.1.flatten, r.2)) fun as s' he hs' => ?_
      refine (ih s' hs' (hok.2 as s' he)).congr ⟨fun hall as₁ s₁ he₁ => ?_, fun hall => hall as s' he⟩
      rw [he] at he₁
      cases he₁
      exact hall
    rw [hrun]
    exact hboth

/-- A run from a sound state ends in one exactly where each of its steps is good. -/
theorem run_clean_iff {step : σ → ι → Outcome (List ω × σ)} {Ok Good : σ → ι → Prop} {lost : ι → List κ}
    (hstep : ∀ s i, a.Inv s → Ok s i → a.Handles (Good s i) (lost i) s (step s i)) {is : List ι}
    (hs : a.Inv s) (hc : a.Clean s) (hok : AllSteps step Ok s is) :
    (∃ os s', run step s is = .ok (os, s') ∧ a.Clean s') ↔ AllSteps step Good s is := by
  have hrun := run_handles hstep is s hs hok
  constructor
  · rintro ⟨os, s', hr, hc'⟩
    have hk := hrun.keeps os.flatten s' (by rw [hr]; rfl)
    exact (hk.clean.mp hc').2
  · intro hgood
    obtain ⟨acts, s', hr⟩ := hrun.ends hc hgood
    obtain ⟨⟨os, s₁⟩, hos, he⟩ := map_eq_ok.mp hr
    cases he
    exact ⟨os, s₁, hos, (hrun.keeps _ _ hr).clean.mpr ⟨hc, hgood⟩⟩

end Audit

end Machine
