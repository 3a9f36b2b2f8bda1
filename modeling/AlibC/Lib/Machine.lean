import AlibC.Lib.Outcome

/-! Finite runs of a machine whose steps return an output and may fault, and the
two induction rules every result about runs goes through. -/
namespace Machine

open CLang
variable {σ τ ι ω : Type}

/-- Process the inputs in order and collect the outputs. -/
def run (step : σ → ι → Outcome (ω × σ)) : σ → List ι → Outcome (List ω × σ)
  | s, [] => .ok ([], s)
  | s, i :: is => do
    let (o, s') ← step s i
    let (os, s'') ← run step s' is
    return (o :: os, s'')

/-- The same for a machine that cannot fault. -/
def trace (step : τ → ι → ω × τ) : τ → List ι → List ω × τ
  | t, [] => ([], t)
  | t, i :: is =>
    ((step t i).1 :: (trace step (step t i).2 is).1, (trace step (step t i).2 is).2)

/-- Each step of the run starts in a state that meets `Ok` for its input. -/
def AllSteps (step : σ → ι → Outcome (ω × σ)) (Ok : σ → ι → Prop) : σ → List ι → Prop
  | _, [] => True
  | s, i :: is => Ok s i ∧ ∀ o s', step s i = .ok (o, s') → AllSteps step Ok s' is

/-- The same along a run that cannot fault. -/
def AllTrace (step : τ → ι → ω × τ) (Ok : τ → ι → Prop) : τ → List ι → Prop
  | _, [] => True
  | t, i :: is => Ok t i ∧ AllTrace step Ok (step t i).2 is

@[simp] theorem run_nil (step : σ → ι → Outcome (ω × σ)) (s : σ) :
    run step s [] = .ok ([], s) := rfl

/-- Inputs that stand for others. -/
theorem run_map {κ : Type} (step : σ → ι → Outcome (ω × σ)) (f : κ → ι) (ks : List κ) : ∀ s : σ,
    run step s (ks.map f) = run (fun s k => step s (f k)) s ks := by
  induction ks with
  | nil => exact fun _ => rfl
  | cons k ks ih =>
    intro s
    simp only [List.map_cons, run, ih]

/-- A run goes on where its first part has ended. -/
theorem run_append {step : σ → ι → Outcome (ω × σ)} {is : List ι} (js : List ι) {s' : σ} :
    ∀ {s : σ} {os : List ω}, run step s is = .ok (os, s') →
      run step s (is ++ js) = (run step s' js).map fun r => (os ++ r.1, r.2) := by
  induction is with
  | nil =>
    intro s os h
    cases h
    rw [List.nil_append]
    cases run step s' js <;> rfl
  | cons i is ih =>
    intro s os h
    obtain ⟨⟨o, s₁⟩, he, h⟩ := bind_eq_ok.mp h
    obtain ⟨⟨os', s₂⟩, hr, h⟩ := bind_eq_ok.mp h
    cases h
    rw [List.cons_append, run, he, ok_bind]
    dsimp only
    rw [ih hr]
    cases run step s' js <;> rfl

theorem trace_append (step : τ → ι → ω × τ) (is js : List ι) : ∀ t : τ,
    trace step t (is ++ js) =
      ((trace step t is).1 ++ (trace step (trace step t is).2 js).1,
        (trace step (trace step t is).2 js).2) := by
  induction is with
  | nil => intro t; rfl
  | cons i is ih =>
    intro t
    simp only [List.cons_append, trace, ih]

@[simp] theorem length_trace (step : τ → ι → ω × τ) (is : List ι) : ∀ t : τ,
    (trace step t is).1.length = is.length := by
  induction is with
  | nil => intro t; rfl
  | cons i is ih =>
    intro t
    simp only [trace, List.length_cons, ih]

/-- A machine whose outputs do not depend on its state. -/
theorem trace_map_foldl (f : ι → ω) (g : τ → ι → τ) (is : List ι) : ∀ t : τ,
    trace (fun t i => (f i, g t i)) t is = (is.map f, is.foldl g t) := by
  induction is with
  | nil => intro t; rfl
  | cons i is ih =>
    intro t
    rw [trace, ih (g t i)]
    rfl

/-- The outputs of the first steps are those of a shorter run. -/
theorem take_trace (step : τ → ι → ω × τ) (is : List ι) (t : τ) (k : Nat) :
    (trace step t is).1.take k = (trace step t (is.take k)).1 := by
  have h := trace_append step (is.take k) (is.drop k) t
  rw [List.take_append_drop] at h
  rw [h]
  by_cases hk : k ≤ is.length
  · exact List.take_left' (by simp [hk])
  · rw [List.take_of_length_le (by simp; omega), List.drop_eq_nil_of_le (by omega)]
    simp [trace]

theorem run_cons {step : σ → ι → Outcome (ω × σ)} {s s' s'' : σ} {i : ι} {is : List ι}
    {o : ω} {os : List ω} (h : step s i = .ok (o, s')) (hr : run step s' is = .ok (os, s'')) :
    run step s (i :: is) = .ok (o :: os, s'') := by
  simp [run, h, hr]

theorem AllSteps.cons {step : σ → ι → Outcome (ω × σ)} {Ok : σ → ι → Prop} {s s' : σ} {i : ι}
    {is : List ι} {o : ω} (hi : Ok s i) (he : step s i = .ok (o, s'))
    (h : AllSteps step Ok s' is) : AllSteps step Ok s (i :: is) := by
  refine ⟨hi, fun o₁ s₁ he₁ => ?_⟩
  rw [he] at he₁
  cases he₁
  exact h

theorem AllSteps.of_append {step : σ → ι → Outcome (ω × σ)} {Ok : σ → ι → Prop}
    {is js : List ι} : ∀ {s : σ}, AllSteps step Ok s (is ++ js) → AllSteps step Ok s is := by
  induction is with
  | nil => intro s _; trivial
  | cons i is ih =>
    intro s h
    exact ⟨h.1, fun o s' hs => ih (h.2 o s' hs)⟩

/-- What each admitted input of a run has that ends, the inputs have. -/
theorem AllSteps.forall_mem {step : σ → ι → Outcome (ω × σ)} {Ok : σ → ι → Prop} {P : ι → Prop}
    (hp : ∀ s i, Ok s i → P i) {is : List ι} : ∀ {s s' : σ} {os : List ω}, AllSteps step Ok s is →
      run step s is = .ok (os, s') → ∀ i ∈ is, P i := by
  induction is with
  | nil => exact fun _ _ _ h => absurd h List.not_mem_nil
  | cons i is ih =>
    intro s s' os hok hr
    obtain ⟨⟨o, s₁⟩, he, hr⟩ := bind_eq_ok.mp hr
    obtain ⟨⟨os', s₂⟩, hr', -⟩ := bind_eq_ok.mp hr
    exact List.forall_mem_cons.mpr ⟨hp s i hok.1, ih (hok.2 o s₁ he) hr'⟩

theorem allSteps_of_forall {step : σ → ι → Outcome (ω × σ)} {Ok : σ → ι → Prop} (h : ∀ s i, Ok s i)
    (is : List ι) : ∀ s : σ, AllSteps step Ok s is := by
  induction is with
  | nil => exact fun _ => trivial
  | cons i is ih => exact fun s => ⟨h s i, fun _ s' _ => ih s'⟩

theorem allTrace_of_forall {step : τ → ι → ω × τ} {Ok : τ → ι → Prop} (h : ∀ t i, Ok t i)
    (is : List ι) : ∀ t : τ, AllTrace step Ok t is := by
  induction is with
  | nil => exact fun _ => trivial
  | cons i is ih => exact fun t => ⟨h t i, ih _⟩

theorem AllTrace.of_append {step : τ → ι → ω × τ} {Ok : τ → ι → Prop}
    {is js : List ι} : ∀ {t : τ}, AllTrace step Ok t (is ++ js) → AllTrace step Ok t is := by
  induction is with
  | nil => intro t _; trivial
  | cons i is ih =>
    intro t h
    exact ⟨h.1, ih h.2⟩

/-- Two properties of steps that are the same wherever an invariant holds, and the invariant is kept by
the steps that have them, hold of the same runs. -/
theorem allSteps_congr {step : σ → ι → Outcome (ω × σ)} {Ok P Q : σ → ι → Prop} {Inv : σ → Prop}
    (hiff : ∀ s i, Inv s → Ok s i → (P s i ↔ Q s i))
    (hstep : ∀ s i o s', Inv s → Ok s i → P s i → step s i = .ok (o, s') → Inv s') :
    ∀ (is : List ι) (s : σ), Inv s → AllSteps step Ok s is →
      (AllSteps step P s is ↔ AllSteps step Q s is) := by
  intro is
  induction is with
  | nil => intro s _ _; exact Iff.rfl
  | cons i is ih =>
    intro s hs hok
    have hi := hiff s i hs hok.1
    constructor
    · rintro ⟨hp, hrest⟩
      exact ⟨hi.mp hp, fun o s' he =>
        (ih s' (hstep s i o s' hs hok.1 hp he) (hok.2 o s' he)).mp (hrest o s' he)⟩
    · rintro ⟨hq, hrest⟩
      exact ⟨hi.mpr hq, fun o s' he =>
        (ih s' (hstep s i o s' hs hok.1 (hi.mpr hq) he) (hok.2 o s' he)).mpr (hrest o s' he)⟩

/-- A property that each admitted step keeps exactly on a condition is kept along an admitted run exactly
where every step meets it. -/
theorem allSteps_kept_iff {step : σ → ι → Outcome (ω × σ)} {Ok Q : σ → ι → Prop} {Inv P : σ → Prop}
    (hstep : ∀ s i, Inv s → P s → Ok s i → ∃ o s', step s i = .ok (o, s') ∧ Inv s' ∧ (Q s i ↔ P s'))
    (is : List ι) (s : σ) (hs : Inv s) (hp : P s) (hok : AllSteps step Ok s is) :
    AllSteps step Q s is ↔ AllSteps step (fun s i => ∀ o s', step s i = .ok (o, s') → P s') s is := by
  have hgoes : ∀ s i, Inv s ∧ P s → Ok s i → ∀ o s', step s i = .ok (o, s') → Inv s' ∧ (Q s i ↔ P s') := by
    intro s i hs hi o s' he
    obtain ⟨o₁, s₁, he₁, hinv, hiff⟩ := hstep s i hs.1 hs.2 hi
    rw [he] at he₁
    cases he₁
    exact ⟨hinv, hiff⟩
  refine @allSteps_congr σ ι ω step Ok Q _ (fun s => Inv s ∧ P s) (fun s i hs hi => ?_)
    (fun s i o s' hs hi hq he => ?_) is s ⟨hs, hp⟩ hok
  · obtain ⟨o, s', he, -, -⟩ := hstep s i hs.1 hs.2 hi
    refine ⟨fun hq o₁ s₁ he₁ => (hgoes s i hs hi o₁ s₁ he₁).2.mp hq, fun hall => ?_⟩
    exact (hgoes s i hs hi o s' he).2.mpr (hall o s' he)
  · exact ⟨(hgoes s i hs hi o s' he).1, (hgoes s i hs hi o s' he).2.mp hq⟩

/-- An invariant kept by every admitted step holds wherever an admitted run leads,
and no such run faults. -/
theorem run_invariant {step : σ → ι → Outcome (ω × σ)} {Ok : σ → ι → Prop} {Inv : σ → Prop}
    (hstep : ∀ s i, Inv s → Ok s i → ∃ o s', step s i = .ok (o, s') ∧ Inv s') :
    ∀ (is : List ι) (s : σ), Inv s → AllSteps step Ok s is →
      ∃ os s', run step s is = .ok (os, s') ∧ Inv s' := by
  intro is
  induction is with
  | nil => intro s hs _; exact ⟨[], s, rfl, hs⟩
  | cons i is ih =>
    intro s hs hok
    obtain ⟨o, s', he, hs'⟩ := hstep s i hs hok.1
    obtain ⟨os, s'', hr, hs''⟩ := ih s' hs' (hok.2 o s' he)
    exact ⟨o :: os, s'', run_cons he hr, hs''⟩

/-- What holds of the output of each admitted step holds of every output of an admitted run. -/
theorem run_outputs {step : σ → ι → Outcome (ω × σ)} {Ok : σ → ι → Prop} {Inv : σ → Prop} {Q : ω → Prop}
    (hstep : ∀ s i, Inv s → Ok s i → ∃ o s', step s i = .ok (o, s') ∧ Inv s' ∧ Q o) :
    ∀ (is : List ι) (s : σ), Inv s → AllSteps step Ok s is →
      ∃ os s', run step s is = .ok (os, s') ∧ ∀ o ∈ os, Q o := by
  intro is
  induction is with
  | nil => exact fun s _ _ => ⟨[], s, rfl, fun _ h => absurd h List.not_mem_nil⟩
  | cons i is ih =>
    intro s hs hok
    obtain ⟨o, s', he, hs', ho⟩ := hstep s i hs hok.1
    obtain ⟨os, s'', hr, hos⟩ := ih s' hs' (hok.2 o s' he)
    exact ⟨o :: os, s'', run_cons he hr, List.forall_mem_cons.mpr ⟨ho, hos⟩⟩

/-- What every step keeps that ends at all holds wherever a run ends. -/
theorem run_preserves {step : σ → ι → Outcome (ω × σ)} {Ok : ι → Prop} {Inv : σ → Prop}
    (hstep : ∀ s i o s', Inv s → Ok i → step s i = .ok (o, s') → Inv s') (is : List ι) :
    ∀ s os s', Inv s → (∀ i ∈ is, Ok i) → run step s is = .ok (os, s') → Inv s' := by
  induction is with
  | nil =>
    intro s os s' hs _ hr
    cases hr
    exact hs
  | cons i is ih =>
    intro s os s' hs hok hr
    obtain ⟨⟨o, s₁⟩, he, hr⟩ := bind_eq_ok.mp hr
    obtain ⟨⟨os', s₂⟩, hr', hr⟩ := bind_eq_ok.mp hr
    cases hr
    have hi := List.forall_mem_cons.mp hok
    exact ih s₁ os' _ (hstep s i o s₁ hs hi.1 he) hi.2 hr'

/-- Forward simulation: a step of the concrete machine from related states returns
what the abstract one returns and keeps the states related. -/
theorem run_simulates {step : σ → ι → Outcome (ω × σ)} {astep : τ → ι → ω × τ}
    {R : σ → τ → Prop} {Ok : τ → ι → Prop}
    (hstep : ∀ s t i, R s t → Ok t i →
      ∃ s', step s i = .ok ((astep t i).1, s') ∧ R s' (astep t i).2) :
    ∀ (is : List ι) (s : σ) (t : τ), R s t → AllTrace astep Ok t is →
      ∃ s', run step s is = .ok ((trace astep t is).1, s') ∧ R s' (trace astep t is).2 := by
  intro is
  induction is with
  | nil => intro s t h _; exact ⟨s, rfl, h⟩
  | cons i is ih =>
    intro s t h hok
    obtain ⟨s', he, h'⟩ := hstep s t i h hok.1
    obtain ⟨s'', hr, h''⟩ := ih s' _ h' hok.2
    exact ⟨s'', run_cons he hr, h''⟩

/-- The same where the steps admitted depend on the concrete state. -/
theorem run_simulates_steps {step : σ → ι → Outcome (ω × σ)} {astep : τ → ι → ω × τ}
    {R : σ → τ → Prop} {Ok : σ → ι → Prop}
    (hstep : ∀ s t i, R s t → Ok s i →
      ∃ s', step s i = .ok ((astep t i).1, s') ∧ R s' (astep t i).2) :
    ∀ (is : List ι) (s : σ) (t : τ), R s t → AllSteps step Ok s is →
      ∃ s', run step s is = .ok ((trace astep t is).1, s') ∧ R s' (trace astep t is).2 := by
  intro is
  induction is with
  | nil => intro s t h _; exact ⟨s, rfl, h⟩
  | cons i is ih =>
    intro s t h hok
    obtain ⟨s', he, h'⟩ := hstep s t i h hok.1
    obtain ⟨s'', hr, h''⟩ := ih s' _ h' (hok.2 _ s' he)
    exact ⟨s'', run_cons he hr, h''⟩

/-- Two machines of one kind side by side; each input goes to one of them. -/
def pair (step : σ → ι → Outcome (ω × σ)) : σ × σ → ι ⊕ ι → Outcome (ω × (σ × σ))
  | (s, t), .inl i => do
    let (o, s') ← step s i
    return (o, (s', t))
  | (s, t), .inr i => do
    let (o, t') ← step t i
    return (o, (s, t'))

/-- Each of the two ends as if the other one had been left alone. -/
theorem run_pair {step : σ → ι → Outcome (ω × σ)} {is : List (ι ⊕ ι)} {s t s' t' : σ}
    {os : List ω} (h : run (pair step) (s, t) is = .ok (os, (s', t'))) :
    (∃ os₁, run step s (is.filterMap Sum.getLeft?) = .ok (os₁, s')) ∧
      ∃ os₂, run step t (is.filterMap Sum.getRight?) = .ok (os₂, t') := by
  induction is generalizing s t os with
  | nil =>
    cases h
    exact ⟨⟨[], rfl⟩, ⟨[], rfl⟩⟩
  | cons i is ih =>
    rw [run] at h
    obtain ⟨⟨o, s₁, t₁⟩, hstep, h⟩ := bind_eq_ok.mp h
    obtain ⟨⟨os', s₂, t₂⟩, hrun, h⟩ := bind_eq_ok.mp h
    cases h
    obtain ⟨⟨os₁, hs⟩, ⟨os₂, ht⟩⟩ := ih hrun
    cases i with
    | inl i =>
      obtain ⟨⟨o', s₂⟩, hi, hr⟩ := bind_eq_ok.mp hstep
      cases hr
      have hcons : (Sum.inl i :: is).filterMap Sum.getLeft? = i :: is.filterMap Sum.getLeft? := rfl
      refine ⟨⟨o :: os₁, ?_⟩, os₂, ht⟩
      rw [hcons, run, hi, ok_bind]
      dsimp only
      rw [hs]
      rfl
    | inr i =>
      obtain ⟨⟨o', t₂⟩, hi, hr⟩ := bind_eq_ok.mp hstep
      cases hr
      have hcons : (Sum.inr i :: is).filterMap Sum.getRight? = i :: is.filterMap Sum.getRight? := rfl
      refine ⟨⟨os₁, hs⟩, o :: os₂, ?_⟩
      rw [hcons, run, hi, ok_bind]
      dsimp only
      rw [ht]
      rfl

end Machine
