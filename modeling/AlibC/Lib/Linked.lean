import Mathlib.Logic.Function.Basic
import Mathlib.Data.List.Basic
import Mathlib.Data.List.Nodup

/-! Chains of objects that are linked by pointers. The links are given as a partial map: an
address at which there is no object has none. -/
namespace Linked

open Function

variable {A : Type} {nx nx' : A → Option (Option A)} {p q r : Option A} {a b : A}
  {xs ys : List A}

/-- Following the links from `p` one passes `xs` and arrives at `q`. -/
def Seg (nx : A → Option (Option A)) : Option A → List A → Option A → Prop
  | p, [], q => p = q
  | p, a :: as, q => p = some a ∧ ∃ r, nx a = some r ∧ Seg nx r as q

@[simp] theorem seg_nil : Seg nx p [] q ↔ p = q := Iff.rfl

@[simp] theorem seg_cons :
    Seg nx p (a :: xs) q ↔ p = some a ∧ ∃ r, nx a = some r ∧ Seg nx r xs q := Iff.rfl

theorem seg_append : ∀ {p : Option A}, Seg nx p (xs ++ ys) q ↔
    ∃ r, Seg nx p xs r ∧ Seg nx r ys q := by
  induction xs with
  | nil => intro p; simp
  | cons a xs ih =>
    intro p
    simp only [List.cons_append, seg_cons, ih]
    constructor
    · rintro ⟨hp, r, hr, r', hs, ht⟩
      exact ⟨r', ⟨hp, r, hr, hs⟩, ht⟩
    · rintro ⟨r', ⟨hp, r, hr, hs⟩, ht⟩
      exact ⟨hp, r, hr, r', hs, ht⟩

theorem seg_concat : Seg nx p (xs ++ [a]) q ↔ Seg nx p xs (some a) ∧ nx a = some q := by
  rw [seg_append]
  constructor
  · rintro ⟨r, hs, rfl, r', hr, rfl⟩
    exact ⟨hs, hr⟩
  · rintro ⟨hs, hr⟩
    exact ⟨_, hs, rfl, q, hr, rfl⟩

/-- A chain only depends on the links of its own objects. -/
theorem Seg.congr : ∀ {p : Option A}, (∀ a ∈ xs, nx' a = nx a) → Seg nx p xs q →
    Seg nx' p xs q := by
  induction xs with
  | nil => intro p _ h; exact h
  | cons a xs ih =>
    rintro p hc ⟨hp, r, hr, hs⟩
    have ha := List.forall_mem_cons.mp hc
    exact ⟨hp, r, ha.1.trans hr, ih ha.2 hs⟩

theorem Seg.update_of_not_mem [DecidableEq A] {v : Option (Option A)} (ha : a ∉ xs)
    (h : Seg nx p xs q) : Seg (update nx a v) p xs q := by
  refine Seg.congr ?_ h
  intro b hb
  have hne : b ≠ a := fun he => ha (he ▸ hb)
  exact update_of_ne hne _ _

theorem Seg.exists_link : ∀ {p : Option A}, Seg nx p xs q → a ∈ xs → ∃ r, nx a = some r := by
  induction xs with
  | nil => intro p _ h; cases h
  | cons b xs ih =>
    rintro p ⟨-, r, hr, hs⟩ hm
    rcases List.mem_cons.mp hm with rfl | hm
    · exact ⟨r, hr⟩
    · exact ih hs hm

theorem Seg.head_eq (h : Seg nx p xs none) : p = xs.head? := by
  cases xs with
  | nil => exact h
  | cons a xs => exact h.1

theorem Seg.exists_cons (h : Seg nx (some a) xs none) (ha : nx a = some r) :
    ∃ ys, xs = a :: ys ∧ Seg nx r ys none := by
  cases xs with
  | nil => cases h
  | cons b ys =>
    obtain ⟨hb, r', hr, hs⟩ := h
    cases hb
    cases ha.symm.trans hr
    exact ⟨ys, rfl, hs⟩

theorem Seg.unique : ∀ {p : Option A} {ys : List A}, Seg nx p xs none → Seg nx p ys none →
    xs = ys := by
  induction xs with
  | nil =>
    rintro p ys rfl h
    cases ys with
    | nil => rfl
    | cons b ys => cases h.1
  | cons a xs ih =>
    rintro p ys ⟨rfl, r, hr, hs⟩ h
    cases ys with
    | nil => cases h
    | cons b ys =>
      obtain ⟨hp, r', hr', hs'⟩ := h
      cases hp
      cases hr.symm.trans hr'
      rw [ih hs hs']

/-- A chain that ends comes by no object twice. -/
theorem Seg.nodup : ∀ {p : Option A}, Seg nx p xs none → xs.Nodup := by
  induction xs with
  | nil => intro p _; exact List.nodup_nil
  | cons a xs ih =>
    rintro p ⟨rfl, r, hr, hs⟩
    refine List.nodup_cons.mpr ⟨fun hm => ?_, ih hs⟩
    obtain ⟨pre, post, rfl⟩ := List.append_of_mem hm
    obtain ⟨r', -, hp, hpost⟩ := seg_append.mp hs
    -- the chain from the second visit is a proper part of itself
    have heq := @Seg.unique A nx (a :: (pre ++ a :: post)) _ (a :: post)
      ⟨rfl, r, hr, hs⟩ ⟨rfl, hpost⟩
    have hlen := congrArg List.length heq
    simp only [List.length_cons, List.length_append] at hlen
    omega

section Relink

variable [DecidableEq A]

/-- A chain lead on from its last object. -/
theorem Seg.relink (h : Seg nx p (xs ++ [a]) r) (ha : a ∉ xs) :
    Seg (update nx a (some q)) p (xs ++ [a]) q := by
  rw [seg_concat] at h ⊢
  exact ⟨h.1.update_of_not_mem ha, update_self _ _ _⟩

/-- The object behind `a` is taken out of the chain. -/
theorem Seg.unlink {pre post : List A} (h : Seg nx p (pre ++ a :: b :: post) none)
    (hb : nx b = some r) (v : Option (Option A)) :
    Seg (update (update nx a (some r)) b v) p (pre ++ a :: post) none := by
  have hnd := h.nodup
  rw [List.nodup_append] at hnd
  obtain ⟨-, hnd, hdis⟩ := hnd
  obtain ⟨r', hpre, rfl, s, hs, rfl, t, ht, hpost⟩ := seg_append.mp h
  cases hb.symm.trans ht
  simp only [List.nodup_cons, List.mem_cons, not_or] at hnd
  have hpre' : ∀ c ∈ [a, b], c ∉ pre := by
    intro c hc hm
    refine hdis c hm c ?_ rfl
    rcases List.mem_cons.mp hc with rfl | hc
    · exact List.mem_cons_self
    · exact List.mem_cons_of_mem _ (List.mem_cons.mpr (.inl (List.mem_singleton.mp hc)))
  refine seg_append.mpr ⟨some a, ?_, rfl, r, ?_, ?_⟩
  · exact (hpre.update_of_not_mem (hpre' a (by simp))).update_of_not_mem (hpre' b (by simp))
  · rw [update_of_ne hnd.1.1, update_self]
  · exact (hpost.update_of_not_mem hnd.1.2).update_of_not_mem hnd.2.1

/-- The first object is taken to the end. -/
theorem Seg.rotate {l : A} {init : List A} (h : Seg nx p (a :: (init ++ [l])) none) :
    ∃ r, nx a = some r ∧
      Seg (update (update nx l (some (some a))) a (some none)) r (init ++ [l] ++ [a]) none := by
  have hnd := h.nodup
  obtain ⟨-, r, hr, hs⟩ := h
  simp only [List.nodup_cons, List.nodup_append, List.mem_append, not_or] at hnd
  refine ⟨r, hr, seg_concat.mpr ⟨?_, update_self _ _ _⟩⟩
  have hl : l ∉ init := fun hm => hnd.2.2.2 l hm l (List.mem_singleton_self l) rfl
  exact (hs.relink hl).update_of_not_mem (by simpa using hnd.1)

end Relink

end Linked
