import Mathlib.Order.BoundedOrder.Basic
import Mathlib.Order.Lattice
import Mathlib.Data.List.Basic

/-! Running extrema over a list. Both searches begin at the least value, which the one for the minimum
takes for "nothing yet". -/
namespace Extremum

variable {α : Type} [LinearOrder α] [OrderBot α]

def highestFrom (high : α) (xs : List α) : α := xs.foldl (fun high v => if high < v then v else high) high

def lowestFrom (low : α) (xs : List α) : α :=
  xs.foldl (fun low v => if v < low ∨ low = ⊥ then v else low) low

def highest (xs : List α) : α := highestFrom ⊥ xs

def lowest (xs : List α) : α := lowestFrom ⊥ xs

variable {xs ys : List α} {v w : α}

omit [OrderBot α] in
theorem highestFrom_spec (xs : List α) : ∀ high : α,
    (highestFrom high xs = high ∨ highestFrom high xs ∈ xs) ∧ high ≤ highestFrom high xs ∧
      ∀ v ∈ xs, v ≤ highestFrom high xs := by
  induction xs with
  | nil => exact fun high => ⟨.inl rfl, le_refl high, by simp⟩
  | cons x xs ih =>
    intro high
    rw [highestFrom, List.foldl_cons, ← highestFrom]
    by_cases hlt : high < x
    · rw [if_pos hlt]
      obtain ⟨hmem, hle, hall⟩ := ih x
      refine ⟨.inr ?_, le_trans hlt.le hle, List.forall_mem_cons.mpr ⟨hle, hall⟩⟩
      exact List.mem_cons.mpr (hmem.imp_right id)
    · rw [if_neg hlt]
      obtain ⟨hmem, hle, hall⟩ := ih high
      exact ⟨hmem.imp_right (List.mem_cons_of_mem x), hle,
        List.forall_mem_cons.mpr ⟨le_trans (not_lt.mp hlt) hle, hall⟩⟩

theorem le_highest (h : v ∈ xs) : v ≤ highest xs := (highestFrom_spec xs ⊥).2.2 v h

theorem highest_mem (h : xs ≠ []) : highest xs ∈ xs := by
  obtain hbot | hmem := (highestFrom_spec xs ⊥).1
  · -- Nothing is above the least value, so any element is what was found.
    obtain ⟨x, hx⟩ := List.exists_mem_of_ne_nil xs h
    have hle := le_highest hx
    rw [highest, hbot] at hle ⊢
    rwa [le_bot_iff.mp hle] at hx
  · exact hmem

/-- Where only "nothing yet" is read, the search ends with it. -/
theorem lowest_all_bot (h : ∀ v ∈ xs, v = ⊥) : lowest xs = ⊥ := by
  induction xs with
  | nil => rfl
  | cons x xs ih =>
    obtain ⟨rfl, hxs⟩ := List.forall_mem_cons.mp h
    rw [lowest, lowestFrom, List.foldl_cons, if_pos (.inr rfl)]
    exact ih hxs

theorem lowestFrom_spec (xs : List α) : ∀ low : α, low ≠ ⊥ → ⊥ ∉ xs →
    lowestFrom low xs ∈ low :: xs ∧ ∀ v ∈ low :: xs, lowestFrom low xs ≤ v := by
  induction xs with
  | nil => exact fun low _ _ => ⟨List.mem_cons_self, by simp [lowestFrom]⟩
  | cons x xs ih =>
    intro low hlow hbot
    obtain ⟨hx, hxs⟩ := not_or.mp (mt List.mem_cons.mpr hbot)
    rw [lowestFrom, List.foldl_cons, ← lowestFrom]
    by_cases hlt : x < low ∨ low = ⊥
    · rw [if_pos hlt]
      obtain ⟨hmem, hall⟩ := ih x (Ne.symm hx) hxs
      have hle := (hlt.resolve_right hlow).le
      exact ⟨List.mem_cons_of_mem low hmem, List.forall_mem_cons.mpr
        ⟨le_trans (hall x List.mem_cons_self) hle, hall⟩⟩
    · rw [if_neg hlt]
      obtain ⟨hmem, hall⟩ := ih low hlow hxs
      obtain ⟨hhead, htail⟩ := List.forall_mem_cons.mp hall
      have hle := not_lt.mp (not_or.mp hlt).1
      refine ⟨?_, List.forall_mem_cons.mpr ⟨hhead, List.forall_mem_cons.mpr ⟨le_trans hhead hle, htail⟩⟩⟩
      exact List.mem_cons.mpr ((List.mem_cons.mp hmem).imp_right (List.mem_cons_of_mem x))

/-- Without the least value among them, the least of the values is found. -/
theorem lowest_spec (hne : xs ≠ []) (hbot : ⊥ ∉ xs) :
    lowest xs ∈ xs ∧ ∀ v ∈ xs, lowest xs ≤ v := by
  cases xs with
  | nil => exact absurd rfl hne
  | cons x xs =>
    obtain ⟨hx, hxs⟩ := not_or.mp (mt List.mem_cons.mpr hbot)
    rw [lowest, lowestFrom, List.foldl_cons, if_pos (.inr rfl)]
    exact lowestFrom_spec xs x (Ne.symm hx) hxs

/-- The least value makes the search forget what it read before. -/
theorem lowest_append_bot (xs ys : List α) : lowest (xs ++ ⊥ :: ys) = lowest ys := by
  rw [lowest, lowestFrom, List.foldl_append, List.foldl_cons]
  generalize List.foldl _ (⊥ : α) xs = low
  rw [if_pos ((eq_or_ne low ⊥).symm.imp_left bot_lt_iff_ne_bot.mpr)]
  rfl

theorem lowest_append_of_bot (h : ∀ v ∈ xs, v = ⊥) (ys : List α) : lowest (xs ++ ys) = lowest ys := by
  rw [lowest, lowestFrom, List.foldl_append]
  exact congrArg (fun low => lowestFrom low ys) (lowest_all_bot h)

/-- Two orders disagree where the least value stands beside another one. -/
theorem lowest_orders (hbot : ⊥ ∈ xs) (hv : v ∈ xs) (hne : v ≠ ⊥) :
    (∃ ys : List α, ys.Perm xs ∧ lowest ys = ⊥) ∧ ∃ zs : List α, zs.Perm xs ∧ lowest zs ≠ ⊥ := by
  have hbots : ∀ w ∈ xs.filter (· = ⊥), w = ⊥ := fun w hw => of_decide_eq_true (List.mem_filter.mp hw).2
  have hperm := List.filter_append_perm (· = ⊥) xs
  constructor
  · -- The least value is read last.
    refine ⟨_, List.perm_append_comm.trans hperm, ?_⟩
    have hsome : xs.filter (· = ⊥) ≠ [] :=
      List.ne_nil_of_mem (List.mem_filter.mpr ⟨hbot, decide_eq_true rfl⟩)
    obtain ⟨b, bs, hcons⟩ := List.exists_cons_of_ne_nil hsome
    rw [hcons] at hbots ⊢
    obtain ⟨rfl, hbs⟩ := List.forall_mem_cons.mp hbots
    rw [lowest_append_bot]
    exact lowest_all_bot hbs
  · -- It is read first.
    refine ⟨_, hperm, ?_⟩
    rw [lowest_append_of_bot hbots]
    have hrest : ⊥ ∉ xs.filter fun w => !decide (w = ⊥) := by simp
    have hmem := (lowest_spec (List.ne_nil_of_mem (List.mem_filter.mpr ⟨hv, by simpa using hne⟩))
      hrest).1
    intro heq
    rw [heq] at hmem
    exact hrest hmem

/-- The search for the minimum does not depend on the order exactly where the least value is alone or
absent. -/
theorem lowest_perm_iff (xs : List α) :
    (∀ ys zs : List α, ys.Perm xs → zs.Perm xs → lowest ys = lowest zs) ↔
      ⊥ ∉ xs ∨ ∀ v ∈ xs, v = ⊥ := by
  constructor
  · intro h
    by_contra hmixed
    obtain ⟨hbot, hother⟩ := not_or.mp hmixed
    push Not at hbot hother
    obtain ⟨v, hv, hne⟩ := hother
    obtain ⟨⟨ys, hys, hlow⟩, zs, hzs, hlow'⟩ := lowest_orders hbot hv hne
    exact hlow' (h zs ys hzs hys ▸ hlow)
  · rintro (hbot | hall) ys zs hys hzs
    · by_cases hnil : xs = []
      · subst hnil
        rw [hys.eq_nil, hzs.eq_nil]
      · obtain ⟨hy, hyle⟩ := lowest_spec (fun h => hnil (h ▸ hys).nil_eq.symm) (mt hys.mem_iff.mp hbot)
        obtain ⟨hz, hzle⟩ := lowest_spec (fun h => hnil (h ▸ hzs).nil_eq.symm) (mt hzs.mem_iff.mp hbot)
        exact le_antisymm (hyle _ ((hys.trans hzs.symm).mem_iff.mpr hz))
          (hzle _ ((hys.trans hzs.symm).mem_iff.mp hy))
    · rw [lowest_all_bot fun v hv => hall v (hys.mem_iff.mp hv),
        lowest_all_bot fun v hv => hall v (hzs.mem_iff.mp hv)]

end Extremum
