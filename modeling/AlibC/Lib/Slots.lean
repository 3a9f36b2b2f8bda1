import AlibC.Lib.Outcome
import Mathlib.Data.List.ReduceOption
import Mathlib.Data.List.Perm.Basic

/-! Arrays with holes. A cell is `none` when it is free; the entries of an array are
`List.reduceOption` of it. The loops here stop by a count of entries, so they leave the
array when that count is too large. -/
namespace CLang.Slots

variable {α β : Type}

/-- The index of the first of the next `n` cells that meets `p`. -/
def find (p : Option α → Bool) : List (Option α) → Nat → Outcome (Option Nat)
  | _, 0 => .ok none
  | [], _ + 1 => .error .outOfBounds
  | c :: cells, n + 1 =>
    if p c then .ok (some 0)
    else do
      let i ← find p cells n
      return i.map (· + 1)

/-- The first of the next `n` entries that meets `p`, with its index. -/
def findEntry (p : α → Bool) : List (Option α) → Nat → Outcome (Option (Nat × α))
  | _, 0 => .ok none
  | [], _ + 1 => .error .outOfBounds
  | none :: cells, n + 1 => do
    let r ← findEntry p cells (n + 1)
    return r.map fun (i, a) => (i + 1, a)
  | some a :: cells, n + 1 =>
    if p a then .ok (some (0, a))
    else do
      let r ← findEntry p cells n
      return r.map fun (i, a) => (i + 1, a)

/-- The `v`th entry of the next `n` cells. -/
def nthEntry : List (Option α) → Nat → Nat → Outcome (Option α)
  | _, 0, _ => .ok none
  | [], _ + 1, _ => .error .outOfBounds
  | none :: cells, n + 1, v => nthEntry cells n v
  | some a :: cells, n + 1, v => if v = 0 then .ok (some a) else nthEntry cells n (v - 1)

/-- The index among the entries of the first one that meets `p`, when `visited` of `count` entries
are passed. Only entries are counted. -/
def entryIndex (p : α → Bool) : List (Option α) → Nat → Nat → Outcome (Option Nat)
  | cells, visited, count =>
    if visited < count then
      match cells with
      | [] => .error .outOfBounds
      | none :: cells => entryIndex p cells visited count
      | some a :: cells =>
        if p a then .ok (some visited) else entryIndex p cells (visited + 1) count
    else .ok none

/-- Go over cells until `n` entries were met: these entries and the cells not looked at. -/
def takeEntries : List (Option α) → Nat → Outcome (List α × List (Option α))
  | cells, 0 => .ok ([], cells)
  | [], _ + 1 => .error .outOfBounds
  | none :: cells, n + 1 => takeEntries cells (n + 1)
  | some a :: cells, n + 1 => do
    let (as, rest) ← takeEntries cells n
    return (a :: as, rest)

/-- Visit entries while fewer than `count` were visited. `body` tells what an entry
brings about and whether its cell is cleared, which lowers `count`. -/
def visit (body : α → List β × Bool) :
    List (Option α) → Nat → Nat → Outcome (List β × List (Option α) × Nat)
  | cells, visited, count =>
    if visited < count then
      match cells with
      | [] => .error .outOfBounds
      | none :: cells => do
        let (events, cells, count) ← visit body cells visited count
        return (events, none :: cells, count)
      | some a :: cells => do
        let (events, removed) := body a
        let (more, cells, count) ←
          visit body cells (visited + 1) (if removed then count - 1 else count)
        return (events ++ more, (if removed then none else some a) :: cells, count)
    else .ok ([], cells, count)

/-- How many of the entries are visited when at first `k` visits are left. A removal
costs one more visit. -/
def reach (removed : α → Bool) : List α → Nat → Nat
  | [], _ => 0
  | _ :: _, 0 => 0
  | a :: as, k + 1 => reach removed as (if removed a then k - 1 else k) + 1

theorem reduceOption_map_some (as : List α) : (as.map some).reduceOption = as := by
  induction as with
  | nil => rfl
  | cons a as ih => rw [List.map_cons, List.reduceOption_cons_of_some, ih]

theorem find_eq_none {p : Option α → Bool} : ∀ {cells : List (Option α)} {n : Nat},
    n ≤ cells.length → (∀ c ∈ cells.take n, ¬ p c) → find p cells n = .ok none := by
  intro cells
  induction cells with
  | nil =>
    intro n hn _
    cases n with
    | zero => rfl
    | succ n => cases hn
  | cons c cells ih =>
    intro n hn hp
    cases n with
    | zero => rfl
    | succ n =>
      have hc : ¬ p c := hp c (by simp)
      have hr := ih (Nat.le_of_succ_le_succ hn) fun d hd => hp d (by simp [hd])
      simp [find, hc, hr]

theorem find_eq_some {p : Option α → Bool} {n : Nat} : ∀ {pre : List (Option α)}
    {c : Option α} {post : List (Option α)}, (∀ d ∈ pre, ¬ p d) → p c → pre.length < n →
      find p (pre ++ c :: post) n = .ok (some pre.length) := by
  induction n with
  | zero => intro pre c post _ _ hn; cases hn
  | succ n ih =>
    intro pre c post hpre hc hn
    cases pre with
    | nil => simp [find, hc]
    | cons d pre =>
      have hd : ¬ p d := hpre d (by simp)
      have hr : find p (pre ++ c :: post) n = .ok (some pre.length) :=
        ih (fun e he => hpre e (by simp [he])) hc (Nat.lt_of_succ_lt_succ hn)
      simp [find, hd, hr]

theorem findEntry_eq_none {p : α → Bool} : ∀ {cells : List (Option α)} {n : Nat},
    n ≤ cells.reduceOption.length → (∀ a ∈ cells.reduceOption, ¬ p a) →
      findEntry p cells n = .ok none := by
  intro cells
  induction cells with
  | nil =>
    intro n hn _
    cases n with
    | zero => rfl
    | succ n => cases hn
  | cons c cells ih =>
    intro n hn hp
    cases n with
    | zero => rfl
    | succ n =>
      cases c with
      | none =>
        rw [List.reduceOption_cons_of_none] at hn hp
        simp [findEntry, ih hn hp]
      | some a =>
        rw [List.reduceOption_cons_of_some] at hn hp
        have ha : ¬ p a := hp a (by simp)
        have hr := ih (Nat.le_of_succ_le_succ hn) fun b hb => hp b (by simp [hb])
        simp [findEntry, ha, hr]

theorem findEntry_eq_some {p : α → Bool} {a : α} {post : List (Option α)} (ha : p a) :
    ∀ {pre : List (Option α)} {n : Nat}, (∀ b ∈ pre.reduceOption, ¬ p b) →
      pre.reduceOption.length < n →
      findEntry p (pre ++ some a :: post) n = .ok (some (pre.length, a)) := by
  intro pre
  induction pre with
  | nil =>
    intro n _ hn
    cases n with
    | zero => cases hn
    | succ n => simp [findEntry, ha]
  | cons c pre ih =>
    intro n hpre hn
    cases n with
    | zero => cases hn
    | succ n =>
      cases c with
      | none =>
        rw [List.reduceOption_cons_of_none] at hpre hn
        simp [findEntry, ih hpre hn]
      | some b =>
        rw [List.reduceOption_cons_of_some] at hpre hn
        have hb : ¬ p b := hpre b (by simp)
        have hr := ih (fun c hc => hpre c (by simp [hc])) (Nat.lt_of_succ_lt_succ hn)
        simp [findEntry, hb, hr]

theorem nthEntry_eq (cells : List (Option α)) (v : Nat) :
    nthEntry cells cells.length v = .ok cells.reduceOption[v]? := by
  induction cells generalizing v with
  | nil => rfl
  | cons c cells ih =>
    rw [List.length_cons]
    cases c with
    | none => rw [nthEntry, ih, List.reduceOption_cons_of_none]
    | some a =>
      rw [List.reduceOption_cons_of_some]
      cases v with
      | zero => rfl
      | succ v => rw [nthEntry, if_neg (Nat.succ_ne_zero v), Nat.succ_sub_one, ih,
          List.getElem?_cons_succ]

/-- With as many entries as are counted, the search stays among the cells. -/
theorem entryIndex_eq {p : α → Bool} {cells : List (Option α)} {visited count : Nat}
    (h : count = visited + cells.reduceOption.length) :
    entryIndex p cells visited count =
      .ok ((cells.reduceOption.findIdx? p).map (visited + ·)) := by
  induction cells generalizing visited with
  | nil =>
    have hv : ¬visited < count := by simp [h]
    rw [entryIndex, if_neg hv]
    rfl
  | cons c cells ih =>
    cases c with
    | none =>
      rw [List.reduceOption_cons_of_none] at h ⊢
      rw [entryIndex]
      split
      · exact ih h
      · -- no entry is left
        have hnil : cells.reduceOption = [] := List.eq_nil_of_length_eq_zero (by omega)
        rw [hnil]
        rfl
    | some a =>
      rw [List.reduceOption_cons_of_some] at h ⊢
      rw [List.length_cons] at h
      rw [entryIndex, if_pos (by omega), List.findIdx?_cons]
      split
      · rfl
      · have hsum : (fun i => visited + 1 + i) = (fun i => visited + i) ∘ (· + 1) := by
          funext i
          exact Nat.add_right_comm visited 1 i
        rw [ih (by omega), Option.map_map, hsum]

/-- The entry of a cell that is cleared is the only one to go. -/
theorem perm_clear {cells : List (Option α)} {i : Nat} {a : α} (h : cells[i]? = some (some a)) :
    cells.reduceOption.Perm (a :: (cells.set i none).reduceOption) := by
  induction cells generalizing i with
  | nil => simp at h
  | cons c cells ih =>
    cases i with
    | zero =>
      cases Option.some.inj h
      rw [List.reduceOption_cons_of_some, List.set_cons_zero, List.reduceOption_cons_of_none]
    | succ i =>
      have hp := ih h
      cases c with
      | none => simpa only [List.set_cons_succ, List.reduceOption_cons_of_none] using hp
      | some b =>
        simp only [List.set_cons_succ, List.reduceOption_cons_of_some]
        exact (hp.cons b).trans (List.Perm.swap a b _)

theorem clear_free {cells : List (Option α)} {i : Nat} (h : cells[i]?.join = none) :
    (cells.set i none).reduceOption = cells.reduceOption := by
  induction cells generalizing i with
  | nil => rfl
  | cons c cells ih =>
    cases i with
    | zero =>
      obtain rfl : c = none := h
      rfl
    | succ i =>
      have hr := ih h
      cases c with
      | none => simpa only [List.set_cons_succ, List.reduceOption_cons_of_none] using hr
      | some b => simp only [List.set_cons_succ, List.reduceOption_cons_of_some, hr]

/-- The entries up to the `n`th, and no cell beyond it. -/
theorem takeEntries_eq : ∀ {cells : List (Option α)} {n : Nat}, n ≤ cells.reduceOption.length →
    ∃ rest, takeEntries cells n = .ok (cells.reduceOption.take n, rest) ∧
      rest.reduceOption = cells.reduceOption.drop n ∧ rest.length ≤ cells.length := by
  intro cells
  induction cells with
  | nil =>
    intro n hn
    cases n with
    | zero => exact ⟨[], rfl, rfl, Nat.le_refl _⟩
    | succ n => cases hn
  | cons c cells ih =>
    intro n hn
    cases n with
    | zero => exact ⟨c :: cells, rfl, rfl, Nat.le_refl _⟩
    | succ n =>
      cases c with
      | none =>
        rw [List.reduceOption_cons_of_none] at hn ⊢
        obtain ⟨rest, he, hr, hl⟩ := ih hn
        exact ⟨rest, he, hr, Nat.le_succ_of_le hl⟩
      | some a =>
        rw [List.reduceOption_cons_of_some] at hn ⊢
        obtain ⟨rest, he, hr, hl⟩ := ih (Nat.le_of_succ_le_succ hn)
        exact ⟨rest, by simp [takeEntries, he], hr, Nat.le_succ_of_le hl⟩

@[simp] theorem reach_nil (removed : α → Bool) (k : Nat) : reach removed [] k = 0 := rfl

@[simp] theorem reach_zero (removed : α → Bool) (as : List α) : reach removed as 0 = 0 := by
  cases as <;> rfl

theorem reach_le_length (removed : α → Bool) : ∀ (as : List α) (k : Nat),
    reach removed as k ≤ as.length := by
  intro as
  induction as with
  | nil => intro k; exact Nat.le_refl _
  | cons a as ih =>
    intro k
    cases k with
    | zero => exact Nat.zero_le _
    | succ k => exact Nat.succ_le_succ (ih _)

/-- A walk that removes nothing visits everything. -/
theorem reach_of_kept : ∀ as : List α, reach (fun _ => false) as as.length = as.length := by
  intro as
  induction as with
  | nil => rfl
  | cons a as ih => simpa [reach] using ih

/-- An entry is visited if and only if its position and the removals before it together
stay below the first count. -/
theorem lt_reach_iff {removed : α → Bool} : ∀ {pre : List α} {a : α} {post : List α} {k : Nat},
    pre.length < reach removed (pre ++ a :: post) k ↔ pre.length + pre.countP removed < k := by
  intro pre
  induction pre with
  | nil =>
    intro a post k
    cases k with
    | zero => simp
    | succ k => simp [reach]
  | cons b pre ih =>
    intro a post k
    cases k with
    | zero => simp
    | succ k =>
      have hlen : (b :: pre).length = pre.length + 1 := List.length_cons
      rw [hlen, List.cons_append, reach, Nat.succ_lt_succ_iff, ih]
      cases hb : removed b with
      | true =>
        rw [List.countP_cons_of_pos (by simpa using hb)]
        simp only [if_true]
        omega
      | false =>
        rw [List.countP_cons_of_neg (by simp [hb])]
        simp only [Bool.false_eq_true, if_false]
        omega

/-- A walk that may visit as many entries as there are misses none of those in `P` exactly
when no entry in `P` has more removals before it than entries behind it. -/
theorem reach_all_iff {removed : α → Bool} {P : α → Prop} {as : List α} :
    (∀ a ∈ as.drop (reach removed as as.length), ¬ P a) ↔
      ∀ pre a post, as = pre ++ a :: post → P a → pre.countP removed ≤ post.length := by
  constructor
  · intro h pre a post hs ha
    apply Nat.le_of_not_lt
    intro hlt
    have hout : ¬ pre.length < reach removed as as.length := by
      rw [hs, lt_reach_iff, List.length_append, List.length_cons]
      omega
    refine h a ?_ ha
    conv => arg 1; arg 2; rw [hs]
    rw [List.drop_append_of_le_length (Nat.le_of_not_lt hout)]
    simp
  · intro h a ha hP
    obtain ⟨u, post, hu⟩ := List.append_of_mem ha
    have hs : as = (as.take (reach removed as as.length) ++ u) ++ a :: post := by
      rw [List.append_assoc, ← hu, List.take_append_drop]
    have hlen : as.length = (as.take (reach removed as as.length) ++ u).length +
        (post.length + 1) := by
      conv => lhs; rw [hs, List.length_append, List.length_cons]
    have hout : reach removed as as.length ≤
        (as.take (reach removed as as.length) ++ u).length := by
      rw [List.length_append, List.length_take, Nat.min_eq_left (reach_le_length _ _ _)]
      exact Nat.le_add_right _ _
    have hcount := h _ a post hs hP
    generalize as.take (reach removed as as.length) ++ u = pre at hs hlen hout hcount
    have hkey : pre.length < reach removed (pre ++ a :: post) as.length ↔
        pre.length + pre.countP removed < as.length := lt_reach_iff
    rw [← hs] at hkey
    omega

/-- Handling only `xs` of the entries `xs ++ ys` is as good as handling all of them exactly
when nothing would have come of `ys`. -/
theorem handled_all_iff {events : α → List β} {removed : α → Bool} {xs ys : List α} :
    ((xs.flatMap events).Perm ((xs ++ ys).flatMap events) ∧
        (xs.filter (fun a => !removed a) ++ ys).Perm ((xs ++ ys).filter fun a => !removed a)) ↔
      ∀ a ∈ ys, ¬ (events a ≠ [] ∨ removed a = true) := by
  rw [List.flatMap_append, List.filter_append, List.perm_append_left_iff]
  constructor
  · rintro ⟨hp, hq⟩ a ha hor
    have hnil : ys.flatMap events = [] := by
      have hlen := hp.length_eq
      rw [List.length_append] at hlen
      exact List.eq_nil_of_length_eq_zero (by omega)
    have hkept := List.length_filter_eq_length_iff.mp hq.length_eq.symm a ha
    cases hor with
    | inl hne => exact hne (List.flatMap_eq_nil_iff.mp hnil a ha)
    | inr hrm => simp [hrm] at hkept
  · intro h
    have hnil : ys.flatMap events = [] :=
      List.flatMap_eq_nil_iff.mpr fun a ha => not_not.mp fun hne => h a ha (.inl hne)
    have hkept : ys.filter (fun a => !removed a) = ys :=
      List.filter_eq_self.mpr fun a ha => by simpa using fun hrm => h a ha (.inr hrm)
    rw [hnil, hkept, List.append_nil]
    exact ⟨List.Perm.refl _, List.Perm.refl _⟩

/-- The number of entries left when those removed among the first `n` are gone. -/
theorem length_left (removed : α → Bool) {as : List α} {n : Nat} (hn : n ≤ as.length) :
    as.length - (as.take n).countP removed =
      ((as.take n).filter (fun a => !removed a) ++ as.drop n).length := by
  have hsplit := (as.take n).length_eq_length_filter_add removed
  rw [List.length_take, Nat.min_eq_left hn, ← List.countP_eq_length_filter] at hsplit
  rw [List.length_append, List.length_drop]
  omega

/-- What one pass brings about: the entries it reaches are handled, the others stay. -/
theorem visit_eq (body : α → List β × Bool) : ∀ (cells : List (Option α)) (visited count : Nat),
    count ≤ visited + cells.reduceOption.length →
    ∃ cells', visit body cells visited count =
        .ok ((cells.reduceOption.take
            (reach (fun a => (body a).2) cells.reduceOption (count - visited))).flatMap
              fun a => (body a).1,
          cells', count - (cells.reduceOption.take
            (reach (fun a => (body a).2) cells.reduceOption (count - visited))).countP
              fun a => (body a).2) ∧
      cells'.length = cells.length ∧
      cells'.reduceOption = (cells.reduceOption.take
            (reach (fun a => (body a).2) cells.reduceOption (count - visited))).filter
              (fun a => !(body a).2) ++
          cells.reduceOption.drop
            (reach (fun a => (body a).2) cells.reduceOption (count - visited)) := by
  intro cells
  induction cells with
  | nil =>
    intro visited count h
    have hv : ¬ visited < count := by simpa using h
    exact ⟨[], by simp [visit, hv], rfl, rfl⟩
  | cons c cells ih =>
    intro visited count h
    by_cases hv : visited < count
    · cases c with
      | none =>
        rw [List.reduceOption_cons_of_none] at h ⊢
        obtain ⟨cells', he, hl, hr⟩ := ih visited count h
        refine ⟨none :: cells', ?_, by simp [hl], by rw [List.reduceOption_cons_of_none, hr]⟩
        rw [visit, if_pos hv]
        simp only [he, ok_bind]
        rfl
      | some a =>
        rw [List.reduceOption_cons_of_some] at h ⊢
        rw [List.length_cons] at h
        obtain ⟨k, hk⟩ : ∃ k, count - visited = k + 1 := ⟨count - visited - 1, by omega⟩
        rw [hk, reach, List.take_succ_cons, List.drop_succ_cons, List.flatMap_cons]
        cases hb : (body a).2 with
        | true =>
          obtain ⟨cells', he, hl, hr⟩ := ih (visited + 1) (count - 1) (by omega)
          have hkk : count - 1 - (visited + 1) = k - 1 := by omega
          rw [hkk] at he hr
          refine ⟨none :: cells', ?_, by simp [hl], ?_⟩
          · rw [visit, if_pos hv, List.countP_cons_of_pos (by simpa using hb)]
            simp only [hb, if_true, he, ok_bind]
            rw [Nat.add_comm, Nat.sub_add_eq]
            rfl
          · rw [List.reduceOption_cons_of_none, hr, List.filter_cons_of_neg (by simp [hb])]
            rfl
        | false =>
          obtain ⟨cells', he, hl, hr⟩ := ih (visited + 1) count (by omega)
          have hkk : count - (visited + 1) = k := by omega
          rw [hkk] at he hr
          refine ⟨some a :: cells', ?_, by simp [hl], ?_⟩
          · rw [visit, if_pos hv, List.countP_cons_of_neg (by simp [hb])]
            simp only [hb, Bool.false_eq_true, if_false, he, ok_bind]
            rfl
          · rw [List.reduceOption_cons_of_some, hr, List.filter_cons_of_pos (by simp [hb])]
            rfl
    · have hk : count - visited = 0 := by omega
      exact ⟨c :: cells, by cases c <;> simp [visit, hv, hk], rfl, by simp [hk]⟩

end CLang.Slots
