import AlibC.Lib.Search

/-! A search from the left that never goes back: where the pattern stops to agree with the list,
it goes on behind what agreed. -/
namespace Search

variable {α : Type} [DecidableEq α] {p s t pre : List α} {n : Nat}

/-- In how many elements two lists agree from their beginning on. -/
def matchLen : List α → List α → Nat
  | a :: p, b :: s => if a = b then matchLen p s + 1 else 0
  | _, _ => 0

@[simp] theorem matchLen_nil_left (s : List α) : matchLen [] s = 0 := by
  cases s <;> rfl

@[simp] theorem matchLen_nil_right (p : List α) : matchLen p [] = 0 := by
  cases p <;> rfl

theorem matchLen_le (p s : List α) : matchLen p s ≤ p.length := by
  induction p generalizing s with
  | nil => exact Nat.zero_le _
  | cons a p ih =>
    cases s with
    | nil => exact Nat.zero_le _
    | cons b s =>
      rw [matchLen, List.length_cons]
      split
      · exact Nat.succ_le_succ (ih s)
      · exact Nat.zero_le _

theorem matchLen_le_right (p s : List α) : matchLen p s ≤ s.length := by
  induction p generalizing s with
  | nil => exact Nat.zero_le _
  | cons a p ih =>
    cases s with
    | nil => exact Nat.zero_le _
    | cons b s =>
      rw [matchLen, List.length_cons]
      split
      · exact Nat.succ_le_succ (ih s)
      · exact Nat.zero_le _

/-- They agree in the whole pattern where it begins. -/
theorem matchLen_eq_length_iff : matchLen p s = p.length ↔ p <+: s := by
  induction p generalizing s with
  | nil => simp
  | cons a p ih =>
    cases s with
    | nil => simp
    | cons b s =>
      rw [matchLen, List.length_cons, List.cons_prefix_cons, ← ih]
      by_cases h : a = b
      · rw [if_pos h, Nat.succ_inj]
        exact (and_iff_right h).symm
      · rw [if_neg h]
        exact ⟨fun h0 => absurd h0 (Nat.succ_ne_zero _).symm, fun hand => absurd hand.1 h⟩

theorem matchLen_lt (h : ¬p <+: s) : matchLen p s < p.length :=
  Nat.lt_of_le_of_ne (matchLen_le p s) fun he => h (matchLen_eq_length_iff.mp he)

theorem matchLen_take (p s : List α) (n : Nat) : matchLen (p.take n) s = min n (matchLen p s) := by
  induction p generalizing s n with
  | nil => simp
  | cons a p ih =>
    cases n with
    | zero => simp
    | succ n =>
      cases s with
      | nil => simp
      | cons b s =>
        rw [List.take_succ_cons, matchLen, matchLen, ih]
        split
        · omega
        · rw [Nat.min_zero]

theorem matchLen_eq_zero_iff (hp : p ≠ []) (hs : s ≠ []) :
    matchLen p s = 0 ↔ s.head? ≠ p.head? := by
  cases p with
  | nil => exact absurd rfl hp
  | cons a p =>
    cases s with
    | nil => exact absurd rfl hs
    | cons b s =>
      rw [matchLen, List.head?_cons, List.head?_cons, ne_eq, Option.some.injEq, eq_comm (a := b)]
      split
      case isTrue h => simp [h]
      case isFalse h => simp [h]

/-- How far the search moves on. -/
def scanStep (p s : List α) : Nat := max 1 (matchLen p s)

theorem scanStep_pos (p s : List α) : 0 < scanStep p s := Nat.le_max_left 1 _

theorem scanStep_full (hp : p ≠ []) (h : p <+: s) : scanStep p s = p.length := by
  have hpos := List.length_pos_iff.mpr hp
  rw [scanStep, matchLen_eq_length_iff.mpr h]
  omega

theorem length_drop_scanStep (p : List α) (hs : s ≠ []) :
    (s.drop (scanStep p s)).length < s.length := by
  have hpos := List.length_pos_iff.mpr hs
  have hstep := scanStep_pos p s
  rw [List.length_drop]
  omega

/-- What holds of nothing, and of a list when it holds of what the search has before it one step
further, holds of every list. -/
theorem scan_induction (p : List α) {motive : List α → Prop} (nil : motive [])
    (step : ∀ s, s ≠ [] → motive (s.drop (scanStep p s)) → motive s) (s : List α) : motive s :=
  if hs : s = [] then hs ▸ nil
  else step s hs (scan_induction p nil step _)
termination_by s.length
decreasing_by exact length_drop_scanStep p hs

/-- The list with `t` where the search finds `p`. -/
def scanReplace (p t s : List α) : List α :=
  if _hs : s = [] then []
  else
    (if p <+: s then t else s.take (scanStep p s)) ++ scanReplace p t (s.drop (scanStep p s))
termination_by s.length
decreasing_by exact length_drop_scanStep p _hs

/-- Where the search found a part of `p` that is not all of it, and how long the part is. -/
def partialMatches (p s : List α) : List (Nat × Nat) :=
  if _hs : s = [] then []
  else
    (if p <+: s ∨ matchLen p s = 0 then [] else [(0, matchLen p s)]) ++
      (partialMatches p (s.drop (scanStep p s))).map fun m => (scanStep p s + m.1, m.2)
termination_by s.length
decreasing_by exact length_drop_scanStep p _hs

theorem scanReplace_nil (p t : List α) : scanReplace p t [] = [] := by
  rw [scanReplace, dif_pos rfl]

theorem scanReplace_found (hp : p ≠ []) (h : p <+: s) :
    scanReplace p t s = t ++ scanReplace p t (s.drop p.length) := by
  have hs : s ≠ [] := fun h0 => hp (List.prefix_nil.mp (h0 ▸ h))
  rw [scanReplace, dif_neg hs, if_pos h, scanStep_full hp h]

theorem scanReplace_passed (hs : s ≠ []) (h : ¬p <+: s) : scanReplace p t s =
    s.take (scanStep p s) ++ scanReplace p t (s.drop (scanStep p s)) := by
  rw [scanReplace, dif_neg hs, if_neg h]

theorem forall_partialMatches_nil {Q : Nat × Nat → Prop} : ∀ m ∈ partialMatches p [], Q m := by
  rw [partialMatches, dif_pos rfl]
  exact fun m hm => absurd hm List.not_mem_nil

theorem length_scanReplace_le (hp : p ≠ []) (ht : t.length ≤ p.length) (s : List α) :
    (scanReplace p t s).length ≤ s.length := by
  induction s using scan_induction p with
  | nil => rw [scanReplace_nil]
  | step s hs ih =>
    rw [List.length_drop] at ih
    by_cases h : p <+: s
    · have hle := h.length_le
      rw [scanStep_full hp h] at ih
      rw [scanReplace_found hp h, List.length_append]
      omega
    · rw [scanReplace_passed hs h, List.length_append, List.length_take]
      have hstep := scanStep_pos p s
      omega

/-- A property of the partial matches is one of the first and of those behind the step. -/
theorem forall_partialMatches {Q : Nat × Nat → Prop} (hs : s ≠ []) :
    (∀ m ∈ partialMatches p s, Q m) ↔
      (¬p <+: s → 0 < matchLen p s → Q (0, matchLen p s)) ∧
      ∀ m ∈ partialMatches p (s.drop (scanStep p s)), Q (scanStep p s + m.1, m.2) := by
  rw [partialMatches, dif_neg hs, List.forall_mem_append, List.forall_mem_map]
  refine and_congr_left fun _ => ?_
  split
  case isTrue h =>
    refine ⟨fun _ hnot hpos => ?_, fun _ m hm => absurd hm List.not_mem_nil⟩
    rcases h with h | h
    · exact absurd h hnot
    · omega
  case isFalse h =>
    rw [not_or] at h
    rw [List.forall_mem_singleton]
    exact ⟨fun hq _ _ => hq, fun hq => hq h.1 (Nat.pos_of_ne_zero h.2)⟩

theorem partialMatches_lt_length : ∀ m ∈ partialMatches p s, m.2 < p.length := by
  induction s using scan_induction p with
  | nil => exact forall_partialMatches_nil
  | step s hs ih =>
    rw [forall_partialMatches hs]
    exact ⟨fun hnot _ => matchLen_lt hnot, ih⟩

/-- Behind its first element nothing begins in a partial match. -/
def NothingSkipped (p s : List α) : Prop :=
  ∀ m ∈ partialMatches p s, ∀ d, 0 < d → d < m.2 → ¬p <+: s.drop (m.1 + d)

theorem nothingSkipped_nil (p : List α) : NothingSkipped p [] := forall_partialMatches_nil

theorem nothingSkipped_iff (hs : s ≠ []) : NothingSkipped p s ↔
    (¬p <+: s → ∀ d, 0 < d → d < matchLen p s → ¬p <+: s.drop d) ∧
      NothingSkipped p (s.drop (scanStep p s)) := by
  rw [NothingSkipped, forall_partialMatches hs, NothingSkipped]
  refine and_congr ⟨fun h hnot d hd hlt => ?_, fun h hnot _ d hd hlt => ?_⟩ ?_
  · have hskip := h hnot (by omega) d hd hlt
    rwa [Nat.zero_add] at hskip
  · rw [Nat.zero_add]
    exact h hnot d hd hlt
  · simp only [List.drop_drop, Nat.add_assoc]

/-- In front of which nothing begins, what is behind is replaced on its own. -/
theorem replaceAll_append (hp : p ≠ []) (h : ∀ j < pre.length, ¬p <+: (pre ++ s).drop j) :
    replaceAll p t (pre ++ s) = pre ++ replaceAll p t s := by
  have hfirst := firstAt_append h
  cases hs : firstAt p s with
  | none =>
    rw [hs] at hfirst
    rw [replaceAll_none hfirst, replaceAll_none hs]
  | some i =>
    rw [hs] at hfirst
    have hdrop : (pre ++ s).drop (pre.length + i + p.length) = s.drop (i + p.length) := by
      rw [Nat.add_assoc, List.drop_length_add_append]
    rw [replaceAll_some hp hfirst, replaceAll_some hp hs, hdrop, List.take_length_add_append,
      List.append_assoc, List.append_assoc, List.append_assoc]

theorem replaceAll_found (hp : p ≠ []) (h : p <+: s) :
    replaceAll p t s = t ++ replaceAll p t (s.drop p.length) := by
  have hfirst : firstAt p s = some 0 := firstAt_of_first h fun j hj => absurd hj (Nat.not_lt_zero j)
  rw [replaceAll_some hp hfirst, List.take_zero, List.nil_append, Nat.zero_add]

/-- Where nothing begins in a partial match, the step over it skips nothing. -/
theorem replaceAll_passed (hp : p ≠ []) (h : ¬p <+: s)
    (hskip : ∀ d, 0 < d → d < matchLen p s → ¬p <+: s.drop d) : replaceAll p t s =
      s.take (scanStep p s) ++ replaceAll p t (s.drop (scanStep p s)) := by
  have happend := @replaceAll_append _ _ p (s.drop (scanStep p s)) t (s.take (scanStep p s)) hp
  rw [List.take_append_drop] at happend
  apply happend
  intro j hj
  rw [List.length_take, scanStep] at hj
  cases j with
  | zero => exact h
  | succ j => exact hskip (j + 1) (Nat.succ_pos j) (by omega)

/-- The search that never goes back replaces everything where it skips nothing. -/
theorem scanReplace_eq_replaceAll (hp : p ≠ []) (t : List α) (h : NothingSkipped p s) :
    scanReplace p t s = replaceAll p t s := by
  induction s using scan_induction p with
  | nil =>
    have hnone : firstAt p ([] : List α) = none := if_neg hp
    rw [scanReplace_nil, replaceAll_none hnone]
  | step s hs ih =>
    obtain ⟨hskip, hrest⟩ := (nothingSkipped_iff hs).mp h
    by_cases hfull : p <+: s
    · rw [scanReplace_found hp hfull, replaceAll_found hp hfull]
      rw [scanStep_full hp hfull] at ih hrest
      rw [ih hrest]
    · rw [scanReplace_passed hs hfull, replaceAll_passed hp hfull (hskip hfull), ih hrest]

omit [DecidableEq α] in
theorem head?_of_prefix (hp : p ≠ []) (h : p <+: s) : s.head? = p.head? := by
  obtain ⟨rest, rfl⟩ := h
  rw [List.head?_append_of_ne_nil _ hp]

/-- A `t` that begins otherwise than `p` shows whether the search skips anything. -/
theorem nothingSkipped_of_eq (hp : p ≠ []) {x : α} (hx : p.head? ≠ some x)
    (he : scanReplace p (x :: t) s = replaceAll p (x :: t) s) : NothingSkipped p s := by
  induction s using scan_induction p with
  | nil => exact nothingSkipped_nil p
  | step s hs ih =>
    rw [nothingSkipped_iff hs]
    by_cases hfull : p <+: s
    · rw [scanReplace_found hp hfull, replaceAll_found hp hfull, List.append_right_inj] at he
      rw [scanStep_full hp hfull] at ih ⊢
      exact ⟨fun hnot => absurd hfull hnot, ih he⟩
    · by_cases hskip : ∀ d, 0 < d → d < matchLen p s → ¬p <+: s.drop d
      · rw [scanReplace_passed hs hfull, replaceAll_passed hp hfull hskip,
          List.append_right_inj] at he
        exact ⟨fun _ => hskip, ih he⟩
      · -- at the first place that is skipped the beginning of `p` is left
        push Not at hskip
        obtain ⟨d, -, hlt, hbegin⟩ := hskip
        obtain ⟨j, hj, hfirst⟩ := firstAt_of_prefix hbegin
        have hle := firstAt_add_length_le hfirst
        have hpos := List.length_pos_iff.mpr hp
        have hstep : matchLen p s ≤ scanStep p s := Nat.le_max_right 1 _
        have hleft : (s.take (scanStep p s) ++ scanReplace p (x :: t) (s.drop (scanStep p s)))[j]? =
            p.head? := by
          rw [List.getElem?_append_left (by rw [List.length_take]; omega),
            List.getElem?_take_of_lt (by omega), ← List.head?_drop]
          exact head?_of_prefix hp (firstAt_eq_some hfirst).2.1
        have hright : ∀ rest, (s.take j ++ x :: t ++ rest)[j]? = some x := by
          intro rest
          have hlen : (s.take j).length = j := List.length_take_of_le (by omega)
          rw [List.append_assoc, List.getElem?_append_right (by omega), hlen, Nat.sub_self]
          rfl
        rw [scanReplace_passed hs hfull, replaceAll_some hp hfirst] at he
        rw [he, hright] at hleft
        exact absurd hleft.symm hx

/-! The search for a beginning of the pattern only. -/

omit [DecidableEq α] in
theorem not_prefix_drop (h : ∀ j, ¬p <+: s.drop j) (k : Nat) : ∀ j, ¬p <+: (s.drop k).drop j := by
  intro j
  rw [List.drop_drop]
  exact h _

theorem not_prefix_take (hn : matchLen p s < n) (h : ¬p <+: s) : ¬p.take n <+: s := by
  intro hpre
  have hlt := matchLen_lt h
  have hlen := matchLen_eq_length_iff.mpr hpre
  rw [matchLen_take, List.length_take] at hlen
  omega

theorem prefix_take (hn : n ≤ matchLen p s) : p.take n <+: s := by
  have hle := matchLen_le p s
  rw [← matchLen_eq_length_iff, matchLen_take, List.length_take]
  omega

theorem scanStep_take (hn : matchLen p s < n) : scanStep (p.take n) s = scanStep p s := by
  rw [scanStep, matchLen_take, Nat.min_eq_right (Nat.le_of_lt hn), scanStep]

/-- Where every partial match is shorter than the beginning, the beginning is not found either. -/
theorem scanReplace_take_eq (hn : 0 < n) (t : List α) (hno : ∀ j, ¬p <+: s.drop j)
    (h : ∀ m ∈ partialMatches p s, m.2 < n) : scanReplace (p.take n) t s = s := by
  induction s using scan_induction p with
  | nil => exact scanReplace_nil _ t
  | step s hs ih =>
    obtain ⟨hfirst, hrest⟩ := (forall_partialMatches hs).mp h
    have hnot : ¬p <+: s := hno 0
    have hlt : matchLen p s < n := by
      rcases Nat.eq_zero_or_pos (matchLen p s) with h0 | hpos
      · exact h0 ▸ hn
      · exact hfirst hnot hpos
    have hnext := not_prefix_drop hno (scanStep p s)
    rw [scanReplace_passed hs (not_prefix_take hlt hnot), scanStep_take hlt, ih hnext hrest,
      List.take_append_drop]

/-- And a `t` that begins otherwise than `p` shows whether it is. -/
theorem partialMatches_lt_of_eq (hp : p ≠ []) (hn : 0 < n) {x : α} (hx : p.head? ≠ some x)
    (hno : ∀ j, ¬p <+: s.drop j) (he : scanReplace (p.take n) (x :: t) s = s) :
    ∀ m ∈ partialMatches p s, m.2 < n := by
  induction s using scan_induction p with
  | nil => exact forall_partialMatches_nil
  | step s hs ih =>
    have hnot : ¬p <+: s := hno 0
    have hnext := not_prefix_drop hno (scanStep p s)
    rw [forall_partialMatches hs]
    rcases Nat.lt_or_ge (matchLen p s) n with hlt | hge
    · rw [scanReplace_passed hs (not_prefix_take hlt hnot), scanStep_take hlt] at he
      have hdrop := (List.append_cancel_left_eq _ _ _).mp (he.trans (List.take_append_drop _ s).symm)
      exact ⟨fun _ _ => hlt, ih hnext hdrop⟩
    · have htake : p.take n ≠ [] := by
        intro h0
        rcases List.take_eq_nil_iff.mp h0 with h0 | h0
        · omega
        · exact hp h0
      rw [scanReplace_found htake (prefix_take hge)] at he
      have hhead : s.head? = p.head? := by
        by_contra hne
        have h0 := (matchLen_eq_zero_iff hp hs).mpr hne
        omega
      rw [← he] at hhead
      exact absurd hhead.symm hx

/-- There is no partial match where the first element of the pattern does not occur. -/
theorem partialMatches_none_iff (hp : p ≠ []) (hno : ∀ j, ¬p <+: s.drop j) :
    (∀ m ∈ partialMatches p s, False) ↔ ∀ a ∈ s, p.head? ≠ some a := by
  induction s using scan_induction p with
  | nil =>
    exact ⟨fun _ a ha => absurd ha List.not_mem_nil, fun _ => forall_partialMatches_nil⟩
  | step s hs ih =>
    have hnext := not_prefix_drop hno (scanStep p s)
    rw [forall_partialMatches hs, ih hnext]
    cases s with
    | nil => exact absurd rfl hs
    | cons a s =>
      have hzero : matchLen p (a :: s) = 0 ↔ p.head? ≠ some a := by
        rw [matchLen_eq_zero_iff hp hs, List.head?_cons, ne_comm]
      have hone : matchLen p (a :: s) = 0 → scanStep p (a :: s) = 1 := fun h0 => by
        rw [scanStep, h0]
        rfl
      refine ⟨fun h b hb => ?_, fun h => ?_⟩
      · have h0 : matchLen p (a :: s) = 0 := by
          by_contra hne
          exact h.1 (hno 0) (Nat.pos_of_ne_zero hne)
        rcases List.mem_cons.mp hb with rfl | hb
        · exact hzero.mp h0
        · rw [hone h0] at h
          exact h.2 b hb
      · have h0 := hzero.mpr (h a List.mem_cons_self)
        rw [hone h0]
        exact ⟨fun _ hpos => by omega, fun b hb => h b (List.mem_cons_of_mem _ hb)⟩

end Search
