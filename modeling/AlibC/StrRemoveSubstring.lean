import AlibC.StrRuns

/-! Removing every substring. -/
namespace AlibC.Str

open CLang Search BinaryBuffer

variable {str : BinaryBuffer} {text sub : Block} {i : Nat}

/-- The call ends, and takes out each substring that is found from where the last one was. -/
def RemovesAll (str : BinaryBuffer) (text sub : Block) : Prop :=
  ∃ str', removeSubstring str (some sub) = .ok (.ok, str') ∧
    IsText str' (replaceAll (cstr sub) [] text) ∧ getLength str' ≤ text.length

/-- At the first place there is none, or something is left behind it that is shorter than the
substring. -/
def SubstringRemovable (text p : Block) : Prop :=
  ∀ i, firstAt p text = some i →
    i + p.length < text.length ∧ text.length - (i + p.length) < p.length

theorem length_removeAll {p : Block} (hp : p ≠ []) (text : Block) :
    (replaceAll p [] text).length ≤ text.length := by
  have hsum := length_replaceAll hp [] text
  rw [List.length_nil, Nat.mul_zero] at hsum
  omega

/-- The search that begins the loop. -/
theorem removeSubstring_eq (h : Holds str text) (hsub : 0 ∈ sub) :
    removeSubstring str (some sub) = (do
      let str ← removeSubstringLoop (some sub) (cstr sub).length (str.len + 1) str
        (firstAt (cstr sub) text)
      return (.ok, str)) := by
  obtain ⟨hlen, -⟩ := strlen_text hsub
  rw [removeSubstring, if_neg (Option.some_ne_none sub), hlen, ok_bind, h.isText.strstr_begin hsub]
  rfl

/-- In the text the two ends need no clamping. -/
theorem remove_found (h : Holds str text) (hi : i + (cstr sub).length ≤ text.length)
    (hp : cstr sub ≠ []) : remove str i (sizeAdd i (cstr sub).length) =
      str.remove i (i + (cstr sub).length) := by
  have hlen := h.len_eq
  have hle := h.wf.len_le
  have hlt := h.wf.capacity_lt
  have hpos := List.length_pos_iff.mpr hp
  rw [sizeAdd_eq (by omega), remove, if_neg (by omega)]
  dsimp only
  rw [if_neg (by rw [h.getLength_eq]; omega), if_neg (by omega)]

/-- The same state comes back in every round. -/
theorem removeSubstringLoop_stuck {substringLen : Nat}
    (hstay : remove str i (sizeAdd i substringLen) = .ok (.ok, str))
    (hfind : strstr str.buff i (some sub) = .ok (some i)) (fuel : Nat) :
    removeSubstringLoop (some sub) substringLen fuel str (some i) = .error .diverges := by
  induction fuel with
  | zero => rfl
  | succ fuel ih =>
    rw [removeSubstringLoop, hstay, ok_bind]
    dsimp only
    rw [hfind, ok_bind, ih]

/-- A substring at the end is only cut off with the length: it stays in the memory, where it is
found again in front of the new end, and nothing is removed there. -/
theorem removeSubstringLoop_at_end (h : Holds str text) (hsub : 0 ∈ sub) (hp : cstr sub ≠ [])
    (hi : firstAt (cstr sub) text = some i) (hend : i + (cstr sub).length = text.length)
    (fuel : Nat) :
    removeSubstringLoop (some sub) (cstr sub).length fuel str (some i) = .error .diverges := by
  have hlen := h.len_eq
  have hle := h.wf.len_le
  have hlt := h.wf.capacity_lt
  have hcut : remove str i (sizeAdd i (cstr sub).length) = .ok (.ok, { str with len := i }) := by
    rw [remove_found h (Nat.le_of_eq hend) hp]
    exact remove_to_end (Nat.le_add_right _ _) (by rw [sizeSub_eq (by omega) (by omega)]; omega)
  have hfind : strstr str.buff i (some sub) = .ok (some i) := by
    obtain ⟨-, hpre, -⟩ := firstAt_eq_some hi
    have hfirst : firstAt (cstr sub) (text.drop i) = some 0 :=
      firstAt_of_first hpre fun j hj => absurd hj (Nat.not_lt_zero j)
    rw [h.isText.strstr_eq hsub (by omega), hfirst]
    rfl
  have hstay : remove { str with len := i } i (sizeAdd i (cstr sub).length) =
      .ok (.ok, { str with len := i }) := by
    rw [sizeAdd_eq (by omega), remove, if_neg (by omega)]
    dsimp only
    have hget : getLength { str with len := i } = if i ≠ 0 then i - 1 else 0 := rfl
    refine if_pos ?_
    rw [hget]
    split <;> omega
  cases fuel with
  | zero => rfl
  | succ fuel =>
    rw [removeSubstringLoop, hcut, ok_bind]
    dsimp only
    rw [hfind, ok_bind]
    exact removeSubstringLoop_stuck hstay hfind fuel

/-- What is left behind the first substring is too short for another one. -/
theorem removeSubstringLoop_removes (h : Holds str text) (hsub : 0 ∈ sub) (hp : cstr sub ≠ [])
    (hi : firstAt (cstr sub) text = some i) (hend : i + (cstr sub).length < text.length)
    (hgap : text.length - (i + (cstr sub).length) < (cstr sub).length) (fuel : Nat) :
    ∃ str', removeSubstringLoop (some sub) (cstr sub).length (fuel + 1) str (some i) = .ok str' ∧
      Holds str' (replaceAll (cstr sub) [] text) := by
  have hlen := h.len_eq
  obtain ⟨str', hr, h'⟩ := remove_part h (Nat.le_add_right i (cstr sub).length) hend (by omega)
  have hnone : firstAt (cstr sub) (text.drop (i + (cstr sub).length)) = none :=
    firstAt_eq_none_of_length (by rw [List.length_drop]; exact hgap)
  have hfind : strstr str'.buff i (some sub) = .ok none := by
    have htake : (text.take i).length = i := List.length_take_of_le (by omega)
    rw [h'.isText.strstr_eq hsub (by rw [List.length_append]; omega), List.drop_left' htake, hnone]
    rfl
  refine ⟨str', ?_, ?_⟩
  · rw [removeSubstringLoop, remove_found h (Nat.le_of_lt hend) hp, hr, ok_bind]
    dsimp only
    rw [hfind, ok_bind, removeSubstringLoop.eq_def]
  · rw [replaceAll_some hp hi, replaceAll_none hnone, List.append_nil]
    exact h'

/-- Exactly then does the call work. Otherwise it does not end, when the substring is at the end, or
moves the rest onto itself. -/
theorem removeSubstring_removes_iff (h : Holds str text) (hsub : 0 ∈ sub) (hp : cstr sub ≠ []) :
    RemovesAll str text sub ↔ SubstringRemovable text (cstr sub) := by
  have hlen := h.len_eq
  have hle := h.wf.len_le
  have hlt := h.wf.capacity_lt
  rw [RemovesAll, removeSubstring_eq h hsub]
  constructor
  · rintro ⟨str', hr, -⟩ i hi
    obtain ⟨str₁, hloop, -⟩ := bind_eq_ok.mp hr
    have hin := firstAt_add_length_le hi
    rw [hi] at hloop
    have hend : i + (cstr sub).length < text.length := by
      refine Nat.lt_of_le_of_ne hin fun hend => ?_
      rw [removeSubstringLoop_at_end h hsub hp hi hend] at hloop
      cases hloop
    refine ⟨hend, ?_⟩
    rw [removeSubstringLoop, remove_found h hin hp] at hloop
    obtain ⟨⟨e, str₂⟩, hr₂, -⟩ := bind_eq_ok.mp hloop
    rcases remove_cases h.wf (Nat.le_add_right _ _) (by unfold ULONG_MAX; omega) hr₂ with
      (⟨-, hout, -⟩ | ⟨-, hgap⟩) | ⟨-, hout⟩
    · omega
    · omega
    · omega
  · intro hok
    cases hi : firstAt (cstr sub) text with
    | none =>
      refine ⟨str, by rw [removeSubstringLoop.eq_def]; rfl, ?_, Nat.le_of_eq h.getLength_eq⟩
      rw [replaceAll_none hi]
      exact h.isText
    | some i =>
      obtain ⟨hend, hgap⟩ := hok i hi
      obtain ⟨str', hr, h'⟩ := removeSubstringLoop_removes h hsub hp hi hend hgap str.len
      refine ⟨str', by rw [hr]; rfl, h'.isText, ?_⟩
      rw [h'.getLength_eq]
      exact length_removeAll hp text

/-- Two characters are removed in front of one. -/
theorem removeSubstring_removes_two :
    RemovesAll ⟨some [97, 98, 99, 0], 4, 4, 1, 1⟩ [97, 98, 99] [97, 98, 0] := by
  have h : Holds ⟨some [97, 98, 99, 0], 4, 4, 1, 1⟩ [97, 98, 99] :=
    ⟨⟨rfl, by decide, by decide, by decide, by decide, by decide⟩, by decide, rfl⟩
  refine (removeSubstring_removes_iff h (by decide) (by decide)).mpr fun i hi => ?_
  cases (show firstAt (cstr [97, 98, 0]) [97, 98, 99] = some 0 by decide).symm.trans hi
  decide

/-- At the end of the text a substring is found for ever, and behind one character two do not move
to the front. -/
theorem removeSubstring_fails :
    (∀ fuel, removeSubstringLoop (some [98, 0]) 1 fuel ⟨some [97, 98, 0], 3, 3, 1, 1⟩ (some 1) =
      .error .diverges) ∧
    removeSubstring ⟨some [97, 98, 0], 3, 3, 1, 1⟩ (some [98, 0]) = .error .diverges ∧
    removeSubstring ⟨some [97, 98, 0], 3, 3, 1, 1⟩ (some [97, 0]) = .error .overlap ∧
    ¬RemovesAll ⟨some [97, 98, 0], 3, 3, 1, 1⟩ [97, 98] [98, 0] := by
  have h : Holds ⟨some [97, 98, 0], 3, 3, 1, 1⟩ [97, 98] :=
    ⟨⟨rfl, by decide, by decide, by decide, by decide, by decide⟩, by decide, rfl⟩
  have hr : removeSubstring ⟨some [97, 98, 0], 3, 3, 1, 1⟩ (some [98, 0]) = .error .diverges := by
    decide
  refine ⟨removeSubstringLoop_at_end h (by decide) (by decide) (by decide) rfl, hr, by decide,
    fun hall => ?_⟩
  obtain ⟨str', hr', -⟩ := hall
  rw [hr] at hr'
  cases hr'

end AlibC.Str
