import AlibC.StrRuns

/-! Replacing every substring. -/
namespace AlibC.Str

open CLang Search BinaryBuffer

variable {al : Alloc UInt8} {str : BinaryBuffer} {text p t sub new : Block} {newLen fuel : Nat}

/-- In the end of a `t` that was put in, from where the old text ended on, no `p` begins. -/
def NotFoundAgain (p t text : Block) : Prop :=
  ∀ o ∈ occurrences p text, ∀ j, p.length ≤ j → j < t.length →
    ¬p <+: (t ++ text.drop (o + p.length)).drop j

/-- The search passes over the end of the `t`. -/
theorem NotFoundAgain.firstAt_eq (h : NotFoundAgain p t text) {i : Nat} (hp : p ≠ [])
    (hi : firstAt p text = some i) (hle : p.length ≤ t.length) :
    firstAt p (t.drop p.length ++ text.drop (i + p.length)) =
      (firstAt p (text.drop (i + p.length))).map (t.length - p.length + ·) := by
  rw [← List.length_drop]
  refine firstAt_append fun j hj => ?_
  rw [List.length_drop] at hj
  have hnot := h i (by rw [occurrences_some hp hi]; exact List.mem_cons_self) (p.length + j)
    (Nat.le_add_right _ _) (by omega)
  rwa [← List.drop_drop, List.drop_append_of_le_length hle] at hnot

theorem NotFoundAgain.drop (h : NotFoundAgain p t text) {i : Nat} (hp : p ≠ [])
    (hi : firstAt p text = some i) : NotFoundAgain p t (text.drop (i + p.length)) := by
  intro o ho j hle hlt
  rw [List.drop_drop, ← Nat.add_assoc]
  refine h (i + p.length + o) ?_ j hle hlt
  rw [occurrences_some hp hi]
  exact List.mem_cons_of_mem _ (List.mem_map_of_mem ho)

/-- A `t` that is not shorter is put in, and the search goes on behind it. -/
theorem replaceSubstringsLoop_replaces (al : Alloc UInt8) (hsub : 0 ∈ sub) (hp : cstr sub ≠ [])
    (hnew : newLen ≤ new.length) (h0 : 0 ∉ new.take newLen) (hle : (cstr sub).length ≤ newLen)
    (rest : Block) : ∀ (front : Block) (fuel : Nat) (str : BinaryBuffer), Holds str (front ++ rest) →
      (occurrences (cstr sub) rest).length ≤ fuel →
      str.len + (occurrences (cstr sub) rest).length * (newLen - (cstr sub).length) ≤
        str.capacity →
      NotFoundAgain (cstr sub) (new.take newLen) rest →
      ∃ str', replaceSubstringsLoop al (some sub) (cstr sub).length (some new) newLen fuel str
          ((firstAt (cstr sub) rest).map (front.length + ·)) = .ok (.ok, str') ∧
        Holds str' (front ++ replaceAll (cstr sub) (new.take newLen) rest) := by
  have hlen : (new.take newLen).length = newLen := List.length_take_of_le hnew
  generalize hpat : cstr sub = p at *
  generalize ht : new.take newLen = t at *
  induction rest using search_induction hp with
  | none rest hnone =>
    intro front fuel str h _ _ _
    rw [hnone, replaceAll_none hnone]
    exact ⟨str, by rw [replaceSubstringsLoop.eq_def]; rfl, h⟩
  | some rest i hi ih =>
    intro front fuel str h hfuel hroom hnot
    have hin := firstAt_add_length_le hi
    have hslen := h.len_eq
    rw [List.length_append] at hslen
    rw [occurrences_some hp hi, List.length_cons, List.length_map] at hfuel hroom
    rw [Nat.succ_mul] at hroom
    obtain ⟨fuel, rfl⟩ : ∃ k, fuel = k + 1 := ⟨fuel - 1, by omega⟩
    obtain ⟨str₁, hr, h₁, hlen₁, hcap₁⟩ := @replace_part str _ new (front.length + i)
      newLen al p.length h (by rw [List.length_append]; omega) hnew ⟨by omega, .inl hle⟩
      (by rw [ht]; exact h0)
    have htext : (front ++ rest).take (front.length + i) ++ new.take newLen ++
        (front ++ rest).drop (front.length + i + p.length) =
        front ++ rest.take i ++ t ++ rest.drop (i + p.length) := by
      rw [ht, List.take_length_add_append, Nat.add_assoc, List.drop_length_add_append]
    rw [htext] at h₁
    have hfront : (front ++ rest.take i ++ t).length = front.length + i + newLen := by
      rw [List.length_append, List.length_append, List.length_take_of_le (by omega), hlen]
    have hdrop : (front ++ rest.take i ++ t ++ rest.drop (i + p.length)).drop
        (front.length + i + p.length) = t.drop p.length ++ rest.drop (i + p.length) := by
      have hpre : (front ++ rest.take i).length = front.length + i := by
        rw [List.length_append, List.length_take_of_le (by omega)]
      rw [List.append_assoc, ← hpre, List.drop_length_add_append,
        List.drop_append_of_le_length (by omega)]
    have hfind : strstr str₁.buff (front.length + i + p.length) (some sub) =
        .ok ((firstAt p (rest.drop (i + p.length))).map
          ((front ++ rest.take i ++ t).length + ·)) := by
      rw [h₁.isText.strstr_eq hsub (by rw [List.length_append]; omega), hpat, hdrop,
        hnot.firstAt_eq hp hi (by omega), Option.map_map]
      congr 2
      funext k
      simp only [Function.comp_apply]
      omega
    obtain ⟨str', hr', h'⟩ := ih (front ++ rest.take i ++ t) fuel str₁ h₁ (by omega) (by omega)
      (hnot.drop hp hi)
    refine ⟨str', ?_, ?_⟩
    · rw [hi, Option.map_some, replaceSubstringsLoop, hr, ok_bind]
      dsimp only
      rw [if_neg (fun hc => hc rfl), hfind, ok_bind]
      exact hr'
    · rw [replaceAll_some hp hi]
      simpa only [List.append_assoc] using h'

/-- Behind a shorter `t` the search goes on in the old memory, in which the rest of the text still
lies. It is too short for a `p`. -/
theorem replaceSubstringsLoop_shorter (hsub : 0 ∈ sub) (hp : cstr sub ≠ [])
    (hnew : newLen ≤ new.length) (h0 : 0 ∉ new.take newLen) (hlt : newLen < (cstr sub).length)
    (h : Holds str text) {i : Nat} (hi : firstAt (cstr sub) text = some i)
    (hgap : str.len - (i + (cstr sub).length) ≤ (cstr sub).length - newLen) :
    ∃ str', replaceSubstringsLoop al (some sub) (cstr sub).length (some new) newLen (fuel + 1) str
        (some i) = .ok (.ok, str') ∧
      Holds str' (replaceAll (cstr sub) (new.take newLen) text) := by
  have hlen : (new.take newLen).length = newLen := List.length_take_of_le hnew
  have hin := firstAt_add_length_le hi
  have hslen := h.len_eq
  have hle := h.wf.len_le
  have hok : Replaceable str i (cstr sub).length newLen := ⟨by omega, .inr (by omega)⟩
  obtain ⟨str₁, hr, h₁, -⟩ := replace_part al h hin hnew hok h0
  obtain ⟨str₂, hr₂, -, -, -, -, hblk⟩ := hok.replace_eq al h.wf (by omega) hnew
  rw [hr] at hr₂
  cases hr₂
  obtain ⟨w, hb⟩ := h.isText.buff_eq
  have hold := hblk _ hb
  have hdlen : (str.contents.drop (i + (cstr sub).length)).length =
      str.len - (i + (cstr sub).length) := by rw [List.length_drop, h.wf.length_contents]
  have hblen : (text ++ 0 :: w).length = str.capacity := by
    rw [← h.wf.block, hb, Option.getD_some]
  have hmlen := @length_overwrite _ (text ++ 0 :: w) (i + newLen)
    (str.contents.drop (i + (cstr sub).length)) (by omega)
  have hmem : (overwrite (overwrite (text ++ 0 :: w) (i + newLen)
      (str.contents.drop (i + (cstr sub).length))) i (new.take newLen)).drop
        (i + (cstr sub).length) = text.drop (i + (cstr sub).length) ++ 0 :: w := by
    rw [drop_overwrite_of_le (by omega) (by omega), drop_overwrite_of_le (by omega) (by omega),
      List.drop_append_of_le_length hin]
  have hnone : firstAt (cstr sub) (text.drop (i + (cstr sub).length)) = none :=
    firstAt_eq_none_of_length (by rw [List.length_drop]; omega)
  have hfind : strstr str₁.buff (i + (cstr sub).length) (some sub) = .ok none := by
    rw [hold, strstr_drop hmem (fun hm => h.noZero (List.mem_of_mem_drop hm)) hsub, hnone]
    rfl
  refine ⟨str₁, ?_, ?_⟩
  · rw [replaceSubstringsLoop, hr, ok_bind]
    dsimp only
    rw [if_neg (fun hc => hc rfl), hfind, ok_bind, replaceSubstringsLoop.eq_def]
  · rw [replaceAll_some hp hi, replaceAll_none hnone]
    exact h₁

/-- Each round of a loop that ends is a replacement in the memory that was there. -/
theorem replaceSubstringsLoop_cases {str' : BinaryBuffer} {ptr : Nat} {substringLen : Nat}
    (hr : replaceSubstringsLoop al (some sub) substringLen (some new) newLen fuel str (some ptr) =
      .ok (.ok, str')) :
    ∃ k str₁ found, fuel = k + 1 ∧
      str.replace al ptr substringLen (some new) newLen = .ok (.ok, str₁) ∧
      strstr str₁.buff (ptr + substringLen) (some sub) = .ok found ∧
      replaceSubstringsLoop al (some sub) substringLen (some new) newLen k str₁ found =
        .ok (.ok, str') := by
  cases fuel with
  | zero => cases hr
  | succ k =>
    rw [replaceSubstringsLoop] at hr
    obtain ⟨⟨e, str₁⟩, hr₁, hr⟩ := bind_eq_ok.mp hr
    dsimp only at hr
    obtain ⟨rfl, hr⟩ := of_guard hr
    obtain ⟨found, hfind, hr⟩ := bind_eq_ok.mp hr
    exact ⟨k, str₁, found, rfl, hr₁, hfind, hr⟩

theorem replaceSubstringsLoop_length {substringLen : Nat} : ∀ (fuel : Nat) (str : BinaryBuffer)
    (found : Option Nat) (str' : BinaryBuffer),
    replaceSubstringsLoop al (some sub) substringLen (some new) newLen fuel str found =
      .ok (.ok, str') → (str'.buff.getD []).length = (str.buff.getD []).length := by
  intro fuel
  induction fuel with
  | zero =>
    intro str found str' hr
    cases found with
    | none =>
      cases hr
      rfl
    | some ptr => cases hr
  | succ k ih =>
    intro str found str' hr
    cases found with
    | none =>
      cases hr
      rfl
    | some ptr =>
      obtain ⟨_, str₁, found, hk, hr₁, -, hr⟩ := replaceSubstringsLoop_cases hr
      cases hk
      exact (ih str₁ found str' hr).trans (replace_memory hr₁).1

/-- A `t` whose end contains a `p` is searched again and again. -/
theorem replaceSubstringsLoop_endless (hp : cstr sub ≠ []) (hnew : newLen ≤ new.length)
    (h0 : 0 ∉ new.take newLen) {i : Nat}
    (hin : firstAt (cstr sub) ((new.take newLen).drop (cstr sub).length) = some i) :
    ∀ (fuel : Nat) (str str' : BinaryBuffer) (ptr : Nat),
      replaceSubstringsLoop al (some sub) (cstr sub).length (some new) newLen fuel str (some ptr) ≠
        .ok (.ok, str') := by
  have hlen : (new.take newLen).length = newLen := List.length_take_of_le hnew
  have hpos := List.length_pos_iff.mpr hp
  have hfit := firstAt_add_length_le hin
  rw [List.length_drop, hlen] at hfit
  intro fuel
  induction fuel with
  | zero => exact fun str str' ptr hr => by cases hr
  | succ k ih =>
    intro str str' ptr hr
    obtain ⟨_, str₁, found, hk, hr₁, hfind, hr⟩ := replaceSubstringsLoop_cases hr
    cases hk
    obtain ⟨-, hdata⟩ := (replace_memory hr₁).2 (by omega)
    obtain ⟨blk, hb, rfl⟩ := strstr_inv hfind
    rw [hb, Option.getD_some] at hdata
    -- the search begins in the `t` that was put in
    have hblk : blk.drop (ptr + (cstr sub).length) =
        (new.take newLen).drop (cstr sub).length ++ (blk.drop ptr).drop newLen := by
      rw [← List.drop_drop]
      conv => lhs; rw [← List.take_append_drop newLen (blk.drop ptr), hdata]
      rw [List.drop_append_of_le_length (by omega)]
    obtain ⟨j, -, hj⟩ := firstAt_append_right hin (cstr ((blk.drop ptr).drop newLen))
    rw [hblk, cstr_append (fun hm => h0 (List.mem_of_mem_drop hm)), hj, Option.map_some] at hr
    exact ih str₁ str' _ hr

/-- The call puts a `t` in the place of each `p`. -/
def ReplacesAll (al : Alloc UInt8) (str : BinaryBuffer) (text sub new : Block) (newstrLen : Nat)
    (t : Block) : Prop :=
  ∃ str', replaceSubstrings al str (some sub) (some new) newstrLen = .ok (.ok, str') ∧
    IsText str' (replaceAll (cstr sub) t text)

/-- The lengths that work: the same one, a shorter one when what is behind the first `p` is moved
past itself, and a longer one when there is room for all of them. -/
def SubstringsFit (str : BinaryBuffer) (text p t : Block) : Prop :=
  t.length = p.length ∨
  t.length < p.length ∧
    (∀ o, firstAt p text = some o → str.len - (o + p.length) ≤ p.length - t.length) ∨
  p.length < t.length ∧
    str.len + (occurrences p text).length * (t.length - p.length) ≤ str.capacity

/-- What is given for the new text: its memory, and its length if that is not zero. -/
theorem replaceSubstrings_eq (al : Alloc UInt8) (h : Holds str text) (hsub : GivenText (some sub))
    {newstrLen : Nat}
    (hnew : if newstrLen = 0 then GivenText (some new) else Given (some new) newstrLen) :
    ∃ n ≤ new.length, 0 ∉ new.take n ∧ n < 2 ^ 64 ∧
      new.take n = (if newstrLen = 0 then cstr new else new.take newstrLen) ∧
      replaceSubstrings al str (some sub) (some new) newstrLen =
        replaceSubstringsLoop al (some sub) (cstr sub).length (some new) n (str.capacity + 1) str
          (firstAt (cstr sub) text) := by
  obtain ⟨h0, -⟩ := hsub sub rfl
  obtain ⟨hslen, -⟩ := hsub.given rfl
  have hfind := h.isText.strstr_begin h0
  have hlimit : ∀ {n : Nat}, n ≤ new.length → new.length ≤ PTRDIFF_MAX → n < 2 ^ 64 := by
    intro n hn hmax
    unfold PTRDIFF_MAX at hmax
    omega
  rw [replaceSubstrings, if_neg (not_or.mpr ⟨Option.some_ne_none sub, Option.some_ne_none new⟩),
    hslen, ok_bind]
  by_cases hc : newstrLen = 0
  · rw [if_pos hc] at hnew
    obtain ⟨hnlen, hgiven⟩ := hnew.given rfl
    obtain ⟨hn, hmax, hno⟩ := hgiven new rfl
    refine ⟨_, hn, hno, hlimit hn hmax, by rw [if_pos hc, take_cstr], ?_⟩
    rw [if_pos hc, hnlen, ok_bind, hfind]
    rfl
  · rw [if_neg hc] at hnew
    obtain ⟨hn, hmax, hno⟩ := hnew new rfl
    refine ⟨newstrLen, hn, hno, hlimit hn hmax, by rw [if_neg hc], ?_⟩
    rw [if_neg hc, ok_bind, hfind]
    rfl

theorem SubstringsFit.loop_replaces (al : Alloc UInt8)
    (hfit : SubstringsFit str text (cstr sub) (new.take newLen))
    (h : Holds str text) (hsub : 0 ∈ sub) (hp : cstr sub ≠ []) (hnew : newLen ≤ new.length)
    (h0 : 0 ∉ new.take newLen) (hnot : NotFoundAgain (cstr sub) (new.take newLen) text) :
    ∃ str', replaceSubstringsLoop al (some sub) (cstr sub).length (some new) newLen
        (str.capacity + 1) str (firstAt (cstr sub) text) = .ok (.ok, str') ∧
      Holds str' (replaceAll (cstr sub) (new.take newLen) text) := by
  have hslen := h.len_eq
  have hle := h.wf.len_le
  rw [SubstringsFit, List.length_take_of_le hnew] at hfit
  by_cases hshort : newLen < (cstr sub).length
  · cases hi : firstAt (cstr sub) text with
    | none => exact ⟨str, rfl, by rwa [replaceAll_none hi]⟩
    | some i =>
      have hgap : str.len - (i + (cstr sub).length) ≤ (cstr sub).length - newLen := by
        rcases hfit with heq | ⟨-, hgap⟩ | ⟨hgt, -⟩
        · omega
        · exact hgap i hi
        · omega
      exact replaceSubstringsLoop_shorter hsub hp hnew h0 hshort h hi hgap
  · have hroom : str.len + (occurrences (cstr sub) text).length * (newLen - (cstr sub).length) ≤
        str.capacity := by
      rcases hfit with heq | ⟨hlt, -⟩ | ⟨-, hroom⟩
      · rw [heq, Nat.sub_self, Nat.mul_zero]
        exact hle
      · exact absurd hlt hshort
      · exact hroom
    have hcount : (occurrences (cstr sub) text).length ≤ str.capacity + 1 := by
      have hcount := occurrences_length_le hp text
      omega
    have hloop := replaceSubstringsLoop_replaces al hsub hp hnew h0 (Nat.le_of_not_lt hshort)
      text [] _ str h hcount hroom hnot
    simpa using hloop

/-- A loop that ends with the right text had a length that works. -/
theorem SubstringsFit.of_loop {str' : BinaryBuffer} (h : Holds str text) (hp : cstr sub ≠ [])
    (hnew : newLen ≤ new.length) (hlt : newLen < 2 ^ 64)
    (hr : replaceSubstringsLoop al (some sub) (cstr sub).length (some new) newLen fuel str
      (firstAt (cstr sub) text) = .ok (.ok, str'))
    (h' : IsText str' (replaceAll (cstr sub) (new.take newLen) text)) :
    SubstringsFit str text (cstr sub) (new.take newLen) := by
  have hslen := h.len_eq
  have hle := h.wf.len_le
  have hcap := h.wf.capacity_lt
  have hlen : (new.take newLen).length = newLen := List.length_take_of_le hnew
  rw [SubstringsFit, hlen]
  rcases Nat.lt_trichotomy newLen (cstr sub).length with hshort | heq | hlong
  · refine .inr (.inl ⟨hshort, fun i hi => ?_⟩)
    have hin := firstAt_add_length_le hi
    rw [hi] at hr
    obtain ⟨_, str₁, _, -, hr₁, -⟩ := replaceSubstringsLoop_cases hr
    obtain ⟨-, -, hmove⟩ := replace_inv h.wf (by omega) hlt hr₁
    omega
  · exact .inl heq
  · refine .inr (.inr ⟨hlong, ?_⟩)
    obtain ⟨w, hb⟩ := h'.buff_eq
    have hblk := replaceSubstringsLoop_length _ _ _ _ hr
    rw [h.wf.block, hb, Option.getD_some, List.length_append, List.length_cons] at hblk
    have hsum := length_replaceAll hp (new.take newLen) text
    have hmul : (occurrences (cstr sub) text).length * newLen =
        (occurrences (cstr sub) text).length * (newLen - (cstr sub).length) +
          (occurrences (cstr sub) text).length * (cstr sub).length := by
      rw [← Nat.mul_add, Nat.sub_add_cancel (Nat.le_of_lt hlong)]
    rw [hlen] at hsum
    omega

/-- With a length that works the substrings are replaced, unless one is found in what was put in.
Only such a length works, and a new text whose end contains the substring never does. -/
theorem replaceSubstrings_replaces (al : Alloc UInt8) (h : Holds str text)
    (hsub : GivenText (some sub)) (hp : cstr sub ≠ []) {newstrLen : Nat}
    (hnew : if newstrLen = 0 then GivenText (some new) else Given (some new) newstrLen) :
    let p := cstr sub
    let t := if newstrLen = 0 then cstr new else new.take newstrLen
    (SubstringsFit str text p t ∧ NotFoundAgain p t text →
      ReplacesAll al str text sub new newstrLen t) ∧
    (ReplacesAll al str text sub new newstrLen t → SubstringsFit str text p t ∧
      (firstAt p text ≠ none → firstAt p (t.drop p.length) = none)) ∧
    (t.length ≤ p.length →
      (ReplacesAll al str text sub new newstrLen t ↔ SubstringsFit str text p t)) := by
  obtain ⟨n, hn, hno, hlt, ht, hcall⟩ := replaceSubstrings_eq al h hsub hnew
  have hlen : (new.take n).length = n := List.length_take_of_le hn
  obtain ⟨h0, -⟩ := hsub sub rfl
  have hslen := h.len_eq
  have hle := h.wf.len_le
  dsimp only
  rw [← ht]
  have hsuff : SubstringsFit str text (cstr sub) (new.take n) ∧
      NotFoundAgain (cstr sub) (new.take n) text →
      ReplacesAll al str text sub new newstrLen (new.take n) := by
    rintro ⟨hfit, hnot⟩
    obtain ⟨str', hr, h'⟩ := hfit.loop_replaces al h h0 hp hn hno hnot
    exact ⟨str', hcall.trans hr, h'.isText⟩
  have hnec : ReplacesAll al str text sub new newstrLen (new.take n) →
      SubstringsFit str text (cstr sub) (new.take n) ∧
      (firstAt (cstr sub) text ≠ none →
        firstAt (cstr sub) ((new.take n).drop (cstr sub).length) = none) := by
    rintro ⟨str', hr, h'⟩
    rw [hcall] at hr
    refine ⟨SubstringsFit.of_loop h hp hn hlt hr h', fun hfound => ?_⟩
    obtain ⟨i, hi⟩ := Option.ne_none_iff_exists'.mp hfound
    rw [hi] at hr
    by_contra hin
    obtain ⟨j, hj⟩ := Option.ne_none_iff_exists'.mp hin
    exact replaceSubstringsLoop_endless hp hn hno hj _ _ _ _ hr
  refine ⟨hsuff, hnec, fun hshort => ⟨fun hr => (hnec hr).1, fun hfit => hsuff ⟨hfit, ?_⟩⟩⟩
  intro o _ j hj hj'
  omega

/-- Both of two characters are replaced. -/
theorem replaceSubstrings_replaces_two :
    ReplacesAll (.filled 0) ⟨some [97, 97, 0, 0, 0], 3, 5, 1, 1⟩ [97, 97] [97, 0] [98, 99, 0] 0
      [98, 99] := by
  have h : Holds ⟨some [97, 97, 0, 0, 0], 3, 5, 1, 1⟩ [97, 97] :=
    ⟨⟨rfl, by decide, by decide, by decide, by decide, by decide⟩, by decide, rfl⟩
  have hsub : GivenText (some [97, 0]) :=
    givenText_some (by decide) (show 2 ≤ PTRDIFF_MAX by decide)
  have hnew : if 0 = 0 then GivenText (some [98, 99, 0]) else Given (some [98, 99, 0]) 0 := by
    rw [if_pos rfl]
    exact givenText_some (by decide) (show 3 ≤ PTRDIFF_MAX by decide)
  have hone : cstr [97, 0] = [97] := by decide
  have hlast : occurrences [97] ([97] : Block) = [0] := by
    rw [occurrences_some (by decide) (show firstAt [97] ([97] : Block) = some 0 by decide)]
    show 0 :: (occurrences [97] ([] : Block)).map _ = _
    rw [occurrences_none (by decide)]
    rfl
  have hplaces : occurrences [97] ([97, 97] : Block) = [0, 1] := by
    rw [occurrences_some (by decide) (show firstAt [97] ([97, 97] : Block) = some 0 by decide)]
    show 0 :: (occurrences [97] ([97] : Block)).map _ = _
    rw [hlast]
    rfl
  refine (replaceSubstrings_replaces (.filled 0) h hsub (by decide) hnew).1
    ⟨.inr (.inr ⟨by decide, ?_⟩), ?_⟩
  · rw [hone, hplaces]
    decide
  · rw [hone]
    intro o _ j hj hj'
    obtain rfl : j = 1 := by
      have hle : 1 ≤ j := hj
      have hlt : j < 2 := hj'
      omega
    exact fun hpre => absurd (List.cons_prefix_cons.mp hpre).1 (by decide)

/-- Without room the new text goes where the old memory was; a shorter one cannot move past itself;
and one that ends with the substring is searched again. -/
theorem replaceSubstrings_fails :
    replaceSubstrings (.filled 0) ⟨some [97, 0], 2, 2, 1, 1⟩ (some [97, 0]) (some [98, 99, 0]) 0 =
      .error .dangling ∧
    replaceSubstrings (.filled 0) ⟨some [97, 98, 99, 0], 4, 4, 1, 1⟩ (some [97, 0]) (some [0]) 0 =
      .error .overlap ∧
    replaceSubstrings (.filled 0) ⟨some [97, 0, 0, 0], 2, 4, 1, 1⟩ (some [97, 0])
      (some [98, 97, 0]) 0 = .error .dangling ∧
    ¬ReplacesAll (.filled 0) ⟨some [97, 0, 0, 0], 2, 4, 1, 1⟩ [97] [97, 0] [98, 97, 0] 0
      [98, 97] := by
  have hr : replaceSubstrings (.filled 0) ⟨some [97, 0, 0, 0], 2, 4, 1, 1⟩ (some [97, 0])
      (some [98, 97, 0]) 0 = .error .dangling := by decide
  refine ⟨by decide, by decide, hr, fun hall => ?_⟩
  obtain ⟨str', hr', -⟩ := hall
  rw [hr] at hr'
  cases hr'

end AlibC.Str
