import AlibC.StringObjectRuns
import AlibC.Lib.Scan

/-! The loop of `StringObject_replace_substrings` is a search that never goes back. -/
namespace AlibC.StringObject

open CLang Search

variable {al : Alloc UInt8} {s rStr : StringObject} {text p rest rest' made : Block}
  {new : Option Block} {q ibegin substrCounter n : Nat}

/-- The text that is put in: nothing for `NULL`. -/
def textOf (new : Option Block) : Block :=
  match new with
  | none => []
  | some mem => cstr mem

theorem textOf_char {x : UInt8} (hx : x ≠ 0) : textOf (some [x, 0]) = [x] :=
  @cstr_eq [x] [] fun hm => hx (List.mem_singleton.mp hm).symm

theorem load_text (h : q < text.length) :
    load (some (text ++ 0 :: rest)) q 1 = .ok [text[q]] := by
  rw [load_some (by simp; omega), List.drop_append_of_le_length (by omega),
    List.drop_eq_getElem_cons h]
  rfl

/-- The inner loop counts what agrees. -/
theorem matchLoop_eq (h0 : 0 ∉ p) : ∀ (n q j : Nat), q ≤ text.length → j + n ≤ p.length →
    matchLoop (some (text ++ 0 :: rest)) (some (p ++ 0 :: rest')) q j n =
      .ok (j + matchLen ((p.drop j).take n) (text.drop q)) := by
  intro n
  induction n with
  | zero =>
    intro q j _ _
    rw [matchLoop, List.take_zero, matchLen_nil_left]
    rfl
  | succ n ih =>
    intro q j hq hj
    have hjp : j < p.length := by omega
    rw [matchLoop, load_text hjp, List.drop_eq_getElem_cons hjp, List.take_succ_cons]
    rcases Nat.lt_or_ge q text.length with hlt | hge
    · rw [load_text hlt, ok_bind, ok_bind, List.drop_eq_getElem_cons hlt, matchLen]
      by_cases hc : text[q] = p[j]
      · rw [if_pos (congrArg (fun c => [c]) hc), if_pos hc.symm, ih (q + 1) (j + 1) hlt (by omega)]
        congr 1
        omega
      · rw [if_neg fun he => hc (List.cons.inj he).1, if_neg fun he => hc he.symm]
        rfl
    · have hend : q = text.length := Nat.le_antisymm hq hge
      have hne : ([0] : Block) ≠ [p[j]] := fun he => h0 ((List.cons.inj he).1 ▸ List.getElem_mem hjp)
      rw [hend, load_terminator, ok_bind, ok_bind, if_neg hne, List.drop_length, matchLen_nil_right]
      rfl

/-- The object holds `made` without the last characters, which are still to be copied from where
they lie before the position `q` of the text. -/
structure Made (text : Block) (q ibegin substrCounter : Nat) (rStr : StringObject)
    (made : Block) : Prop where
  exists_out : ∃ out, rStr.Holds out ∧ made = out ++ (text.drop ibegin).take substrCounter
  minMem_lt : rStr.minMem < 2 ^ 32
  pos_eq : ibegin + substrCounter = q
  pos_le : q ≤ text.length

/-- Characters that are passed over are to be copied too. -/
theorem Made.pass (h : Made text q ibegin substrCounter rStr made) {k : Nat}
    (hk : q + k ≤ text.length) : Made text (q + k) ibegin (substrCounter + k) rStr
      (made ++ (text.drop q).take k) := by
  obtain ⟨⟨out, hout, rfl⟩, hmin, hpos, hle⟩ := h
  refine ⟨⟨out, hout, ?_⟩, hmin, by omega, hk⟩
  rw [List.append_assoc, List.take_add, List.drop_drop, hpos]

/-- They are copied all at once. -/
theorem Made.copy (hal : al.Succeeds) (h0 : 0 ∉ text) (hlen : text.length < 2 ^ 31)
    (h : Made text q ibegin substrCounter rStr made) (hfit : made.length + 1 < 2 ^ 32) :
    ∃ rStr', rStr.appendCount al (advance (some (text ++ 0 :: rest)) ibegin)
        (toUInt substrCounter) = .ok (.ok, rStr') ∧ rStr'.Holds made ∧ rStr'.minMem < 2 ^ 32 := by
  obtain ⟨⟨out, hout, rfl⟩, hmin, hpos, hle⟩ := h
  have hdrop : (text ++ 0 :: rest).drop ibegin = text.drop ibegin ++ 0 :: rest :=
    List.drop_append_of_le_length (by omega)
  have hcstr : cstr (text.drop ibegin ++ 0 :: rest) = text.drop ibegin :=
    cstr_eq fun hm => h0 (List.mem_of_mem_drop hm)
  have hdlen : (text.drop ibegin).length = text.length - ibegin := List.length_drop
  have htake : ((text.drop ibegin).take substrCounter).length = substrCounter :=
    List.length_take_of_le (by omega)
  rw [List.length_append, htake] at hfit
  obtain ⟨rStr', hr, hholds, hm⟩ := @appendCount_of_grows al rStr out hal hout
    (text.drop ibegin ++ 0 :: rest) (List.mem_append_right _ List.mem_cons_self) substrCounter
    (by rw [hcstr]; omega) (by rw [hcstr]; omega) (grows_of_lt hfit hmin hout.capacity_lt)
  rw [hcstr] at hholds
  refine ⟨rStr', ?_, hholds, hm ▸ hmin⟩
  rw [advance_some, hdrop, toUInt_nat (show substrCounter < 2 ^ 32 by omega), hr]

theorem Made.appendMatch_eq (hal : al.Succeeds) (h0 : 0 ∉ text) (hlen : text.length < 2 ^ 31)
    (hnew : ∀ mem, new = some mem → 0 ∈ mem)
    (h : Made text q ibegin substrCounter rStr made)
    (hfit : made.length + (textOf new).length + 1 < 2 ^ 32) {k : Nat} (hk : q + k ≤ text.length) :
    ∃ rStr', appendMatch al rStr (some (text ++ 0 :: rest)) ibegin substrCounter new = .ok rStr' ∧
      Made text (q + k) (q + k) 0 rStr' (made ++ textOf new) := by
  obtain ⟨rStr₁, hr₁, hholds, hmin⟩ := @Made.copy _ _ _ rest _ _ _ _ hal h0 hlen h (by omega)
  have hmade : ∀ {r : StringObject} {out : Block}, r.Holds out → r.minMem < 2 ^ 32 →
      Made text (q + k) (q + k) 0 r out := fun hr hm => by
    refine ⟨⟨_, hr, ?_⟩, hm, rfl, hk⟩
    rw [List.take_zero, List.append_nil]
  rw [appendMatch, hr₁, ok_bind]
  cases new with
  | none => exact ⟨rStr₁, rfl, hmade (by rwa [textOf, List.append_nil]) hmin⟩
  | some mem =>
    obtain ⟨rStr₂, hr₂, hholds₂, hm₂⟩ := append_of_grows hal hholds (hnew mem rfl)
      (grows_of_lt hfit hmin hholds.capacity_lt)
    refine ⟨rStr₂, ?_, hmade hholds₂ (hm₂ ▸ hmin)⟩
    dsimp only
    rw [if_pos (Option.some_ne_none mem), hr₂]
    rfl

theorem Made.appendRest_eq (hal : al.Succeeds) (h0 : 0 ∉ text) (hlen : text.length < 2 ^ 31)
    (h : Made text q ibegin substrCounter rStr made) (hfit : made.length + 1 < 2 ^ 32) :
    ∃ rStr', appendRest al rStr (some (text ++ 0 :: rest)) ibegin substrCounter = .ok rStr' ∧
      rStr'.Holds made ∧ rStr'.minMem < 2 ^ 32 := by
  rw [appendRest]
  by_cases hc : substrCounter = 0
  · obtain ⟨⟨out, hout, rfl⟩, hmin, -, -⟩ := h
    refine ⟨rStr, by rw [if_neg (not_not.mpr hc)], ?_, hmin⟩
    rwa [hc, List.take_zero, List.append_nil]
  · obtain ⟨rStr', hr, hholds⟩ := @Made.copy _ _ _ rest _ _ _ _ hal h0 hlen h hfit
    exact ⟨rStr', by rw [if_pos hc, hr]; rfl, hholds⟩

section Loop

variable {N : Int} {fuel : Nat}

theorem replaceLoop_end : replaceLoop al (some (text ++ 0 :: rest)) (some (p ++ 0 :: rest')) new N
    fuel (text.length - text.length : Nat) q ibegin substrCounter rStr =
      .ok (ibegin, substrCounter, rStr) := by
  rw [Nat.sub_self]
  cases fuel <;> rfl

/-- A character that the substring does not begin with is passed over. -/
theorem replaceLoop_other (hp : 0 < p.length) (hq : q < text.length) (hne : text[q] ≠ p[0]) :
    replaceLoop al (some (text ++ 0 :: rest)) (some (p ++ 0 :: rest')) new N (fuel + 1)
        (text.length - q : Nat) q ibegin substrCounter rStr =
      replaceLoop al (some (text ++ 0 :: rest)) (some (p ++ 0 :: rest')) new N fuel
        (text.length - (q + 1) : Nat) (q + 1) ibegin (substrCounter + 1) rStr := by
  have hleft : ((text.length - q : Nat) : Int) - 1 = (text.length - (q + 1) : Nat) := by omega
  rw [replaceLoop, if_pos (by omega), load_text hq, load_text hp, ok_bind, ok_bind,
    if_neg fun he => hne (List.cons.inj he).1, hleft]

/-- With the first character of the substring as much is compared as agrees. -/
theorem replaceLoop_same (h0 : 0 ∉ p) (hp : 0 < p.length) (hN : N.toNat ≤ p.length)
    (hq : q < text.length) (heq : text[q] = p[0]) {j : Nat}
    (hj : j = matchLen (p.take N.toNat) (text.drop q)) :
    replaceLoop al (some (text ++ 0 :: rest)) (some (p ++ 0 :: rest')) new N (fuel + 1)
        (text.length - q : Nat) q ibegin substrCounter rStr =
      if j = N then do
        let rStr ← appendMatch al rStr (some (text ++ 0 :: rest)) ibegin substrCounter new
        replaceLoop al (some (text ++ 0 :: rest)) (some (p ++ 0 :: rest')) new N fuel
          (text.length - (q + j) : Nat) (q + j) (q + j) 0 rStr
      else
        replaceLoop al (some (text ++ 0 :: rest)) (some (p ++ 0 :: rest')) new N fuel
          (text.length - (q + j) : Nat) (q + j) ibegin (substrCounter + j) rStr := by
  have hle := matchLen_le_right (p.take N.toNat) (text.drop q)
  have hleft : ((text.length - q : Nat) : Int) - j = (text.length - (q + j) : Nat) := by
    rw [List.length_drop] at hle
    omega
  rw [replaceLoop, if_pos (by omega), load_text hq, load_text hp, ok_bind, ok_bind,
    if_pos (congrArg (fun c => [c]) heq), matchLoop_eq h0 _ _ _ (Nat.le_of_lt hq) (by omega),
    ok_bind, List.drop_zero, Nat.zero_add, ← hj, hleft]

/-- A step takes what the search that never goes back takes. -/
theorem replaceLoop_step (hal : al.Succeeds) (h0 : 0 ∉ text) (hlen : text.length < 2 ^ 31)
    (hnew : ∀ mem, new = some mem → 0 ∈ mem) (hp0 : 0 ∉ p) (hn : 0 < n) (hnp : n ≤ p.length)
    (h : Made text q ibegin substrCounter rStr made) (hq : q < text.length)
    (hfit : (made ++ scanReplace (p.take n) (textOf new) (text.drop q)).length + 1 < 2 ^ 32) :
    ∃ q' b c r made',
      replaceLoop al (some (text ++ 0 :: rest)) (some (p ++ 0 :: rest')) new n (fuel + 1)
          (text.length - q : Nat) q ibegin substrCounter rStr =
        replaceLoop al (some (text ++ 0 :: rest)) (some (p ++ 0 :: rest')) new n fuel
          (text.length - q' : Nat) q' b c r ∧
      q < q' ∧ Made text q' b c r made' ∧
      made ++ scanReplace (p.take n) (textOf new) (text.drop q) =
        made' ++ scanReplace (p.take n) (textOf new) (text.drop q') := by
  have htake : (p.take n).length = n := List.length_take_of_le hnp
  have hne : p.take n ≠ [] := List.length_pos_iff.mp (by omega)
  have hdrop : text.drop q ≠ [] := List.length_pos_iff.mp (by rw [List.length_drop]; omega)
  have hright := matchLen_le_right (p.take n) (text.drop q)
  have hzero : matchLen (p.take n) (text.drop q) = 0 ↔ text[q] ≠ p[0] := by
    rw [matchLen_eq_zero_iff hne hdrop, List.drop_eq_getElem_cons hq, List.head?_cons,
      List.head?_take, if_neg (Nat.ne_of_gt hn), List.head?_eq_getElem?,
      List.getElem?_eq_getElem (by omega), ne_eq, Option.some.injEq]
  have hbegin : matchLen (p.take n) (text.drop q) = n ↔ p.take n <+: text.drop q := by
    rw [← matchLen_eq_length_iff, htake]
  have hstep : scanStep (p.take n) (text.drop q) = max 1 (matchLen (p.take n) (text.drop q)) := rfl
  rw [List.length_drop] at hright
  generalize hj : matchLen (p.take n) (text.drop q) = j at *
  by_cases hc : text[q] = p[0]
  · have hjpos : 0 < j := Nat.pos_of_ne_zero fun hj0 => hzero.mp hj0 hc
    rw [replaceLoop_same hp0 (by omega) (show (n : Int).toNat ≤ p.length from hnp) hq hc hj.symm]
    by_cases hfull : j = n
    · rw [scanReplace_found hne (hbegin.mp hfull), htake, List.drop_drop, ← List.append_assoc]
        at hfit ⊢
      simp only [List.length_append] at hfit
      obtain ⟨r, hr, hmade⟩ := @Made.appendMatch_eq _ _ _ rest _ _ _ _ _ hal h0 hlen hnew h
        (by omega) j (by omega)
      rw [if_pos (show (j : Int) = n by rw [hfull]), hr, ok_bind]
      exact ⟨q + j, q + j, 0, r, _, rfl, by omega, hmade, by rw [hfull]⟩
    · rw [scanReplace_passed hdrop (mt hbegin.mpr hfull), hstep, Nat.max_eq_right hjpos,
        List.drop_drop, if_neg (show ¬(j : Int) = n by omega), ← List.append_assoc]
      exact ⟨q + j, _, _, _, _, rfl, by omega, h.pass (by omega), rfl⟩
  · have hj0 : j = 0 := hzero.mpr hc
    rw [scanReplace_passed hdrop (mt hbegin.mpr (by omega)), hstep, hj0, Nat.max_zero,
      List.drop_drop, replaceLoop_other (by omega) hq hc, ← List.append_assoc]
    exact ⟨q + 1, _, _, _, _, rfl, by omega, h.pass (by omega), rfl⟩

/-- And so does the whole loop, which ends with the text. -/
theorem replaceLoop_made (hal : al.Succeeds) (h0 : 0 ∉ text) (hlen : text.length < 2 ^ 31)
    (hnew : ∀ mem, new = some mem → 0 ∈ mem) (hp0 : 0 ∉ p) (hn : 0 < n) (hnp : n ≤ p.length) :
    ∀ (fuel q ibegin substrCounter : Nat) (rStr : StringObject) (made : Block),
      Made text q ibegin substrCounter rStr made → text.length - q ≤ fuel →
      (made ++ scanReplace (p.take n) (textOf new) (text.drop q)).length + 1 < 2 ^ 32 →
      ∃ b c r, replaceLoop al (some (text ++ 0 :: rest)) (some (p ++ 0 :: rest')) new n fuel
          (text.length - q : Nat) q ibegin substrCounter rStr = .ok (b, c, r) ∧
        Made text text.length b c r
          (made ++ scanReplace (p.take n) (textOf new) (text.drop q)) := by
  have hended : ∀ {fuel q b c : Nat} {r : StringObject} {made : Block}, Made text q b c r made →
      q = text.length →
      ∃ b' c' r', replaceLoop al (some (text ++ 0 :: rest)) (some (p ++ 0 :: rest')) new n fuel
          (text.length - q : Nat) q b c r = .ok (b', c', r') ∧
        Made text text.length b' c' r'
          (made ++ scanReplace (p.take n) (textOf new) (text.drop q)) := by
    rintro fuel q b c r made h rfl
    rw [List.drop_length, scanReplace_nil, List.append_nil]
    exact ⟨b, c, r, replaceLoop_end, h⟩
  intro fuel
  induction fuel with
  | zero =>
    intro q b c r made h hfuel _
    exact hended h (Nat.le_antisymm h.pos_le (by omega))
  | succ fuel ih =>
    intro q b c r made h hfuel hfit
    rcases Nat.lt_or_eq_of_le h.pos_le with hq | hq
    · obtain ⟨q', b', c', r', made', hr, hlt, hmade, heq⟩ := @replaceLoop_step al r text p rest
        rest' made new q b c n fuel hal h0 hlen hnew hp0 hn hnp h hq hfit
      rw [heq] at hfit ⊢
      rw [hr]
      exact ih q' b' c' r' made' hmade (by omega) hfit
    · exact hended h hq

/-- A text in which the first character of the substring does not occur is passed over. -/
theorem replaceLoop_passes (hp : 0 < p.length) :
    ∀ (fuel q ibegin substrCounter : Nat) (made : Block),
      Made text q ibegin substrCounter rStr made → text.length - q ≤ fuel →
      (∀ a ∈ text.drop q, p.head? ≠ some a) →
      ∃ b c, replaceLoop al (some (text ++ 0 :: rest)) (some (p ++ 0 :: rest')) new N fuel
          (text.length - q : Nat) q ibegin substrCounter rStr = .ok (b, c, rStr) ∧
        Made text text.length b c rStr (made ++ text.drop q) := by
  intro fuel
  induction fuel with
  | zero =>
    intro q b c made h hfuel _
    obtain rfl : q = text.length := Nat.le_antisymm h.pos_le (by omega)
    rw [List.drop_length, List.append_nil]
    exact ⟨b, c, replaceLoop_end, h⟩
  | succ fuel ih =>
    intro q b c made h hfuel hno
    rcases Nat.lt_or_eq_of_le h.pos_le with hq | rfl
    · have hcons := List.drop_eq_getElem_cons hq
      have hne : text[q] ≠ p[0] := by
        have hhead := hno text[q] (hcons ▸ List.mem_cons_self)
        rw [List.head?_eq_getElem?, List.getElem?_eq_getElem hp] at hhead
        exact fun he => hhead (congrArg some he.symm)
      have hmade := h.pass (show q + 1 ≤ text.length from hq)
      have hnext : ∀ a ∈ text.drop (q + 1), p.head? ≠ some a := fun a ha =>
        hno a (hcons ▸ List.mem_cons_of_mem _ ha)
      obtain ⟨b', c', hr, hlast⟩ := ih (q + 1) b (c + 1) _ hmade (by omega) hnext
      refine ⟨b', c', by rw [replaceLoop_other hp hq hne, hr], ?_⟩
      rwa [List.append_assoc, ← List.drop_drop, List.take_append_drop] at hlast
    · rw [List.drop_length, List.append_nil]
      exact ⟨b, c, replaceLoop_end, h⟩

/-- With a length that is no positive `int` the loop does not get past such a character. -/
theorem replaceLoop_endless (h0 : 0 ∉ p) (hp : 0 < p.length) (hN : N ≤ 0) :
    ∀ (fuel q ibegin substrCounter : Nat) (rStr : StringObject) (out : Nat × Nat × StringObject),
      (∃ a ∈ text.drop q, p.head? = some a) →
      replaceLoop al (some (text ++ 0 :: rest)) (some (p ++ 0 :: rest')) new N fuel
        (text.length - q : Nat) q ibegin substrCounter rStr ≠ .ok out := by
  have hzero : N.toNat = 0 := Int.toNat_of_nonpos hN
  intro fuel
  induction fuel with
  | zero =>
    rintro q b c r out ⟨a, ha, -⟩ h
    have hpos := List.length_pos_of_mem ha
    rw [List.length_drop] at hpos
    rw [replaceLoop, if_pos (by omega)] at h
    cases h
  | succ fuel ih =>
    rintro q b c r out ⟨a, ha, hhead⟩ h
    have hpos := List.length_pos_of_mem ha
    rw [List.length_drop] at hpos
    have hq : q < text.length := by omega
    have hcons := List.drop_eq_getElem_cons hq
    by_cases hc : text[q] = p[0]
    · rw [replaceLoop_same h0 hp (by omega) hq hc (j := 0) (by
        rw [hzero, List.take_zero, matchLen_nil_left])] at h
      split at h
      · cases hm : appendMatch al r (some (text ++ 0 :: rest)) b c new with
        | error e =>
          rw [hm] at h
          cases h
        | ok r' =>
          rw [hm, ok_bind] at h
          exact ih q q 0 r' out ⟨a, ha, hhead⟩ h
      · exact ih q b c r out ⟨a, ha, hhead⟩ h
    · rw [replaceLoop_other hp hq hc] at h
      refine ih (q + 1) b (c + 1) r out ⟨a, ?_, hhead⟩ h
      rw [hcons] at ha
      rcases List.mem_cons.mp ha with rfl | ha
      · rw [List.head?_eq_getElem?, List.getElem?_eq_getElem hp] at hhead
        exact absurd (Option.some.inj hhead).symm hc
      · exact ha

end Loop

end AlibC.StringObject
