import AlibC.StringObjectReplaceLoop

/-! `StringObject_replace_substrings` replaces what its loop finds. -/
namespace AlibC.StringObject

open CLang Search

variable {al : Alloc UInt8} {s rStr : StringObject} {text p rest rest' made : Block}
  {new : Option Block} {n : Nat}

theorem extractCString_eq (hal : al.Succeeds) :
    ∃ rStr', rStr.extractCString al = .ok (rStr.str, rStr') := by
  rw [extractCString, resize]
  split
  · obtain ⟨blk, hr, hl, -⟩ := hal.realloc none 1
    dsimp only
    rw [hr]
    dsimp only
    rw [store_some (by simp; omega)]
    exact ⟨_, rfl⟩
  · rename_i hn
    obtain ⟨blk, hr, hl, -⟩ := hal.realloc none rStr.minMem
    dsimp only
    rw [hr]
    dsimp only
    rw [if_neg (not_not.mpr rfl), store_some (by simp; omega)]
    exact ⟨_, rfl⟩

/-- The run of `StringObject_replace_substrings` on the memory of an object and of a substring. -/
theorem replaceSubstrings_eq (hal : al.Succeeds) (h : s.Holds text) (h0 : 0 ∉ p)
    (new : Option Block) (rest' : Block) :
    ∃ rest rStr, rStr.Holds [] ∧ rStr.minMem < 2 ^ 32 ∧
      s.replaceSubstrings al (some (p ++ 0 :: rest')) new = (do
        let i := toInt32 text.length
        let (b, c, r) ← replaceLoop al (some (text ++ 0 :: rest)) (some (p ++ 0 :: rest')) new
          (toInt32 p.length) i.toNat i 0 0 0 rStr
        let r ← appendRest al r (some (text ++ 0 :: rest)) b c
        let (str, _) ← r.extractCString al
        return { s with str, length := r.length, capacity := r.capacity }) := by
  obtain ⟨rest, hb⟩ := h.str_eq
  obtain ⟨fresh, hfresh, hl⟩ := hal.exists_block 1
  have hnew : StringObject.new al = .ok (some ⟨some (overwrite fresh 0 [0]), 0, 1, 64⟩) := by
    rw [StringObject.new, hfresh]
    dsimp only
    rw [store_some (by simp; omega)]
    rfl
  refine ⟨rest, _, new_holds hnew, show 64 < 2 ^ 32 by decide, ?_⟩
  rw [replaceSubstrings, hnew, ok_bind]
  dsimp only
  rw [if_neg (by rw [hb]; simp), strlen_eq h0, ok_bind, h.length_eq, hb]

/-- The memory of the new object is handed over. -/
theorem extractCString_holds (hal : al.Succeeds) (h : rStr.Holds made) :
    ∃ s', (do
        let (str, _) ← rStr.extractCString al
        return { s with str, length := rStr.length, capacity := rStr.capacity }) =
        (.ok s' : Outcome StringObject) ∧ s'.Holds made := by
  obtain ⟨rStr', hr⟩ := @extractCString_eq al rStr hal
  rw [hr]
  exact ⟨_, rfl, h.exists_block, h.noZero, h.length_eq, h.capacity_lt⟩

theorem Holds.nothing_made (h : rStr.Holds []) (hm : rStr.minMem < 2 ^ 32) : Made text 0 0 0 rStr [] :=
  ⟨⟨[], h, by simp⟩, hm, rfl, Nat.zero_le _⟩

theorem toInt32_length (h : text.length < 2 ^ 31) : toInt32 text.length = text.length :=
  toInt32_eq (by omega) (by omega)

/-- What the loop has made at the end of the text becomes the text of the object. -/
theorem replaceSubstrings_of_loop (hal : al.Succeeds) (h : s.Holds text)
    (hlen : text.length < 2 ^ 31) (h0 : 0 ∉ p)
    (hloop : ∀ rest rStr, Made text 0 0 0 rStr [] → ∃ b c r,
      replaceLoop al (some (text ++ 0 :: rest)) (some (p ++ 0 :: rest')) new (toInt32 p.length)
          text.length (text.length - 0 : Nat) 0 0 0 rStr = .ok (b, c, r) ∧
        Made text text.length b c r made)
    (hfit : made.length + 1 < 2 ^ 32) :
    ∃ s', s.replaceSubstrings al (some (p ++ 0 :: rest')) new = .ok s' ∧ s'.Holds made := by
  obtain ⟨rest, rStr, hholds, hm, hr⟩ := replaceSubstrings_eq hal h h0 new rest'
  obtain ⟨b, c, r, hend, hmade⟩ := hloop rest rStr (hholds.nothing_made hm)
  obtain ⟨r', hrest, hholds', -⟩ := @Made.appendRest_eq _ _ _ rest _ _ _ _ hal h.noZero hlen hmade
    hfit
  rw [Nat.sub_zero] at hend
  rw [hr, toInt32_length hlen]
  dsimp only
  rw [Int.toNat_natCast, hend, ok_bind]
  dsimp only
  rw [hrest, ok_bind]
  exact extractCString_holds hal hholds'

/-- The result is that of the search for as much of the substring as the `int` counts. -/
theorem replaceSubstrings_scans (hal : al.Succeeds) (h : s.Holds text)
    (hlen : text.length < 2 ^ 31) (h0 : 0 ∉ p) (hn : 0 < n) (hN : toInt32 p.length = n)
    (hnew : ∀ mem, new = some mem → 0 ∈ mem)
    (hfit : (scanReplace (p.take n) (textOf new) text).length + 1 < 2 ^ 32) :
    ∃ s', s.replaceSubstrings al (some (p ++ 0 :: rest')) new = .ok s' ∧
      s'.Holds (scanReplace (p.take n) (textOf new) text) := by
  have hnp : n ≤ p.length := by
    unfold toInt32 at hN
    omega
  refine replaceSubstrings_of_loop hal h hlen h0 (fun rest rStr hmade => ?_) hfit
  rw [hN]
  exact replaceLoop_made hal h.noZero hlen hnew h0 hn hnp text.length 0 0 0 rStr [] hmade
    (Nat.le_refl _) hfit

/-- Without the first character of the substring the text stays. -/
theorem replaceSubstrings_passes (hal : al.Succeeds) (h : s.Holds text)
    (hlen : text.length < 2 ^ 31) (h0 : 0 ∉ p) (hp : 0 < p.length)
    (hno : ∀ a ∈ text, p.head? ≠ some a) :
    ∃ s', s.replaceSubstrings al (some (p ++ 0 :: rest')) new = .ok s' ∧ s'.Holds text := by
  refine replaceSubstrings_of_loop hal h hlen h0 (fun rest rStr hmade => ?_) (by omega)
  obtain ⟨b, c, hr, hlast⟩ := @replaceLoop_passes al rStr text p rest rest' new _ hp text.length
    0 0 0 [] hmade (Nat.le_refl _) hno
  exact ⟨b, c, rStr, hr, hlast⟩

/-- With it, and a length that is no positive `int`, the call does not end. -/
theorem replaceSubstrings_endless (hal : al.Succeeds) (h : s.Holds text)
    (hlen : text.length < 2 ^ 31) (h0 : 0 ∉ p) (hN : toInt32 p.length ≤ 0) {a : UInt8}
    (ha : a ∈ text) (hhead : p.head? = some a) (s' : StringObject) :
    s.replaceSubstrings al (some (p ++ 0 :: rest')) new ≠ .ok s' := by
  obtain ⟨rest, rStr, -, -, hr⟩ := replaceSubstrings_eq hal h h0 new rest'
  have hp : 0 < p.length := List.length_pos_iff.mpr fun hnil => by
    rw [hnil] at hhead
    cases hhead
  intro he
  rw [hr, toInt32_length hlen] at he
  dsimp only at he
  rw [Int.toNat_natCast] at he
  obtain ⟨out, hloop, -⟩ := bind_eq_ok.mp he
  exact @replaceLoop_endless al text p rest rest' new _ h0 hp hN text.length 0 0 0 rStr out
    ⟨a, ha, hhead⟩ hloop

/-- A length from `2 ^ 31` on is no positive `int` either: the text is lost. -/
theorem replaceSubstrings_clears (hal : al.Succeeds) (h : s.Holds text)
    (hlen : 2 ^ 31 ≤ text.length) (h0 : 0 ∉ p) :
    ∃ s', s.replaceSubstrings al (some (p ++ 0 :: rest')) new = .ok s' ∧ s'.Holds [] := by
  obtain ⟨rest, rStr, hholds, -, hr⟩ := replaceSubstrings_eq hal h h0 new rest'
  have hlt := h.length_lt
  have hcap := h.capacity_lt
  have hneg : toInt32 text.length ≤ 0 := by
    unfold toInt32
    omega
  rw [hr]
  dsimp only
  rw [Int.toNat_of_nonpos hneg, replaceLoop, if_neg (by omega), ok_bind]
  dsimp only
  rw [appendRest, if_neg (not_not.mpr rfl), ok_bind]
  exact extractCString_holds hal hholds

/-- What `StringObject_replace_substrings` promises: from left to right everything is replaced. -/
def ReplacesAll (al : Alloc UInt8) (s : StringObject) (text sub : Block) (new : Option Block) :
    Prop :=
  ∃ s', s.replaceSubstrings al (some sub) new = .ok s' ∧
    s'.Holds (replaceAll (cstr sub) (textOf new) text) ∧ strlen s'.str = .ok s'.length

/-- The sizes of an object can count the result and its terminator. -/
def ResultFits (text sub : Block) (new : Option Block) : Prop :=
  (replaceAll (cstr sub) (textOf new) text).length + 1 < 2 ^ 32

/-- No substring begins inside a part of one that is given up, and the `int`s of the loop count the
text and these parts. -/
structure Scannable (text p : Block) : Prop where
  length_lt : text.length < 2 ^ 31
  nothingSkipped : NothingSkipped p text
  counted : ∀ m ∈ partialMatches p text, m.2 < toInt32 p.length

/-- A substring that no `int` counts is longer than the text. -/
theorem not_begins (hlen : text.length < 2 ^ 31) (hp : 2 ^ 31 ≤ p.length) (j : Nat) :
    ¬p <+: text.drop j := by
  intro hpre
  have hle := hpre.length_le
  rw [List.length_drop] at hle
  omega

theorem replaceAll_eq_of_length {t : Block} (hlen : text.length < p.length) :
    replaceAll p t text = text :=
  replaceAll_none (firstAt_eq_none_of_length hlen)

theorem Scannable.scanReplace_eq (h : Scannable text p) (hp : p ≠ []) (hn : 0 < n)
    (hN : toInt32 p.length = n) (t : Block) :
    scanReplace (p.take n) t text = replaceAll p t text := by
  rcases Nat.lt_or_ge p.length (2 ^ 31) with hshort | hlong
  · rw [toInt32_length hshort] at hN
    rw [List.take_of_length_le (by omega)]
    exact scanReplace_eq_replaceAll hp t h.nothingSkipped
  · have hlen := h.length_lt
    rw [replaceAll_eq_of_length (by omega)]
    refine scanReplace_take_eq hn t (not_begins hlen hlong) fun m hm => ?_
    have hlt := h.counted m hm
    omega

theorem scannable_of_scanReplace (hlen : text.length < 2 ^ 31) (hp : p ≠ []) (hn : 0 < n)
    (hN : toInt32 p.length = n) {x : UInt8} (hx : p.head? ≠ some x)
    (he : scanReplace (p.take n) [x] text = replaceAll p [x] text) : Scannable text p := by
  rcases Nat.lt_or_ge p.length (2 ^ 31) with hshort | hlong
  · have hint := toInt32_length hshort
    rw [List.take_of_length_le (by omega)] at he
    refine ⟨hlen, nothingSkipped_of_eq hp hx he, fun m hm => ?_⟩
    have hlt := partialMatches_lt_length m hm
    omega
  · have hno := not_begins hlen hlong
    rw [replaceAll_eq_of_length (by omega)] at he
    refine ⟨hlen, fun m _ d _ _ => hno _, fun m hm => ?_⟩
    have hlt := partialMatches_lt_of_eq hp hn hx hno he m hm
    omega

/-- The promise is kept where the search skips nothing. -/
theorem Scannable.replacesAll (hal : al.Succeeds) (h : s.Holds text) (hs : Scannable text p)
    (h0 : 0 ∉ p) (hp : p ≠ []) (hnew : ∀ mem, new = some mem → 0 ∈ mem)
    (hfit : (replaceAll p (textOf new) text).length + 1 < 2 ^ 32) :
    ∃ s', s.replaceSubstrings al (some (p ++ 0 :: rest')) new = .ok s' ∧
      s'.Holds (replaceAll p (textOf new) text) := by
  have hlen := hs.length_lt
  rcases Int.lt_or_le 0 (toInt32 p.length) with hpos | hneg
  · obtain ⟨n, hN⟩ := Int.eq_ofNat_of_zero_le (Int.le_of_lt hpos)
    have hscan := hs.scanReplace_eq hp (by omega) hN (textOf new)
    rw [← hscan] at hfit ⊢
    exact replaceSubstrings_scans hal h hlen h0 (by omega) hN hnew hfit
  · have hlong : 2 ^ 31 ≤ p.length := by
      have hpos := List.length_pos_iff.mpr hp
      unfold toInt32 at hneg
      omega
    have hnone : ∀ a ∈ text, p.head? ≠ some a := by
      rw [← partialMatches_none_iff hp (not_begins hlen hlong)]
      intro m hm
      have hlt := hs.counted m hm
      omega
    rw [replaceAll_eq_of_length (by omega)]
    exact replaceSubstrings_passes hal h hlen h0 (List.length_pos_iff.mpr hp) hnone

/-- One character in place of each substring, another one than it begins with, shows whether the
search skips anything. -/
theorem scannable_of_replaces (hal : al.Succeeds) (h : s.Holds text) (h0 : 0 ∉ p) (hp : p ≠ [])
    {x : UInt8} (hx0 : x ≠ 0) (hx : p.head? ≠ some x) {s' : StringObject}
    (hr : s.replaceSubstrings al (some (p ++ 0 :: rest')) (some [x, 0]) = .ok s')
    (hholds : s'.Holds (replaceAll p [x] text)) : Scannable text p := by
  have htext := textOf_char hx0
  have hppos := List.length_pos_iff.mpr hp
  rcases Nat.lt_or_ge text.length (2 ^ 31) with hlen | hlen
  · rcases Int.lt_or_le 0 (toInt32 p.length) with hpos | hneg
    · obtain ⟨n, hN⟩ := Int.eq_ofNat_of_zero_le (Int.le_of_lt hpos)
      have hn : 0 < n := by omega
      have htake : p.take n ≠ [] := by
        rw [ne_eq, List.take_eq_nil_iff, not_or]
        exact ⟨by omega, hp⟩
      have hle := @length_scanReplace_le _ _ (p.take n) [x] htake
        (by rw [List.length_take, List.length_singleton]; omega) text
      have hscan := @replaceSubstrings_scans al s text p rest' (some [x, 0]) n hal h hlen h0 hn hN
        (by simp) (by rw [htext]; omega)
      obtain ⟨s'', hr', hholds'⟩ := hscan
      rw [hr] at hr'
      cases hr'
      rw [htext] at hholds'
      exact scannable_of_scanReplace hlen hp hn hN hx (hholds'.text_eq hholds)
    · have hlong : 2 ^ 31 ≤ p.length := by
        unfold toInt32 at hneg
        omega
      have hno := not_begins hlen hlong
      have hnone : ∀ a ∈ text, p.head? ≠ some a := fun a ha hhead =>
        replaceSubstrings_endless hal h hlen h0 hneg ha hhead s' hr
      exact ⟨hlen, fun m _ d _ _ => hno _,
        fun m hm => ((partialMatches_none_iff hp hno).mpr hnone m hm).elim⟩
  · obtain ⟨s'', hr', hholds'⟩ := @replaceSubstrings_clears al s text p rest' (some [x, 0]) hal h
      hlen h0
    rw [hr] at hr'
    cases hr'
    have hnil := hholds'.text_eq hholds
    have htne : text ≠ [] := List.length_pos_iff.mp (by omega)
    exact absurd hnil.symm (replaceAll_ne_nil hp (List.cons_ne_nil x []) htne)

end AlibC.StringObject
