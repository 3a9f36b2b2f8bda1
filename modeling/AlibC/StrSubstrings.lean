import AlibC.StrRuns

/-! Counting the substrings, and pointers to them. -/
namespace AlibC.Str

open CLang Search BinaryBuffer

variable {al : Alloc UInt8} {str : BinaryBuffer} {text rest sub : Block}

/-- From each place on the loop counts what is found there. -/
theorem countLoop_eq (h : 0 ∉ text) (hsub : 0 ∈ sub) (hp : cstr sub ≠ []) (left : Block) :
    ∀ (fuel : Nat) (count : Int) (off : Nat), off ≤ text.length → text.drop off = left →
      (occurrences (cstr sub) left).length < fuel → 0 ≤ count →
      count + (occurrences (cstr sub) left).length ≤ LONG_MAX →
      countLoop (some (text ++ 0 :: rest)) (some sub) (cstr sub).length fuel count off =
        .ok (count + (occurrences (cstr sub) left).length) := by
  induction left using search_induction hp with
  | none left hnone =>
    intro fuel count off hoff hleft hfuel _ _
    obtain ⟨fuel, rfl⟩ : ∃ k, fuel = k + 1 := ⟨fuel - 1, by omega⟩
    rw [countLoop, strstr_eq h hoff hsub, hleft, hnone, occurrences_none hnone]
    exact congrArg Except.ok (Int.add_zero count).symm
  | some left i hi ih =>
    intro fuel count off hoff hleft hfuel hcount hmax
    have hin := firstAt_add_length_le hi
    rw [← hleft, List.length_drop] at hin
    rw [occurrences_some hp hi, List.length_cons, List.length_map] at hfuel hmax ⊢
    obtain ⟨fuel, rfl⟩ : ∃ k, fuel = k + 1 := ⟨fuel - 1, by omega⟩
    have hlong : checkLong (count + 1) = .ok (count + 1) := by
      unfold LONG_MAX at hmax
      exact if_pos ⟨by omega, by omega⟩
    have hnext := ih fuel (count + 1) (off + i + (cstr sub).length) (by omega)
      (by rw [← hleft, List.drop_drop, Nat.add_assoc]) (by omega) (by omega) (by omega)
    rw [countLoop, strstr_eq h hoff hsub, hleft, hi, ok_bind]
    dsimp only [Option.map_some]
    rw [hlong, ok_bind, hnext]
    congr 1
    omega

/-- For each of these places the loop appends the bytes of a pointer. -/
theorem ptrsLoop_eq (hal : al.Succeeds) {base : Nat} (h : 0 ∉ text) (hsub : 0 ∈ sub)
    (hp : cstr sub ≠ []) (left : Block) :
    ∀ (fuel : Nat) (ptrBuff : BinaryBuffer) (off : Nat), off ≤ text.length →
      text.drop off = left → (occurrences (cstr sub) left).length < fuel → ptrBuff.WF →
      ptrBuff.len + 8 * (occurrences (cstr sub) left).length < 2 ^ 64 →
      ∃ ptrBuff', ptrsLoop al base (some (text ++ 0 :: rest)) (some sub) (cstr sub).length fuel
          ptrBuff off = .ok ptrBuff' ∧ ptrBuff'.WF ∧
        ptrBuff'.contents = ptrBuff.contents ++
          wordsBytes ((occurrences (cstr sub) left).map fun o => base + (off + o)) := by
  induction left using search_induction hp with
  | none left hnone =>
    intro fuel ptrBuff off hoff hleft hfuel hwf _
    obtain ⟨fuel, rfl⟩ : ∃ k, fuel = k + 1 := ⟨fuel - 1, by omega⟩
    refine ⟨ptrBuff, ?_, hwf, ?_⟩
    · rw [ptrsLoop, strstr_eq h hoff hsub, hleft, hnone]
      rfl
    · rw [occurrences_none hnone]
      exact (List.append_nil _).symm
  | some left i hi ih =>
    intro fuel ptrBuff off hoff hleft hfuel hwf hlen
    have hin := firstAt_add_length_le hi
    rw [← hleft, List.length_drop] at hin
    rw [occurrences_some hp hi, List.length_cons, List.length_map] at hfuel hlen
    obtain ⟨fuel, rfl⟩ : ∃ k, fuel = k + 1 := ⟨fuel - 1, by omega⟩
    obtain ⟨ptrBuff₁, hr₁, hwf₁, hcont₁, hlen₁, -⟩ := @append_eq al hal _ hwf
      (leBytes 8 (base + (off + i))) 8 (Nat.le_of_eq (length_leBytes 8 _).symm) (by omega)
    obtain ⟨ptrBuff', hr, hwf', hcont⟩ := ih fuel ptrBuff₁ (off + i + (cstr sub).length) (by omega)
      (by rw [← hleft, List.drop_drop, Nat.add_assoc]) (by omega) hwf₁ (by omega)
    refine ⟨ptrBuff', ?_, hwf', ?_⟩
    · rw [ptrsLoop, strstr_eq h hoff hsub, hleft, hi, ok_bind]
      dsimp only [Option.map_some]
      rw [hr₁, ok_bind]
      exact hr
    · have hmap : (occurrences (cstr sub) (left.drop (i + (cstr sub).length))).map
          (fun o => base + (off + i + (cstr sub).length + o)) =
          ((occurrences (cstr sub) (left.drop (i + (cstr sub).length))).map
            (i + (cstr sub).length + ·)).map fun o => base + (off + o) := by
        rw [List.map_map]
        refine List.map_congr_left fun o _ => ?_
        simp only [Function.comp_apply]
        omega
      rw [hcont, hcont₁, List.take_of_length_le (Nat.le_of_eq (length_leBytes 8 _)), hmap,
        occurrences_some hp hi, List.map_cons, List.append_assoc]
      rfl

/-- The array is the block that is extracted: the words, and nothing behind them. -/
theorem getSubstringPtrs_eq (hal : al.Succeeds) {base : Nat} (h : str.WF)
    (hb : str.buff = some (text ++ 0 :: rest)) (h0 : 0 ∉ text) (hsub : 0 ∈ sub) (hp : cstr sub ≠ [])
    (hfit : 8 * ((occurrences (cstr sub) text).length + 1) ≤ PTRDIFF_MAX) :
    getSubstringPtrs al base str (some sub) =
      .ok (some (wordsBytes ((occurrences (cstr sub) text).map (base + ·) ++ [0]))) := by
  obtain ⟨hslen, -⟩ := strlen_text hsub
  have hblk := h.block
  rw [hb, Option.getD_some, List.length_append, List.length_cons] at hblk
  have hcount := occurrences_length_le hp text
  unfold PTRDIFF_MAX at hfit
  obtain ⟨ptrBuff, hr, hwf, hlen, -⟩ := BinaryBuffer.new_eq hal
  obtain ⟨ptrBuff₁, hr₁, hwf₁, hcont₁⟩ := @ptrsLoop_eq al text rest sub hal base h0 hsub hp
    text (str.capacity + 1) ptrBuff 0 (Nat.zero_le _) List.drop_zero (by omega) hwf (by omega)
  simp only [contents_of_len_zero hlen, List.nil_append, Nat.zero_add] at hcont₁
  have hlen₁ := hwf₁.length_contents
  rw [hcont₁, length_wordsBytes, List.length_map] at hlen₁
  obtain ⟨ptrBuff₂, hr₂, hwf₂, hcont₂, hlen₂, -⟩ := append_eq hal hwf₁
    (Nat.le_of_eq (length_leBytes 8 0).symm) (show ptrBuff₁.len + 8 < 2 ^ 64 by omega)
  rw [hcont₁, List.take_of_length_le (Nat.le_of_eq (length_leBytes 8 0)), ← wordsBytes_singleton,
    ← wordsBytes_append] at hcont₂
  obtain ⟨hwf₃, hcont₃, hcap₃, -⟩ := shrinkToFit_eq hal hwf₂
  have hall : (ptrBuff₂.shrinkToFit al).buff = some ptrBuff₂.contents := by
    obtain ⟨blk, hblk₃, hl₃⟩ := hwf₃.buff_eq_some (by omega)
    have hlen₃ := hwf₃.length_contents
    rw [hcont₃, hwf₂.length_contents] at hlen₃
    rw [contents, hblk₃, Option.getD_some, List.take_of_length_le (by omega)] at hcont₃
    rw [hblk₃, hcont₃]
  rw [getSubstringPtrs, if_neg (Option.some_ne_none sub), hslen, ok_bind, hr, ok_bind]
  dsimp only
  rw [hb, hr₁, ok_bind, hr₂, ok_bind]
  dsimp only [extractBuffer]
  rw [hall, hcont₂]
  rfl

/-- The addresses are read back from the array. -/
theorem words_ptrs {base : Nat} {ps : List Nat} (h : ∀ o ∈ ps, base + o < 2 ^ 64) :
    words (ps.length + 1) (wordsBytes (ps.map (base + ·) ++ [0])) = ps.map (base + ·) ++ [0] := by
  have hlen : (ps.map (base + ·) ++ [0]).length = ps.length + 1 := by
    rw [List.length_append, List.length_map, List.length_singleton]
  rw [← hlen]
  refine words_wordsBytes fun q hq => ?_
  rcases List.mem_append.mp hq with hq | hq
  · obtain ⟨o, ho, rfl⟩ := List.mem_map.mp hq
    exact h o ho
  · rw [List.mem_singleton.mp hq]
    exact Nat.two_pow_pos 64

theorem occurrence_lt {o : Nat} (hp : cstr sub ≠ []) (ho : o ∈ occurrences (cstr sub) text) :
    o < text.length := by
  have hle := (occurrences_begin hp text o ho).length_le
  have hpos := List.length_pos_iff.mpr hp
  rw [List.length_drop] at hle
  omega

/-- Both functions find the places of the search from left to right: one tells how many there are,
and the other returns their addresses, each at least the length of the substring behind the one
before, and a `NULL`. The memory lies from the address `base` on, and the array fits into memory
too. -/
theorem substrings_found (hal : al.Succeeds) {base : Nat} (h : str.WF)
    (hb : str.buff = some (text ++ 0 :: rest)) (h0 : 0 ∉ text) (hsub : 0 ∈ sub)
    (hp : cstr sub ≠ []) (hmax : str.capacity ≤ PTRDIFF_MAX) (hbase : 0 < base)
    (haddr : base + str.capacity ≤ 2 ^ 64)
    (hfit : 8 * ((occurrences (cstr sub) text).length + 1) ≤ PTRDIFF_MAX) :
    countSubstrings str (some sub) = .ok (occurrences (cstr sub) text).length ∧
    ∃ ptrs, getSubstringPtrs al base str (some sub) = .ok (some ptrs) ∧
      ptrs.length = 8 * ((occurrences (cstr sub) text).length + 1) ∧
      words ((occurrences (cstr sub) text).length + 1) ptrs =
        (occurrences (cstr sub) text).map (base + ·) ++ [0] ∧
      (∀ o ∈ occurrences (cstr sub) text, base + o ≠ 0) ∧
      (occurrences (cstr sub) text).Pairwise fun a b => a < b ∧ a + (cstr sub).length ≤ b := by
  obtain ⟨hslen, -⟩ := strlen_text hsub
  have hblk := h.block
  rw [hb, Option.getD_some, List.length_append, List.length_cons] at hblk
  have hcount := occurrences_length_le hp text
  unfold PTRDIFF_MAX at hmax
  have hlong := List.length_pos_iff.mpr hp
  refine ⟨?_, _, getSubstringPtrs_eq hal h hb h0 hsub hp hfit, ?_, ?_, fun o _ => by omega,
    (occurrences_pairwise hp text).imp fun hab => ⟨by omega, hab⟩⟩
  · rw [countSubstrings, if_neg (Option.some_ne_none sub), hslen, ok_bind, hb,
      countLoop_eq h0 hsub hp text _ 0 0 (Nat.zero_le _) List.drop_zero (by omega)
        (Int.le_refl 0) (by unfold LONG_MAX; omega), Int.zero_add]
  · rw [length_wordsBytes, List.length_append, List.length_map, List.length_singleton]
  · refine words_ptrs fun o ho => ?_
    have hlt := occurrence_lt hp ho
    omega

/-- Two of three characters are found once. -/
theorem substrings_found_one :
    countSubstrings ⟨some [97, 97, 97, 0], 4, 4, 1, 1⟩ (some [97, 97, 0]) = .ok 1 ∧
    ∃ ptrs, getSubstringPtrs (.filled 7) 4096 ⟨some [97, 97, 97, 0], 4, 4, 1, 1⟩
      (some [97, 97, 0]) = .ok (some ptrs) ∧ ptrs.length = 16 ∧ words 2 ptrs = [4096, 0] := by
  have hplaces : occurrences (cstr [97, 97, 0]) [97, 97, 97] = [0] := by
    have hfirst : firstAt (cstr [97, 97, 0]) [97, 97, 97] = some 0 := by decide
    rw [occurrences_some (by decide) hfirst]
    show 0 :: (occurrences (cstr [97, 97, 0]) [97]).map _ = _
    rw [occurrences_none (by decide)]
    rfl
  have hfound := @substrings_found (.filled 7) ⟨some [97, 97, 97, 0], 4, 4, 1, 1⟩ [97, 97, 97] []
    [97, 97, 0] (Alloc.filled_succeeds 7) 4096
    ⟨rfl, by decide, by decide, by decide, by decide, by decide⟩ rfl (by decide) (by decide)
    (by decide) (by decide) (by decide) (by decide) (by rw [hplaces]; decide)
  rw [hplaces] at hfound
  obtain ⟨hcount, ptrs, hptrs, hlen, hwords, -⟩ := hfound
  exact ⟨hcount, ptrs, hptrs, hlen, hwords⟩

/-- The index of an address in the text, behind its begin. -/
theorem getIndex_inside {base o : Nat} (ho : 0 < o) (hlen : o < str.len)
    (haddr : base + str.len < 2 ^ 64) (hside : base + str.len ≤ 2 ^ 63 ∨ 2 ^ 63 ≤ base) :
    getIndex base str (base + o) = .ok o := by
  have hdiff : toLong (base + o) - toLong base = o := by
    rcases hside with hlow | hhigh
    · rw [toLong_eq (by omega), toLong_eq (by omega)]
      omega
    · rw [toLong_neg (by omega), toLong_neg hhigh]
      omega
  have hlong : checkLong o = .ok (o : Int) := by
    unfold checkLong
    exact if_pos ⟨by omega, by omega⟩
  rw [getIndex, sizeAdd_eq haddr, if_pos ⟨by omega, by omega⟩, hdiff, hlong]

/-- No other address has one, nor has the first one. -/
theorem getIndex_outside {base ptr : Nat} (haddr : base + str.len < 2 ^ 64)
    (hptr : ptr ≤ base ∨ base + str.len ≤ ptr) : getIndex base str ptr = .ok (-1) := by
  rw [getIndex, sizeAdd_eq haddr, if_neg (by omega)]
  rfl

/-- From the addresses that are returned the places of the search are got back, and an address
outside of what is stored gives an error. -/
def Inverts (al : Alloc UInt8) (base : Nat) (str : BinaryBuffer) (sub text : Block) : Prop :=
  (∃ ptrs, getSubstringPtrs al base str (some sub) = .ok (some ptrs) ∧
    ∀ i o : Nat, (occurrences (cstr sub) text)[i]? = some o → ∃ ptr,
      (words ((occurrences (cstr sub) text).length + 1) ptrs)[i]? = some ptr ∧
        getIndex base str ptr = .ok o) ∧
  ∀ ptr, ptr < base ∨ base + str.len ≤ ptr → ∃ r, getIndex base str ptr = .ok r ∧ r < 0

/-- The address of each place stands in the array. -/
theorem words_ptrs_getElem? {base i o : Nat} {ps : List Nat} (h : ∀ o ∈ ps, base + o < 2 ^ 64)
    (hi : ps[i]? = some o) :
    (words (ps.length + 1) (wordsBytes (ps.map (base + ·) ++ [0])))[i]? = some (base + o) := by
  have hlt := (List.getElem?_eq_some_iff.mp hi).1
  rw [words_ptrs h, List.getElem?_append_left (by rw [List.length_map]; exact hlt),
    List.getElem?_map, hi]
  rfl

/-- The begin of the text is returned as an address, and is an error as an index. -/
theorem not_inverts_of_begin {base : Nat} {ptrs : Block} (hp : cstr sub ≠ [])
    (hr : getSubstringPtrs al base str (some sub) = .ok (some ptrs))
    (hptrs : ptrs = wordsBytes ((occurrences (cstr sub) text).map (base + ·) ++ [0]))
    (haddr : base + str.len < 2 ^ 64) (hin : ∀ o ∈ occurrences (cstr sub) text, base + o < 2 ^ 64)
    (hbegin : cstr sub <+: text) : ¬Inverts al base str sub text := by
  rintro ⟨⟨ptrs', hr', hindex⟩, -⟩
  rw [hr] at hr'
  cases hr'
  have hfirst : firstAt (cstr sub) text = some 0 :=
    firstAt_of_first (i := 0) hbegin fun j hj => absurd hj (Nat.not_lt_zero j)
  have hzero : (occurrences (cstr sub) text)[0]? = some 0 := by
    rw [occurrences_some hp hfirst]
    rfl
  obtain ⟨ptr, hptr, hget⟩ := hindex 0 0 hzero
  rw [hptrs, words_ptrs_getElem? hin hzero, Nat.add_zero] at hptr
  cases hptr
  rw [getIndex_outside haddr (.inl (Nat.le_refl base))] at hget
  simp at hget

/-- Every place but the first one of the text is got back. The memory is not at the end of the
addresses, nor on both sides of the middle of them. -/
theorem getIndex_inverts_iff (hal : al.Succeeds) {base : Nat} (h : str.WF) (htext : IsText str text)
    (hsub : 0 ∈ sub) (hp : cstr sub ≠ []) (haddr : base + str.capacity < 2 ^ 64)
    (hside : base + str.capacity ≤ 2 ^ 63 ∨ 2 ^ 63 ≤ base)
    (hfit : 8 * ((occurrences (cstr sub) text).length + 1) ≤ PTRDIFF_MAX) :
    Inverts al base str sub text ↔ ¬cstr sub <+: text := by
  obtain ⟨rest, hb⟩ := htext.buff_eq
  have hptrs : getSubstringPtrs al base str (some sub) = _ :=
    getSubstringPtrs_eq hal h hb htext.noZero hsub hp hfit
  have hle := h.len_le
  have haddr' : base + str.len < 2 ^ 64 := by omega
  have hin : ∀ o ∈ occurrences (cstr sub) text, o < str.len := by
    intro o ho
    have hlt := occurrence_lt hp ho
    have hget := htext.getLength_eq
    rw [getLength] at hget
    split at hget <;> omega
  have hword : ∀ o ∈ occurrences (cstr sub) text, base + o < 2 ^ 64 := fun o ho => by
    have hlt := hin o ho
    omega
  constructor
  · intro hinv hbegin
    exact not_inverts_of_begin hp hptrs rfl haddr' hword hbegin hinv
  · intro hbegin
    refine ⟨⟨_, hptrs, fun i o hi => ⟨base + o, words_ptrs_getElem? hword hi, ?_⟩⟩,
      fun ptr hptr => ⟨-1, getIndex_outside haddr' (by omega), by decide⟩⟩
    have hmem := List.mem_of_getElem? hi
    have hpos : o ≠ 0 := by
      rintro rfl
      exact hbegin (occurrences_begin hp text 0 hmem)
    exact getIndex_inside (Nat.pos_of_ne_zero hpos) (hin o hmem) haddr' (by omega)

/-- The second of two characters is found, and its index got back. -/
theorem getIndex_inverts_second :
    Inverts (.filled 7) 4096 ⟨some [97, 98, 0], 3, 3, 1, 1⟩ [98, 0] [97, 98] := by
  have hcount := occurrences_length_le (show cstr [98, 0] ≠ [] by decide) [97, 98]
  refine (getIndex_inverts_iff (Alloc.filled_succeeds 7)
    ⟨rfl, by decide, by decide, by decide, by decide, by decide⟩ ⟨⟨[], rfl⟩, by decide, rfl⟩
    (by decide) (by decide) (by decide) (by decide) ?_).mpr (by decide)
  rw [List.length_cons, List.length_singleton] at hcount
  unfold PTRDIFF_MAX
  omega

/-- The first character is found, but its address is said not to belong to the string. -/
theorem getIndex_fails :
    getIndex 4096 ⟨some [97, 0], 2, 2, 1, 1⟩ 4096 = .ok (-1) ∧
    ¬Inverts (.filled 7) 4096 ⟨some [97, 0], 2, 2, 1, 1⟩ [97, 0] [97] := by
  have hplaces : occurrences (cstr [97, 0]) [97] = [0] := by
    have hfirst : firstAt (cstr [97, 0]) [97] = some 0 := by decide
    rw [occurrences_some (by decide) hfirst]
    show 0 :: (occurrences (cstr [97, 0]) []).map _ = _
    rw [occurrences_none (by decide)]
    rfl
  have hptrs := @getSubstringPtrs_eq (.filled 7) ⟨some [97, 0], 2, 2, 1, 1⟩ [97] [] [97, 0]
    (Alloc.filled_succeeds 7) 4096 ⟨rfl, by decide, by decide, by decide, by decide, by decide⟩ rfl
    (by decide) (by decide) (by decide) (by rw [hplaces]; decide)
  refine ⟨by decide, not_inverts_of_begin (by decide) hptrs rfl (by decide) ?_ (by decide)⟩
  rw [hplaces]
  decide

end AlibC.Str
