import AlibC.AlibTypes

/-! Which texts are recognised by the grammar of their tokens, and which fields are recognised from
their own bytes alone. -/
namespace AlibC

open CLang

variable {s u text rest keyword : Block} {n : Nat}

/-- Digits with exactly one dot, and at least one digit. -/
def IsDoubleToken (t : Block) : Prop :=
  t.count 46 = 1 ∧ 2 ≤ t.length ∧ t.all (fun c => isDigit c || c == 46) = true

instance (t : Block) : Decidable (IsDoubleToken t) :=
  inferInstanceAs (Decidable (_ ∧ _ ∧ _))

/-- `true` or `false`, whatever the case. -/
def IsBoolToken (t : Block) : Prop := t.map toLower = trueString ∨ t.map toLower = falseString

instance (t : Block) : Decidable (IsBoolToken t) := inferInstanceAs (Decidable (_ ∨ _))

/-- The type of a token by the grammar. -/
def tokenType (t : Block) : StringType :=
  if digits t then .int
  else if IsDoubleToken t then .double
  else if IsBoolToken t then .bool
  else .string

/-- The text begins with the keyword, whatever the case. -/
def Begins (u keyword : Block) : Prop := keyword.map toLower <+: u.map toLower

/-- One of the two begins with the other. -/
def Overlaps (u keyword : Block) : Prop := Begins u keyword ∨ Begins keyword u

instance (u keyword : Block) : Decidable (Begins u keyword) :=
  inferInstanceAs (Decidable (_ <+: _))

instance (u keyword : Block) : Decidable (Overlaps u keyword) :=
  inferInstanceAs (Decidable (_ ∨ _))

section Keywords

theorem keywordEnds_differs (h0 : 0 ∉ keyword) (hno : ¬Overlaps u keyword) (rest : Block) (n : Nat) :
    keywordEnds (u ++ rest) keyword n = .ok false := by
  rcases strncasecmp_keyword h0 u with ⟨hyes, -⟩ | ⟨-, hyes, -⟩ | ⟨-, -, r, hr, hcmp⟩
  · exact absurd (.inl hyes) hno
  · exact absurd (.inr hyes) hno
  · rw [keywordEnds, hcmp, ok_bind, if_neg hr]
    rfl

/-- A keyword that is not over when the memory is makes the test leave it. -/
theorem keywordEnds_fault (h0 : 0 ∉ keyword) (hyes : Overlaps u keyword) (hn : u.length ≤ n) :
    keywordEnds u keyword n = .error .outOfBounds := by
  rcases strncasecmp_keyword h0 u with ⟨-, hcmp⟩ | ⟨-, -, hcmp⟩ | ⟨hno, hno', -⟩
  · have hload : load (some u) n 1 = .error .outOfBounds := by
      rw [load, if_neg Nat.one_ne_zero, deref_some, ok_bind, if_neg (by omega)]
    have hcmp' := hcmp []
    rw [List.append_nil] at hcmp'
    rw [keywordEnds, hcmp', ok_bind, if_pos rfl, hload]
    rfl
  · rw [keywordEnds, hcmp]
    rfl
  · exact absurd hyes fun h => h.elim hno hno'

theorem keywordEnds_total (hkey : keyword.length ≤ u.length) (hn : n < u.length) :
    ∃ b, keywordEnds u keyword n = .ok b := by
  have hlen : (u.take keyword.length).length = keyword.length := List.length_take_of_le hkey
  obtain ⟨r, hr, -⟩ := strncasecmp_spec hlen (u.drop keyword.length) []
  rw [hlen, List.take_append_drop, List.append_nil] at hr
  rw [keywordEnds, hr, ok_bind, load_some hn, ok_bind]
  split
  · exact ⟨_, rfl⟩
  · exact ⟨_, rfl⟩

theorem zero_not_mem_map (h0 : 0 ∉ keyword) : 0 ∉ keyword.map toLower := by
  intro h
  obtain ⟨b, hb, hlow⟩ := List.mem_map.mp h
  exact h0 (toLower_eq_zero.mp hlow ▸ hb)

/-- A text and its terminator overlap a keyword only where the text begins with it. -/
theorem begins_of_overlaps (h0 : 0 ∉ keyword) (h : Overlaps (u ++ [0]) keyword) :
    Begins u keyword := by
  have hzero : toLower 0 = 0 := toLower_eq_zero.mpr rfl
  have hnot := zero_not_mem_map h0
  have hmap : (u ++ [0]).map toLower = u.map toLower ++ [0] := by
    rw [List.map_append, List.map_singleton, hzero]
  rcases h with h | h
  · rw [Begins, hmap] at h
    rcases List.prefix_concat_iff.mp h with heq | hpre
    · rw [heq] at hnot
      exact absurd (List.mem_append_right _ List.mem_cons_self) hnot
    · exact hpre
  · rw [Begins, hmap] at h
    exact absurd (h.mem (List.mem_append_right _ List.mem_cons_self)) hnot

/-- Without whitespace in front the byte behind the text is its terminator, and no keyword is found
to end there. -/
theorem keywordEnds_text (h0 : 0 ∉ keyword) (u rest : Block) :
    keywordEnds (u ++ 0 :: rest) keyword u.length = .ok false := by
  rcases strncasecmp_keyword h0 u with ⟨-, hcmp⟩ | hno
  · have hload : load (some (u ++ 0 :: rest)) u.length 1 = .ok [0] := by
      rw [load_some (by simp), List.drop_left]
      rfl
    rw [keywordEnds, hcmp, ok_bind, if_pos rfl, hload]
    rfl
  · have hbegins : ¬Begins u keyword := hno.elim And.left And.left
    have hdiff := @keywordEnds_differs (u ++ [0]) keyword h0
      (fun h => hbegins (begins_of_overlaps h0 h)) rest u.length
    rwa [List.append_assoc] at hdiff

end Keywords

section Grammar

/-- What `get_string_type` has to give for a text, whatever lies behind its terminator, also when
nothing does. -/
def Classifies (text : Block) : Prop :=
  ∀ rest, getStringType (text ++ 0 :: rest) = .ok (tokenType (token text))

/-- The text behind the whitespace begins with one of the two keywords. -/
def BeginsKeyword (u : Block) : Prop := Begins u trueString ∨ Begins u falseString

theorem digit_bounds {c : UInt8} (h : isDigit c = true) : toLower c = c ∧ c.toNat ≤ 57 := by
  rw [isDigit, Bool.and_eq_true, decide_eq_true_eq, decide_eq_true_eq] at h
  have hle := UInt8.le_iff_toNat_le.mp h.2
  have h57 : (57 : UInt8).toNat = 57 := rfl
  have h65 : (65 : UInt8).toNat = 65 := rfl
  rw [h57] at hle
  refine ⟨if_neg fun hupper => ?_, hle⟩
  have hge := UInt8.le_iff_toNat_le.mp hupper.1
  omega

/-- A keyword does not begin with a digit. -/
theorem BeginsKeyword.not_digits (h : BeginsKeyword u) :
    digits (u.takeWhile fun c => !isWhitespace c) = false := by
  cases u with
  | nil => rcases h with h | h <;> exact absurd (List.prefix_nil.mp h) (by decide)
  | cons c u =>
    have hc : toLower c = 116 ∨ toLower c = 102 := by
      rcases h with h | h
      · exact .inl (List.cons_prefix_cons.mp h).1.symm
      · exact .inr (List.cons_prefix_cons.mp h).1.symm
    cases hw : isWhitespace c with
    | true =>
      rw [List.takeWhile_cons_of_neg (by simp [hw])]
      rfl
    | false =>
      rw [List.takeWhile_cons_of_pos (by simp [hw]), digits, List.all_cons]
      cases hd : isDigit c with
      | false => rw [Bool.false_and, Bool.and_false]
      | true =>
        obtain ⟨hlow, hle⟩ := digit_bounds hd
        rw [hlow] at hc
        rcases hc with rfl | rfl <;> exact absurd hle (by decide)

theorem BeginsKeyword.length (h : BeginsKeyword u) : 4 ≤ u.length := by
  rcases h with h | h
  · have hle := h.length_le
    rwa [List.length_map, List.length_map] at hle
  · have hle := h.length_le
    rw [List.length_map, List.length_map] at hle
    exact Nat.le_trans (by decide) hle

theorem isBool_text (h0 : 0 ∉ text) (rest : Block) :
    isBool (text ++ 0 :: rest) = (if text.length < 4 then .ok false else do
      let isTrue ← keywordEnds (text.dropWhile isWhitespace ++ 0 :: rest) trueString text.length
      if isTrue then return true
      else keywordEnds (text.dropWhile isWhitespace ++ 0 :: rest) falseString text.length) := by
  rw [isBool, strlen_eq h0, ok_bind, isBoolN, skipWhile_text, ok_bind, drop_takeWhile]
  rfl

theorem keyword_zero : 0 ∉ trueString ∧ 0 ∉ falseString := by decide

/-- A keyword is never recognised without whitespace in front, nor a text that does not begin with
one. -/
theorem isBool_false (h0 : 0 ∉ text)
    (h : BeginsKeyword (text.dropWhile isWhitespace) → text.dropWhile isWhitespace = text)
    (rest : Block) : isBool (text ++ 0 :: rest) = .ok false := by
  have hends : ∀ keyword, 0 ∉ keyword →
      (Begins (text.dropWhile isWhitespace) keyword → text.dropWhile isWhitespace = text) →
      keywordEnds (text.dropWhile isWhitespace ++ 0 :: rest) keyword text.length = .ok false := by
    intro keyword hkey hfront
    by_cases hb : Begins (text.dropWhile isWhitespace) keyword
    · rw [hfront hb]
      exact keywordEnds_text hkey text rest
    · have hdiff := @keywordEnds_differs (text.dropWhile isWhitespace ++ [0]) keyword hkey
        (fun ho => hb (begins_of_overlaps hkey ho)) rest text.length
      rwa [List.append_assoc] at hdiff
  rw [isBool_text h0, hends _ keyword_zero.1 fun hb => h (.inl hb),
    hends _ keyword_zero.2 fun hb => h (.inr hb)]
  split <;> rfl

/-- Behind whitespace a keyword makes the test read beyond the terminator. -/
theorem isBool_fault (h0 : 0 ∉ text) (h : BeginsKeyword (text.dropWhile isWhitespace))
    (hfront : text.dropWhile isWhitespace ≠ text) :
    isBool (text ++ [0]) = .error .outOfBounds := by
  have hshort : (text.dropWhile isWhitespace ++ [0]).length ≤ text.length := by
    have hsplit := congrArg List.length (@List.takeWhile_append_dropWhile _ isWhitespace text)
    rw [List.length_append] at hsplit
    have hne : text.takeWhile isWhitespace ≠ [] := fun hnil => hfront (by
      conv => rhs; rw [← @List.takeWhile_append_dropWhile _ isWhitespace text, hnil]
      rfl)
    have hpos := List.length_pos_of_ne_nil hne
    rw [List.length_append, List.length_singleton]
    omega
  have hlong : ¬text.length < 4 := by
    have hlen := h.length
    rw [List.length_append, List.length_singleton] at hshort
    omega
  have hover : ∀ keyword, Begins (text.dropWhile isWhitespace) keyword →
      Overlaps (text.dropWhile isWhitespace ++ [0]) keyword := by
    intro keyword hb
    refine .inl (hb.trans ?_)
    rw [List.map_append]
    exact List.prefix_append _ _
  rw [isBool_text h0, if_neg hlong]
  by_cases ht : Begins (text.dropWhile isWhitespace) trueString
  · rw [keywordEnds_fault keyword_zero.1 (hover _ ht) hshort]
    rfl
  · have hf := h.resolve_left ht
    have hdiff := @keywordEnds_differs (text.dropWhile isWhitespace ++ [0]) trueString
      keyword_zero.1 (fun ho => ht (begins_of_overlaps keyword_zero.1 ho)) [] text.length
    rw [List.append_nil] at hdiff
    rw [hdiff, ok_bind, keywordEnds_fault keyword_zero.2 (hover _ hf) hshort]
    rfl

theorem getStringType_eq (h0 : 0 ∉ text) (rest : Block) :
    getStringType (text ++ 0 :: rest) =
      if digits (token text) then .ok .int
      else do
        let isBool ← isBool (text ++ 0 :: rest)
        return if isBool then .bool else .string := by
  rw [getStringType, isDouble_eq, isInt_eq h0]
  cases digits (token text) with
  | true => rfl
  | false =>
    cases isBool (text ++ 0 :: rest) with
    | error e => rfl
    | ok b => cases b <;> rfl

theorem IsDoubleToken.not_digits {t : Block} (h : IsDoubleToken t) : digits t = false := by
  have hdot : 46 ∈ t := List.count_pos_iff.mp (by rw [h.1]; exact Nat.one_pos)
  have hall : t.all isDigit = false := List.all_eq_false.mpr ⟨46, hdot, by decide⟩
  rw [digits, hall, Bool.and_false]

theorem IsBoolToken.beginsKeyword (h : IsBoolToken (token text)) :
    BeginsKeyword (text.dropWhile isWhitespace) := by
  have hpre : (token text).map toLower <+: (text.dropWhile isWhitespace).map toLower :=
    (List.takeWhile_prefix _).map toLower
  rcases h with h | h
  · rw [h] at hpre
    exact .inl hpre
  · rw [h] at hpre
    exact .inr hpre

/-- A text is classified by its token exactly if that is no number with a dot and no keyword, and no
keyword is looked at behind whitespace. -/
theorem classifies_iff (h0 : 0 ∉ text) :
    Classifies text ↔ ¬IsDoubleToken (token text) ∧ ¬IsBoolToken (token text) ∧
      (BeginsKeyword (text.dropWhile isWhitespace) → text.dropWhile isWhitespace = text) := by
  constructor
  · intro hclass
    have hrun := hclass []
    rw [getStringType_eq h0] at hrun
    have hfront : BeginsKeyword (text.dropWhile isWhitespace) →
        text.dropWhile isWhitespace = text := by
      intro hb
      by_contra hne
      rw [token, hb.not_digits, if_neg Bool.false_ne_true, isBool_fault h0 hb hne] at hrun
      cases hrun
    have hdouble : ¬IsDoubleToken (token text) := by
      intro hd
      rw [tokenType, hd.not_digits, if_neg Bool.false_ne_true, if_neg Bool.false_ne_true, if_pos hd,
        isBool_false h0 hfront] at hrun
      cases hrun
    refine ⟨hdouble, fun hb => ?_, hfront⟩
    have hdigits : digits (token text) = false := hb.beginsKeyword.not_digits
    rw [tokenType, hdigits, if_neg Bool.false_ne_true, if_neg Bool.false_ne_true, if_neg hdouble,
      if_pos hb, isBool_false h0 hfront] at hrun
    cases hrun
  · rintro ⟨hdouble, hbool, hfront⟩ rest
    rw [getStringType_eq h0, tokenType, if_neg hdouble, if_neg hbool, isBool_false h0 hfront]
    split <;> rfl

theorem classifies_number : 0 ∉ [32, 49] ∧ (Classifies [32, 49] ↔
    ¬IsDoubleToken (token [32, 49]) ∧ ¬IsBoolToken (token [32, 49]) ∧
      (BeginsKeyword (([32, 49] : Block).dropWhile isWhitespace) →
        ([32, 49] : Block).dropWhile isWhitespace = [32, 49])) :=
  ⟨by decide, classifies_iff (by decide)⟩

/-- `1.5` and `true` are taken for other strings, and behind a space `true` makes the test read
beyond the terminator. -/
theorem classifies_wrong :
    getStringType ([49, 46, 53] ++ 0 :: []) = .ok .string ∧
    tokenType (token [49, 46, 53]) = .double ∧ ¬Classifies [49, 46, 53] ∧
    getStringType ([116, 114, 117, 101] ++ 0 :: []) = .ok .string ∧
    tokenType (token [116, 114, 117, 101]) = .bool ∧
    getStringType ([32, 116, 114, 117, 101] ++ 0 :: []) = .error .outOfBounds ∧
    getStringType ([32, 116, 114, 117, 101] ++ 0 :: [32]) = .ok .bool := by
  refine ⟨by decide, by decide, fun h => ?_, by decide, by decide, by decide, by decide⟩
  have hrun := h []
  revert hrun
  decide

end Grammar

section Field

/-- What `get_string_type_n` has to give for a field: the same whatever lies behind it, also when
nothing does. -/
def FieldOnly (s : Block) : Prop := ∀ rest rest',
  getStringTypeN (s ++ rest) s.length = getStringTypeN (s ++ rest') s.length

theorem getStringTypeN_eq (hlen : s.length ≤ INT32_MAX) (rest : Block) :
    getStringTypeN (s ++ rest) s.length =
      firstType (.ok (digits (token s))) (.ok (digits (cstr (token s))))
        (isBoolN (s ++ rest) s.length) := by
  have hsize : toSize (s.length : Int) = s.length :=
    toSize_nat (Nat.lt_of_le_of_lt hlen (by decide))
  rw [getStringTypeN, hsize, isIntN_eq, isDoubleN_eq]

theorem digits_cstr {t : Block} (h : digits t = true) : digits (cstr t) = true := by
  have hall : t.all isDigit = true := (Bool.and_eq_true _ _ ▸ h).2
  have h0 : 0 ∉ t := fun hm => absurd (List.all_eq_true.mp hall 0 hm) (by decide)
  rwa [cstr_of_not_mem h0]

/-- With enough memory behind the field the test for a keyword ends. -/
theorem isBoolN_total (s : Block) : ∃ rest b, isBoolN (s ++ rest) s.length = .ok b := by
  refine ⟨List.replicate (s.length + 5) 65, ?_⟩
  have hmem : ∃ c ∈ s ++ List.replicate (s.length + 5) 65, isWhitespace c = false :=
    ⟨65, List.mem_append_right _ (by rw [List.replicate_succ]; exact List.mem_cons_self), by decide⟩
  have hskip := @skipWhile_of_exists _ [] isWhitespace hmem
  rw [List.append_nil] at hskip
  have hk : ((s ++ List.replicate (s.length + 5) 65).takeWhile isWhitespace).length ≤ s.length := by
    rw [List.takeWhile_append, List.replicate_succ, List.takeWhile_cons_of_neg (by decide),
      List.append_nil]
    split
    · exact Nat.le_refl _
    · exact (List.takeWhile_prefix _).length_le
  have hlong : s.length + 5 ≤ ((s ++ List.replicate (s.length + 5) 65).drop
      ((s ++ List.replicate (s.length + 5) 65).takeWhile isWhitespace).length).length := by
    rw [List.length_drop, List.length_append, List.length_replicate]
    omega
  obtain ⟨b, hb⟩ := @keywordEnds_total _ trueString s.length
    (Nat.le_trans (by decide : trueString.length ≤ 5) (by omega)) (Nat.lt_of_lt_of_le (by omega) hlong)
  obtain ⟨b', hb'⟩ := @keywordEnds_total _ falseString s.length
    (Nat.le_trans (by decide : falseString.length ≤ 5) (by omega))
    (Nat.lt_of_lt_of_le (by omega) hlong)
  rw [isBoolN, hskip, ok_bind]
  split
  · exact ⟨false, rfl⟩
  · rw [hb, ok_bind]
    cases b with
    | true => exact ⟨true, rfl⟩
    | false => exact ⟨b', hb'⟩

/-- A field of whitespace is left in the search for what is none. -/
theorem isBoolN_blank_fault (h : ∀ c ∈ s, isWhitespace c = true) (n : Nat) :
    isBoolN s n = .error .outOfBounds := by
  have hskip : skipWhile isWhitespace s = .error .outOfBounds := by
    induction s with
    | nil => rfl
    | cons c s ih =>
      rw [List.forall_mem_cons] at h
      rw [skipWhile, if_pos h.1, ih h.2]
      rfl
  rw [isBoolN, hskip]
  rfl

/-- The field shares no beginning with a keyword. -/
def Differs (u : Block) : Prop := ¬Overlaps u trueString ∧ ¬Overlaps u falseString

theorem isBoolN_eq (hc : ∃ c ∈ s, isWhitespace c = false) (rest : Block) (n : Nat) :
    isBoolN (s ++ rest) n = (if n < 4 then .ok false else do
      let isTrue ← keywordEnds (s.dropWhile isWhitespace ++ rest) trueString n
      if isTrue then return true
      else keywordEnds (s.dropWhile isWhitespace ++ rest) falseString n) := by
  rw [isBoolN, skipWhile_of_exists hc, ok_bind, drop_takeWhile]
  rfl

theorem isBoolN_false (hc : ∃ c ∈ s, isWhitespace c = false)
    (h : s.length < 4 ∨ Differs (s.dropWhile isWhitespace)) (rest : Block) :
    isBoolN (s ++ rest) s.length = .ok false := by
  rw [isBoolN_eq hc]
  by_cases hlen : s.length < 4
  · rw [if_pos hlen]
  · have hd := h.resolve_left hlen
    rw [if_neg hlen, keywordEnds_differs keyword_zero.1 hd.1,
      keywordEnds_differs keyword_zero.2 hd.2]
    rfl

theorem isBoolN_fault (hc : ∃ c ∈ s, isWhitespace c = false) (hlen : ¬s.length < 4)
    (h : ¬Differs (s.dropWhile isWhitespace)) : isBoolN s s.length = .error .outOfBounds := by
  have hle : (s.dropWhile isWhitespace).length ≤ s.length := (List.dropWhile_suffix _).length_le
  have heq := @isBoolN_eq s hc [] s.length
  rw [List.append_nil, List.append_nil, if_neg hlen] at heq
  rw [heq]
  by_cases ht : Overlaps (s.dropWhile isWhitespace) trueString
  · rw [keywordEnds_fault keyword_zero.1 ht hle]
    rfl
  · have hf : Overlaps (s.dropWhile isWhitespace) falseString := by
      by_contra hf
      exact h ⟨ht, hf⟩
    have hdiff := keywordEnds_differs keyword_zero.1 ht [] s.length
    rw [List.append_nil] at hdiff
    rw [hdiff, ok_bind, keywordEnds_fault keyword_zero.2 hf hle]
    rfl

/-- The type of a field comes from its own bytes exactly if digits settle it, or if there is something
else than whitespace in it and the field is too short for a keyword or differs from both. -/
theorem fieldOnly_iff (hlen : s.length ≤ INT32_MAX) :
    FieldOnly s ↔ digits (cstr (token s)) = true ∨
      (∃ c ∈ s, isWhitespace c = false) ∧
        (s.length < 4 ∨ Differs (s.dropWhile isWhitespace)) := by
  constructor
  · intro hfield
    by_contra hno
    rw [not_or, Bool.not_eq_true] at hno
    have hint : digits (token s) = false :=
      Bool.eq_false_iff.mpr fun h => by rw [digits_cstr h] at hno; cases hno.1
    -- the test for a keyword leaves the field, but ends with enough behind it
    have hfault : isBoolN s s.length = .error .outOfBounds := by
      by_cases hc : ∃ c ∈ s, isWhitespace c = false
      · have hcase := fun h => hno.2 ⟨hc, h⟩
        exact isBoolN_fault hc (fun h => hcase (.inl h)) fun h => hcase (.inr h)
      · refine isBoolN_blank_fault (fun c hmem => ?_) s.length
        by_contra hw
        exact hc ⟨c, hmem, Bool.eq_false_iff.mpr hw⟩
    obtain ⟨rest, b, hb⟩ := isBoolN_total s
    have hsame := hfield [] rest
    rw [getStringTypeN_eq hlen, getStringTypeN_eq hlen, List.append_nil, hfault, hb, hint, hno.1]
      at hsame
    cases b <;> cases hsame
  · rintro (hdigits | ⟨hc, hcase⟩) rest rest'
    · rw [getStringTypeN_eq hlen, getStringTypeN_eq hlen, hdigits]
      cases digits (token s) <;> rfl
    · rw [getStringTypeN_eq hlen, getStringTypeN_eq hlen, isBoolN_false hc hcase,
        isBoolN_false hc hcase]

theorem fieldOnly_word : ([97] : Block).length ≤ INT32_MAX ∧ (FieldOnly [97] ↔
    digits (cstr (token [97])) = true ∨ (∃ c ∈ ([97] : Block), isWhitespace c = false) ∧
      (([97] : Block).length < 4 ∨ Differs (([97] : Block).dropWhile isWhitespace))) :=
  ⟨by decide, fieldOnly_iff (by decide)⟩

/-- The byte behind `true` decides whether it is recognised, and an empty field is left too. -/
theorem field_reads_beyond :
    getStringTypeN ([116, 114, 117, 101] ++ [32]) 4 = .ok .bool ∧
    getStringTypeN ([116, 114, 117, 101] ++ [44]) 4 = .ok .string ∧
    ¬FieldOnly [116, 114, 117, 101] ∧
    getStringTypeN [] 0 = .error .outOfBounds := by
  refine ⟨by decide, by decide, fun h => ?_, by decide⟩
  have hsame := h [32] [44]
  revert hsame
  decide

end Field

end AlibC
