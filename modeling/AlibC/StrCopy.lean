import AlibC.StrRuns

/-! Copies of a `String`. -/
namespace AlibC.Str

open CLang Machine BinaryBuffer

variable {al : Alloc UInt8} {str to_ from_ : BinaryBuffer} {text : Block} {v : UInt8}

/-- What is read from the pointer `String_get_c_string` returns: nothing when it is `NULL`, and no
string when there is no terminator. -/
def cString (p : Option Block) : Option Block :=
  match p with
  | none => some []
  | some blk => if 0 ∈ blk then some (cstr blk) else none

theorem Holds.cString_eq (h : Holds str text) : cString str.buff = some text := by
  obtain ⟨rest, hb⟩ := h.isText.buff_eq
  rw [hb, cString, if_pos (List.mem_append_right text List.mem_cons_self), cstr_eq h.noZero]

/-- An object is the same string as the other one, with the same limits. -/
structure SameString (from_ copy : BinaryBuffer) : Prop where
  cString_eq : cString copy.buff = cString from_.buff
  getLength_eq : getLength copy = getLength from_
  limits : SameLimits from_ copy
  len_le : copy.len ≤ copy.capacity

/-- Calls for one of two objects leave the other one as it is. -/
def Independent (from_ copy : BinaryBuffer) : Prop :=
  ∀ (ops : List (Alloc UInt8 × Op ⊕ Alloc UInt8 × Op)) codes from' copy',
    run (pair step) (from_, copy) ops = .ok (codes, (from', copy')) →
      (∃ codes₁, run step from_ (ops.filterMap Sum.getLeft?) = .ok (codes₁, from')) ∧
        ∃ codes₂, run step copy (ops.filterMap Sum.getRight?) = .ok (codes₂, copy')

theorem independent (from_ copy : BinaryBuffer) : Independent from_ copy :=
  fun _ _ _ _ h => run_pair h

/-- `newString_copy` gives a copy, whatever fresh memory holds. -/
def NewCopies (from_ : BinaryBuffer) : Prop :=
  ∀ al : Alloc UInt8, al.Succeeds → ∃ copy, newCopy al from_ = .ok (some copy) ∧
    SameString from_ copy ∧ Independent from_ copy

/-- `String_copy_string` makes another object a copy, whatever fresh memory holds. -/
def CopiesString (to_ from_ : BinaryBuffer) : Prop :=
  ∀ al : Alloc UInt8, al.Succeeds → ∃ copy, copyString al to_ (some from_) = .ok (.ok, copy) ∧
    SameString from_ copy ∧ Independent from_ copy

section Filled

theorem resize_filled {n : Nat} (h : ∀ b ∈ str.buff.getD [], b = v) :
    ∀ b ∈ (str.resize (.filled v) n).2.buff.getD [], b = v := by
  rw [resize, hardResize]
  generalize (if n < str.minCap then str.minCap else n) = size
  split
  · exact h
  · split
    · exact fun b hb => by cases hb
    · have hr : (Alloc.filled v).realloc str.buff size = some ((str.buff.getD []).take size ++
          (List.replicate size v).drop (str.buff.getD []).length) := rfl
      rw [hr]
      intro b hb
      rcases List.mem_append.mp hb with hb | hb
      · exact h b (List.mem_of_mem_take hb)
      · exact List.eq_of_mem_replicate (List.mem_of_mem_drop hb)

/-- Memory of zeros is an empty string, and memory of ones is none. -/
theorem cString_filled {p : Option Block} (h : ∀ b ∈ p.getD [], b = v) (hp : p ≠ none)
    (hlen : 0 < (p.getD []).length) :
    (v = 0 → cString p = some []) ∧ (v = 1 → cString p = none) := by
  obtain ⟨blk, rfl⟩ := Option.ne_none_iff_exists'.mp hp
  rw [Option.getD_some] at h hlen
  obtain ⟨c, blk, rfl⟩ := List.exists_cons_of_length_pos hlen
  constructor
  · rintro rfl
    obtain rfl := h c List.mem_cons_self
    rfl
  · rintro rfl
    rw [cString, if_neg fun h0 => absurd (h 0 h0) (by decide)]

end Filled

/-- No string is both. -/
theorem not_cString_both {copy : UInt8 → Option Block} {s : Option Block}
    (h : ∀ v, cString (copy v) = s)
    (hcopy : ∀ v, (v = 0 → cString (copy v) = some []) ∧ (v = 1 → cString (copy v) = none)) :
    False := by
  have h0 := (hcopy 0).1 rfl
  have h1 := (hcopy 1).2 rfl
  rw [h 0] at h0
  rw [h 1, h0] at h1
  cases h1

/-- The new object and the memory it gets. -/
theorem newCopy_eq (hal : al.Succeeds) (hfrom : from_.WF) :
    ∃ str₁ p, newCopy al from_ = .ok (some { str₁ with buff := p }) ∧ str₁.WF ∧ str₁.len = 0 ∧
      str₁.capacity = max from_.capacity from_.minCap ∧ SameLimits from_ str₁ ∧
      (from_.len = 0 → p = str₁.buff ∧ ∀ v, al = .filled v → ∀ b ∈ p.getD [], b = v) ∧
      ({ str₁ with buff := p, len := from_.len } : BinaryBuffer).WF ∧
      ({ str₁ with buff := p, len := from_.len } : BinaryBuffer).contents = from_.contents := by
  obtain ⟨str, hnew, hwf, hlen, -⟩ := BinaryBuffer.new_eq hal
  obtain ⟨str₁, p, hr, hp, hwf₁, hcap, hlimits, hcont, hwf', hcont'⟩ := copyInto_eq hal hwf hfrom
  have hlen₁ := hwf₁.length_contents
  rw [hcont, contents_of_len_zero hlen, List.take_nil, List.length_nil] at hlen₁
  refine ⟨str₁, p, ?_, hwf₁, hlen₁.symm, hcap, hlimits, fun h0 => ?_, hwf', hcont'⟩
  · rw [newCopy, new, hnew, ok_bind]
    dsimp only
    rw [hr]
    dsimp only
    rw [hp]
    rfl
  · rw [h0] at hp
    cases hp
    refine ⟨rfl, fun v hv => ?_⟩
    subst hv
    have hnew' : BinaryBuffer.new (.filled v) = .ok (some ⟨some (List.replicate 64 v), 0, 64, 64,
      1048576⟩) := rfl
    rw [hnew'] at hnew
    cases hnew
    have hall := @resize_filled { (⟨some (List.replicate 64 v), 0, 64, 64, 1048576⟩ : BinaryBuffer) with
      maxExpand := from_.maxExpand, minCap := from_.minCap } v from_.capacity
      fun b hb => List.eq_of_mem_replicate hb
    rw [hr] at hall
    exact hall

/-- The memory of an object that has some is not empty. -/
theorem memory_pos (h : str.WF) (hcap : str.capacity ≠ 0) :
    str.buff ≠ none ∧ 0 < (str.buff.getD []).length := by
  have hblk := h.block
  exact ⟨fun hnull => hcap (h.null.mp hnull), by omega⟩

/-- The length is not copied, so only an empty string is; and nothing is put into fresh memory when
nothing is stored. -/
theorem newCopy_copies_iff (hfrom : Terminated from_) :
    NewCopies from_ ↔ from_.len = 1 ∨ from_.capacity = 0 ∧ from_.minCap = 0 := by
  have hle := hfrom.1.len_le
  constructor
  · intro hcopies
    rcases hfrom.2 with hlen | ⟨text, ht⟩
    · -- what is read of the copy is what happened to be in its memory
      by_contra hno
      have hmem : ∀ v : UInt8, ∃ p, cString p = cString from_.buff ∧
          (v = 0 → cString p = some []) ∧ (v = 1 → cString p = none) := by
        intro v
        obtain ⟨copy, hr, hsame, -⟩ := hcopies (.filled v) (Alloc.filled_succeeds v)
        obtain ⟨str₁, p, hr', hwf, -, hcap, -, hfresh, -⟩ :=
          newCopy_eq (Alloc.filled_succeeds v) hfrom.1
        rw [hr] at hr'
        cases hr'
        obtain ⟨rfl, hall⟩ := hfresh hlen
        obtain ⟨hne, hpos⟩ := memory_pos hwf (by omega)
        exact ⟨str₁.buff, hsame.cString_eq, cString_filled (hall v rfl) hne hpos⟩
      choose copy hcopy hfill using hmem
      exact not_cString_both hcopy hfill
    · obtain ⟨copy, hr, hsame, -⟩ := hcopies (.filled 7) (Alloc.filled_succeeds 7)
      obtain ⟨str₁, p, hr', -, hlen₁, -⟩ := newCopy_eq (Alloc.filled_succeeds 7) hfrom.1
      rw [hr] at hr'
      cases hr'
      have hget := hsame.getLength_eq
      rw [ht.getLength_eq, getLength, if_neg (fun hne => hne hlen₁)] at hget
      have hlen := ht.len_eq
      omega
  · intro hok al hal
    obtain ⟨str₁, p, hr, hwf, hlen₁, hcap, hlimits, hfresh, hwf', hcont'⟩ := newCopy_eq hal hfrom.1
    have hget : getLength str₁ = 0 := if_neg fun hne => hne hlen₁
    have hlen : getLength from_ = 0 := by
      rw [getLength]
      split <;> omega
    refine ⟨_, hr, ⟨?_, hget.trans hlen.symm, hlimits, ?_⟩, independent _ _⟩
    · rcases hok with hone | ⟨hzero, hmin⟩
      · rcases hfrom.2 with hlen0 | ⟨text, ht⟩
        · omega
        · have hcopy : Holds { str₁ with buff := p, len := from_.len } text :=
            ⟨hwf', ht.noZero, hcont'.trans ht.contents_eq⟩
          rw [ht.cString_eq]
          exact hcopy.cString_eq
      · obtain ⟨rfl, -⟩ := hfresh (by omega)
        have hnone : str₁.buff = none := hwf.null.mpr (by omega)
        have hnone' : from_.buff = none := hfrom.1.null.mpr hzero
        dsimp only
        rw [hnone, hnone']
    · show str₁.len ≤ str₁.capacity
      omega

/-- What is cleared keeps memory that is not larger than the smallest capacity, with a terminator at
its beginning, and no other. -/
theorem clear_cases (al : Alloc UInt8) (h : to_.WF) : ∃ to', clear al to_ = .ok to' ∧ to'.WF ∧
    (0 < to_.capacity ∧ to_.capacity ≤ to_.minCap ∧ Holds to' [] ∨
      ¬(0 < to_.capacity ∧ to_.capacity ≤ to_.minCap) ∧ to'.buff = none) := by
  obtain ⟨hwf, hlen, -⟩ := clear_eq al h
  by_cases hcap : to_.capacity > to_.minCap
  · have hnull : (to_.clear al).buff = none := by
      rw [BinaryBuffer.clear, if_pos hcap, hardResize, if_neg (by omega), if_pos rfl]
    exact ⟨to_.clear al, if_pos hnull, hwf, .inr ⟨by omega, hnull⟩⟩
  · have hsame : to_.clear al = { to_ with len := 0 } := if_neg hcap
    by_cases hzero : to_.capacity = 0
    · have hnull : (to_.clear al).buff = none := by rw [hsame]; exact h.null.mpr hzero
      exact ⟨to_.clear al, if_pos hnull, hwf, .inr ⟨by omega, hnull⟩⟩
    · obtain ⟨to', hr, hbegun⟩ := terminateEmpty_begun hwf
      have hne : (to_.clear al).buff ≠ none := by
        rw [hsame]
        exact (memory_pos h hzero).1
      rcases hbegun.2 with ⟨hlen', -⟩ | hto
      · rw [terminateEmpty, if_neg hne] at hr
        obtain ⟨p, -, hr⟩ := bind_eq_ok.mp hr
        cases hr
        cases hlen'
      · exact ⟨to', hr, hbegun.1, .inl ⟨by omega, by omega, hto⟩⟩

/-- The other object and the memory it has then. -/
theorem copyString_eq (hal : al.Succeeds) (hto : to_.WF) (hfrom : from_.WF) :
    ∃ str₁ p, copyString al to_ (some from_) = .ok (.ok, { str₁ with buff := p, len := from_.len }) ∧
      SameLimits from_ str₁ ∧
      ({ str₁ with buff := p, len := from_.len } : BinaryBuffer).WF ∧
      ({ str₁ with buff := p, len := from_.len } : BinaryBuffer).contents = from_.contents ∧
      str₁.capacity = max from_.capacity from_.minCap ∧
      (from_.len = 0 → p = str₁.buff ∧
        (0 < to_.capacity ∧ to_.capacity ≤ to_.minCap ∧ cString p = some [] ∨
          ¬(0 < to_.capacity ∧ to_.capacity ≤ to_.minCap) ∧
            ∀ v, al = .filled v → ∀ b ∈ p.getD [], b = v)) := by
  obtain ⟨to', hclear, hwf, hcases⟩ := clear_cases al hto
  obtain ⟨str₁, p, hr, hp, hwf₁, hcap, hlimits, hcont, hwf', hcont'⟩ := copyInto_eq hal hwf hfrom
  refine ⟨str₁, p, ?_, hlimits, hwf', hcont', hcap, fun h0 => ?_⟩
  · rw [copyString, hclear, ok_bind, hr]
    dsimp only
    rw [hp]
    rfl
  · rw [h0] at hp
    cases hp
    refine ⟨rfl, ?_⟩
    rcases hcases with ⟨hpos, hmin, hto'⟩ | ⟨hno, hnull⟩
    · refine .inl ⟨hpos, hmin, ?_⟩
      by_cases hsize : max from_.capacity from_.minCap = 0
      · rw [hwf₁.null.mpr (by omega)]
        rfl
      · rw [hto'.contents_eq, List.nil_append, List.take_of_length_le (by
          rw [List.length_singleton]
          omega)] at hcont
        have hcopy : Holds str₁ [] := ⟨hwf₁, List.not_mem_nil, hcont⟩
        exact hcopy.cString_eq
    · refine .inr ⟨hno, fun v hv => ?_⟩
      subst hv
      have hall := @resize_filled { to' with maxExpand := from_.maxExpand, minCap := from_.minCap } v
        from_.capacity fun b hb => by
          dsimp only at hb
          rw [hnull] at hb
          cases hb
      rw [hr] at hall
      exact hall

/-- What is stored is copied. When nothing is, what is read of the copy is what its memory holds: fresh
memory, or the terminator of the other object that was cleared. -/
theorem copyString_copies_iff (hto : to_.WF) (hfrom : Terminated from_) :
    CopiesString to_ from_ ↔ from_.len ≠ 0 ∨ from_.capacity = 0 ∧ from_.minCap = 0 ∨
      0 < to_.capacity ∧ to_.capacity ≤ to_.minCap ∧ cString from_.buff = some [] := by
  constructor
  · intro hcopies
    by_contra hno
    rw [not_or, not_not] at hno
    obtain ⟨hlen, hno⟩ := hno
    have hmem : ∀ v : UInt8, ∃ p, cString p = cString from_.buff ∧
        (v = 0 → cString p = some []) ∧ (v = 1 → cString p = none) := by
      intro v
      obtain ⟨copy, hr, hsame, -⟩ := hcopies (.filled v) (Alloc.filled_succeeds v)
      obtain ⟨str₁, p, hr', -, hwf, -, hcap, hfresh⟩ :=
        copyString_eq (Alloc.filled_succeeds v) hto hfrom.1
      rw [hr] at hr'
      cases hr'
      obtain ⟨rfl, ⟨hpos, hmin, hkept⟩ | ⟨-, hall⟩⟩ := hfresh hlen
      · exact absurd (.inr ⟨hpos, hmin, hsame.cString_eq.symm.trans hkept⟩) hno
      · obtain ⟨hne, hpos⟩ := memory_pos hwf (by
          dsimp only
          omega)
        exact ⟨str₁.buff, hsame.cString_eq, cString_filled (hall v rfl) hne hpos⟩
    choose copy hcopy hfill using hmem
    exact not_cString_both hcopy hfill
  · intro hok al hal
    obtain ⟨str₁, p, hr, hlimits, hwf, hcont, hcap, hfresh⟩ := copyString_eq hal hto hfrom.1
    refine ⟨_, hr, ⟨?_, rfl, hlimits, hwf.len_le⟩, independent _ _⟩
    rcases hfrom.2 with hlen | ⟨text, ht⟩
    · obtain ⟨rfl, hread⟩ := hfresh hlen
      rcases hok with hne | ⟨hzero, hmin⟩ | ⟨hpos, hmin, hempty⟩
      · exact absurd hlen hne
      · have hnone : str₁.buff = none := hwf.null.mpr (by
          dsimp only
          omega)
        have hnone' : from_.buff = none := hfrom.1.null.mpr hzero
        dsimp only
        rw [hnone, hnone']
      · rcases hread with ⟨-, -, hkept⟩ | ⟨hno, -⟩
        · exact hkept.trans hempty.symm
        · exact absurd ⟨hpos, hmin⟩ hno
    · have hcopy : Holds { str₁ with buff := p, len := from_.len } text :=
        ⟨hwf, ht.noZero, hcont.trans ht.contents_eq⟩
      rw [ht.cString_eq]
      exact hcopy.cString_eq

/-- A string that is shrunk to fit stays one. -/
theorem shrinkToFit_terminated (hal : al.Succeeds) (h : Terminated str) :
    Terminated (str.shrinkToFit al) := by
  obtain ⟨hwf, hcont, -⟩ := shrinkToFit_eq hal h.1
  refine ⟨hwf, h.2.imp (fun hlen => ?_) fun ⟨text, ht⟩ =>
    ⟨text, hwf, ht.noZero, hcont.trans ht.contents_eq⟩⟩
  rw [← hwf.length_contents, hcont, h.1.length_contents, hlen]

/-- When the two ways to copy a string give a copy. -/
theorem copies_iff (hto : to_.WF) (hfrom : Terminated from_) :
    (NewCopies from_ ↔ from_.len = 1 ∨ from_.capacity = 0 ∧ from_.minCap = 0) ∧
      (CopiesString to_ from_ ↔ from_.len ≠ 0 ∨ from_.capacity = 0 ∧ from_.minCap = 0 ∨
        0 < to_.capacity ∧ to_.capacity ≤ to_.minCap ∧ cString from_.buff = some []) :=
  ⟨newCopy_copies_iff hfrom, copyString_copies_iff hto hfrom⟩

/-- An empty string, shrunk to fit, is copied in both ways. -/
theorem copies_empty : NewCopies ((⟨some [0, 7, 7, 7], 1, 4, 2, 1⟩ : BinaryBuffer).shrinkToFit
      (.filled 7)) ∧
    CopiesString ⟨none, 0, 0, 64, 1⟩ ((⟨some [0, 7, 7, 7], 1, 4, 2, 1⟩ : BinaryBuffer).shrinkToFit
      (.filled 7)) := by
  have hfrom : Terminated ⟨some [0, 7, 7, 7], 1, 4, 2, 1⟩ :=
    Holds.terminated ⟨⟨rfl, by decide, by decide, by decide, by decide, by decide⟩,
      List.not_mem_nil, rfl⟩
  have hto : (⟨none, 0, 0, 64, 1⟩ : BinaryBuffer).WF :=
    ⟨rfl, by decide, by decide, by decide, by decide, by decide⟩
  have hboth := copies_iff hto (shrinkToFit_terminated (Alloc.filled_succeeds 7) hfrom)
  exact ⟨hboth.1.mpr (.inl (by decide)), hboth.2.mpr (.inl (by decide))⟩

/-- A copy made by `newString_copy` has the bytes of the string, but no length. Both ways give fresh
memory, which is no string, as the copy of an empty string that has no memory. -/
theorem copies_fail :
    newCopy (.filled 7) ⟨some [97, 0], 2, 2, 1, 1⟩ = .ok (some ⟨some [97, 0], 0, 2, 1, 1⟩) ∧
    ¬NewCopies ⟨some [97, 0], 2, 2, 1, 1⟩ ∧
    copyString (.filled 7) ⟨none, 0, 0, 2, 1⟩ (some ⟨none, 0, 0, 2, 1⟩) =
      .ok (.ok, ⟨some [7, 7], 0, 2, 2, 1⟩) ∧
    ¬CopiesString ⟨none, 0, 0, 2, 1⟩ ⟨none, 0, 0, 2, 1⟩ := by
  have hnew : newCopy (.filled 7) ⟨some [97, 0], 2, 2, 1, 1⟩ =
      .ok (some ⟨some [97, 0], 0, 2, 1, 1⟩) := rfl
  have hcopy : copyString (.filled 7) ⟨none, 0, 0, 2, 1⟩ (some ⟨none, 0, 0, 2, 1⟩) =
      .ok (.ok, ⟨some [7, 7], 0, 2, 2, 1⟩) := rfl
  refine ⟨hnew, fun hcopies => ?_, hcopy, fun hcopies => ?_⟩
  · obtain ⟨copy, hr, hsame, -⟩ := hcopies (.filled 7) (Alloc.filled_succeeds 7)
    cases hnew.symm.trans hr
    exact absurd hsame.getLength_eq (by decide)
  · obtain ⟨copy, hr, hsame, -⟩ := hcopies (.filled 7) (Alloc.filled_succeeds 7)
    cases hcopy.symm.trans hr
    exact absurd hsame.cString_eq (by decide)

end AlibC.Str
