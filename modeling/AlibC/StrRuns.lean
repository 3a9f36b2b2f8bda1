import AlibC.BinaryBufferRemove
import AlibC.BinaryBufferReplace
import AlibC.Lib.Machine
import AlibC.Str

/-! How long a `String` keeps its terminator. -/
namespace AlibC.Str

open CLang Machine BinaryBuffer

variable {al : Alloc UInt8} {str from_ : BinaryBuffer} {text blk : Block}
  {index count begin_ end_ : Nat} {crc : Int}

/-- The buffer stores the text and its terminator. -/
structure Holds (str : BinaryBuffer) (text : Block) : Prop where
  wf : str.WF
  noZero : 0 ∉ text
  contents_eq : str.contents = text ++ [0]

/-- Nothing is stored, or a text and its terminator. -/
def Terminated (str : BinaryBuffer) : Prop := str.WF ∧ (str.len = 0 ∨ ∃ text, Holds str text)

theorem Holds.len_eq (h : Holds str text) : str.len = text.length + 1 := by
  rw [← h.wf.length_contents, h.contents_eq, List.length_append, List.length_singleton]

theorem Holds.terminated (h : Holds str text) : Terminated str := ⟨h.wf, .inr ⟨text, h⟩⟩

/-- The same with the text, which is empty where nothing is stored. -/
def Begun (str : BinaryBuffer) (text : Block) : Prop :=
  str.WF ∧ (str.len = 0 ∧ text = [] ∨ Holds str text)

theorem Holds.begun (h : Holds str text) : Begun str text := ⟨h.wf, .inr h⟩

theorem Begun.terminated (h : Begun str text) : Terminated str :=
  ⟨h.1, h.2.imp (fun hnil => hnil.1) fun ht => ⟨text, ht⟩⟩

/-- Parts of a text with another one between them. -/
theorem Holds.noZero_spliced (h : Holds str text) {new : Block} (hnew : 0 ∉ new) (i j : Nat) :
    0 ∉ text.take i ++ new ++ text.drop j := by
  simp only [List.mem_append, not_or]
  exact ⟨⟨fun hm => h.noZero (List.mem_of_mem_take hm), hnew⟩,
    fun hm => h.noZero (List.mem_of_mem_drop hm)⟩

/-- The memory in front of an index and behind it. -/
theorem Holds.exists_parts (h : Holds str text) :
    ∃ blk, str.buff = some blk ∧ blk.length = str.capacity ∧ ∀ i ≤ text.length,
      blk.take i = text.take i ∧ (blk.drop i).take (str.len - i) = text.drop i ++ [0] := by
  have hlen := h.len_eq
  have hle := h.wf.len_le
  obtain ⟨blk, hb, hl⟩ := h.wf.buff_eq_some (by omega)
  have hcont : blk.take str.len = text ++ [0] := by
    rw [← h.contents_eq, contents, hb, Option.getD_some]
  refine ⟨blk, hb, hl, fun i hi => ⟨?_, ?_⟩⟩
  · have htake := congrArg (List.take i) hcont
    rwa [List.take_take, Nat.min_eq_left (by omega), List.take_append_of_le_length hi] at htake
  · rw [← List.drop_take, hcont, List.drop_append_of_le_length hi]

theorem Holds.getLength_eq (h : Holds str text) : getLength str = text.length := by
  rw [getLength, if_pos (by rw [h.len_eq]; omega), h.len_eq, Nat.add_sub_cancel]

/-- What is read of a string: the text in front of the first zero, and its length. -/
structure IsText (str : BinaryBuffer) (text : Block) : Prop where
  buff_eq : ∃ rest, str.buff = some (text ++ 0 :: rest)
  noZero : 0 ∉ text
  getLength_eq : getLength str = text.length

theorem Holds.isText (h : Holds str text) : IsText str text := by
  obtain ⟨blk, hb, -, hparts⟩ := h.exists_parts
  have hall := (hparts 0 (Nat.zero_le _)).2
  rw [List.drop_zero, List.drop_zero, Nat.sub_zero, h.len_eq] at hall
  refine ⟨⟨blk.drop (text.length + 1), ?_⟩, h.noZero, h.getLength_eq⟩
  rw [hb]
  conv => lhs; rw [← List.take_append_drop (text.length + 1) blk, hall]
  rw [List.append_assoc, List.singleton_append]

theorem Holds.strlen_eq (h : Holds str text) : strlen str.buff = .ok (getLength str) := by
  obtain ⟨rest, hb⟩ := h.isText.buff_eq
  rw [hb, CLang.strlen_eq h.noZero, h.getLength_eq]

/-- The search in a string from one of the positions of its text on. -/
theorem IsText.strstr_eq {sub : Block} (h : IsText str text) (hsub : 0 ∈ sub)
    (hin : index ≤ text.length) : strstr str.buff index (some sub) =
      .ok ((Search.firstAt (cstr sub) (text.drop index)).map (index + ·)) := by
  obtain ⟨rest, hb⟩ := h.buff_eq
  rw [hb, CLang.strstr_eq h.noZero hin hsub]

theorem IsText.strstr_begin {sub : Block} (h : IsText str text) (hsub : 0 ∈ sub) :
    strstr str.buff 0 (some sub) = .ok (Search.firstAt (cstr sub) text) := by
  rw [h.strstr_eq hsub (Nat.zero_le _), List.drop_zero]
  simp

theorem IsText.take_eq (h : IsText str text) :
    (str.buff.getD []).take (text.length + 1) = text ++ [0] := by
  obtain ⟨rest, hb⟩ := h.buff_eq
  rw [hb, Option.getD_some, List.take_length_add_append]
  rfl

/-- Only if something is stored is the terminator part of it. -/
theorem IsText.holds (h : IsText str text) (hwf : str.WF) (hlen : str.len ≠ 0) :
    Holds str text := by
  have hget := h.getLength_eq
  rw [getLength, if_pos hlen] at hget
  have hlen' : str.len = text.length + 1 := by omega
  exact ⟨hwf, h.noZero, by rw [contents, hlen', h.take_eq]⟩

/-- A C string is a text without zeros in front of a zero. -/
theorem strlen_text (h0 : 0 ∈ blk) : strlen (some blk) = .ok (cstr blk).length ∧
    (cstr blk).length ≤ blk.length ∧ 0 ∉ blk.take (cstr blk).length := by
  obtain ⟨rest, hblk, hno⟩ := exists_text h0
  generalize cstr blk = text at *
  subst hblk
  exact ⟨CLang.strlen_eq hno, by simp, by rw [List.take_left]; exact hno⟩

/-- Writing behind what is stored changes no text. -/
theorem store_behind (h : str.WF) (hroom : str.len < str.capacity) :
    ∃ p, store str.buff str.len [0] = .ok p ∧
      ({ str with buff := p } : BinaryBuffer).WF ∧
      ({ str with buff := p } : BinaryBuffer).contents = str.contents := by
  obtain ⟨blk, hb, hl⟩ := h.buff_eq_some (by omega)
  refine ⟨some (overwrite blk str.len [0]), ?_, h.rewritten hb
    (length_overwrite (by rw [List.length_singleton]; omega)) h.len_le, ?_⟩
  · rw [hb]
    exact store_some (by rw [List.length_singleton]; omega)
  · simp only [contents, hb, Option.getD_some]
    exact take_overwrite_of_le (Nat.le_refl _) (by omega)

/-- The whole content is written anew. -/
theorem store_begin (h : str.WF) {bs : Block} (hroom : bs.length ≤ str.capacity) :
    ∃ p, store str.buff 0 bs = .ok p ∧
      ({ str with buff := p, len := bs.length } : BinaryBuffer).WF ∧
      ({ str with buff := p, len := bs.length } : BinaryBuffer).contents = bs := by
  obtain ⟨p, hp, hwf, hcont⟩ := @store_end str.clearNoResize h.clearNoResize bs
    (by rw [clearNoResize, Nat.zero_add]; exact hroom)
  rw [contents_of_len_zero (b := str.clearNoResize) rfl, List.nil_append] at hcont
  have hlen : str.clearNoResize.len + bs.length = bs.length := Nat.zero_add _
  rw [hlen] at hwf hcont
  exact ⟨p, hp, hwf, hcont⟩

section Clear

theorem terminateEmpty_begun (h : str.WF) :
    ∃ str', terminateEmpty str = .ok str' ∧ Begun str' [] := by
  rw [terminateEmpty]
  by_cases hnull : str.buff = none
  · have hcap := h.null.mp hnull
    have hle := h.len_le
    exact ⟨str, if_pos hnull, h, .inl ⟨by omega, rfl⟩⟩
  · have hcap : 0 < str.capacity := Nat.pos_of_ne_zero fun hc => hnull (h.null.mpr hc)
    obtain ⟨p, hp, hwf, hcont⟩ := @store_begin str h [0] hcap
    exact ⟨_, by rw [if_neg hnull, hp]; rfl, Holds.begun
      ⟨hwf, List.not_mem_nil, by rw [List.nil_append]; exact hcont⟩⟩

theorem clear_begun (h : str.WF) : ∃ str', clear al str = .ok str' ∧ Begun str' [] :=
  terminateEmpty_begun (clear_eq al h).1

theorem clearNoFree_begun (h : str.WF) : ∃ str', clearNoFree str = .ok str' ∧ Begun str' [] :=
  terminateEmpty_begun h.clearNoResize

end Clear

section Append

/-- The terminator is put behind a text. -/
theorem append_zero (hal : al.Succeeds) (h : str.WF) (hcont : str.contents = text) (h0 : 0 ∉ text)
    (hmax : text.length ≤ PTRDIFF_MAX) :
    ∃ str', str.append al (some [0]) 1 = .ok (.ok, str') ∧ Holds str' text := by
  unfold PTRDIFF_MAX at hmax
  have hlen := h.length_contents
  rw [hcont] at hlen
  obtain ⟨str', hr, hwf, hcont', -, -⟩ := append_eq hal h (Nat.le_refl [0].length)
    (show str.len + 1 < 2 ^ 64 by omega)
  exact ⟨str', hr, hwf, h0, by rw [hcont', hcont]; rfl⟩

/-- Bytes without a zero are appended to nothing, and the terminator to them. -/
theorem append_text (hal : al.Succeeds) (h : str.WF) (hlen : str.len = 0)
    (hcount : count ≤ blk.length) (hmax : blk.length ≤ PTRDIFF_MAX) (h0 : 0 ∉ blk.take count) :
    ∃ str₁ str₂, str.append al (some blk) count = .ok (.ok, str₁) ∧
      str₁.append al (some [0]) 1 = .ok (.ok, str₂) ∧ Holds str₂ (blk.take count) := by
  have hlt : str.len + count < 2 ^ 64 := by
    unfold PTRDIFF_MAX at hmax
    omega
  obtain ⟨str₁, hr₁, hwf₁, hcont₁, -, -⟩ := append_eq hal h hcount hlt
  rw [contents_of_len_zero hlen, List.nil_append] at hcont₁
  obtain ⟨str₂, hr₂, h₂⟩ := append_zero hal hwf₁ hcont₁ h0
    (Nat.le_trans (List.length_take_le' count blk) hmax)
  exact ⟨str₁, str₂, hr₁, hr₂, h₂⟩

/-- What is given to a call, if anything, has `count` bytes and no zero among them. -/
def Given (p : Option Block) (count : Nat) : Prop :=
  ∀ blk, p = some blk → count ≤ blk.length ∧ blk.length ≤ PTRDIFF_MAX ∧ 0 ∉ blk.take count

theorem given_some (hcount : count ≤ blk.length) (hmax : blk.length ≤ PTRDIFF_MAX)
    (h0 : 0 ∉ blk.take count) : Given (some blk) count := by
  intro blk' hblk
  cases hblk
  exact ⟨hcount, hmax, h0⟩

theorem given_char {c : UInt8} (hc : c ≠ 0) : Given (some [c]) 1 :=
  given_some (Nat.le_refl 1) (show 1 ≤ PTRDIFF_MAX by decide) fun hm =>
    hc (List.mem_singleton.mp hm).symm

/-- What is given replaces what was stored. -/
theorem setCount_holds (hal : al.Succeeds) (h : str.WF) (hp : Given (some blk) count) :
    ∃ str', setCount al str (some blk) count = .ok (.ok, str') ∧ Holds str' (blk.take count) := by
  obtain ⟨hwf, hlen, -⟩ := clear_eq al h
  obtain ⟨hcount, hmax, h0⟩ := hp blk rfl
  obtain ⟨str₁, str₂, hr₁, hr₂, h₂⟩ := append_text hal hwf hlen hcount hmax h0
  refine ⟨str₂, ?_, h₂⟩
  rw [setCount, hr₁, ok_bind]
  dsimp only
  rw [hr₂]
  rfl

theorem setCount_terminated (hal : al.Succeeds) (h : str.WF) {p : Option Block}
    (hp : Given p count) :
    ∃ code str', setCount al str p count = .ok (code, str') ∧ Terminated str' := by
  cases p with
  | none =>
    obtain ⟨hwf, hlen, -⟩ := clear_eq al h
    obtain ⟨str', hr, h'⟩ := append_zero hal hwf (contents_of_len_zero hlen) List.not_mem_nil
      (Nat.zero_le _)
    refine ⟨.ok, str', ?_, h'.terminated⟩
    rw [setCount, append_null, ok_bind]
    dsimp only
    rw [hr]
    rfl
  | some blk =>
    obtain ⟨str', hr, h'⟩ := setCount_holds hal h hp
    exact ⟨.ok, str', hr, h'.terminated⟩

/-- A text is appended to nothing. -/
theorem appendCount_nothing (hal : al.Succeeds) (h : str.WF) (hlen : str.len = 0)
    (hp : Given (some blk) count) :
    ∃ str', appendCount al str (some blk) count = .ok (.ok, str') ∧
      Holds str' (blk.take count) := by
  obtain ⟨hcount, hmax, h0⟩ := hp blk rfl
  obtain ⟨str₁, str₂, hr₁, hr₂, h₂⟩ := append_text hal h hlen hcount hmax h0
  refine ⟨str₂, ?_, h₂⟩
  rw [appendCount, if_neg (Option.some_ne_none blk), if_neg (by omega), hr₁, ok_bind]
  exact hr₂

/-- Inserting nothing into what is stored. -/
theorem insert_nothing (h : str.WF) (hin : index < str.len) :
    str.insert al index (some blk) 0 = .ok (.ok, str) := by
  have hle := h.len_le
  have hlt := h.capacity_lt
  obtain ⟨mem, hb, hl⟩ := h.buff_eq_some (by omega)
  have hadd : sizeAdd str.len 0 = str.len := sizeAdd_eq (by omega)
  have hsub : sizeSub str.len (index + 1) = str.len - (index + 1) := sizeSub_eq (by omega) (by omega)
  have hroom : ensureRoom al str str.len = .ok (.ok, str) := if_neg (by omega)
  have hback : memcpyBack (some mem) index index (str.len - (index + 1)) = .ok (some mem) := by
    rw [memcpyBack_eq (Nat.le_refl index) (by omega), overwrite_self (by omega)]
  have hcopy : memcpy (some mem) index (some blk) 0 0 = .ok (some mem) := rfl
  rw [BinaryBuffer.insert, if_neg (Option.some_ne_none blk), if_neg (by omega), hadd,
    if_neg (by unfold ULONG_MAX; omega)]
  dsimp only
  rw [hroom, ok_bind]
  dsimp only
  rw [if_neg (fun hc => hc rfl), hb, hsub, Nat.add_zero, hback, ok_bind, hcopy, ok_bind, ← hb]
  rfl

/-- The appending that keeps the terminator. -/
def AppendKeeps (len count : Nat) : Prop := len = 0 ∨ 1 < len ∧ count = 0

theorem appendCount_terminated (hal : al.Succeeds) (h : Terminated str) {p : Option Block}
    (hp : Given p count) (hkeeps : p ≠ none → AppendKeeps str.len count) :
    ∃ code str', appendCount al str p count = .ok (code, str') ∧ Terminated str' := by
  cases p with
  | none => exact ⟨.badArg, str, if_pos rfl, h⟩
  | some blk =>
    rcases hkeeps (Option.some_ne_none blk) with hlen | ⟨hlen, rfl⟩
    · obtain ⟨str', hr, h'⟩ := appendCount_nothing hal h.1 hlen hp
      exact ⟨.ok, str', hr, h'.terminated⟩
    · refine ⟨.ok, str, ?_, h⟩
      rw [appendCount, if_neg (Option.some_ne_none blk), if_pos hlen,
        insert_nothing h.1 (by omega)]

end Append

section Insert

/-- The insertion that does: of nothing, with room for another terminator. -/
def InsertKeeps (str : BinaryBuffer) (count : Nat) : Prop :=
  1 ≤ str.len ∧ count = 0 ∧ str.len < str.capacity

theorem insertCount_terminated (h : Terminated str) (hin : index ≤ getLength str) {p : Option Block}
    (hkeeps : p ≠ none → InsertKeeps str count) :
    ∃ code str', insertCount al str p index count = .ok (code, str') ∧ Terminated str' := by
  cases p with
  | none => exact ⟨.badArg, str, rfl, h⟩
  | some blk =>
    obtain ⟨hlen, rfl, hroom⟩ := hkeeps (Option.some_ne_none blk)
    obtain ⟨text, htext⟩ := h.2.resolve_left (by omega)
    rw [htext.getLength_eq] at hin
    obtain ⟨p, hp, hwf, hcont⟩ := store_behind h.1 hroom
    refine ⟨.ok, _, ?_, Holds.terminated ⟨hwf, htext.noZero, hcont.trans htext.contents_eq⟩⟩
    rw [insertCount, insert_nothing h.1 (by rw [htext.len_eq]; omega), ok_bind]
    dsimp only
    rw [if_neg (fun hc => hc rfl), hp]
    rfl

end Insert

section Remove

/-- The removals that do: nothing, everything, or a part that is not shorter than what follows. -/
def RemoveKeeps (len lo hi : Nat) : Prop :=
  len ≤ lo + 1 ∨ lo = 0 ∧ len ≤ hi + 1 ∨ hi + 1 < len ∧ len - hi ≤ hi - lo

/-- Behind what is removed the text moves to the front, if that is not onto itself. -/
theorem remove_part {lo hi : Nat} (h : Holds str text) (hlo : lo ≤ hi) (hhi : hi < text.length)
    (hgap : str.len - hi ≤ hi - lo) :
    ∃ str', str.remove lo hi = .ok (.ok, str') ∧ Holds str' (text.take lo ++ text.drop hi) := by
  obtain ⟨str', hr, hwf, hcont, -⟩ := remove_inner h.wf hlo (by rw [h.len_eq]; omega) hgap
  refine ⟨str', hr, hwf, ?_, ?_⟩
  · rw [List.mem_append, not_or]
    exact ⟨fun hm => h.noZero (List.mem_of_mem_take hm), fun hm => h.noZero (List.mem_of_mem_drop hm)⟩
  · rw [hcont, h.contents_eq, List.take_append_of_le_length (by omega),
      List.drop_append_of_le_length (by omega), List.append_assoc]

theorem remove_terminated (h : Terminated str) (hkeeps : RemoveKeeps str.len (min begin_ end_)
    (max begin_ end_)) :
    ∃ code str', remove str begin_ end_ = .ok (code, str') ∧ Terminated str' := by
  have hle : min begin_ end_ ≤ max begin_ end_ := by omega
  rw [remove, ordered_eq]
  generalize min begin_ end_ = lo at *
  generalize max begin_ end_ = hi at *
  dsimp only
  by_cases hout : lo ≥ getLength str
  · exact ⟨.ok, str, if_pos hout, h⟩
  · rw [if_neg hout]
    have hlen : str.len ≠ 0 := fun hc => hout (by rw [getLength, if_neg (fun hne => hne hc)]; omega)
    obtain ⟨text, htext⟩ := h.2.resolve_left hlen
    rw [htext.getLength_eq] at hout
    rw [RemoveKeeps, htext.len_eq] at hkeeps
    have hlt := h.1.capacity_lt
    have hle' := h.1.len_le
    by_cases hin : hi < text.length
    · rw [if_neg (by rw [htext.len_eq]; omega)]
      obtain ⟨str', hr, h'⟩ := remove_part htext hle hin (by rw [htext.len_eq]; omega)
      exact ⟨.ok, str', hr, h'.terminated⟩
    · -- the terminator goes too
      obtain rfl : lo = 0 := by omega
      have hend : (if hi ≥ str.len then sizeSub str.len 1 else hi) = str.len - 1 := by
        rw [sizeSub_eq (by omega) (by omega)]
        have hlen' := htext.len_eq
        split <;> omega
      obtain ⟨str', hr, hwf, hcont, -⟩ := remove_tail h.1 (Nat.zero_le (str.len - 1)) (by omega)
        (by omega) (Nat.zero_le _)
      rw [hend]
      refine ⟨.ok, str', hr, hwf, .inl ?_⟩
      rw [← hwf.length_contents, hcont, List.take_zero, List.length_nil]

end Remove

section Replace

/-- The replacements that do: of nothing in an empty buffer, of a part of the text when there is
room for another terminator and the rest moves back or not onto itself, or of everything by
nothing. -/
def ReplaceKeeps (str : BinaryBuffer) (index oldLen count : Nat) : Prop :=
  str.len = 0 ∨
  index + oldLen + 1 ≤ str.len ∧ str.len + count - oldLen < str.capacity ∧
    (oldLen ≤ count ∨ str.len - index - oldLen ≤ oldLen - count) ∨
  index = 0 ∧ oldLen = str.len ∧ count = 0

/-- The part behind what is replaced is moved, and the new text put in front of it. -/
theorem replace_part (al : Alloc UInt8) {oldLen : Nat} (h : Holds str text) (hin : index + oldLen ≤ text.length)
    (hcount : count ≤ blk.length) (hok : Replaceable str index oldLen count)
    (h0 : 0 ∉ blk.take count) :
    ∃ str', str.replace al index oldLen (some blk) count = .ok (.ok, str') ∧
      Holds str' (text.take index ++ blk.take count ++ text.drop (index + oldLen)) ∧
      str'.len = str.len - oldLen + count ∧ str'.capacity = str.capacity := by
  obtain ⟨str', hr, hwf, hcont, hlen, hcap, -⟩ := hok.replace_eq al h.wf
    (by rw [h.len_eq]; omega) hcount
  refine ⟨str', hr, ⟨hwf, h.noZero_spliced h0 _ _, ?_⟩, hlen, hcap⟩
  rw [hcont, h.contents_eq, List.take_append_of_le_length (by omega),
    List.drop_append_of_le_length hin]
  simp only [List.append_assoc]

/-- Everything is replaced by nothing. -/
theorem replace_all (h : str.WF) (hlen : str.len ≠ 0) :
    str.replace al 0 str.len (some blk) 0 = .ok (.ok, { str with len := 0 }) := by
  have hle := h.len_le
  have hlt := h.capacity_lt
  obtain ⟨mem, hb, -⟩ := h.buff_eq_some (by omega)
  have hnone : sizeSub (sizeAdd str.len 0) str.len = 0 := by
    unfold sizeSub sizeAdd
    omega
  have hnone' : sizeAdd str.len (sizeSub 0 str.len) = 0 := by
    unfold sizeSub sizeAdd
    omega
  have hrest : sizeSub (sizeSub str.len 0) str.len = 0 := by
    unfold sizeSub
    omega
  have hmove : memcpySafe (some mem) (0 + 0) (0 + str.len) 0 = .ok (some mem) := by
    rw [memcpySafe, if_neg (by omega)]
    rfl
  have hcopy : memcpy (some mem) 0 (some blk) 0 0 = .ok (some mem) := rfl
  rw [BinaryBuffer.replace, if_neg (by omega)]
  dsimp only
  rw [hnone, if_neg (by omega), if_pos hlen, hb, hrest, hmove, ok_bind, hcopy, ok_bind, hnone', ← hb]
  rfl

/-- A part of the text is replaced where there is room for another terminator. -/
theorem replaceCount_part (al : Alloc UInt8) (h : Holds str text) (hin : index + replaced crc count ≤ text.length)
    (hcount : count ≤ blk.length) (hroom : str.len - replaced crc count + count < str.capacity)
    (hgap : replaced crc count ≤ count ∨
      str.len - index - replaced crc count ≤ replaced crc count - count)
    (h0 : 0 ∉ blk.take count) :
    ∃ str', replaceCount al str index crc (some blk) count = .ok (.ok, str') ∧
      Holds str' (text.take index ++ blk.take count ++ text.drop (index + replaced crc count)) := by
  have hlen := h.len_eq
  obtain ⟨str₁, hr, h₁, hlen₁, hcap₁⟩ := replace_part al h hin hcount
    ⟨Nat.le_of_lt hroom, hgap⟩ h0
  obtain ⟨q, hq, hwf, hcont⟩ := store_behind h₁.wf (by omega)
  refine ⟨_, ?_, ⟨hwf, h₁.noZero, hcont.trans h₁.contents_eq⟩⟩
  rw [replaceCount, if_neg (not_or.mpr ⟨Option.some_ne_none blk, by omega⟩), hr, ok_bind]
  dsimp only
  rw [if_neg (fun hc => hc rfl), hq]
  rfl

/-- The text and its terminator are replaced by nothing, and by another terminator. -/
theorem replaceCount_all (al : Alloc UInt8) (blk : Block) (h : str.WF) (hlen : str.len ≠ 0) (hold : replaced crc 0 = str.len) :
    ∃ str', replaceCount al str 0 crc (some blk) 0 = .ok (.ok, str') ∧ str'.WF ∧ str'.len = 0 ∧
      IsText str' [] := by
  have hle := h.len_le
  have hwf : ({ str with len := 0 } : BinaryBuffer).WF := h.clearNoResize
  obtain ⟨q, hq, hwf', hcont⟩ := @store_begin _ hwf [0] (show 1 ≤ str.capacity by omega)
  obtain ⟨rest, hb⟩ := Holds.isText ⟨hwf', List.not_mem_nil, hcont⟩ |>.buff_eq
  refine ⟨{ str with buff := q, len := 0 }, ?_, hwf'.clearNoResize, rfl, ⟨rest, hb⟩,
    List.not_mem_nil, rfl⟩
  rw [replaceCount, if_neg (not_or.mpr ⟨Option.some_ne_none blk, by omega⟩), hold,
    replace_all h hlen, ok_bind]
  dsimp only at hq ⊢
  rw [if_neg (fun hc => hc rfl), hq]
  rfl

theorem replaceCount_terminated (h : Terminated str) (hin : index ≤ getLength str)
    {p : Option Block} (hp : Given p count)
    (hkeeps : p ≠ none → ReplaceKeeps str index (replaced crc count) count) :
    ∃ code str', replaceCount al str index crc p count = .ok (code, str') ∧ Terminated str' := by
  by_cases hbad : p = none ∨ index ≥ str.len
  · exact ⟨.badArg, str, if_pos hbad, h⟩
  · rw [not_or] at hbad
    obtain ⟨blk, rfl⟩ := Option.ne_none_iff_exists'.mp hbad.1
    obtain ⟨hcount, hmax, h0⟩ := hp blk rfl
    obtain ⟨text, htext⟩ := h.2.resolve_left (by omega)
    have hlen := htext.len_eq
    rcases hkeeps hbad.1 with hnil | ⟨hpart, hroom, hgap⟩ | ⟨rfl, hold, rfl⟩
    · omega
    · obtain ⟨str', hr, h'⟩ := replaceCount_part al htext (by omega) hcount (by omega)
        hgap h0
      exact ⟨.ok, str', hr, h'.terminated⟩
    · obtain ⟨str', hr, hwf, hlen', -⟩ := replaceCount_all al blk h.1 (by omega)
        hold
      exact ⟨.ok, str', hr, hwf, .inl hlen'⟩

end Replace

/-- The memory of another object is made as large as that of the source, or as the smallest capacity,
and what is stored there is copied into it. -/
theorem copyInto_eq (hal : al.Succeeds) (h : str.WF) (hfrom : from_.WF) :
    ∃ str₁ p, resize al { str with maxExpand := from_.maxExpand, minCap := from_.minCap }
        from_.capacity = (.ok, str₁) ∧ memcpy str₁.buff 0 from_.buff 0 from_.len = .ok p ∧
      str₁.WF ∧ str₁.capacity = max from_.capacity from_.minCap ∧ SameLimits from_ str₁ ∧
      str₁.contents = str.contents.take (max from_.capacity from_.minCap) ∧
      ({ str₁ with buff := p, len := from_.len } : BinaryBuffer).WF ∧
      ({ str₁ with buff := p, len := from_.len } : BinaryBuffer).contents = from_.contents := by
  have hwf : ({ str with maxExpand := from_.maxExpand, minCap := from_.minCap } :
      BinaryBuffer).WF :=
    ⟨h.block, h.null, h.len_le, h.capacity_lt, hfrom.minCap_lt, hfrom.maxExpand_pos⟩
  obtain ⟨str₁, hr, hwf₁, hcap, hcont, hlimits⟩ := resize_eq hal hwf hfrom.capacity_lt
  have hlen := hfrom.length_contents
  have hle := hfrom.len_le
  dsimp only at hcap hcont
  obtain ⟨p, hp, hwf', hcont'⟩ := store_begin hwf₁ (show from_.contents.length ≤ str₁.capacity by
    omega)
  rw [hlen] at hwf' hcont'
  refine ⟨str₁, p, hr, ?_, hwf₁, hcap, hlimits, hcont, hwf', hcont'⟩
  rw [memcpy, hfrom.load_contents, ok_bind, hp]

theorem copyString_terminated (hal : al.Succeeds) (h : str.WF) (hfrom : Terminated from_) :
    ∃ code str', copyString al str (some from_) = .ok (code, str') ∧ Terminated str' := by
  obtain ⟨str₁, hr₁, hwf₁, -⟩ := @clear_begun al str h
  obtain ⟨str₂, p, hr₂, hp, -, -, -, -, hwf, hcont⟩ := copyInto_eq hal hwf₁ hfrom.1
  refine ⟨.ok, _, ?_, hwf, hfrom.2.imp_right fun ⟨text, ht⟩ =>
    ⟨text, hwf, ht.noZero, hcont.trans ht.contents_eq⟩⟩
  rw [copyString, hr₁, ok_bind, hr₂]
  dsimp only
  rw [hp]
  rfl

section Runs

/-- The calls. A text is given by the memory it begins. -/
inductive Op where
  | set (strVal : Option Block)
  | setCount (strVal : Option Block) (count : Nat)
  | append (strToAppend : Block)
  | appendCount (strToAppend : Option Block) (count : Nat)
  | appendChar (c : UInt8)
  | appendString (from_ : Option BinaryBuffer)
  | insert (val : Option Block) (index : Nat)
  | insertCount (val : Option Block) (index count : Nat)
  | insertString (val : Option BinaryBuffer) (index : Nat)
  | remove (begin_ end_ : Nat)
  | replace (index : Nat) (charReplaceCount : Int) (substring : Option Block)
  | clear
  | clearNoFree
  | copyString (from_ : Option BinaryBuffer)

/-- A call returns its code, `ALIB_OK` where it returns nothing. -/
def step (str : BinaryBuffer) : Alloc UInt8 × Op → Outcome (AlibError × BinaryBuffer)
  | (al, .set strVal) => set al str strVal
  | (al, .setCount strVal count) => setCount al str strVal count
  | (al, .append strToAppend) => append al str (some strToAppend)
  | (al, .appendCount strToAppend count) => appendCount al str strToAppend count
  | (al, .appendChar c) => appendChar al str c
  | (al, .appendString from_) => appendString al str from_
  | (al, .insert val index) => insert al str val index
  | (al, .insertCount val index count) => insertCount al str val index count
  | (al, .insertString val index) => insertString al str val index
  | (_, .remove begin_ end_) => remove str begin_ end_
  | (al, .replace index charReplaceCount substring) =>
    replace al str index charReplaceCount substring
  | (al, .clear) => do return (.ok, ← clear al str)
  | (_, .clearNoFree) => do return (.ok, ← clearNoFree str)
  | (al, .copyString from_) => copyString al str from_

/-- A C string, if there is one. -/
def GivenText (p : Option Block) : Prop :=
  ∀ blk, p = some blk → 0 ∈ blk ∧ blk.length ≤ PTRDIFF_MAX

/-- No allocation is refused, the texts have no zeros in them, the indices are not behind the text,
and the other objects are strings too. -/
def Op.Admitted (str : BinaryBuffer) (i : Alloc UInt8 × Op) : Prop :=
  i.1.Succeeds ∧
  match i.2 with
  | .set strVal => GivenText strVal
  | .setCount strVal count => Given strVal count
  | .append strToAppend => GivenText (some strToAppend)
  | .appendCount strToAppend count => Given strToAppend count
  | .appendChar c => c ≠ 0
  | .insert val index => GivenText val ∧ index ≤ getLength str
  | .insertCount val index count => Given val count ∧ index ≤ getLength str
  | .insertString val index =>
    (∀ other, val = some other → Terminated other) ∧ index ≤ getLength str
  | .replace index _ substring => GivenText substring ∧ index ≤ getLength str
  | .remove begin_ end_ => begin_ ≤ getLength str ∧ end_ ≤ getLength str
  | .appendString from_ | .copyString from_ =>
    ∀ other, from_ = some other → Terminated other ∧ other.capacity ≤ PTRDIFF_MAX
  | .clear | .clearNoFree => True

/-- The calls after which the terminator is where it should be if it was so before. -/
def Op.Keeps (str : BinaryBuffer) : Op → Prop
  | .append strToAppend => AppendKeeps str.len (cstr strToAppend).length
  | .appendCount strToAppend count => strToAppend ≠ none → AppendKeeps str.len count
  | .appendChar _ => str.len = 0
  | .appendString from_ => ∀ other, from_ = some other →
      other.len ≠ 0 ∧ AppendKeeps str.len (getLength other)
  | .insert val _ => ∀ blk, val = some blk → InsertKeeps str (cstr blk).length
  | .insertCount val _ count => val ≠ none → InsertKeeps str count
  | .insertString val _ => ∀ other, val = some other → other.buff ≠ none →
      InsertKeeps str other.len
  | .remove begin_ end_ => RemoveKeeps str.len (min begin_ end_) (max begin_ end_)
  | .replace index charReplaceCount substring => ∀ blk, substring = some blk →
      ReplaceKeeps str index (replaced (toInt32 charReplaceCount) (cstr blk).length)
        (cstr blk).length
  | _ => True

theorem givenText_some (h0 : 0 ∈ blk) (hmax : blk.length ≤ PTRDIFF_MAX) :
    GivenText (some blk) := by
  intro blk' hblk
  cases hblk
  exact ⟨h0, hmax⟩

theorem GivenText.given {p : Option Block} (h : GivenText p) (hp : p = some blk) :
    strlen p = .ok (cstr blk).length ∧ Given p (cstr blk).length := by
  subst hp
  obtain ⟨h0, hmax⟩ := h blk rfl
  obtain ⟨hlen, hle, hno⟩ := strlen_text h0
  exact ⟨hlen, given_some hle hmax hno⟩

theorem step_terminated {i : Alloc UInt8 × Op} (h : Terminated str) (hok : Op.Admitted str i)
    (hkeeps : i.2.Keeps str) : ∃ code str', step str i = .ok (code, str') ∧ Terminated str' := by
  obtain ⟨al, op⟩ := i
  obtain ⟨hal, hok⟩ := hok
  cases op with
  | set strVal =>
    cases strVal with
    | none =>
      obtain ⟨str', hr, h'⟩ := @clear_begun al str h.1
      exact ⟨.ok, str', by rw [step, set, if_pos rfl, hr]; rfl, h'.terminated⟩
    | some blk =>
      obtain ⟨hlen, hgiven⟩ := hok.given rfl
      rw [step, set, if_neg (Option.some_ne_none blk), hlen]
      exact setCount_terminated hal h.1 hgiven
  | setCount strVal count => exact setCount_terminated hal h.1 hok
  | append strToAppend =>
    obtain ⟨hlen, hgiven⟩ := hok.given rfl
    rw [step, append, hlen]
    exact appendCount_terminated hal h hgiven fun _ => hkeeps
  | appendCount strToAppend count => exact appendCount_terminated hal h hok hkeeps
  | appendChar c =>
    rw [step, appendChar]
    exact appendCount_terminated hal h (given_char hok) fun _ => .inl hkeeps
  | appendString from_ =>
    cases from_ with
    | none => exact ⟨.badArg, str, rfl, h⟩
    | some other =>
      obtain ⟨hother, hmax⟩ := hok other rfl
      obtain ⟨hlen, hkeeps⟩ := hkeeps other rfl
      obtain ⟨text, ht⟩ := hother.2.resolve_left hlen
      obtain ⟨blk, hb, hl, hparts⟩ := ht.exists_parts
      have hle := ht.wf.len_le
      have hlen' := ht.len_eq
      have hfront := (hparts text.length (Nat.le_refl _)).1
      rw [List.take_of_length_le (Nat.le_refl _)] at hfront
      rw [step, appendString, append, ht.strlen_eq, ok_bind]
      rw [ht.getLength_eq] at hkeeps ⊢
      rw [hb]
      exact appendCount_terminated hal h
        (given_some (by omega) (hl ▸ hmax) (by rw [hfront]; exact ht.noZero)) fun _ => hkeeps
  | insert val index =>
    cases val with
    | none => exact ⟨.badArg, str, rfl, h⟩
    | some blk =>
      obtain ⟨hlen, -⟩ := hok.1.given rfl
      rw [step, insert, if_neg (Option.some_ne_none blk), hlen]
      exact insertCount_terminated h hok.2 fun _ => hkeeps blk rfl
  | insertCount val index count => exact insertCount_terminated h hok.2 hkeeps
  | insertString val index =>
    cases val with
    | none => exact ⟨.badArg, str, rfl, h⟩
    | some other => exact insertCount_terminated h hok.2 (hkeeps other rfl)
  | remove begin_ end_ => exact remove_terminated h hkeeps
  | replace index charReplaceCount substring =>
    cases substring with
    | none => exact ⟨.badArg, str, rfl, h⟩
    | some blk =>
      obtain ⟨hlen, hgiven⟩ := hok.1.given rfl
      rw [step, replace, if_neg (Option.some_ne_none blk), hlen]
      exact replaceCount_terminated h hok.2 hgiven fun _ => hkeeps blk rfl
  | clear =>
    obtain ⟨str', hr, h'⟩ := @clear_begun al str h.1
    exact ⟨.ok, str', by rw [step, hr]; rfl, h'.terminated⟩
  | clearNoFree =>
    obtain ⟨str', hr, h'⟩ := clearNoFree_begun h.1
    exact ⟨.ok, str', by rw [step, hr]; rfl, h'.terminated⟩
  | copyString from_ =>
    cases from_ with
    | none => exact ⟨.badArg, str, rfl, h⟩
    | some other => exact copyString_terminated hal h.1 (hok other rfl).1

theorem new_terminated (hal : al.Succeeds) : ∃ str, new al = .ok (some str) ∧ Terminated str := by
  obtain ⟨str, hr, hwf, hlen, -⟩ := BinaryBuffer.new_eq hal
  exact ⟨str, hr, hwf, .inl hlen⟩

/-- The text of a new string. -/
theorem newEx_holds (hal : al.Succeeds)
    (hgiven : if count = 0 then GivenText (some text) else Given (some text) count) :
    ∃ str, newEx al (some text) count = .ok (some str) ∧
      Holds str (if count = 0 then cstr text else text.take count) := by
  obtain ⟨str, hr, hwf, hlen, -⟩ := BinaryBuffer.new_eq hal
  rw [newEx, new, hr, ok_bind]
  by_cases hc : count = 0
  · rw [if_pos hc] at hgiven
    rw [if_pos hc, if_pos hc]
    obtain ⟨hn, hgiven⟩ := hgiven.given rfl
    obtain ⟨str', hr', h'⟩ := appendCount_nothing hal hwf hlen hgiven
    rw [take_cstr] at h'
    exact ⟨str', by rw [hn, ok_bind]; dsimp only; rw [hr']; rfl, h'⟩
  · rw [if_neg hc] at hgiven
    rw [if_neg hc, if_neg hc]
    obtain ⟨str', hr', h'⟩ := appendCount_nothing hal hwf hlen hgiven
    exact ⟨str', by rw [ok_bind]; dsimp only; rw [hr']; rfl, h'⟩

/-- From a new string on, a run of such calls ends without a fault, so that nothing is written
beyond the capacity. Either nothing is stored at its end, or a text and its terminator, and the
length is that of the C string. -/
theorem run_keeps_terminator (hal : al.Succeeds) {ops : List (Alloc UInt8 × Op)}
    (hnew : new al = .ok (some str) ∨ ∃ text count, newEx al (some text) count = .ok (some str) ∧
      if count = 0 then GivenText (some text) else Given (some text) count)
    (hok : AllSteps step (fun str i => Op.Admitted str i ∧ i.2.Keeps str) str ops) :
    ∃ codes str', run step str ops = .ok (codes, str') ∧ str'.len ≤ str'.capacity ∧
      (str'.len = 0 ∨ ∃ text, 0 ∉ text ∧ str'.contents = text ++ [0] ∧
        strlen str'.buff = .ok (getLength str')) := by
  have h : Terminated str := by
    rcases hnew with hr | ⟨text, count, hr, hgiven⟩
    · obtain ⟨str', hr', h'⟩ := new_terminated hal
      rw [hr] at hr'
      cases hr'
      exact h'
    · obtain ⟨str', hr', h'⟩ := newEx_holds hal hgiven
      rw [hr] at hr'
      cases hr'
      exact h'.terminated
  obtain ⟨codes, str', hr, hwf, ht⟩ :=
    run_invariant (fun _ _ h hc => step_terminated h hc.1 hc.2) ops str h hok
  exact ⟨codes, str', hr, hwf.len_le, ht.imp_right fun ⟨text, ht⟩ =>
    ⟨text, ht.noZero, ht.contents_eq, ht.strlen_eq⟩⟩

/-- A text is set, and then a shorter one. -/
theorem run_keeps_terminator_two : ∃ str codes str', new (.filled 7) = .ok (some str) ∧
    run step str [(.filled 7, .set (some [97, 98, 0])), (.filled 7, .setCount (some [99, 100]) 1)] =
      .ok (codes, str') ∧ str'.len ≤ str'.capacity ∧
      (str'.len = 0 ∨ ∃ text, 0 ∉ text ∧ str'.contents = text ++ [0] ∧
        strlen str'.buff = .ok (getLength str')) := by
  obtain ⟨str, hr, -⟩ := new_terminated (Alloc.filled_succeeds 7)
  obtain ⟨codes, str', hrun⟩ := @run_keeps_terminator (.filled 7) str (Alloc.filled_succeeds 7)
    [(.filled 7, .set (some [97, 98, 0])), (.filled 7, .setCount (some [99, 100]) 1)] (.inl hr)
    ⟨⟨⟨Alloc.filled_succeeds 7, givenText_some (by decide) (show 3 ≤ PTRDIFF_MAX by decide)⟩,
      trivial⟩, fun _ _ _ => ⟨⟨⟨Alloc.filled_succeeds 7,
        given_some (by decide) (show 2 ≤ PTRDIFF_MAX by decide) (by decide)⟩, trivial⟩,
      fun _ _ _ => trivial⟩⟩
  exact ⟨str, codes, str', hr, hrun⟩

/-- When a text is appended to another one, what comes last is whatever the memory contained. -/
theorem append_loses_terminator : ∃ str codes str', new (.filled 7) = .ok (some str) ∧
    run step str [(.filled 7, .set (some [97, 0])), (.filled 7, .append [98, 0])] =
      .ok (codes, str') ∧ str'.contents = [97, 98, 7] :=
  ⟨_, _, _, rfl, rfl, rfl⟩

end Runs

end AlibC.Str
