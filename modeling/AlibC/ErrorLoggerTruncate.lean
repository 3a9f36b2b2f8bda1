import AlibC.AlibFileRemove
import AlibC.AlibStringScan

/-! `ErrorLogger_default_truncate_size`: the first half of a log is dropped, and what follows up to a
place that looks like the border of an object. -/
namespace AlibC

open CLang

/-- `for(..; *it != '}' && *it != '{' && it != end_it; ++it)` on the bytes from `it` on. -/
def boundaryLoop (endIt : Nat) : Block → Nat → Outcome (Nat × UInt8)
  | [], _ => .error .outOfBounds
  | c :: rest, it => if c = 125 ∨ c = 123 ∨ it = endIt then .ok (it, c) else boundaryLoop endIt rest (it + 1)

/-- Where the data that is kept begins in the buffer, `none` if the function gives up. -/
def findKept (buff : Option Block) (fSize : Nat) : Outcome (Option (Option Nat)) := do
  let blk ← deref buff
  let (it, c) ← boundaryLoop fSize blk 0
  if it = fSize then return none
  else if c = 125 then
    let it ← findNextNonWhitespace buff (it + 1)
    return some it
  else return some (some it)

/-- `fwrite(it, 1, (int)(end_it - it), file)` -/
def writeKept (disk : Disk) (buff : Option Block) (fSize it : Nat) : Outcome Block := do
  let bs ← load buff it (toSize (toInt32 ((fSize : Int) - it)))
  return bs.take disk.space

/-- `content` is what the file of that name holds, which is returned as it is afterwards. A file that
cannot be opened again is closed. -/
def truncateSize (disk : Disk) (al : Alloc UInt8) (content : Block) (fSize : Nat) : Outcome Block := do
  if !disk.opens then return content
  let file : Stream := ⟨content, disk.readable, 0⟩
  let (fSize, file) := if fSize = 0 then fileSize (some file) else (fSize, some file)
  let file ← deref file
  let (fSize, file) :=
    if fSize % 2 ≠ 0 then (fSize / 2, file.fseek (toLong (fSize / 2 + 1)) .set)
    else (fSize / 2, file.fseek (toLong (fSize / 2)) .set)
  if fSize = 0 then
    if disk.reopens then return [] else throw .nullDeref
  else
    match al.block fSize with
    | none => return content
    | some blk =>
      let (got, buff, _) ← file.fread (some blk) 0 fSize
      if got ≠ fSize then return content
      match ← findKept buff fSize with
      | none => return content
      | some it =>
        if !disk.reopens then throw .dangling
        let it ← deref it
        writeKept disk buff fSize it

/-- An object on a line of its own: what stands between its braces contains no line feed. -/
structure Record where
  body : Block
  oneLine : 10 ∉ body

/-- The object as it is written. -/
def Record.text (r : Record) : Block := 123 :: r.body ++ [125]

/-- A log with its objects, one per line. -/
def log (records : List Record) : Block := records.flatMap fun r => r.text ++ [10]

/-- All operations on the file succeed, and memory is there. -/
structure Works (disk : Disk) (al : Alloc UInt8) (content : Block) : Prop where
  opens : disk.opens = true
  reopens : disk.reopens = true
  readable : content.length ≤ disk.readable
  space : content.length ≤ disk.space
  memory : al.Succeeds

/-- Whether the size is told or not, some of the last objects are kept, in at most half of the bytes,
and no byte outside the buffer is examined. -/
def DropsWhole (records : List Record) : Prop :=
  ∀ disk al fSize, Works disk al (log records) → fSize = 0 ∨ fSize = (log records).length →
    ∃ k, truncateSize disk al (log records) fSize = .ok (log (records.drop k)) ∧
      2 * (log (records.drop k)).length ≤ (log records).length

example : truncateSize ⟨true, 99, true, 99⟩ (.filled 0) (log [⟨[49], by decide⟩, ⟨[50], by decide⟩]) 0 =
    .ok (log [⟨[50], by decide⟩]) := by decide

variable {disk : Disk} {al : Alloc UInt8} {content half : Block} {records : List Record} {fSize : Nat}

/-- The bytes that are read. -/
def lastHalf (content : Block) : Block := content.drop (content.length - content.length / 2)

theorem length_lastHalf (content : Block) : (lastHalf content).length = content.length / 2 := by
  rw [lastHalf, List.length_drop]
  omega

/-- What is kept of the bytes that are read. -/
def keepHalf (disk : Disk) (content half : Block) : Outcome Block := do
  match ← findKept (some half) half.length with
  | none => return content
  | some it =>
    let it ← deref it
    writeKept disk (some half) half.length it

/-- Where everything works the last half is read. -/
theorem truncateSize_eq (hlong : content.length < 2 ^ 63) (hw : Works disk al content)
    (hsize : fSize = 0 ∨ fSize = content.length) :
    truncateSize disk al content fSize =
      if content.length / 2 = 0 then .ok [] else keepHalf disk content (lastHalf content) := by
  have hfile : (if fSize = 0 then fileSize (some ⟨content, disk.readable, 0⟩)
      else (fSize, some ⟨content, disk.readable, 0⟩)) =
        (content.length, some (⟨content, disk.readable, 0⟩ : Stream)) := by
    rw [fileSize_eq hlong (by dsimp only; omega)]
    split
    · rfl
    · rw [hsize.resolve_left (by assumption)]
  have hseek : (if content.length % 2 ≠ 0 then (content.length / 2,
        Stream.fseek ⟨content, disk.readable, 0⟩ (toLong (content.length / 2 + 1)) .set)
      else (content.length / 2,
        Stream.fseek ⟨content, disk.readable, 0⟩ (toLong (content.length / 2)) .set)) =
      (content.length / 2, ⟨content, disk.readable, content.length - content.length / 2⟩) := by
    split
    · rw [toLong_eq (by omega), Stream.fseek_set (by omega)]
      congr 2
      omega
    · rw [toLong_eq (by omega), Stream.fseek_set (by omega)]
      congr 2
      omega
  rw [truncateSize, if_neg (by rw [hw.opens]; decide)]
  dsimp only
  rw [hfile, deref_some, ok_bind]
  dsimp only
  rw [hseek]
  dsimp only
  by_cases hzero : content.length / 2 = 0
  · rw [if_pos hzero, if_pos hzero, if_pos hw.reopens]
    rfl
  · obtain ⟨blk, hblk, hlen⟩ := hw.memory.exists_block (content.length / 2)
    have hgiven : Stream.given ⟨content, disk.readable, content.length - content.length / 2⟩
        (content.length / 2) = lastHalf content := by
      rw [Stream.given_eq hw.readable]
      exact List.take_of_length_le (Nat.le_of_eq (length_lastHalf content))
    rw [if_neg hzero, if_neg hzero, hblk]
    dsimp only
    rw [Stream.fread_eq (by omega), hgiven, ok_bind, length_lastHalf]
    dsimp only
    rw [if_neg (by simp), overwrite_all (by rw [length_lastHalf, hlen]), keepHalf, length_lastHalf]
    refine congrArg _ (funext fun r => ?_)
    cases r with
    | none => rfl
    | some it =>
      dsimp only
      rw [if_neg (by rw [hw.reopens]; decide)]

/-- The first byte that looks like the border of an object is found. -/
theorem boundaryLoop_append {pre rest : Block} {c : UInt8} (hpre : ∀ b ∈ pre, b ≠ 125 ∧ b ≠ 123)
    (hc : c = 125 ∨ c = 123) {endIt : Nat} : ∀ it, it + pre.length < endIt →
      boundaryLoop endIt (pre ++ c :: rest) it = .ok (it + pre.length, c) := by
  induction pre with
  | nil =>
    intro it _
    rw [List.nil_append, boundaryLoop, if_pos (hc.imp_right .inl)]
    rfl
  | cons b pre ih =>
    intro it hlt
    obtain ⟨⟨hb, hb'⟩, hpre⟩ := List.forall_mem_cons.mp hpre
    rw [List.length_cons] at hlt ⊢
    rw [List.cons_append, boundaryLoop, if_neg (by simp only [not_or]; exact ⟨hb, hb', by omega⟩),
      ih hpre (it + 1) (by omega), Nat.add_assoc, Nat.add_comm 1]

/-- Without such a byte the search leaves the buffer. -/
theorem boundaryLoop_beyond {half : Block} (hnone : ∀ b ∈ half, b ≠ 125 ∧ b ≠ 123) : ∀ it,
    boundaryLoop (it + half.length) half it = .error .outOfBounds := by
  induction half with
  | nil => exact fun it => rfl
  | cons b half ih =>
    intro it
    obtain ⟨⟨hb, hb'⟩, hrest⟩ := List.forall_mem_cons.mp hnone
    have hnext := ih hrest (it + 1)
    rw [boundaryLoop, List.length_cons, if_neg (by simp only [not_or]; exact ⟨hb, hb', by omega⟩)]
    rwa [show it + 1 + half.length = it + (half.length + 1) by omega] at hnext

def isBrace (c : UInt8) : Bool := c == 125 || c == 123

/-- What `find_next_non_whitespace` passes over. -/
def isBlank (c : UInt8) : Bool := isWhitespace c || c == 0

/-- What the search for a border leaves of the bytes that are read: all from the first brace on if it is
an opening one, or else all from the next byte on that is not blank. -/
inductive Kept (half : Block) : Block → Prop
  | opening (pre rest : Block) : half = pre ++ 123 :: rest → (∀ b ∈ pre, isBrace b = false) →
      Kept half (123 :: rest)
  | closing (pre blanks rest : Block) (c : UInt8) : half = pre ++ 125 :: (blanks ++ c :: rest) →
      (∀ b ∈ pre, isBrace b = false) → (∀ b ∈ blanks, isBlank b = true) → isBlank c = false →
      Kept half (c :: rest)

/-- The number of bytes that are written, on the way through an `int`. -/
def writeCount (kept : Block) : Nat := toSize (toInt32 kept.length)

theorem no_brace {pre : Block} (h : ∀ b ∈ pre, isBrace b = false) : ∀ b ∈ pre, b ≠ 125 ∧ b ≠ 123 :=
  fun b hb => by simpa [isBrace] using h b hb

/-- The search in a buffer with a brace. -/
theorem search_eq {pre rest : Block} {c : UInt8} (hhalf : half = pre ++ c :: rest)
    (hpre : ∀ b ∈ pre, isBrace b = false) (hc : c = 125 ∨ c = 123) :
    boundaryLoop half.length half 0 = .ok (pre.length, c) ∧ pre.length ≠ half.length ∧
      half.drop (pre.length + 1) = rest := by
  have hlen : half.length = pre.length + (rest.length + 1) := by
    rw [hhalf, List.length_append, List.length_cons]
  refine ⟨?_, by omega, ?_⟩
  · have := @boundaryLoop_append pre rest c (no_brace hpre) hc half.length 0 (by omega)
    rwa [← hhalf, Nat.zero_add] at this
  · rw [hhalf, ← List.drop_drop, List.drop_left]
    rfl

theorem writeKept_eq {pre kept : Block} (hhalf : half = pre ++ kept) :
    writeKept disk (some half) half.length pre.length =
      if writeCount kept ≤ kept.length then .ok ((kept.take (writeCount kept)).take disk.space)
      else .error .outOfBounds := by
  have hlen : half.length = pre.length + kept.length := by rw [hhalf, List.length_append]
  have hcount : toSize (toInt32 ((half.length : Int) - pre.length)) = writeCount kept := by
    rw [writeCount]
    congr 2
    omega
  rw [writeKept, hcount]
  by_cases hle : writeCount kept ≤ kept.length
  · rw [if_pos hle, load_some (by omega), hhalf, List.drop_left]
    rfl
  · rw [if_neg hle, load, if_neg (by omega), deref_some, ok_bind, if_neg (by omega)]
    rfl

/-- What is kept is written. -/
theorem keepHalf_eq {kept : Block} (h : Kept half kept) : keepHalf disk content half =
    if writeCount kept ≤ kept.length then .ok ((kept.take (writeCount kept)).take disk.space)
    else .error .outOfBounds := by
  cases h with
  | opening pre rest hhalf hpre =>
    obtain ⟨hloop, hne, -⟩ := search_eq hhalf hpre (.inr rfl)
    rw [keepHalf, findKept, deref_some, ok_bind, hloop, ok_bind]
    dsimp only
    rw [if_neg hne, if_neg (by decide)]
    exact writeKept_eq hhalf
  | closing pre blanks rest c hhalf hpre hblanks hc =>
    obtain ⟨hloop, hne, hdrop⟩ := search_eq hhalf hpre (.inl rfl)
    have hc0 : c ≠ 0 := fun hzero => by
      rw [hzero] at hc
      cases hc
    have hnext : findNextNonWhitespace (some half) (pre.length + 1) =
        .ok (some (pre.length + 1 + blanks.length)) := by
      have := findNext_append hdrop hblanks hc
      rwa [if_neg hc0] at this
    rw [keepHalf, findKept, deref_some, ok_bind, hloop, ok_bind]
    dsimp only
    rw [if_neg hne, if_pos rfl, hnext]
    have hparts : half = (pre ++ 125 :: blanks) ++ c :: rest := by
      rw [hhalf, List.append_assoc]
      rfl
    have hwrite := @writeKept_eq disk _ _ _ hparts
    rw [List.length_append, List.length_cons] at hwrite
    rw [show pre.length + 1 + blanks.length = pre.length + (blanks.length + 1) by omega]
    exact hwrite

/-- Where no fault occurs something is kept. -/
theorem exists_kept {w : Block} (h : keepHalf disk content half = .ok w) : ∃ kept, Kept half kept := by
  rcases findIdx?_cases isBrace half with ⟨-, hall⟩ | ⟨pre, c, post, hhalf, -, hc, hpre⟩
  · have hbeyond := boundaryLoop_beyond (no_brace hall) 0
    rw [Nat.zero_add] at hbeyond
    rw [keepHalf, findKept, deref_some, ok_bind, hbeyond] at h
    cases h
  · have hcase : c = 125 ∨ c = 123 := by simpa [isBrace] using hc
    rcases hcase with rfl | rfl
    · rcases findIdx?_cases (fun c => !isBlank c) post with
        ⟨-, hblank⟩ | ⟨blanks, c, rest, rfl, -, hstop, hblanks⟩
      · -- The search for the next object does not end in the buffer.
        obtain ⟨hloop, hne, hdrop⟩ := search_eq hhalf hpre (.inl rfl)
        rw [keepHalf, findKept, deref_some, ok_bind, hloop, ok_bind] at h
        dsimp only at h
        rw [if_neg hne, if_pos rfl] at h
        cases hfind : findNextNonWhitespace (some half) (pre.length + 1) with
        | error e =>
          rw [hfind] at h
          cases h
        | ok r =>
          obtain ⟨as, c, bs, hsplit, hc, -⟩ := findNext_inv hfind
          have hmem : c ∈ post := by
            rw [← hdrop, hsplit]
            exact List.mem_append_right as List.mem_cons_self
          have hblank := hblank c hmem
          rw [show isBlank c = false from hc] at hblank
          cases hblank
      · exact ⟨_, .closing pre blanks rest c hhalf hpre (fun b hb => by simpa using hblanks b hb)
          (by simpa using hstop)⟩
    · exact ⟨_, .opening pre post hhalf hpre⟩

theorem log_append (rs rs' : List Record) : log (rs ++ rs') = log rs ++ log rs' := List.flatMap_append

theorem log_cons (r : Record) (rs : List Record) : log (r :: rs) = 123 :: (r.body ++ 125 :: 10 :: log rs) := by
  rw [log, List.flatMap_cons, Record.text, List.append_assoc, List.cons_append, List.cons_append,
    List.append_assoc]
  rfl

/-- The brace of the last object and the line feed stand at the end of a log. -/
theorem log_ends {rs : List Record} (h : log rs ≠ []) : ∃ front, log rs = front ++ [125] ++ [10] := by
  induction rs using List.reverseRecOn with
  | nil => exact absurd rfl h
  | append_singleton rs r _ =>
    refine ⟨log rs ++ (123 :: r.body), ?_⟩
    rw [log_append, log_cons]
    simp [log]

/-- The log of the objects from the `k`-th one on stands in the last half, behind what precedes it. -/
theorem before_drop {pre : Block} {k : Nat} (h : lastHalf (log records) = pre ++ log (records.drop k)) :
    ∃ front, front ++ pre = log (records.take k) := by
  have hall : log records = log (records.take k) ++ log (records.drop k) := by
    rw [← log_append, List.take_append_drop]
  refine ⟨(log records).take ((log records).length - (log records).length / 2), ?_⟩
  have hparts := List.take_append_drop ((log records).length - (log records).length / 2) (log records)
  rw [show (log records).drop _ = lastHalf (log records) from rfl, h, ← List.append_assoc] at hparts
  exact List.append_cancel_right (hparts.trans hall)

/-- A closing brace with nothing but blanks before an object ends the object before it. -/
theorem closing_blanks {pre blanks : Block} {k : Nat} (hblanks : ∀ b ∈ blanks, isBlank b = true)
    (h : lastHalf (log records) = pre ++ 125 :: (blanks ++ log (records.drop k))) : blanks = [10] := by
  obtain ⟨front, hfront⟩ := @before_drop records (pre ++ 125 :: blanks) k (by
    rw [h, List.append_assoc]
    rfl)
  obtain ⟨front', hends⟩ := @log_ends (records.take k) (by
    rw [← hfront]
    simp)
  rw [hends, ← List.append_assoc] at hfront
  rcases List.eq_nil_or_concat blanks with rfl | ⟨bs, x, rfl⟩
  · have hlast := List.append_inj_right' hfront rfl
    cases hlast
  · rw [List.concat_eq_append] at *
    rw [← List.cons_append, ← List.append_assoc] at hfront
    have hx := List.append_inj_right' hfront rfl
    have hrest := List.append_inj_left' hfront rfl
    rcases List.eq_nil_or_concat bs with rfl | ⟨bs, y, rfl⟩
    · rw [List.nil_append]
      exact hx
    · rw [List.concat_eq_append, ← List.cons_append, ← List.append_assoc] at hrest
      have hy := List.append_inj_right' hrest rfl
      have hblank := hblanks y (by simp)
      rw [(List.cons.inj hy).1] at hblank
      cases hblank

/-- The first brace of the last half opens an object of the log, or closes one before another one, and
what is kept from there on is shorter than `2 ^ 31`. Or so much is kept that its length wraps in an `int`,
to the length of some of the last objects that what is kept happens to begin with. -/
def CutsAtObject (records : List Record) : Prop :=
  records = [] ∨
    (∃ k < records.length, (log (records.drop k)).length < 2 ^ 31 ∧
      ∃ pre, (∀ b ∈ pre, isBrace b = false) ∧
        (lastHalf (log records) = pre ++ log (records.drop k) ∨
          lastHalf (log records) = pre ++ 125 :: 10 :: log (records.drop k))) ∨
    ∃ kept, Kept (lastHalf (log records)) kept ∧ 2 ^ 32 ≤ kept.length ∧ kept.length % 2 ^ 32 < 2 ^ 31 ∧
      ∃ k, kept.take (kept.length % 2 ^ 32) = log (records.drop k)

theorem writeCount_eq {kept : Block} (h : kept.length % 2 ^ 32 < 2 ^ 31) :
    writeCount kept = kept.length % 2 ^ 32 := by
  unfold writeCount toSize toInt32
  omega

theorem writeCount_cases {kept : Block} (hlen : kept.length < 2 ^ 63)
    (h : writeCount kept ≤ kept.length) : kept.length % 2 ^ 32 < 2 ^ 31 ∧
      (kept.length < 2 ^ 31 ∨ 2 ^ 32 ≤ kept.length) := by
  unfold writeCount toSize toInt32 at h
  omega

theorem Kept.parts {kept : Block} (h : Kept half kept) : ∃ pre, half = pre ++ kept := by
  cases h with
  | opening pre rest hhalf _ => exact ⟨pre, hhalf⟩
  | closing pre blanks rest c hhalf _ _ _ => exact ⟨pre ++ 125 :: blanks, by rw [hhalf, List.append_assoc]; rfl⟩

theorem Kept.length_le {kept : Block} (h : Kept half kept) : kept.length ≤ half.length := by
  obtain ⟨pre, rfl⟩ := h.parts
  rw [List.length_append]
  omega

theorem Kept.ne_nil {kept : Block} (h : Kept half kept) : kept ≠ [] := by
  cases h <;> exact List.cons_ne_nil _ _

/-- An object that opens or closes at the first brace is where the log is cut. -/
theorem kept_of_cut {k : Nat} {pre : Block} (hk : k < records.length)
    (hpre : ∀ b ∈ pre, isBrace b = false)
    (h : half = pre ++ log (records.drop k) ∨ half = pre ++ 125 :: 10 :: log (records.drop k)) :
    Kept half (log (records.drop k)) := by
  rw [List.drop_eq_getElem_cons hk, log_cons] at h ⊢
  rcases h with hopen | hclose
  · exact .opening pre _ hopen hpre
  · exact .closing pre [10] _ 123 hclose hpre (List.forall_mem_singleton.mpr rfl) rfl

theorem log_short {records : List Record} (h : (log records).length / 2 = 0) : records = [] := by
  cases records with
  | nil => rfl
  | cons r rs =>
    rw [log_cons] at h
    simp only [List.length_cons, List.length_append] at h
    omega

/-- Where the log is cut at an object whole objects are kept. -/
theorem dropsWhole_of_cut (hlong : (log records).length < 2 ^ 63) (h : CutsAtObject records) :
    DropsWhole records := by
  intro disk al fSize hw hsize
  rw [truncateSize_eq hlong hw hsize]
  have hhalf := length_lastHalf (log records)
  by_cases hzero : (log records).length / 2 = 0
  · obtain rfl := log_short hzero
    exact ⟨0, rfl, Nat.le_refl _⟩
  · rw [if_neg hzero]
    obtain ⟨kept, hkept, hmod, k, hwhole⟩ : ∃ kept, Kept (lastHalf (log records)) kept ∧
        kept.length % 2 ^ 32 < 2 ^ 31 ∧ ∃ k, kept.take (kept.length % 2 ^ 32) = log (records.drop k) := by
      rcases h with rfl | ⟨k, hk, hlt, pre, hpre, hcut⟩ | ⟨kept, hkept, -, hmod, hwhole⟩
      · exact absurd rfl hzero
      · have hmod : (log (records.drop k)).length % 2 ^ 32 = (log (records.drop k)).length :=
          Nat.mod_eq_of_lt (by omega)
        exact ⟨_, kept_of_cut hk hpre hcut, by omega, k, by rw [hmod, List.take_length]⟩
      · exact ⟨kept, hkept, hmod, hwhole⟩
    have hle := hkept.length_le
    have hmodle := Nat.mod_le kept.length (2 ^ 32)
    have hlen := congrArg List.length hwhole
    rw [List.length_take_of_le hmodle] at hlen
    have hspace := hw.space
    refine ⟨k, ?_, by omega⟩
    rw [keepHalf_eq hkept, writeCount_eq hmod, if_pos hmodle, hwhole, List.take_of_length_le (by omega)]

/-- Where whole objects are kept the log is cut at an object. -/
theorem cut_of_dropsWhole (hlong : (log records).length < 2 ^ 63) (h : DropsWhole records) :
    CutsAtObject records := by
  have hw : Works ⟨true, (log records).length, true, (log records).length⟩ (.filled 0) (log records) :=
    ⟨rfl, rfl, Nat.le_refl _, Nat.le_refl _, Alloc.filled_succeeds 0⟩
  obtain ⟨k, hrun, -⟩ := h _ _ 0 hw (.inl rfl)
  rw [truncateSize_eq hlong hw (.inl rfl)] at hrun
  have hhalf := length_lastHalf (log records)
  by_cases hzero : (log records).length / 2 = 0
  · exact .inl (log_short hzero)
  · rw [if_neg hzero] at hrun
    obtain ⟨kept, hkept⟩ := exists_kept hrun
    have hle := hkept.length_le
    rw [keepHalf_eq hkept] at hrun
    by_cases hcount : writeCount kept ≤ kept.length
    · obtain ⟨hmod, hcase⟩ := writeCount_cases (by omega) hcount
      rw [if_pos hcount, List.take_of_length_le (by rw [List.length_take]; dsimp only; omega), writeCount_eq hmod] at hrun
      have hwhole := Except.ok.inj hrun
      refine .inr (hcase.imp (fun hshort => ?_) fun hwraps => ⟨kept, hkept, hwraps, hmod, k, hwhole⟩)
      rw [Nat.mod_eq_of_lt (by omega), List.take_length] at hwhole
      have hk : k < records.length := by
        by_contra hge
        rw [List.drop_of_length_le (by omega)] at hwhole
        exact hkept.ne_nil hwhole
      refine ⟨k, hk, hwhole ▸ hshort, ?_⟩
      cases hkept with
      | opening pre rest hhalf hpre => exact ⟨pre, hpre, .inl (hwhole ▸ hhalf)⟩
      | closing pre blanks rest c hhalf hpre hblanks _ =>
        rw [hwhole] at hhalf
        refine ⟨pre, hpre, .inr ?_⟩
        rw [hhalf, closing_blanks hblanks hhalf]
        rfl
    · rw [if_neg hcount] at hrun
      cases hrun

/-- Whole objects are kept exactly where the log is cut at an object. -/
theorem dropsWhole_iff {records : List Record} (hlong : (log records).length < 2 ^ 63) :
    DropsWhole records ↔ CutsAtObject records :=
  ⟨cut_of_dropsWhole hlong, dropsWhole_of_cut hlong⟩

/-- Two objects of one size. -/
theorem dropsWhole_iff_two : DropsWhole [⟨[34, 97, 34, 58, 49], by decide⟩, ⟨[34, 98, 34, 58, 49], by decide⟩] := by
  refine (dropsWhole_iff (by decide)).mpr (.inr (.inl ⟨1, by decide, by decide, [], by simp, .inl ?_⟩))
  decide

/-- A brace in a string is taken for the start of an object, and an object that ends behind the middle of the
log has nothing behind it. -/
theorem truncateSize_cuts_string :
    truncateSize ⟨true, 99, true, 99⟩ (.filled 0) (log [⟨[34, 97, 34, 58, 34, 123, 34], by decide⟩]) 0 =
        .ok [123, 34, 125, 10] ∧
      truncateSize ⟨true, 99, true, 99⟩ (.filled 0) (log [⟨[34, 97, 34, 58, 49], by decide⟩]) 0 =
        .error .outOfBounds ∧
      ¬DropsWhole [⟨[34, 97, 34, 58, 34, 123, 34], by decide⟩] := by
  have hcut : truncateSize ⟨true, 99, true, 99⟩ (.filled 0)
      (log [⟨[34, 97, 34, 58, 34, 123, 34], by decide⟩]) 0 = .ok [123, 34, 125, 10] := by decide
  refine ⟨hcut, by decide, fun h => ?_⟩
  obtain ⟨k, hrun, -⟩ := h ⟨true, 99, true, 99⟩ (.filled 0) 0
    ⟨rfl, rfl, by decide, by decide, Alloc.filled_succeeds 0⟩ (.inl rfl)
  rw [hcut] at hrun
  have hlen := congrArg List.length (Except.ok.inj hrun)
  cases k with
  | zero => cases hlen
  | succ k => rw [List.drop_succ_cons, List.drop_nil] at hlen; cases hlen

end AlibC
