import AlibC.AlibFileNumbers
import AlibC.Lib.CString
import AlibC.Lib.Decimal
import AlibC.Lib.Machine
import Mathlib.Data.List.DropRight

/-! The files that are named by a number: opened by `fopen_i` and `fopen_ui`, found by `highest_value_file`. -/
namespace AlibC

open CLang Machine

/-- The mode that `fopen` is given: it reads, writes anew, or appends. -/
inductive OpenType where
  | read | write | append
deriving DecidableEq, Repr

/-- What the paths of the directories lead to. -/
abbrev Directories := Block → Listing

/-- The part of a path behind its last slash, and the directory before it. -/
def baseName (path : Block) : Block := path.rtakeWhile (· ≠ 47)

def directoryOf (path : Block) : Block := (path.rdropWhile (· ≠ 47)).dropLast

/-- An entry comes into a directory. -/
def Directories.create (dirs : Directories) (d : Block) (e : Dirent) : Directories := fun d' =>
  if d' = d then (dirs d').map (· ++ [e]) else dirs d'

/-- `fopen`: whether the file opens, and the directories afterwards. `granted` tells whether it may be
opened. A file that is not there is made, unless it is to be read. -/
def fopen (dirs : Directories) (path : Block) (openType : OpenType) (granted : Bool) : Bool × Directories :=
  match dirs (directoryOf path) with
  | none => (false, dirs)
  | some entries =>
    match entries.find? fun e => e.name = baseName path with
    | some e => (granted && (e.type ≠ .dir || openType = .read), dirs)
    | none =>
      if granted && openType ≠ .read then (true, dirs.create (directoryOf path) ⟨.reg, baseName path⟩)
      else (false, dirs)

/-- `malloc(strlen(dir) + LLONG_MAX_CHAR_LEN + 2)`, `sprintf` and `fopen`. -/
def fopenText (al : Alloc UInt8) (dirs : Directories) (dir : Option Block) (text : Block)
    (openType : Option OpenType) (granted : Bool) : Outcome (Bool × Directories) :=
  match dir, openType with
  | some dir, some openType => do
    let n ← strlen (some dir)
    match al.block (sizeAdd n (20 + 2)) with
    | none => return (false, dirs)
    | some fName => do
      let fName ← store (some fName) 0 (cstr dir ++ 47 :: (text ++ [0]))
      return fopen dirs (cstr (fName.getD [])) openType granted
  | _, _ => .ok (false, dirs)

/-- `fopen_i`. -/
def fopenI (al : Alloc UInt8) (dirs : Directories) (dir : Option Block) (name : Int)
    (openType : Option OpenType) (granted : Bool) : Outcome (Bool × Directories) :=
  fopenText al dirs dir (signedText name) openType granted

/-- `fopen_ui`. -/
def fopenUi (al : Alloc UInt8) (dirs : Directories) (dir : Option Block) (name : Nat)
    (openType : Option OpenType) (granted : Bool) : Outcome (Bool × Directories) :=
  fopenText al dirs dir (decimalText name) openType granted

section Open

variable {al : Alloc UInt8} {dirs : Directories} {d text dir : Block} {openType : OpenType} {granted : Bool}
  {entries : List Dirent}

theorem baseName_append (h : 47 ∉ text) : baseName (d ++ 47 :: text) = text := by
  have hall : ∀ c ∈ text.reverse, (decide (c ≠ 47)) = true := fun c hc =>
    decide_eq_true fun heq => h (heq ▸ List.mem_reverse.mp hc)
  rw [baseName, List.rtakeWhile, List.reverse_append, List.reverse_cons, List.append_assoc,
    List.takeWhile_append_of_pos hall, List.singleton_append, List.takeWhile_cons_of_neg (by simp),
    List.append_nil, List.reverse_reverse]

theorem directoryOf_append (h : 47 ∉ text) : directoryOf (d ++ 47 :: text) = d := by
  have hall : ∀ c ∈ text.reverse, (decide (c ≠ 47)) = true := fun c hc =>
    decide_eq_true fun heq => h (heq ▸ List.mem_reverse.mp hc)
  rw [directoryOf, List.rdropWhile, List.reverse_append, List.reverse_cons, List.append_assoc,
    List.dropWhile_append_of_pos hall, List.singleton_append, List.dropWhile_cons_of_neg (by simp),
    List.reverse_cons, List.reverse_reverse, List.dropLast_concat]

/-- The name fits into the memory that is asked for, and is opened in the directory. -/
theorem fopenText_eq (hdir : 0 ∈ dir) (hmax : dir.length ≤ PTRDIFF_MAX) (htext : text.length ≤ 20)
    (h0 : 0 ∉ text) : fopenText al dirs (some dir) text (some openType) granted =
      .ok (if (al.block ((cstr dir).length + 22)).isSome then
        fopen dirs (cstr dir ++ 47 :: text) openType granted else (false, dirs)) := by
  obtain ⟨rest, hblk, hno⟩ := exists_text hdir
  have hlen : (cstr dir).length ≤ dir.length := (List.takeWhile_sublist _).length_le
  have hsize : sizeAdd (cstr dir).length (20 + 2) = (cstr dir).length + 22 :=
    sizeAdd_eq (by unfold PTRDIFF_MAX at hmax; omega)
  have hstrlen : strlen (some dir) = .ok (cstr dir).length := by
    rw [hblk, strlen_eq hno, cstr_eq hno]
  rw [fopenText, hstrlen, ok_bind, hsize]
  cases hal : al.block ((cstr dir).length + 22) with
  | none => rfl
  | some fName =>
    have hroom := al.length_block hal
    have hfits : 0 + (cstr dir ++ 47 :: (text ++ [0])).length ≤ fName.length := by
      rw [List.length_append, List.length_cons, List.length_append, List.length_singleton]
      omega
    have hpath : cstr (overwrite fName 0 (cstr dir ++ 47 :: (text ++ [0]))) = cstr dir ++ 47 :: text := by
      have hno' : 0 ∉ cstr dir ++ 47 :: text := by
        rw [List.mem_append, List.mem_cons, not_or, not_or]
        exact ⟨hno, by decide, h0⟩
      rw [overwrite, List.take_zero, List.nil_append]
      generalize fName.drop _ = post
      have hsplit : cstr dir ++ 47 :: (text ++ [0]) ++ post = (cstr dir ++ 47 :: text) ++ 0 :: post := by
        simp
      rw [hsplit, cstr_eq hno']
    dsimp only
    rw [store_some hfits, ok_bind, Option.getD_some, hpath]
    rfl

end Open

/-- What names a file: a signed number, for `fopen_i`, or an unsigned one, for `fopen_ui`. -/
inductive FileNumber where
  | signed (name : Int)
  | unsigned (name : Nat)
deriving DecidableEq, Repr

namespace FileNumber

def text : FileNumber → Block
  | .signed name => signedText name
  | .unsigned name => decimalText name

/-- The number has 64 bits. -/
def Fits : FileNumber → Prop
  | .signed name => -2 ^ 63 ≤ name ∧ name < 2 ^ 63
  | .unsigned name => name < 2 ^ 64

/-- What `highest_value_file` makes of the name: a negative number is an enormous one, and one above
`LLONG_MAX` is `LLONG_MAX`. -/
def value : FileNumber → Nat
  | .signed name => toSize name
  | .unsigned name => min (2 ^ 63 - 1) name

theorem text_chars {number : FileNumber} {c : UInt8} (h : c ∈ number.text) : c = 45 ∨ isDecimal c = true := by
  cases number with
  | signed name =>
    rw [text, signedText] at h
    split at h
    · exact (List.mem_cons.mp h).imp id fun hmem => isDecimal_of_mem hmem
    · exact .inr (isDecimal_of_mem h)
  | unsigned name => exact .inr (isDecimal_of_mem h)

theorem not_mem_text {number : FileNumber} {c : UInt8} (hc : c ≠ 45) (hdec : isDecimal c = false) :
    c ∉ number.text := fun h =>
  (text_chars h).elim hc fun hd => absurd (hdec.symm.trans hd) Bool.false_ne_true

theorem length_text_le {number : FileNumber} (h : number.Fits) : number.text.length ≤ 20 := by
  cases number with
  | signed name => exact length_signedText_le h.1 h.2
  | unsigned name => exact length_decimalText_le (by decide) (Nat.lt_trans h (by decide))

/-- The file of a number is found, with the value of the number. -/
theorem entry_eq (number : FileNumber) (h : number.Fits) :
    (⟨.reg, number.text⟩ : Dirent).visibleFile = true ∧ (⟨.reg, number.text⟩ : Dirent).fn = number.value := by
  constructor
  · have hvis : (⟨.reg, number.text⟩ : Dirent).hidden = false := by
      rw [Dirent.hidden, beq_eq_false_iff_ne]
      intro heq
      exact not_mem_text (by decide) (by decide) (List.mem_of_mem_head? heq)
    rw [Dirent.visibleFile, hvis]
    rfl
  · cases number with
    | signed name =>
      rw [Dirent.fn, text, strtoll_signed h.1 h.2]
      rfl
    | unsigned name =>
      rw [Dirent.fn, text, strtoll_unsigned, value, toSize]
      omega

end FileNumber

/-- A call of `fopen_i` or `fopen_ui` that writes or appends. -/
structure OpenCall where
  al : Alloc UInt8
  number : FileNumber
  appends : Bool
  granted : Bool

def OpenCall.openType (call : OpenCall) : OpenType := if call.appends then .append else .write

def openFile (dir : Block) (dirs : Directories) (call : OpenCall) : Outcome (Bool × Directories) :=
  match call.number with
  | .signed name => fopenI call.al dirs (some dir) name (some call.openType) call.granted
  | .unsigned name => fopenUi call.al dirs (some dir) name (some call.openType) call.granted

section Runs

variable {dirs : Directories} {dir : Block} {entries : List Dirent} {e : Dirent}

theorem highest_concat (entries : List Dirent) (hvis : e.visibleFile = true) :
    highestValueFile (some (entries ++ [e])) = max (highestValueFile (some entries)) e.fn := by
  have hfns : fns (entries ++ [e]) = fns entries ++ [e.fn] := by
    rw [fns, List.filter_append, List.filter_cons_of_pos hvis, List.map_append]
    rfl
  rw [highestValueFile_eq, highestValueFile_eq, hfns, Extremum.highest, Extremum.highestFrom,
    List.foldl_append, List.foldl_cons, List.foldl_nil]
  change (if Extremum.highest (fns entries) < e.fn then e.fn else Extremum.highest (fns entries)) = _
  generalize Extremum.highest (fns entries) = high
  split <;> omega

theorem fn_le_highest (hmem : e ∈ entries) (hvis : e.visibleFile = true) :
    e.fn ≤ highestValueFile (some entries) := by
  rw [highestValueFile_eq]
  exact Extremum.le_highest (fn_mem hmem hvis)

/-- Every entry is a regular file or a directory. -/
def Plain (entries : List Dirent) : Prop := ∀ e ∈ entries, e.type ≠ .other

/-- What a call does to the directory: its file is there afterwards, or it did not open. -/
theorem openFile_eq (hdir : 0 ∈ dir) (hmax : dir.length ≤ PTRDIFF_MAX) (call : OpenCall)
    (hfits : call.number.Fits) (hdirs : dirs (cstr dir) = some entries) :
    ∃ opened dirs' entries', openFile dir dirs call = .ok (opened, dirs') ∧ dirs' (cstr dir) = some entries' ∧
      (opened = false ∧ entries' = entries ∨
        opened = true ∧ (entries' = entries ∧ (∃ e ∈ entries, e.name = call.number.text ∧ e.type ≠ .dir) ∨
          entries' = entries ++ [⟨.reg, call.number.text⟩] ∧ ∀ e ∈ entries, e.name ≠ call.number.text)) := by
  have hcall : openFile dir dirs call =
      fopenText call.al dirs (some dir) call.number.text (some call.openType) call.granted := by
    unfold openFile
    cases call.number <;> rfl
  have hslash : 47 ∉ call.number.text := FileNumber.not_mem_text (by decide) (by decide)
  have hwrites : call.openType ≠ .read := by
    rw [OpenCall.openType]
    split <;> decide
  rw [hcall, fopenText_eq hdir hmax (FileNumber.length_text_le hfits)
    (FileNumber.not_mem_text (by decide) (by decide))]
  split
  · rw [fopen, directoryOf_append hslash, baseName_append hslash, hdirs]
    dsimp only
    cases hfind : entries.find? fun e => e.name = call.number.text with
    | some e =>
      have hname : e.name = call.number.text := by simpa using List.find?_some hfind
      have hmem := List.mem_of_find?_eq_some hfind
      refine ⟨_, dirs, entries, rfl, hdirs, ?_⟩
      cases hopened : call.granted && (e.type ≠ .dir || call.openType = .read) with
      | false => exact .inl ⟨rfl, rfl⟩
      | true =>
        refine .inr ⟨rfl, .inl ⟨rfl, e, hmem, hname, ?_⟩⟩
        simpa [hwrites] using (Bool.and_eq_true_iff.mp hopened).2
    | none =>
      have hnew : ∀ e ∈ entries, e.name ≠ call.number.text := fun e he =>
        of_decide_eq_false (Bool.eq_false_iff.mpr (List.find?_eq_none.mp hfind e he))
      dsimp only
      split
      · refine ⟨true, _, entries ++ [⟨.reg, call.number.text⟩], rfl, ?_, .inr ⟨rfl, .inr ⟨rfl, hnew⟩⟩⟩
        rw [Directories.create, if_pos rfl, hdirs]
        rfl
      · exact ⟨false, dirs, entries, rfl, hdirs, .inl ⟨rfl, rfl⟩⟩
  · exact ⟨false, dirs, entries, rfl, hdirs, .inl ⟨rfl, rfl⟩⟩

/-- The values of the calls that opened their file. -/
def openedValues (calls : List OpenCall) (opened : List Bool) : List Nat :=
  ((calls.zip opened).filter (·.2)).map fun c => c.1.number.value

/-- The directory `d` has the files `7` and `a`. -/
def numbered : Directories := fun d =>
  if d = [100] then some [⟨.reg, [55]⟩, ⟨.reg, [97]⟩, ⟨.dir, [46]⟩] else none

/-- The file above the highest number, to be opened with `fopen_ui`. -/
def nextFile (entries : List Dirent) : FileNumber := .unsigned (highestValueFile (some entries) + 1)

/-- It is opened where `highest_value_file` finds the highest number. -/
def openNext (dir : Block) (dirs : Directories) (i : Alloc UInt8 × OpenType × Bool) :
    Outcome (Bool × Directories) :=
  fopenUi i.1 dirs (some dir) (highestValueFile (dirs (cstr dir)) + 1) (some i.2.1) i.2.2

/-- No directory and no other file has the name of a number. -/
def NumbersFree (entries : List Dirent) : Prop :=
  ∀ e ∈ entries, e.visibleFile = false → ∀ n, e.name ≠ decimalText n

/-- The files that were opened one after the other above a number. -/
def filesAbove (high count : Nat) : List Dirent :=
  (List.range count).map fun k => ⟨.reg, decimalText (high + 1 + k)⟩

theorem filesAbove_succ (high count : Nat) :
    filesAbove high (count + 1) = ⟨.reg, decimalText (high + 1)⟩ :: filesAbove (high + 1) count := by
  rw [filesAbove, List.range_succ_eq_map, List.map_cons, List.map_map]
  refine congrArg₂ _ rfl (List.map_congr_left fun k _ => ?_)
  have hsum : high + 1 + (k + 1) = high + 1 + 1 + k := by omega
  change (⟨.reg, decimalText (high + 1 + (k + 1))⟩ : Dirent) = _
  rw [hsum]

/-- The number above the highest one names no file. -/
theorem next_free (hfree : NumbersFree entries) (hlt : highestValueFile (some entries) + 1 < 2 ^ 63)
    (he : e ∈ entries) : e.name ≠ (nextFile entries).text := by
  intro hname
  cases hvis : e.visibleFile with
  | false => exact hfree e he hvis _ hname
  | true =>
    have hle := fn_le_highest he hvis
    rw [Dirent.fn, hname, nextFile, FileNumber.text, strtoll_unsigned, toSize] at hle
    omega

theorem openNext_eq (hdir : 0 ∈ dir) (hmax : dir.length ≤ PTRDIFF_MAX) (hfree : NumbersFree entries)
    (hlt : highestValueFile (some entries) + 1 < 2 ^ 63) (hdirs : dirs (cstr dir) = some entries)
    {i : Alloc UInt8 × OpenType × Bool} (hwrites : i.2.1 ≠ .read) :
    ∃ opened dirs', openNext dir dirs i = .ok (opened, dirs') ∧
      dirs' (cstr dir) = some (if opened then entries ++ [⟨.reg, (nextFile entries).text⟩] else entries) := by
  obtain ⟨al, openType, granted⟩ := i
  have hcall : openNext dir dirs (al, openType, granted) =
      openFile dir dirs ⟨al, nextFile entries, openType = .append, granted⟩ := by
    rw [openNext, hdirs]
    change fopenUi al dirs (some dir) _ (some openType) granted =
      fopenUi al dirs (some dir) _ (some (OpenCall.openType _)) granted
    cases openType with
    | read => exact absurd rfl hwrites
    | write => rfl
    | append => rfl
  obtain ⟨opened, dirs', entries', hr, hdirs', hcase⟩ := openFile_eq hdir hmax
    ⟨al, nextFile entries, openType = .append, granted⟩
    (show highestValueFile (some entries) + 1 < 2 ^ 64 by omega) hdirs
  refine ⟨opened, dirs', hcall.trans hr, ?_⟩
  rw [hdirs']
  rcases hcase with ⟨rfl, rfl⟩ | ⟨rfl, ⟨-, e, he, hname, -⟩ | ⟨rfl, -⟩⟩
  · rfl
  · exact absurd hname (next_free hfree hlt he)
  · rfl

end Runs

end AlibC
