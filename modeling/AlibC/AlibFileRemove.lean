import AlibC.AlibString
import AlibC.Error
import AlibC.Lib.Stdio

/-! `file_remove_data_at`: a section is cut out of a file by reading what is kept and writing it again.
Nobody else works on the file. -/
namespace AlibC

open CLang

/-- `file_remove_option`, with one value for all others. -/
inductive FileRemoveOption where
  | begin_ | curBefore | curAfter | end_ | other
deriving DecidableEq, Repr

/-- What the calls on the file come to: whether it opens, and how much of it can be read and written. -/
structure Disk where
  opens : Bool
  readable : Nat
  reopens : Bool
  space : Nat

/-- `file_size`, which leaves the position as it was. -/
def fileSize : Option Stream → Nat × Option Stream
  | none => (0, none)
  | some file =>
    let curPos := file.pos
    let file := file.fseek 0 .end_
    let size := file.pos
    (size, some (file.fseek (toLong curPos) .set))

/-- `if(fread(..) != count)err = ALIB_FILE_READ_ERR;` -/
def readAll (file : Stream) (buff : Option Block) (off count : Nat) :
    Outcome (AlibError × Option Block × Stream) := do
  let (got, buff, file) ← file.fread buff off count
  return (if got ≠ count then .fileReadErr else .ok, buff, file)

/-- The branches for `FRO_BEGIN` and `FRO_END`, which keep the bytes from `start` on. -/
def copyFrom (file : Stream) (buff : Option Block) (newSize start : Nat) :
    Outcome (AlibError × Option Block) := do
  let (err, buff, _) ← readAll (file.fseek (toLong start) .set) buff 0 newSize
  return (err, buff)

/-- The branches for `FRO_CUR_BEFORE` and `FRO_CUR_AFTER`, which keep the first bytes and those behind
the section. -/
def copyAround (file : Stream) (buff : Option Block) (newSize bytes first : Nat) :
    Outcome (AlibError × Option Block) := do
  let (err, buff, file) ← readAll (file.fseek 0 .set) buff 0 first
  if err ≠ .ok then return (err, buff)
  let (err, buff, _) ← readAll (file.fseek (toLong bytes) .cur) buff first (sizeSub newSize first)
  return (err, buff)

/-- The `switch` that copies the data of the file into the buffer. -/
def copyKept (option : FileRemoveOption) (file : Stream) (buff : Option Block)
    (newSize pos bytes : Nat) : Outcome (AlibError × Option Block) :=
  match option with
  | .begin_ => copyFrom file buff newSize bytes
  | .curBefore => copyAround file buff newSize bytes (sizeSub pos bytes)
  | .curAfter => copyAround file buff newSize bytes pos
  | .end_ => copyFrom file buff newSize 0
  | .other => .ok (.badArg, buff)

/-- The file is opened again, which empties it, and the buffer is written. -/
def writeBack (disk : Disk) (content : Block) (buff : Option Block) (newSize : Nat) :
    Outcome (AlibError × Block) :=
  if !disk.reopens then .ok (.fileOpenErr, content)
  else do
    let bs ← load buff 0 newSize
    let written := bs.take disk.space
    return (if written.length ≠ newSize then .fileErr else .ok, written)

/-- The number of bytes when it is given as 0: all in one direction. -/
def allBytes (option : FileRemoveOption) (size pos : Nat) : Nat :=
  match option with
  | .begin_ | .curBefore => pos
  | .curAfter | .end_ => sizeSub size pos
  | .other => 0

/-- `file` is what the file of that name holds, `none` if the name is `NULL`. It is returned as it is
afterwards. -/
def fileRemoveDataAt (disk : Disk) (al : Alloc UInt8) (file : Option Block) (pos bytes : Nat)
    (option : FileRemoveOption) : Outcome (AlibError × Option Block) :=
  match file with
  | none => .ok (.badArg, none)
  | some content =>
    if !disk.opens then .ok (.fileOpenErr, some content)
    else
      let file : Stream := ⟨content, disk.readable, 0⟩
      let (newSize, _) := fileSize (some file)
      if newSize = 0 then .ok (.ok, some content)
      else
        let bytes := if bytes = 0 then allBytes option newSize pos else bytes
        if newSize < bytes then .ok (.badArg, some content)
        else
          let newSize := sizeSub newSize bytes
          match al.block newSize with
          | none => .ok (.memErr, some content)
          | some buff => do
            let (err, buff) ← copyKept option file (some buff) newSize pos bytes
            if err ≠ .ok then return (err, some content)
            let (err, content) ← writeBack disk content buff newSize
            return (err, some content)

namespace FileRemoveOption

/-- A section of `bytes` bytes lies in a file of `size` bytes. -/
def Fits (option : FileRemoveOption) (size pos bytes : Nat) : Prop :=
  match option with
  | .begin_ | .end_ => bytes ≤ size
  | .curBefore => bytes ≤ pos ∧ pos ≤ size
  | .curAfter => pos + bytes ≤ size
  | .other => False

/-- The section that is asked for lies in the file. With no number of bytes it is all in one direction. -/
def Inside (option : FileRemoveOption) (size pos bytes : Nat) : Prop :=
  if bytes = 0 then option ≠ .other ∧ pos ≤ size else option.Fits size pos bytes

/-- What is left without a section of `bytes` bytes: without the first bytes, those just before `pos`,
those from `pos` on, or the last ones. -/
def without (option : FileRemoveOption) (content : Block) (pos bytes : Nat) : Block :=
  match option with
  | .begin_ => content.drop bytes
  | .curBefore => content.take (pos - bytes) ++ content.drop pos
  | .curAfter => content.take pos ++ content.drop (pos + bytes)
  | .end_ => content.take (content.length - bytes)
  | .other => content

/-- What is left without the section that is asked for. -/
def kept (option : FileRemoveOption) (content : Block) (pos bytes : Nat) : Block :=
  if bytes = 0 then
    match option with
    | .begin_ | .curBefore => content.drop pos
    | .curAfter | .end_ => content.take pos
    | .other => content
  else option.without content pos bytes

/-- The number of bytes that the code counts with. -/
def count (option : FileRemoveOption) (size pos bytes : Nat) : Nat :=
  if bytes = 0 then allBytes option size pos else bytes

end FileRemoveOption

variable {option : FileRemoveOption} {content : Block} {pos bytes : Nat} {file : Stream} {buff : Block}
  {disk : Disk} {al : Alloc UInt8}

section Sections

variable {size : Nat}

/-- What fits is not larger than the file. -/
theorem FileRemoveOption.Fits.le (h : option.Fits size pos bytes) : bytes ≤ size := by
  cases option with
  | begin_ => exact h
  | curBefore => exact Nat.le_trans h.1 h.2
  | curAfter => exact Nat.le_trans (Nat.le_add_left bytes pos) h
  | end_ => exact h
  | other => exact h.elim

/-- A section in the file is one for the number of bytes that the code counts with. -/
theorem FileRemoveOption.Inside.fits (h : option.Inside size pos bytes) (hsize : size < 2 ^ 63) :
    option.Fits size pos (option.count size pos bytes) := by
  rw [FileRemoveOption.Inside] at h
  rw [FileRemoveOption.count]
  by_cases hb : bytes = 0
  · rw [if_pos hb] at h ⊢
    obtain ⟨hoption, hle⟩ := h
    have hsub : sizeSub size pos = size - pos := sizeSub_eq (by omega) hle
    cases option with
    | begin_ => exact hle
    | curBefore => exact ⟨Nat.le_refl pos, hle⟩
    | curAfter =>
      show pos + sizeSub size pos ≤ size
      omega
    | end_ =>
      show sizeSub size pos ≤ size
      omega
    | other => exact absurd rfl hoption
  · rw [if_neg hb] at h ⊢
    exact h

/-- A position behind the end makes the number too large. -/
theorem pos_le_of_allBytes (hsize : size < 2 ^ 63) (hpos : pos < 2 ^ 64) (hoption : option ≠ .other)
    (h : allBytes option size pos ≤ size) : pos ≤ size := by
  have hwrap : size < pos → sizeSub size pos = size + 2 ^ 64 - pos := sizeSub_wrap hpos
  cases option with
  | begin_ => exact h
  | curBefore => exact h
  | curAfter =>
    have hall : sizeSub size pos ≤ size := h
    omega
  | end_ =>
    have hall : sizeSub size pos ≤ size := h
    omega
  | other => exact absurd rfl hoption

theorem inside_iff (hsize : size < 2 ^ 63) (hpos : pos < 2 ^ 64) :
    option.Inside size pos bytes ↔ option.Fits size pos (option.count size pos bytes) := by
  refine ⟨fun h => h.fits hsize, fun h => ?_⟩
  have hle := h.le
  rw [FileRemoveOption.count] at h hle
  rw [FileRemoveOption.Inside]
  by_cases hb : bytes = 0
  · rw [if_pos hb] at h hle ⊢
    have hoption : option ≠ .other := by
      rintro rfl
      exact h
    exact ⟨hoption, pos_le_of_allBytes hsize hpos hoption hle⟩
  · rw [if_neg hb] at h ⊢
    exact h

theorem kept_eq (hsize : content.length < 2 ^ 63) (h : option.Inside content.length pos bytes) :
    option.kept content pos bytes =
      option.without content pos (option.count content.length pos bytes) := by
  rw [FileRemoveOption.Inside] at h
  unfold FileRemoveOption.kept FileRemoveOption.count
  by_cases hb : bytes = 0
  · rw [if_pos hb] at h
    rw [if_pos hb, if_pos hb]
    have hsub : sizeSub content.length pos = content.length - pos := sizeSub_eq (by omega) h.2
    cases option with
    | begin_ => rfl
    | curBefore => simp [FileRemoveOption.without, allBytes]
    | curAfter =>
      have hall : pos + (content.length - pos) = content.length := by omega
      simp [FileRemoveOption.without, allBytes, hsub, hall]
    | end_ =>
      have hrest : content.length - (content.length - pos) = pos := by omega
      simp [FileRemoveOption.without, allBytes, hsub, hrest]
    | other => exact absurd rfl h.1
  · rw [if_neg hb, if_neg hb]

/-- What is left has the new size. -/
theorem FileRemoveOption.Fits.length_without (h : option.Fits content.length pos bytes) :
    (option.without content pos bytes).length = content.length - bytes := by
  cases option with
  | begin_ => exact List.length_drop
  | curBefore =>
    obtain ⟨hbytes, hpos⟩ := h
    rw [FileRemoveOption.without, List.length_append, List.length_take, List.length_drop]
    omega
  | curAfter =>
    have hfit : pos + bytes ≤ content.length := h
    rw [FileRemoveOption.without, List.length_append, List.length_take, List.length_drop]
    omega
  | end_ => exact List.length_take_of_le (Nat.sub_le _ _)
  | other => exact h.elim

end Sections

section Reads

variable {off count first : Nat}

/-- A read with room for it ends, with all bytes or with an error. -/
theorem readAll_ends (h : off + count ≤ buff.length) : ∃ err buff' file',
    readAll file (some buff) off count = .ok (err, some buff', file') ∧
      buff'.length = buff.length := by
  have hle := @Stream.length_given_le file count
  rw [readAll, Stream.fread_eq h]
  exact ⟨_, _, _, rfl, length_overwrite (by omega)⟩

/-- From a device without errors it gets the bytes at the position. -/
theorem readAll_eq (h : off + count ≤ buff.length) (hread : file.bytes.length ≤ file.readable)
    (hfile : file.pos + count ≤ file.bytes.length) :
    readAll file (some buff) off count = .ok (.ok,
      some (overwrite buff off ((file.bytes.drop file.pos).take count)),
      { file with pos := file.pos + count }) := by
  have hlen : (file.given count).length = count := by
    rw [Stream.length_given hread]
    omega
  rw [readAll, Stream.fread_eq h, hlen, Stream.given_eq hread]
  simp

/-- It stores as many bytes as the file has, whatever the block has room for. -/
theorem readAll_faults (hread : file.bytes.length ≤ file.readable) (hcount : buff.length < count)
    (hfile : buff.length < file.bytes.length - file.pos) :
    readAll file (some buff) 0 count = .error .outOfBounds := by
  have hlen := @Stream.length_given file count hread
  rw [readAll, Stream.fread_faults (by omega) (by omega)]
  rfl

theorem copyFrom_ends {size start : Nat} (hbuff : buff.length = size) :
    ∃ err buff', copyFrom file (some buff) size start = .ok (err, some buff') ∧
      buff'.length = size := by
  obtain ⟨err, buff', file', hread, hlen⟩ := @readAll_ends (file.fseek (toLong start) .set) buff 0 size
    (by omega)
  rw [copyFrom, hread]
  exact ⟨err, buff', rfl, hlen.trans hbuff⟩

theorem copyFrom_eq {size start : Nat} (hbuff : buff.length = size)
    (hread : file.bytes.length ≤ file.readable) (hfile : start + size ≤ file.bytes.length)
    (hlong : file.bytes.length < 2 ^ 63) : copyFrom file (some buff) size start =
      .ok (.ok, some ((file.bytes.drop start).take size)) := by
  have hlen : ((file.bytes.drop start).take size).length = buff.length := by
    rw [List.length_take, List.length_drop]
    omega
  have hrun := @readAll_eq ⟨file.bytes, file.readable, start⟩ buff 0 size (by omega) hread hfile
  dsimp only at hrun
  rw [overwrite_all hlen] at hrun
  rw [copyFrom, toLong_eq (by omega), Stream.fseek_set (by omega), hrun]
  rfl

/-- The first bytes have room, and so has the rest. -/
theorem copyAround_ends {size : Nat} (hbuff : buff.length = size) (hsize : size < 2 ^ 64)
    (hfirst : first ≤ size) :
    ∃ err buff', copyAround file (some buff) size bytes first = .ok (err, some buff') ∧
      buff'.length = size := by
  obtain ⟨err, buff', file', hread, hlen⟩ := @readAll_ends (file.fseek 0 .set) buff 0 first
    (by omega)
  rw [copyAround, hread, ok_bind]
  dsimp only
  by_cases herr : err = .ok
  · have hrest : sizeSub size first = size - first := sizeSub_eq hsize hfirst
    obtain ⟨err', buff'', file'', hread', hlen'⟩ := @readAll_ends (file'.fseek (toLong bytes) .cur)
      buff' first (size - first) (by omega)
    rw [if_neg (by simp [herr]), hrest, hread']
    exact ⟨err', buff'', rfl, by omega⟩
  · rw [if_pos herr]
    exact ⟨err, buff', rfl, hlen.trans hbuff⟩

theorem copyAround_eq {size : Nat} (hbuff : buff.length = size)
    (hread : file.bytes.length ≤ file.readable) (hfirst : first ≤ size)
    (hfile : size + bytes = file.bytes.length) (hlong : file.bytes.length < 2 ^ 63) :
    copyAround file (some buff) size bytes first =
      .ok (.ok, some (file.bytes.take first ++ file.bytes.drop (first + bytes))) := by
  have hrest : sizeSub size first = size - first := sizeSub_eq (by omega) hfirst
  have hlen : (file.bytes.take first).length = first := List.length_take_of_le (by omega)
  have htail : (file.bytes.drop (first + bytes)).length = size - first := by
    rw [List.length_drop]
    omega
  have hseek : file.fseek 0 .set = { file with pos := 0 } := Stream.fseek_set (by decide)
  have hfirstRun := @readAll_eq ⟨file.bytes, file.readable, 0⟩ buff 0 first (by omega) hread
    (by dsimp only; omega)
  dsimp only at hfirstRun
  rw [List.drop_zero, Nat.zero_add] at hfirstRun
  have hseek' : (⟨file.bytes, file.readable, first⟩ : Stream).fseek (bytes : Nat) .cur =
      ⟨file.bytes, file.readable, first + bytes⟩ := Stream.fseek_cur (by dsimp only; omega)
  have hrun := @readAll_eq ⟨file.bytes, file.readable, first + bytes⟩
    (overwrite buff 0 (file.bytes.take first)) first (size - first)
    (by rw [length_overwrite (by omega)]; omega) hread (by dsimp only; omega)
  dsimp only at hrun
  have happ := @overwrite_append _ buff 0 (file.bytes.take first) (file.bytes.drop (first + bytes))
    (by omega)
  rw [hlen, Nat.zero_add] at happ
  have hall : (file.bytes.take first ++ file.bytes.drop (first + bytes)).length = buff.length := by
    rw [List.length_append]
    omega
  rw [List.take_of_length_le (Nat.le_of_eq htail), happ, overwrite_all hall] at hrun
  rw [copyAround, hseek, hfirstRun, ok_bind]
  dsimp only
  rw [if_neg (by simp), toLong_eq (by omega), hseek', hrest, hrun]
  rfl

/-- More bytes than the buffer has are read in front of the section. -/
theorem copyAround_faults {size : Nat} (hbuff : buff.length = size)
    (hread : file.bytes.length ≤ file.readable) (hfirst : size < first)
    (hfile : size < file.bytes.length) :
    copyAround file (some buff) size bytes first = .error .outOfBounds := by
  have hseek : file.fseek 0 .set = { file with pos := 0 } := Stream.fseek_set (by decide)
  have hrun := @readAll_faults ⟨file.bytes, file.readable, 0⟩ buff first hread (by omega)
    (by dsimp only; omega)
  rw [copyAround, hseek, hrun]
  rfl

end Reads

section Copies

variable {k : Nat}

/-- Where the section fits, nothing is stored beyond the buffer. -/
theorem copyKept_ends (hbuff : buff.length = file.bytes.length - k)
    (h : option.Fits file.bytes.length pos k) (hlong : file.bytes.length < 2 ^ 63) :
    ∃ err buff', copyKept option file (some buff) (file.bytes.length - k) pos k =
      .ok (err, some buff') ∧ buff'.length = file.bytes.length - k := by
  cases option with
  | begin_ => exact copyFrom_ends hbuff
  | curBefore =>
    have hsub : sizeSub pos k = pos - k := sizeSub_eq (by have := h.2; omega) h.1
    have hfirst : pos - k ≤ file.bytes.length - k := Nat.sub_le_sub_right h.2 k
    rw [copyKept, hsub]
    exact copyAround_ends hbuff (by omega) hfirst
  | curAfter => exact copyAround_ends hbuff (by omega) (Nat.le_sub_of_add_le h)
  | end_ => exact copyFrom_ends hbuff
  | other => exact h.elim

/-- Where the section fits and all of the file can be read, the buffer holds what is left without it. -/
theorem copyKept_eq (hbuff : buff.length = file.bytes.length - k)
    (h : option.Fits file.bytes.length pos k) (hread : file.bytes.length ≤ file.readable)
    (hlong : file.bytes.length < 2 ^ 63) :
    copyKept option file (some buff) (file.bytes.length - k) pos k =
      .ok (.ok, some (option.without file.bytes pos k)) := by
  have hle := h.le
  cases option with
  | begin_ =>
    rw [copyKept, copyFrom_eq hbuff hread (by omega) hlong,
      List.take_of_length_le (Nat.le_of_eq List.length_drop)]
    rfl
  | curBefore =>
    have hsub : sizeSub pos k = pos - k := sizeSub_eq (by have := h.2; omega) h.1
    have hpos : pos - k + k = pos := Nat.sub_add_cancel h.1
    rw [copyKept, hsub, copyAround_eq hbuff hread (Nat.sub_le_sub_right h.2 k) (by omega) hlong, hpos]
    rfl
  | curAfter =>
    rw [copyKept, copyAround_eq hbuff hread (Nat.le_sub_of_add_le h) (by omega) hlong]
    rfl
  | end_ =>
    rw [copyKept, copyFrom_eq hbuff hread (by omega) hlong, List.drop_zero]
    rfl
  | other => exact h.elim

/-- A section before or behind the position that does not fit makes the first read overflow. -/
theorem copyKept_faults (hbuff : buff.length = file.bytes.length - k) (hk : 0 < k)
    (hle : k ≤ file.bytes.length) (hoption : option = .curBefore ∨ option = .curAfter)
    (h : ¬option.Fits file.bytes.length pos k) (hread : file.bytes.length ≤ file.readable)
    (hlong : file.bytes.length < 2 ^ 63) (hpos : pos < 2 ^ 64) :
    copyKept option file (some buff) (file.bytes.length - k) pos k = .error .outOfBounds := by
  rcases hoption with rfl | rfl
  · have hfirst : file.bytes.length - k < sizeSub pos k := by
      by_cases hkpos : k ≤ pos
      · have hout : ¬pos ≤ file.bytes.length := fun hin => h ⟨hkpos, hin⟩
        rw [sizeSub_eq hpos hkpos]
        omega
      · rw [sizeSub_wrap (by omega) (by omega)]
        omega
    exact copyAround_faults hbuff hread hfirst (by omega)
  · have hfirst : file.bytes.length - k < pos := by
      have hout : ¬pos + k ≤ file.bytes.length := h
      omega
    exact copyAround_faults hbuff hread hfirst (by omega)

end Copies

section Calls

theorem fileSize_eq (h : file.bytes.length < 2 ^ 63) (hpos : file.pos < 2 ^ 63) :
    fileSize (some file) = (file.bytes.length, some file) := by
  rw [fileSize, Stream.fseek_end h, toLong_eq hpos, Stream.fseek_set hpos]

/-- The disk gives out and takes all bytes of the file. -/
structure Disk.Works (disk : Disk) (size : Nat) : Prop where
  opens : disk.opens = true
  readable : size ≤ disk.readable
  reopens : disk.reopens = true
  space : size ≤ disk.space

theorem writeBack_eq {left : Block} (hreopens : disk.reopens = true)
    (hspace : left.length ≤ disk.space) :
    writeBack disk content (some left) left.length = .ok (.ok, left) := by
  rw [writeBack, hreopens, if_neg (by decide), load_some (by omega), ok_bind]
  dsimp only
  rw [List.drop_zero, List.take_length, List.take_of_length_le hspace, if_neg (by simp)]
  rfl

/-- The write stays in the buffer, and ends with what the disk has room for. -/
theorem writeBack_ends {size : Nat} (hbuff : buff.length = size) :
    ∃ r, writeBack disk content (some buff) size = .ok r := by
  rw [writeBack]
  split
  · exact ⟨_, rfl⟩
  · rw [load_some (by omega)]
    exact ⟨_, rfl⟩

/-- What is done once the file was opened. -/
theorem fileRemoveDataAt_eq (hopens : disk.opens = true) (hlong : content.length < 2 ^ 63)
    (hne : content ≠ []) : fileRemoveDataAt disk al (some content) pos bytes option =
      if content.length < option.count content.length pos bytes then .ok (.badArg, some content)
      else match al.block (content.length - option.count content.length pos bytes) with
        | none => .ok (.memErr, some content)
        | some buff =>
          copyKept option ⟨content, disk.readable, 0⟩ (some buff)
            (content.length - option.count content.length pos bytes) pos
            (option.count content.length pos bytes) >>= fun r =>
          if r.1 ≠ .ok then .ok (r.1, some content)
          else writeBack disk content r.2
            (content.length - option.count content.length pos bytes) >>= fun q =>
              .ok (q.1, some q.2) := by
  have hsize := @fileSize_eq ⟨content, disk.readable, 0⟩ hlong (by dsimp only; omega)
  have hpos : ¬content.length = 0 := mt List.length_eq_zero_iff.mp hne
  rw [fileRemoveDataAt, hopens]
  dsimp only
  rw [hsize]
  dsimp only
  rw [FileRemoveOption.count, if_neg (by decide), if_neg hpos]
  generalize (if bytes = 0 then allBytes option content.length pos else bytes) = k
  by_cases hle : content.length < k
  · rw [if_pos hle, if_pos hle]
  · rw [if_neg hle, if_neg hle, sizeSub_eq (by omega) (Nat.le_of_not_lt hle)]
    cases al.block (content.length - k) with
    | none => rfl
    | some buff => rfl

end Calls

/-- A section that lies in the file is cut out of it, and nothing else, where the disk and the memory do
not fail. -/
theorem fileRemoveDataAt_removes (hlong : content.length < 2 ^ 63) (hne : content ≠ [])
    (hin : option.Inside content.length pos bytes) (hdisk : disk.Works content.length)
    (hal : al.Succeeds) : fileRemoveDataAt disk al (some content) pos bytes option =
      .ok (.ok, some (option.kept content pos bytes)) := by
  have hfits := hin.fits hlong
  obtain ⟨buff, hblock, hbuff⟩ := hal.exists_block
    (content.length - option.count content.length pos bytes)
  have hcopy := @copyKept_eq option pos ⟨content, disk.readable, 0⟩ buff _ hbuff hfits hdisk.readable
    hlong
  rw [fileRemoveDataAt_eq hdisk.opens hlong hne, if_neg (Nat.not_lt.mpr hfits.le), hblock]
  dsimp only at hcopy ⊢
  rw [hcopy, ok_bind, kept_eq hlong hin]
  dsimp only
  generalize hleft : option.without content pos (option.count content.length pos bytes) = left at *
  have hlen : left.length = content.length - option.count content.length pos bytes := by
    rw [← hleft]
    exact hfits.length_without
  have hspace := hdisk.space
  rw [if_neg (by simp), ← hlen, writeBack_eq hdisk.reopens (by omega)]
  rfl

/-- Two bytes in the middle of five. -/
theorem fileRemoveDataAt_removes_middle :
    fileRemoveDataAt ⟨true, 5, true, 5⟩ (.filled 0) (some [1, 2, 3, 4, 5]) 1 2 .curAfter =
      .ok (.ok, some (FileRemoveOption.kept .curAfter [1, 2, 3, 4, 5] 1 2)) :=
  fileRemoveDataAt_removes (by decide) (by decide) (show 1 + 2 ≤ 5 by decide)
    ⟨rfl, by decide, rfl, by decide⟩ (Alloc.filled_succeeds 0)

/-- Whatever the disk and the memory do, nothing is stored beyond the buffer, and for a section outside
the file there is an error and the file stays. -/
def RejectsSafely (option : FileRemoveOption) (content : Block) (pos bytes : Nat) : Prop :=
  ∀ disk al, ∃ err content',
    fileRemoveDataAt disk al (some content) pos bytes option = .ok (err, some content') ∧
      (¬option.Inside content.length pos bytes → err ≠ .ok ∧ content' = content)

/-- Where the arguments are checked as far as it matters: the section is in the file, or the file is not
empty, and the option does not count from `pos`, or all bytes in one direction are asked for, or more
than there are. -/
def FileRemoveOption.Checked (option : FileRemoveOption) (size pos bytes : Nat) : Prop :=
  option.Inside size pos bytes ∨
    0 < size ∧ (option ≠ .curBefore ∧ option ≠ .curAfter ∨ bytes = 0 ∨ size < bytes)

theorem fileRemoveDataAt_empty (hopens : disk.opens = true) :
    fileRemoveDataAt disk al (some []) pos bytes option = .ok (.ok, some []) := by
  have hsize := @fileSize_eq ⟨[], disk.readable, 0⟩ (show 0 < 2 ^ 63 by decide)
    (show 0 < 2 ^ 63 by decide)
  rw [fileRemoveDataAt, hopens]
  dsimp only
  rw [hsize]
  rfl

/-- Arguments that were checked and pass are those of a section in the file. -/
theorem FileRemoveOption.Checked.fits {size : Nat} (h : option.Checked size pos bytes)
    (hsize : size < 2 ^ 63) (hpos : pos < 2 ^ 64) (hle : option.count size pos bytes ≤ size) :
    option.Fits size pos (option.count size pos bytes) ∨ option = .other := by
  rcases h with hin | ⟨-, hrest⟩
  · exact .inl (hin.fits hsize)
  · -- the options that count from `pos` are left with all bytes in one direction
    have hall : option = .curBefore ∨ option = .curAfter → option.Inside size pos bytes := by
      intro hcur
      have hb : bytes = 0 := by
        rcases hrest with hoption | hb | hlarge
        · exact absurd hcur (not_or.mpr hoption)
        · exact hb
        · rw [FileRemoveOption.count, if_neg (by omega)] at hle
          omega
      have hoption : option ≠ .other := by
        rintro rfl
        exact hcur.elim (by decide) (by decide)
      rw [FileRemoveOption.count, if_pos hb] at hle
      rw [FileRemoveOption.Inside, if_pos hb]
      exact ⟨hoption, pos_le_of_allBytes hsize hpos hoption hle⟩
    cases option with
    | begin_ => exact .inl hle
    | curBefore => exact .inl ((hall (.inl rfl)).fits hsize)
    | curAfter => exact .inl ((hall (.inr rfl)).fits hsize)
    | end_ => exact .inl hle
    | other => exact .inr rfl

/-- For a section in the file the call ends, whatever the disk and the memory do. -/
theorem fileRemoveDataAt_ends (hopens : disk.opens = true) (hlong : content.length < 2 ^ 63)
    (hne : content ≠ [])
    (hfits : option.Fits content.length pos (option.count content.length pos bytes)) :
    ∃ err content', fileRemoveDataAt disk al (some content) pos bytes option =
      .ok (err, some content') := by
  rw [fileRemoveDataAt_eq hopens hlong hne, if_neg (Nat.not_lt.mpr hfits.le)]
  cases hblock : al.block (content.length - option.count content.length pos bytes) with
  | none => exact ⟨.memErr, content, rfl⟩
  | some buff =>
    obtain ⟨err, buff', hcopy, hlen⟩ := @copyKept_ends option pos ⟨content, disk.readable, 0⟩
      buff _ (al.length_block hblock) hfits hlong
    dsimp only at hcopy ⊢
    rw [hcopy, ok_bind]
    dsimp only
    by_cases herr : err = .ok
    · obtain ⟨⟨err', content'⟩, hwrite⟩ := @writeBack_ends content buff' disk _ hlen
      dsimp only at hwrite
      rw [if_neg (by simp [herr]), hwrite]
      exact ⟨err', content', rfl⟩
    · rw [if_pos herr]
      exact ⟨err, content, rfl⟩

/-- An option that is none of the four changes nothing in a file that is not empty. -/
theorem fileRemoveDataAt_other (hopens : disk.opens = true) (hlong : content.length < 2 ^ 63)
    (hne : content ≠ []) : ∃ err, err ≠ .ok ∧
      fileRemoveDataAt disk al (some content) pos bytes .other = .ok (err, some content) := by
  rw [fileRemoveDataAt_eq hopens hlong hne]
  split
  · exact ⟨.badArg, by decide, rfl⟩
  · split
    · exact ⟨.memErr, by decide, rfl⟩
    · exact ⟨.badArg, by decide, rfl⟩

/-- Checked arguments are safe. -/
theorem rejectsSafely_of_checked (hlong : content.length < 2 ^ 63) (hpos : pos < 2 ^ 64)
    (h : option.Checked content.length pos bytes) : RejectsSafely option content pos bytes := by
  intro disk al
  by_cases hopens : disk.opens = true
  · by_cases hne : content = []
    · subst hne
      have hin : option.Inside 0 pos bytes := h.resolve_right fun hr => absurd hr.1 (by decide)
      exact ⟨.ok, [], fileRemoveDataAt_empty hopens, fun hout => absurd hin hout⟩
    · by_cases hlarge : content.length < option.count content.length pos bytes
      · rw [fileRemoveDataAt_eq hopens hlong hne, if_pos hlarge]
        exact ⟨.badArg, content, rfl, fun _ => ⟨by decide, rfl⟩⟩
      · rcases h.fits hlong hpos (Nat.le_of_not_lt hlarge) with hfits | rfl
        · obtain ⟨err, content', hrun⟩ := @fileRemoveDataAt_ends option content pos bytes disk al hopens
            hlong hne hfits
          exact ⟨err, content', hrun, fun hout => absurd ((inside_iff hlong hpos).mpr hfits) hout⟩
        · obtain ⟨err, herr, hrun⟩ := @fileRemoveDataAt_other content pos bytes disk al hopens hlong hne
          exact ⟨err, content, hrun, fun _ => ⟨herr, rfl⟩⟩
  · have hclosed : disk.opens = false := by simpa using hopens
    refine ⟨.fileOpenErr, content, ?_, fun _ => ⟨by decide, rfl⟩⟩
    rw [fileRemoveDataAt, hclosed]
    rfl

/-- Where the arguments are not checked, an empty file is taken for a success, and another one makes a
read overflow. -/
theorem checked_of_rejectsSafely (hlong : content.length < 2 ^ 63) (hpos : pos < 2 ^ 64)
    (h : RejectsSafely option content pos bytes) : option.Checked content.length pos bytes := by
  by_contra hnot
  rw [FileRemoveOption.Checked, not_or, not_and, not_or, not_or] at hnot
  obtain ⟨hout, hrest⟩ := hnot
  obtain ⟨err, content', hrun, herr⟩ := h ⟨true, content.length, true, content.length⟩ (.filled 0)
  by_cases hne : content = []
  · subst hne
    rw [fileRemoveDataAt_empty rfl] at hrun
    exact (herr hout).1 (Prod.mk.inj (Except.ok.inj hrun)).1.symm
  · obtain ⟨hoption, hzero, hle⟩ := hrest (List.length_pos_iff.mpr hne)
    have hcount : option.count content.length pos bytes = bytes := if_neg hzero
    have hcur : option = .curBefore ∨ option = .curAfter := by
      by_contra hno
      exact hoption (not_or.mp hno)
    have hfits : ¬option.Fits content.length pos bytes := by
      rw [← hcount]
      exact mt (inside_iff hlong hpos).mpr hout
    have hblock : (Alloc.filled (0 : UInt8)).block (content.length - bytes) =
        some (List.replicate (content.length - bytes) 0) := rfl
    have hfault := @copyKept_faults option pos ⟨content, content.length, 0⟩
      (List.replicate (content.length - bytes) 0) bytes List.length_replicate (by omega)
      (Nat.le_of_not_lt hle) hcur hfits (Nat.le_refl _) hlong hpos
    dsimp only at hfault
    rw [fileRemoveDataAt_eq rfl hlong hne, hcount, if_neg hle, hblock] at hrun
    dsimp only at hrun
    rw [hfault] at hrun
    cases hrun

/-- Out-of-range arguments are rejected safely exactly where they are checked. -/
theorem rejectsSafely_iff (hlong : content.length < 2 ^ 63) (hpos : pos < 2 ^ 64) :
    RejectsSafely option content pos bytes ↔ option.Checked content.length pos bytes :=
  ⟨checked_of_rejectsSafely hlong hpos, rejectsSafely_of_checked hlong hpos⟩

theorem rejectsSafely_iff_three :
    RejectsSafely .begin_ [1, 2, 3] 0 9 ↔ FileRemoveOption.Checked .begin_ 3 0 9 :=
  @rejectsSafely_iff .begin_ [1, 2, 3] 0 9 (by decide) (by decide)

/-- The byte behind the end of three cannot be removed, but three bytes are read into a buffer of two; and
five bytes are removed from an empty file. -/
theorem fileRemoveDataAt_overflows :
    ¬FileRemoveOption.Inside .curAfter 3 3 1 ∧
    fileRemoveDataAt ⟨true, 3, true, 3⟩ (.filled 0) (some [1, 2, 3]) 3 1 .curAfter =
      .error .outOfBounds ∧
    ¬FileRemoveOption.Inside .begin_ 0 0 5 ∧
    fileRemoveDataAt ⟨true, 0, true, 0⟩ (.filled 0) (some []) 0 5 .begin_ = .ok (.ok, some []) := by
  refine ⟨?_, by decide, ?_, by decide⟩
  · show ¬3 + 1 ≤ 3
    decide
  · show ¬5 ≤ 0
    decide

end AlibC
