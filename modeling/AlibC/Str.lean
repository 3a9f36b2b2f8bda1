import AlibC.BinaryBuffer
import AlibC.Lib.CString
import AlibC.Lib.Word

/-! `String`, which is a `BinaryBuffer` that is to hold a text and its terminator. -/
namespace AlibC.Str

open CLang

/-- `String_get_length`. -/
def getLength (str : BinaryBuffer) : Nat := if str.len ≠ 0 then str.len - 1 else 0

/-- If there is memory a terminator is put at its beginning. -/
def terminateEmpty (str : BinaryBuffer) : Outcome BinaryBuffer :=
  if str.buff = none then .ok str
  else do
    let p ← store str.buff 0 [0]
    return { str with buff := p, len := 1 }

/-- `String_clear`. -/
def clear (al : Alloc UInt8) (str : BinaryBuffer) : Outcome BinaryBuffer :=
  terminateEmpty (str.clear al)

/-- `String_clear_no_free`. -/
def clearNoFree (str : BinaryBuffer) : Outcome BinaryBuffer := terminateEmpty str.clearNoResize

/-- `String_set_count`, which ignores what the appending functions return. -/
def setCount (al : Alloc UInt8) (str : BinaryBuffer) (strVal : Option Block) (count : Nat) :
    Outcome (AlibError × BinaryBuffer) := do
  let (_, str) ← (str.clear al).append al strVal count
  let (_, str) ← str.append al (some [0]) 1
  return (.ok, str)

/-- `String_set`. -/
def set (al : Alloc UInt8) (str : BinaryBuffer) (strVal : Option Block) :
    Outcome (AlibError × BinaryBuffer) :=
  if strVal = none then do
    let str ← clear al str
    return (.ok, str)
  else do
    let count ← strlen strVal
    setCount al str strVal count

/-- `String_append_count`. -/
def appendCount (al : Alloc UInt8) (str : BinaryBuffer) (strToAppend : Option Block) (count : Nat) :
    Outcome (AlibError × BinaryBuffer) :=
  if strToAppend = none then .ok (.badArg, str)
  else if str.len > 1 then str.insert al (str.len - 1) strToAppend count
  else do
    let (err, str) ← str.append al strToAppend count
    if err ≠ .ok then return (err, str)
    str.append al (some [0]) 1

/-- `String_append`. -/
def append (al : Alloc UInt8) (str : BinaryBuffer) (strToAppend : Option Block) :
    Outcome (AlibError × BinaryBuffer) := do
  let count ← strlen strToAppend
  appendCount al str strToAppend count

/-- `String_append_string`. -/
def appendString (al : Alloc UInt8) (to_ : BinaryBuffer) (from_ : Option BinaryBuffer) :
    Outcome (AlibError × BinaryBuffer) :=
  match from_ with
  | none => .ok (.badArg, to_)
  | some from_ => append al to_ from_.buff

/-- `String_append_char`. -/
def appendChar (al : Alloc UInt8) (str : BinaryBuffer) (c : UInt8) :
    Outcome (AlibError × BinaryBuffer) := appendCount al str (some [c]) 1

/-- `String_insert_count`. -/
def insertCount (al : Alloc UInt8) (str : BinaryBuffer) (val : Option Block) (index count : Nat) :
    Outcome (AlibError × BinaryBuffer) := do
  let (err, str) ← str.insert al index val count
  if err ≠ .ok then return (err, str)
  let p ← store str.buff str.len [0]
  return (.ok, { str with buff := p })

/-- `String_insert`. -/
def insert (al : Alloc UInt8) (str : BinaryBuffer) (val : Option Block) (index : Nat) :
    Outcome (AlibError × BinaryBuffer) :=
  if val = none then .ok (.badArg, str)
  else do
    let count ← strlen val
    insertCount al str val index count

/-- `String_insert_string`. -/
def insertString (al : Alloc UInt8) (str : BinaryBuffer) (val : Option BinaryBuffer)
    (index : Nat) : Outcome (AlibError × BinaryBuffer) :=
  match val with
  | none => .ok (.badArg, str)
  | some val => insertCount al str val.buff index val.len

/-- `String_copy_string`, for two objects. -/
def copyString (al : Alloc UInt8) (to_ : BinaryBuffer) (from_ : Option BinaryBuffer) :
    Outcome (AlibError × BinaryBuffer) :=
  match from_ with
  | none => .ok (.badArg, to_)
  | some from_ => do
    let to_ ← clear al to_
    let (_, to_) :=
      { to_ with maxExpand := from_.maxExpand, minCap := from_.minCap }.resize al from_.capacity
    let p ← memcpy to_.buff 0 from_.buff 0 from_.len
    return (.ok, { to_ with buff := p, len := from_.len })

/-- `String_remove`. -/
def remove (str : BinaryBuffer) (begin_ end_ : Nat) : Outcome (AlibError × BinaryBuffer) :=
  let (lo, hi) := if begin_ > end_ then (end_, begin_) else (begin_, end_)
  if lo ≥ getLength str then .ok (.ok, str)
  else str.remove lo (if hi ≥ str.len then sizeSub str.len 1 else hi)

/-- The loop of `String_remove_substring`. Each round that removes something makes the text shorter,
and a round that removes nothing is repeated for ever. -/
def removeSubstringLoop (substring : Option Block) (substringLen : Nat) :
    Nat → BinaryBuffer → Option Nat → Outcome BinaryBuffer
  | _, str, none => .ok str
  | 0, _, some _ => .error .diverges
  | fuel + 1, str, some index => do
    let (_, str) ← remove str index (sizeAdd index substringLen)
    let ptr ← strstr str.buff index substring
    removeSubstringLoop substring substringLen fuel str ptr

/-- `String_remove_substring`. -/
def removeSubstring (str : BinaryBuffer) (substring : Option Block) :
    Outcome (AlibError × BinaryBuffer) :=
  if substring = none then .ok (.badArg, str)
  else do
    let substringLen ← strlen substring
    let ptr ← strstr str.buff 0 substring
    let str ← removeSubstringLoop substring substringLen (str.len + 1) str ptr
    return (.ok, str)

/-- The number of characters that `String_replace_count` takes out: all the `int` has room for. -/
def replaced (charReplaceCount : Int) (count : Nat) : Nat :=
  toSize (if charReplaceCount < 0 then toInt32 count else charReplaceCount)

/-- `String_replace_count`. -/
def replaceCount (al : Alloc UInt8) (str : BinaryBuffer) (index : Nat) (charReplaceCount : Int)
    (substring : Option Block) (count : Nat) : Outcome (AlibError × BinaryBuffer) :=
  if substring = none ∨ index ≥ str.len then .ok (.badArg, str)
  else do
    let (err, str) ← str.replace al index (replaced charReplaceCount count) substring count
    if err ≠ .ok then return (err, str)
    let p ← store str.buff str.len [0]
    return (.ok, { str with buff := p })

/-- `String_replace`, whose `long` is passed on as an `int`. -/
def replace (al : Alloc UInt8) (str : BinaryBuffer) (index : Nat) (charReplaceCount : Int)
    (substring : Option Block) : Outcome (AlibError × BinaryBuffer) :=
  if substring = none then .ok (.badArg, str)
  else do
    let count ← strlen substring
    replaceCount al str index (toInt32 charReplaceCount) substring count

/-- The loop of `String_replace_substrings`. The search goes on where the old text ended. -/
def replaceSubstringsLoop (al : Alloc UInt8) (substring : Option Block) (substringLen : Nat)
    (newstr : Option Block) (newstrLen : Nat) :
    Nat → BinaryBuffer → Option Nat → Outcome (AlibError × BinaryBuffer)
  | _, str, none => .ok (.ok, str)
  | 0, _, some _ => .error .diverges
  | fuel + 1, str, some ptr => do
    let index := ptr + substringLen
    let (err, str) ← str.replace al ptr substringLen newstr newstrLen
    if err ≠ .ok then return (err, str)
    let ptr ← strstr str.buff index substring
    replaceSubstringsLoop al substring substringLen newstr newstrLen fuel str ptr

/-- `String_replace_substrings`. A round goes at least a character further in the same memory. -/
def replaceSubstrings (al : Alloc UInt8) (str : BinaryBuffer) (substring newstr : Option Block)
    (newstrLen : Nat) : Outcome (AlibError × BinaryBuffer) :=
  if substring = none ∨ newstr = none then .ok (.badArg, str)
  else do
    let substringLen ← strlen substring
    let newstrLen ← if newstrLen = 0 then strlen newstr else .ok newstrLen
    let ptr ← strstr str.buff 0 substring
    replaceSubstringsLoop al substring substringLen newstr newstrLen (str.capacity + 1) str ptr

/-- The loop of `String_count_substrings`. -/
def countLoop (hay substring : Option Block) (substringLen : Nat) :
    Nat → Int → Nat → Outcome Int
  | 0, _, _ => .error .diverges
  | fuel + 1, count, it => do
    let found ← strstr hay it substring
    match found with
    | none => return count
    | some it => do
      let count ← checkLong (count + 1)
      countLoop hay substring substringLen fuel count (it + substringLen)

/-- `String_count_substrings`. -/
def countSubstrings (str : BinaryBuffer) (substring : Option Block) : Outcome Int :=
  if substring = none then .ok AlibError.badArg.code
  else do
    let substringLen ← strlen substring
    countLoop str.buff substring substringLen (str.capacity + 1) 0 0

/-- The loop of `String_get_substring_ptrs`. The memory of the string begins at the address `base`,
and the bytes of the pointers are appended to a buffer. -/
def ptrsLoop (al : Alloc UInt8) (base : Nat) (hay substring : Option Block) (substringLen : Nat) :
    Nat → BinaryBuffer → Nat → Outcome BinaryBuffer
  | 0, _, _ => .error .diverges
  | fuel + 1, ptrBuff, strIt => do
    let found ← strstr hay strIt substring
    match found with
    | none => return ptrBuff
    | some strIt => do
      let (_, ptrBuff) ← ptrBuff.append al (some (leBytes 8 (base + strIt))) 8
      ptrsLoop al base hay substring substringLen fuel ptrBuff (strIt + substringLen)

/-- `String_get_substring_ptrs`. -/
def getSubstringPtrs (al : Alloc UInt8) (base : Nat) (str : BinaryBuffer)
    (substring : Option Block) : Outcome (Option Block) :=
  if substring = none then .ok none
  else do
    let substringLen ← strlen substring
    let ptrBuff ← BinaryBuffer.new al
    match ptrBuff with
    | none => return none
    | some ptrBuff => do
      let ptrBuff ← ptrsLoop al base str.buff substring substringLen (str.capacity + 1) ptrBuff 0
      let (_, ptrBuff) ← ptrBuff.append al (some (leBytes 8 0)) 8
      return (ptrBuff.shrinkToFit al).extractBuffer.1

/-- `String_get_index`. The memory lies from the address `base` on. -/
def getIndex (base : Nat) (str : BinaryBuffer) (ptr : Nat) : Outcome Int :=
  if ptr > base ∧ ptr < sizeAdd base str.len then checkLong (toLong ptr - toLong base)
  else .ok AlibError.badArg.code

/-- `newString`. -/
def new (al : Alloc UInt8) : Outcome (Option BinaryBuffer) := BinaryBuffer.new al

/-- `newString_copy`. -/
def newCopy (al : Alloc UInt8) (str : BinaryBuffer) : Outcome (Option BinaryBuffer) := do
  let newStr ← new al
  match newStr with
  | none => return none
  | some newStr => do
    let (_, newStr) :=
      { newStr with maxExpand := str.maxExpand, minCap := str.minCap }.resize al str.capacity
    let p ← memcpy newStr.buff 0 str.buff 0 str.len
    return some { newStr with buff := p }

/-- `newString_ex`. An object to which nothing could be appended is deleted. -/
def newEx (al : Alloc UInt8) (str : Option Block) (len : Nat) : Outcome (Option BinaryBuffer) := do
  let rval ← new al
  let len ← if len = 0 then strlen str else .ok len
  match rval with
  | none => return none
  | some rval => do
    let (err, rval) ← appendCount al rval str len
    if err ≠ .ok then return none else return some rval

end AlibC.Str
