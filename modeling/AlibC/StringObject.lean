import AlibC.AlibString
import AlibC.Lib.CString
import AlibC.Lib.SizeT
import AlibC.Error

/-! `StringObject`: a string with its terminator in memory that grows and shrinks. The
sizes are of type `unsigned int`. -/
namespace AlibC

open CLang

structure StringObject where
  str : Option Block
  length : Nat
  capacity : Nat
  minMem : Nat
deriving DecidableEq, Repr

namespace StringObject

/-- `StringObject_resize`. -/
def resize (al : Alloc UInt8) (s : StringObject) (size : Nat) :
    Outcome (AlibError × StringObject) :=
  if size = 0 then
    match al.realloc s.str 1 with
    | none => .ok (.memErr, { s with str := none })
    | some blk => do
      let str ← store (some blk) 0 [0]
      return (.ok, { s with str, capacity := 1, length := 0 })
  else
    match al.realloc s.str size with
    | none => .ok (.memErr, { s with str := none, capacity := size })
    | some blk =>
      if s.str ≠ none then .ok (.ok, { s with str := some blk, capacity := size })
      else do
        let str ← store (some blk) 0 [0]
        return (.ok, { s with str, capacity := size })

def clearNoFree (s : StringObject) : Outcome StringObject := do
  let str ← store s.str 0 [0]
  return { s with str, length := 0 }

def clear (al : Alloc UInt8) (s : StringObject) : Outcome StringObject :=
  if s.str ≠ none ∧ s.capacity > s.minMem then do
    let (_, s) ← s.resize al 0
    return s
  else s.clearNoFree

/-- The loop of `StringObject_calc_and_resize`. -/
def growLoop (minMem minSize : Nat) : Nat → Nat → Outcome Nat
  | 0, _ => .error .diverges
  | fuel + 1, capacity =>
    if capacity < minSize then
      growLoop minMem minSize fuel
        (if capacity = 0 then (if minSize < minMem then minMem else minSize)
          else if capacity < 64 * 1024 then uintMul capacity 2
          else uintAdd capacity (32 * 1024))
    else .ok capacity

/-- The capacity that `StringObject_calc_and_resize` asks for. -/
def calcCapacity (s : StringObject) (minSize : Nat) : Outcome Nat :=
  if minSize < s.capacity ∧ ((minSize < 1024 ∧ uintMul minSize 4 < s.capacity) ∨
      uintAdd minSize (4 * 1024) < s.capacity) then .ok minSize
  else growLoop s.minMem minSize (2 ^ 32) s.capacity

/-- `StringObject_calc_and_resize`. It returns `ALIB_OK` whatever `StringObject_resize`
says. -/
def calcAndResize (al : Alloc UInt8) (s : StringObject) (minSize : Nat) :
    Outcome StringObject :=
  if minSize = 0 then s.clear al
  else do
    let capacity ← s.calcCapacity minSize
    let (_, s) ← s.resize al capacity
    return s

/-- Whether a text of `n` bytes is too long for the object, or much too short. -/
def badFit (s : StringObject) (n : Nat) : Prop :=
  n > s.length ∨ uintSub s.length n > uintMul s.minMem 4

instance (s : StringObject) (n : Nat) : Decidable (s.badFit n) :=
  inferInstanceAs (Decidable (_ ∨ _))

/-- The resize of `StringObject_set` and `StringObject_set_count`. -/
def fit (al : Alloc UInt8) (s : StringObject) (n minSize : Nat) : Outcome StringObject :=
  if s.badFit n then s.calcAndResize al minSize else .ok s

def set (al : Alloc UInt8) (s : StringObject) (strValue : Option Block) :
    Outcome (AlibError × StringObject) :=
  match strValue with
  | none => do
    let s ← s.clear al
    return (.ok, s)
  | some _ => do
    let strLen ← strlen strValue
    let n := toUInt strLen
    let s ← s.fit al n (uintAdd n 1)
    let str ← strcpy s.str 0 strValue
    return (.ok, { s with str, length := n })

def setCount (al : Alloc UInt8) (s : StringObject) (strValue : Option Block) (count : Nat) :
    Outcome (AlibError × StringObject) :=
  if strValue = none ∧ count > 0 then .ok (.badArg, s)
  else if count = 0 then do
    let s ← s.clear al
    return (.ok, s)
  else do
    let last ← load strValue count 1
    let n := if last ≠ [0] then uintAdd count 1 else count
    let s ← s.fit al n n
    let str ← strncpy s.str 0 strValue count
    let str ← store str n [0]
    return (.ok, { s with str, length := n })

def append (al : Alloc UInt8) (s : StringObject) (strToAppend : Option Block) :
    Outcome (AlibError × StringObject) :=
  if strToAppend = none then .ok (.badArg, s)
  else do
    let strLen ← strlen strToAppend
    let tLen := toInt32 (s.length + strLen + 1 : Nat)
    let s ← s.calcAndResize al (toUInt tLen)
    let str ← strcpy s.str s.length strToAppend
    return (.ok, { s with str, length := toUInt (toInt32 (tLen - 1)) })

def appendCount (al : Alloc UInt8) (s : StringObject) (strToAppend : Option Block)
    (count : Nat) : Outcome (AlibError × StringObject) :=
  if strToAppend = none then .ok (.badArg, s)
  else if count = 0 then .ok (.ok, s)
  else do
    let last ← load strToAppend (count - 1) 1
    let tLen := if last ≠ [0] then uintAdd (uintAdd s.length count) 1 else uintAdd s.length count
    let s ← s.calcAndResize al tLen
    let str ← strncpy s.str s.length strToAppend count
    let strLen ← strlen strToAppend
    if toUInt strLen < count then
      return (.ok, { s with str, length := uintAdd s.length (toUInt strLen) })
    else
      let str ← store str (uintSub tLen 1) [0]
      return (.ok, { s with str, length := uintSub tLen 1 })

/-- The first loop of `StringObject_insert_count`, from `val_it` on: the text is no longer
than `valLen`. -/
def realSize (val : Option Block) (it : Nat) : Nat → Outcome Nat
  | 0 => do
    let _ ← load val it 1
    return 0
  | valLen + 1 => do
    let c ← load val it 1
    if c = [0] then return 0
    else
      let n ← realSize val (it + 1) valLen
      return n + 1

def insertCount (al : Alloc UInt8) (s : StringObject) (val : Option Block) (index valLen : Nat) :
    Outcome (AlibError × StringObject) := do
  let valLen ← realSize val 0 valLen
  let s ← s.calcAndResize al (uintAdd (uintAdd s.length valLen) 1)
  let str ← strncpyBack s.str (index + valLen) index (toInt32 (uintSub s.length index))
  let str ← strncpy str index val valLen
  let str ← store str (uintAdd s.length valLen) [0]
  return (.ok, { s with str, length := uintAdd s.length valLen })

def shrinkToFit (al : Alloc UInt8) (s : StringObject) : Outcome (AlibError × StringObject) :=
  s.resize al (uintAdd s.length 1)

/-- `newStringObject`. -/
def new (al : Alloc UInt8) : Outcome (Option StringObject) :=
  match al.block 1 with
  | none => .ok none
  | some blk => do
    let str ← store (some blk) 0 [0]
    return some { str, length := 0, capacity := 1, minMem := 64 }

/-- `StringObject_extract_c_string`: the memory is handed out and the object gets a new one. -/
def extractCString (al : Alloc UInt8) (s : StringObject) :
    Outcome (Option Block × StringObject) := do
  let (code, s') ← resize al { s with str := none, length := 0 } s.minMem
  if code ≠ .ok then return (none, { s' with str := s.str })
  else return (s.str, s')

/-- The inner loop of `StringObject_replace_substrings`: how many characters agree before `j`
reaches the length of the substring. -/
def matchLoop (str substring : Option Block) (cIt j : Nat) : Nat → Outcome Nat
  | 0 => .ok j
  | n + 1 => do
    let c ← load str cIt 1
    let d ← load substring j 1
    if c = d then matchLoop str substring (cIt + 1) (j + 1) n else return j

/-- What takes the place of a substring, with what was before it. -/
def appendMatch (al : Alloc UInt8) (rStr : StringObject) (str : Option Block)
    (ibegin substrCounter : Nat) (newstr : Option Block) : Outcome StringObject := do
  let (_, rStr) ← rStr.appendCount al (advance str ibegin) (toUInt substrCounter)
  if newstr ≠ none then do
    let (_, rStr) ← rStr.append al newstr
    return rStr
  else return rStr

/-- The outer loop of `StringObject_replace_substrings`. `i` characters are left from `cIt` on, and
`substrCounter` ones from `ibegin` on are not yet copied. -/
def replaceLoop (al : Alloc UInt8) (str substring newstr : Option Block) (substrLen : Int) :
    Nat → Int → Nat → Nat → Nat → StringObject → Outcome (Nat × Nat × StringObject)
  | 0, i, _, ibegin, substrCounter, rStr =>
    if i > 0 then .error .diverges else .ok (ibegin, substrCounter, rStr)
  | fuel + 1, i, cIt, ibegin, substrCounter, rStr =>
    if i > 0 then do
      let c ← load str cIt 1
      let d ← load substring 0 1
      if c = d then
        let j ← matchLoop str substring cIt 0 substrLen.toNat
        if j = substrLen then
          let rStr ← appendMatch al rStr str ibegin substrCounter newstr
          replaceLoop al str substring newstr substrLen fuel (i - j) (cIt + j) (cIt + j) 0 rStr
        else
          replaceLoop al str substring newstr substrLen fuel (i - j) (cIt + j) ibegin
            (substrCounter + j) rStr
      else
        replaceLoop al str substring newstr substrLen fuel (i - 1) (cIt + 1) ibegin
          (substrCounter + 1) rStr
    else .ok (ibegin, substrCounter, rStr)

/-- What was not yet copied when the loop has ended. -/
def appendRest (al : Alloc UInt8) (rStr : StringObject) (str : Option Block)
    (ibegin substrCounter : Nat) : Outcome StringObject :=
  if substrCounter ≠ 0 then do
    let (_, rStr) ← rStr.appendCount al (advance str ibegin) (toUInt substrCounter)
    return rStr
  else .ok rStr

/-- `StringObject_replace_substrings`. -/
def replaceSubstrings (al : Alloc UInt8) (s : StringObject) (substring newstr : Option Block) :
    Outcome StringObject := do
  let new ← StringObject.new al
  match new with
  | none => return s
  | some rStr =>
    if s.str = none ∨ substring = none then return s
    else
      let strLen ← strlen substring
      let i := toInt32 s.length
      let (ibegin, substrCounter, rStr) ←
        replaceLoop al s.str substring newstr (toInt32 strLen) i.toNat i 0 0 0 rStr
      let rStr ← appendRest al rStr s.str ibegin substrCounter
      let (str, _) ← rStr.extractCString al
      return { s with str, length := rStr.length, capacity := rStr.capacity }

end StringObject

end AlibC
