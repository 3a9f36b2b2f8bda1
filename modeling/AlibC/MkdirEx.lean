import AlibC.AlibFile
import AlibC.StringObjectInvariant

/-! `mkdir_ex`: the parents of a directory are made before it, on a copy of the path in which the
delimiters become terminators and then slashes. -/
namespace AlibC

open CLang

/-- A call of `mkdir`. -/
structure Mkdir where
  dir : Block
  mode : Nat
deriving DecidableEq, Repr

/-- `mkdir`, which appends itself to the calls before it. `fs` tells which one succeeds. -/
def mkdir (fs : List Mkdir → Bool) (dir : Option Block) (mode : Nat) (calls : List Mkdir) :
    Outcome (Int × List Mkdir) :=
  match dir with
  | none => .ok (-1, calls)
  | some blk =>
    if 0 ∈ blk then
      let calls := calls ++ [⟨cstr blk, mode⟩]
      .ok (if fs calls then 0 else -1, calls)
    else .error .outOfBounds

/-- `while(*ptr == '/' || *ptr == '\\')` with `ptr = str + i - 1`, which for zero lies before the
string. -/
def stripLoop (str : Option Block) : Nat → Outcome (Option Block)
  | 0 => .error .outOfBounds
  | i + 1 => do
    let c ← load str i 1
    if c.all isDelimiter then
      let str ← store str i [0]
      stripLoop str i
    else return str

/-- `for(ptr = dir_str->str + 1;*ptr != '\0'; ++ptr)`: the bytes before `ptr`, and those from it on. -/
def parentLoop (fs : List Mkdir → Bool) (mode : Nat) :
    Block → Block → List Mkdir → Outcome (Block × List Mkdir)
  | _, [], _ => .error .outOfBounds
  | before, c :: rest, calls =>
    if c = 0 then .ok (before ++ c :: rest, calls)
    else if isDelimiter c then do
      let (_, calls) ← mkdir fs (some (before ++ 0 :: rest)) mode calls
      parentLoop fs mode (before ++ [47]) rest calls
    else parentLoop fs mode (before ++ [c]) rest calls

/-- The result goes through a `char`. -/
def mkdirEx (al : Alloc UInt8) (fs : List Mkdir → Bool) (dir : Option Block) (mode : Nat)
    (recurs : Bool) : Outcome (Int × List Mkdir) := do
  if !recurs then
    let (rval, calls) ← mkdir fs dir mode []
    return (toInt8 rval, calls)
  else
    match ← StringObject.new al with
    | none => return (-1, [])
    | some dirStr =>
      let (_, dirStr) ← dirStr.append al dir
      let str ← stripLoop dirStr.str dirStr.length
      let blk ← deref str
      let (blk, calls) ← parentLoop fs mode (blk.take 1) (blk.drop 1) []
      let (rval, calls) ← mkdir fs (some blk) mode calls
      return (toInt8 rval, calls)

/-- A path in which the delimiters that the scan passes are slashes. It begins behind the first
character. -/
def slashed (path : Block) : Block :=
  path.take 1 ++ (path.drop 1).map fun c => if isDelimiter c then 47 else c

/-- The proper prefixes that end before a delimiter at position 1 or later, in increasing length. -/
def parents (path : Block) : List Block :=
  ((List.range path.length).filter fun i => 1 ≤ i && path[i]?.any isDelimiter).map
    fun i => slashed (path.take i)

def trimDelimiters (path : Block) : Block := path.rdropWhile isDelimiter

/-- The parents and then the path itself are made, and the result is that of the path. Without memory
for the copy nothing is made. -/
def CreatesParents (al : Alloc UInt8) (fs : List Mkdir → Bool) (mode : Nat) (mem : Block) : Prop :=
  mkdirEx al fs (some mem) mode true = .ok (
    if al.block 1 = none then (-1, [])
    else
      let path := trimDelimiters (cstr mem)
      let calls := (parents path ++ [slashed path]).map fun dir => ⟨dir, mode⟩
      (if fs calls then 0 else -1, calls))

/-- The object that `newStringObject` returns. -/
def emptyString : StringObject := ⟨some [0], 0, 1, 64⟩

/-- The copy of a string gets its memory. -/
def CopyGranted (al : Alloc UInt8) (mem : Block) : Prop :=
  ∃ c, emptyString.calcCapacity ((cstr mem).length + 1) = .ok c ∧ (al.block c).isSome

example : mkdirEx (.filled 0) (fun _ => true) (some [97, 92, 47, 98, 47, 0]) 511 true =
    .ok (0, [⟨[97], 511⟩, ⟨[97, 47], 511⟩, ⟨[97, 47, 47, 98], 511⟩]) := by decide


variable {al : Alloc UInt8} {fs : List Mkdir → Bool} {mode : Nat} {mem path before tail : Block}

/-- The trailing delimiters become terminators, unless nothing else stops the scan. -/
theorem stripLoop_eq (path : Block) : ∀ tail : Block, trimDelimiters path ≠ [] →
    ∃ tail', stripLoop (some (path ++ 0 :: tail)) path.length =
      .ok (some (trimDelimiters path ++ 0 :: tail')) := by
  induction path using List.reverseRecOn with
  | nil => exact fun tail h => absurd rfl h
  | append_singleton path c ih =>
    intro tail h
    rw [trimDelimiters] at h ⊢
    rw [List.append_assoc, List.length_append, List.length_singleton, List.singleton_append, stripLoop,
      load_some (by simp), ok_bind, List.drop_left, List.take_succ_cons, List.take_zero]
    by_cases hc : isDelimiter c = true
    · rw [List.rdropWhile_concat_pos isDelimiter path c hc] at h ⊢
      rw [if_pos (by simpa using hc), store_cell rfl, ok_bind]
      exact ih (0 :: tail) h
    · rw [List.rdropWhile_concat_neg isDelimiter path c hc]
      rw [if_neg (by simpa using hc)]
      exact ⟨tail, by rw [List.append_assoc]; rfl⟩

/-- Delimiters only lead before the string. -/
theorem stripLoop_before (path : Block) : ∀ tail : Block, trimDelimiters path = [] →
    stripLoop (some (path ++ tail)) path.length = .error .outOfBounds := by
  induction path using List.reverseRecOn with
  | nil => exact fun tail _ => rfl
  | append_singleton path c ih =>
    intro tail h
    have hc : isDelimiter c = true := List.rdropWhile_eq_nil_iff.mp h c (by simp)
    rw [trimDelimiters, List.rdropWhile_concat_pos isDelimiter path c hc] at h
    rw [List.append_assoc, List.length_append, List.length_singleton, List.singleton_append, stripLoop,
      load_some (by simp), ok_bind, List.drop_left, List.take_succ_cons, List.take_zero,
      if_pos (by simpa using hc), store_cell rfl, ok_bind]
    exact ih (0 :: tail) h

theorem slashed_concat (h : before ≠ []) (c : UInt8) :
    slashed (before ++ [c]) = slashed before ++ [if isDelimiter c then 47 else c] := by
  obtain ⟨c₀, before, rfl⟩ := List.exists_cons_of_ne_nil h
  simp [slashed]

theorem slashed_noZero (h : 0 ∉ path) : 0 ∉ slashed path := by
  intro hmem
  obtain hfirst | hrest := List.mem_append.mp hmem
  · exact h (List.mem_of_mem_take hfirst)
  · obtain ⟨c, hc, hzero⟩ := List.mem_map.mp hrest
    by_cases hd : isDelimiter c = true
    · rw [if_pos hd] at hzero
      cases hzero
    · rw [if_neg hd] at hzero
      exact h (List.mem_of_mem_drop (hzero ▸ hc))

theorem mkdir_text (h : 0 ∉ path) (calls : List Mkdir) :
    mkdir fs (some (path ++ 0 :: tail)) mode calls =
      .ok (if fs (calls ++ [⟨path, mode⟩]) then 0 else -1, calls ++ [⟨path, mode⟩]) := by
  rw [mkdir]
  dsimp only
  rw [if_pos (by simp), cstr_eq h]

/-- The prefixes of a path that end before a delimiter among the `n` characters from `i` on. -/
def parentsIn (path : Block) (i n : Nat) : List Block :=
  ((List.range' i n).filter fun i => path[i]?.any isDelimiter).map fun i => slashed (path.take i)

theorem parentLoop_eq (rest : Block) : ∀ (before : Block) (calls : List Mkdir), before ≠ [] →
    0 ∉ before ++ rest →
    parentLoop fs mode (slashed before) (rest ++ 0 :: tail) calls =
      .ok (slashed (before ++ rest) ++ 0 :: tail,
        calls ++ (parentsIn (before ++ rest) before.length rest.length).map fun dir => ⟨dir, mode⟩) := by
  induction rest with
  | nil =>
    intro before calls _ _
    rw [List.append_nil, parentsIn, List.length_nil, List.range'_zero, List.filter_nil, List.map_nil,
      List.map_nil, List.append_nil]
    rfl
  | cons c rest ih =>
    intro before calls hne h0
    have hnext := ih (before ++ [c])
    rw [List.append_assoc, List.singleton_append, slashed_concat hne, List.length_append,
      List.length_singleton] at hnext
    have hc : c ≠ 0 := fun hzero => h0 (by simp [hzero])
    have hat : (before ++ c :: rest)[before.length]? = some c := by simp
    have hbefore : 0 ∉ before := fun hzero => h0 (List.mem_append_left _ hzero)
    rw [List.cons_append, parentLoop, if_neg hc, parentsIn, List.length_cons, List.range'_succ]
    by_cases hd : isDelimiter c = true
    · rw [if_pos hd] at hnext ⊢
      rw [mkdir_text (slashed_noZero hbefore), ok_bind]
      dsimp only
      rw [hnext _ (by simp) h0, List.filter_cons_of_pos (by rw [hat]; exact hd), List.map_cons,
        List.map_cons, List.take_left, List.append_assoc]
      rfl
    · rw [if_neg hd] at hnext ⊢
      rw [hnext _ (by simp) h0, List.filter_cons_of_neg (by rw [hat]; exact hd)]
      rfl

theorem parents_eq (c : UInt8) (path : Block) : parents (c :: path) = parentsIn (c :: path) 1 path.length := by
  rw [parents, parentsIn, List.length_cons, List.range_eq_range', List.range'_succ,
    List.filter_cons_of_neg (by simp)]
  congr 1
  refine List.filter_congr fun i hi => ?_
  have hpos : 1 ≤ i := (List.mem_range'_1.mp hi).1
  rw [decide_eq_true hpos, Bool.true_and]

theorem new_granted (h : al.block 1 ≠ none) : StringObject.new al = .ok (some emptyString) := by
  obtain ⟨blk, hb⟩ := Option.ne_none_iff_exists'.mp h
  have hlen := al.length_block hb
  rw [StringObject.new, hb]
  dsimp only
  rw [store_some (by simp; omega), overwrite_all (by simp; omega)]
  rfl

/-- What the capacity rule asks for is there or not. -/
theorem calcAndResize_empty {n c : Nat} (hn : 0 < n) (hc : emptyString.calcCapacity n = .ok c)
    (hpos : 0 < c) : emptyString.calcAndResize al n =
      .ok ⟨al.realloc (some [0]) c, 0, c, 64⟩ := by
  rw [StringObject.calcAndResize, if_neg (by omega), hc, ok_bind, StringObject.resize, if_neg (by omega)]
  cases hr : al.realloc emptyString.str c with
  | none =>
    rw [emptyString] at hr
    rw [hr]
    rfl
  | some blk =>
    rw [emptyString] at hr
    rw [hr]
    rfl

theorem grows_empty {n : Nat} (hn : n < 2 ^ 32) : emptyString.Grows n :=
  StringObject.grows_of_lt hn (by decide) (by decide)

theorem toUInt_length {n : Nat} : toUInt (toInt32 (n : Int)) = n % 2 ^ 32 := by
  unfold toUInt toInt32
  omega

theorem strcpy_text (hm : 0 ∈ mem) (dst : Option Block) :
    strcpy dst 0 (some mem) = store dst 0 (cstr mem ++ [0]) := by
  obtain ⟨rest, hmem, h0⟩ := exists_text hm
  generalize cstr mem = text at *
  subst hmem
  rw [strcpy, strlen_eq h0, ok_bind, memcpy, load_some (by simp), ok_bind, List.drop_zero,
    List.take_length_add_append, List.take_succ_cons, List.take_zero]

/-- The copy is stored in what the resize left. -/
theorem append_resized (hm : 0 ∈ mem) {s : StringObject}
    (hs : emptyString.calcAndResize al (((cstr mem).length + 1) % 2 ^ 32) = .ok s) (h0 : s.length = 0) :
    emptyString.append al (some mem) = do
      let str ← store s.str 0 (cstr mem ++ [0])
      return (.ok, { s with
        str, length := toUInt (toInt32 (toInt32 ((cstr mem).length + 1 : Nat) - 1)) }) := by
  have hlen : strlen (some mem) = .ok (cstr mem).length := by
    rw [strlen, deref_some, ok_bind, if_pos hm]
    rfl
  rw [StringObject.append, if_neg (by simp), hlen, ok_bind]
  dsimp only [emptyString] at hs ⊢
  rw [Nat.zero_add, toUInt_length, hs, ok_bind, h0, strcpy_text hm]

/-- What an append to an empty object comes to: the capacity, and the store of the copy. -/
theorem append_capacity (hm : 0 ∈ mem) (hlen : (cstr mem).length + 1 < 2 ^ 32) :
    ∃ c, emptyString.calcCapacity ((cstr mem).length + 1) = .ok c ∧ (cstr mem).length + 1 ≤ c ∧
      emptyString.append al (some mem) = do
        let str ← store (al.realloc (some [0]) c) 0 (cstr mem ++ [0])
        return (.ok, ⟨str, (cstr mem).length, c, 64⟩) := by
  obtain ⟨c, hc, hle, -⟩ := grows_empty hlen
  refine ⟨c, hc, hle, ?_⟩
  have hresize := @calcAndResize_empty al _ c (by omega) hc (by omega)
  rw [← Nat.mod_eq_of_lt hlen] at hresize
  rw [append_resized hm hresize rfl, toUInt_toInt32_pred hlen]

theorem append_granted (hm : 0 ∈ mem) (hlen : (cstr mem).length + 1 < 2 ^ 32) (h : CopyGranted al mem) :
    ∃ c tail, emptyString.append al (some mem) =
      .ok (.ok, ⟨some (cstr mem ++ 0 :: tail), (cstr mem).length, c, 64⟩) := by
  obtain ⟨c, hc, hle, happend⟩ := @append_capacity al mem hm hlen
  obtain ⟨c', hc', hblock⟩ := h
  obtain rfl := Except.ok.inj (hc.symm.trans hc')
  obtain ⟨fresh, hfresh⟩ := Option.isSome_iff_exists.mp hblock
  have hsize := al.length_block hfresh
  refine ⟨c, (([0] : Block).take c ++ fresh.drop 1).drop ((cstr mem).length + 1), ?_⟩
  rw [happend, Alloc.realloc, hfresh, Option.map_some, Option.getD_some, List.length_singleton,
    store_some (by simp; omega), ok_bind, overwrite, List.length_append, List.length_singleton,
    List.take_zero, List.nil_append, Nat.zero_add, List.append_assoc]
  rfl

theorem append_refused (hm : 0 ∈ mem) (hlen : (cstr mem).length + 1 < 2 ^ 32) (h : ¬CopyGranted al mem) :
    emptyString.append al (some mem) = .error .nullDeref := by
  obtain ⟨c, hc, -, happend⟩ := @append_capacity al mem hm hlen
  have hnone : al.block c = none := by
    rw [← Option.not_isSome_iff_eq_none]
    exact fun hsome => h ⟨c, hc, hsome⟩
  rw [happend, Alloc.realloc_refused hnone, store, if_neg (by simp)]
  rfl

/-- The memory of a copy whose size wraps is too small. -/
theorem append_long (hm : 0 ∈ mem) (hlen : 2 ^ 32 ≤ (cstr mem).length + 1) :
    ∃ e, emptyString.append al (some mem) = .error e := by
  have hstore : ∀ (str : Option Block), (str.getD []).length < 2 ^ 32 →
      ∃ e, store str 0 (cstr mem ++ [0]) = .error e := by
    intro str hstr
    rw [store, if_neg (by simp)]
    cases str with
    | none => exact ⟨_, rfl⟩
    | some blk =>
      refine ⟨.outOfBounds, ?_⟩
      rw [deref_some, ok_bind, if_neg]
      rw [Option.getD_some] at hstr
      simp only [List.length_append, List.length_singleton]
      omega
  -- Either resize leaves an object without text in less memory.
  obtain ⟨s, hs, h0, hsmall⟩ : ∃ s : StringObject,
      emptyString.calcAndResize al (((cstr mem).length + 1) % 2 ^ 32) = .ok s ∧ s.length = 0 ∧
        (s.str.getD []).length < 2 ^ 32 := by
    generalize ht : ((cstr mem).length + 1) % 2 ^ 32 = t
    by_cases hzero : t = 0
    · rw [hzero]
      exact ⟨emptyString, rfl, rfl, by decide⟩
    · obtain ⟨c, hc, hle, hclt⟩ := @grows_empty t (by omega)
      refine ⟨_, calcAndResize_empty (by omega) hc (by omega), rfl, ?_⟩
      dsimp only
      rw [Alloc.realloc]
      cases hb : al.block c with
      | none => exact Nat.two_pow_pos 32
      | some fresh =>
        have hsize := al.length_block hb
        simp
        omega
  obtain ⟨e, he⟩ := hstore s.str hsmall
  refine ⟨e, ?_⟩
  rw [append_resized hm hs h0, he]
  rfl

/-- From the copy on. -/
theorem mkdirEx_copied (hnew : al.block 1 ≠ none) : mkdirEx al fs (some mem) mode true = do
    let (_, dirStr) ← emptyString.append al (some mem)
    let str ← stripLoop dirStr.str dirStr.length
    let blk ← deref str
    let (blk, calls) ← parentLoop fs mode (blk.take 1) (blk.drop 1) []
    let (rval, calls) ← mkdir fs (some blk) mode calls
    return (toInt8 rval, calls) := by
  rw [mkdirEx, if_neg (by decide), new_granted hnew]
  rfl

theorem cstr_noZero (mem : Block) : 0 ∉ cstr mem := fun h => by
  have := List.mem_takeWhile_imp h
  simp at this

theorem trim_eq_nil_iff : trimDelimiters path = [] ↔ ¬∃ c ∈ path, isDelimiter c = false := by
  rw [trimDelimiters, List.rdropWhile_eq_nil_iff]
  push Not
  exact forall₂_congr fun c _ => by simp

/-- A path that is trimmed to something has its parents made. -/
theorem mkdirEx_creates (hm : 0 ∈ mem) (hnew : al.block 1 ≠ none) (hgrant : CopyGranted al mem)
    (hlen : (cstr mem).length + 1 < 2 ^ 32) (hne : trimDelimiters (cstr mem) ≠ []) :
    CreatesParents al fs mode mem := by
  obtain ⟨c, tail, happend⟩ := append_granted hm hlen hgrant
  obtain ⟨tail', hstrip⟩ := stripLoop_eq (cstr mem) tail hne
  have hzero : 0 ∉ trimDelimiters (cstr mem) := fun h =>
    cstr_noZero mem ((List.rdropWhile_prefix isDelimiter (cstr mem)).subset h)
  rw [CreatesParents, if_neg hnew, mkdirEx_copied hnew, happend, ok_bind]
  dsimp only
  rw [hstrip, ok_bind, deref_some, ok_bind]
  generalize trimDelimiters (cstr mem) = path at *
  obtain ⟨c₀, path, rfl⟩ := List.exists_cons_of_ne_nil hne
  have hloop := @parentLoop_eq fs mode tail' path [c₀] [] (by simp) hzero
  rw [List.singleton_append, List.nil_append, List.length_singleton, ← parents_eq] at hloop
  rw [List.cons_append, List.take_succ_cons, List.take_zero, List.drop_succ_cons, List.drop_zero]
  change parentLoop fs mode [c₀] _ _ = _ at hloop
  rw [hloop, ok_bind]
  dsimp only
  rw [mkdir_text (slashed_noZero hzero), ok_bind, List.map_append, List.map_singleton]
  dsimp only
  split <;> rfl

end AlibC
