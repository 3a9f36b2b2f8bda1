import AlibC.AlibString
import AlibC.Lib.CString
import Mathlib.Data.List.DropRight

/-! The name of a file in its path, and the search from the end that looks for it. -/
namespace AlibC

open CLang

/-- The loop of `find_last_char_count` in the string at position `str`, with `n` places of it to go.
The last place it comes to is the one in front of the string. -/
def findLastCharLoop (blk : Block) (str : Nat) (c : UInt8) : Nat → Outcome (Option Nat)
  | 0 =>
    if str = 0 then .error .outOfBounds
    else do
      let b ← load (some blk) (str - 1) 1
      if b = [c] then return some (str - 1) else return none
  | n + 1 => do
    let b ← load (some blk) (str + n) 1
    if b = [c] then return some (str + n) else findLastCharLoop blk str c n

/-- It begins at `str + count`, behind the characters that are asked for. -/
def findLastCharCount (blk : Option Block) (str : Nat) (c : UInt8) (count : Nat) :
    Outcome (Option Nat) :=
  match blk with
  | none => .ok none
  | some blk => findLastCharLoop blk str c (count + 1)

/-- What `file_name_from_path_count` does after its first search: the backslash is looked for behind
a slash that was found, or in the whole path. -/
def lastBackslash (blk : Option Block) (path count : Nat) : Option Nat → Outcome (Option Nat)
  | some pathIt => do
    let backslash ← findLastCharCount blk pathIt 92 (sizeSub count (toSize (pathIt - path)))
    return some (backslash.getD pathIt)
  | none => findLastCharCount blk path 92 count

def fileNameFromPathCount (blk : Option Block) (path count : Nat) : Outcome (Option Nat) :=
  match blk with
  | none => .ok none
  | some cells => do
    let count ← if count = 0 then strlen (some (cells.drop path)) else .ok count
    let slash ← findLastCharCount blk path 47 count
    let pathIt ← lastBackslash blk path count slash
    return some (pathIt.elim path (· + 1))

def fileNameFromPath (blk : Option Block) (path : Nat) : Outcome (Option Nat) := do
  let count ← strlen (blk.map (·.drop path))
  fileNameFromPathCount blk path count

/-- A slash or a backslash. -/
def isDelimiter (c : UInt8) : Bool := c == 47 || c == 92

/-- Where the name begins in a path: behind the last delimiter. -/
def nameStart (s : Block) : Nat := (s.rdropWhile fun c => !isDelimiter c).length

variable {blk pre mid post : Block} {c : UInt8} {str : Nat}

theorem rdropWhile_append_of_all {p : UInt8 → Bool} (s : Block) {t : Block}
    (h : ∀ b ∈ t, p b = true) : (s ++ t).rdropWhile p = s.rdropWhile p := by
  induction t using List.reverseRecOn with
  | nil => rw [List.append_nil]
  | append_singleton t b ih =>
    rw [← List.append_assoc, List.rdropWhile_concat_pos _ _ _ (h b (by simp)),
      ih fun d hd => h d (List.mem_append_left _ hd)]

theorem not_delimiter_of_mem (h47 : 47 ∉ post) (h92 : 92 ∉ post) :
    ∀ b ∈ post, isDelimiter b = false := by
  intro b hb
  have hb47 : b ≠ 47 := fun h => h47 (h ▸ hb)
  have hb92 : b ≠ 92 := fun h => h92 (h ▸ hb)
  simp [isDelimiter, hb47, hb92]

theorem nameStart_append (hc : isDelimiter c = true) (hpost : ∀ b ∈ post, isDelimiter b = false) :
    nameStart (pre ++ c :: post) = pre.length + 1 := by
  have hsplit : pre ++ c :: post = pre ++ [c] ++ post := by simp
  rw [nameStart, hsplit, rdropWhile_append_of_all _ fun b hb => by rw [hpost b hb]; rfl,
    List.rdropWhile_concat_neg _ _ _ (by rw [hc]; exact Bool.false_ne_true), List.length_append]
  rfl

theorem nameStart_le (s : Block) : nameStart s ≤ s.length :=
  (List.rdropWhile_prefix _ _).length_le

theorem load_byte (h : blk = pre ++ c :: post) : load (some blk) pre.length 1 = .ok [c] := by
  rw [h, load_some (by simp), List.drop_left]
  rfl

/-- The search passes over other characters. -/
theorem findLastCharLoop_skip {k : Nat} (hk : pre.length = str + k) (hmid : c ∉ mid) :
    ∀ {post : Block}, blk = pre ++ mid ++ post →
      findLastCharLoop blk str c (k + mid.length) = findLastCharLoop blk str c k := by
  induction mid using List.reverseRecOn with
  | nil => intro post _; rfl
  | append_singleton mid d ih =>
    intro post hblk
    rw [List.mem_append, not_or, List.mem_singleton] at hmid
    have hload := load_byte (show blk = (pre ++ mid) ++ d :: post by rw [hblk]; simp)
    rw [List.length_append, hk, Nat.add_assoc] at hload
    have hne : ¬[d] = [c] := fun h => hmid.2 (List.cons.inj h).1.symm
    rw [List.length_append, List.length_singleton, ← Nat.add_assoc, findLastCharLoop, hload,
      ok_bind, if_neg hne]
    exact @ih hmid.1 (d :: post) (by rw [hblk]; simp)

/-- It ends at the last one that is looked for. -/
theorem findLastCharLoop_hit {k : Nat} (hk : pre.length = str + k) (hmid : c ∉ mid)
    (hblk : blk = pre ++ c :: (mid ++ post)) :
    findLastCharLoop blk str c (k + 1 + mid.length) = .ok (some (str + k)) := by
  have hpre : (pre ++ [c]).length = str + (k + 1) := by
    rw [List.length_append, List.length_singleton, hk, Nat.add_assoc]
  have hload := load_byte hblk
  rw [hk] at hload
  rw [findLastCharLoop_skip hpre hmid (show blk = pre ++ [c] ++ mid ++ post by rw [hblk]; simp),
    findLastCharLoop, hload, ok_bind, if_pos rfl]
  rfl

/-- Where it finds none in the string, the character in front of the string decides. -/
theorem findLastCharLoop_front {d : UInt8} (hmid : c ∉ mid)
    (hblk : blk = pre ++ d :: (mid ++ post)) :
    findLastCharLoop blk (pre.length + 1) c mid.length =
      .ok (if d = c then some pre.length else none) := by
  have hpre : (pre ++ [d]).length = pre.length + 1 + 0 := by
    rw [List.length_append, List.length_singleton]
  have hskip := findLastCharLoop_skip hpre hmid
    (show blk = pre ++ [d] ++ mid ++ post by rw [hblk]; simp)
  rw [Nat.zero_add] at hskip
  rw [hskip, findLastCharLoop, if_neg (Nat.succ_ne_zero _), Nat.add_sub_cancel, load_byte hblk,
    ok_bind]
  simp only [List.cons.injEq, and_true]
  split <;> rfl

/-- In front of a string at the beginning of the memory there is nothing. -/
theorem findLastCharLoop_fault (hmid : c ∉ mid) (hblk : blk = mid ++ post) :
    findLastCharLoop blk 0 c mid.length = .error .outOfBounds := by
  have hskip := @findLastCharLoop_skip blk [] mid c 0 0 rfl hmid post hblk
  rw [Nat.zero_add] at hskip
  rw [hskip, findLastCharLoop, if_pos rfl]

section NamesWithin

variable {s before rest : Block} {count : Nat}

/-- What the function has to give for a terminated path that begins with the characters `s`, whatever
lies in front of it, also when nothing does, and whatever comes behind `s`. -/
def NamesWithin (s : Block) (count : Nat) : Prop :=
  ∀ before rest : Block, 0 ∈ rest → (count = 0 → rest.head? = some 0) →
    fileNameFromPathCount (some (before ++ s ++ rest)) before.length count =
      .ok (some (before.length + nameStart s))

/-- Some slash is the last one, and a backslash comes behind it or something else than a backslash
directly in front of it. -/
def SlashSettles (s : Block) : Prop :=
  ∃ pre post, s = pre ++ 47 :: post ∧ 47 ∉ post ∧
    (92 ∈ post ∨ ∃ front c, pre = front ++ [c] ∧ c ≠ 92)

theorem exists_last {c : UInt8} {s : Block} (h : c ∈ s) :
    ∃ pre post, s = pre ++ c :: post ∧ c ∉ post := by
  obtain ⟨pre, post, hs, hpre⟩ := List.eq_append_cons_of_mem (List.mem_reverse.mpr h)
  refine ⟨post.reverse, pre.reverse, ?_, fun hm => hpre (List.mem_reverse.mp hm)⟩
  rw [← List.reverse_reverse s, hs]
  simp

/-- The two searches when the length is taken from the terminator. -/
theorem fileNameFromPathCount_zero (h0 : 0 ∉ s) :
    fileNameFromPathCount (some (before ++ s ++ 0 :: rest)) before.length 0 = (do
      let slash ← findLastCharLoop (before ++ s ++ 0 :: rest) before.length 47 (s.length + 1)
      let pathIt ← lastBackslash (some (before ++ s ++ 0 :: rest)) before.length s.length slash
      return some (pathIt.elim before.length (· + 1))) := by
  have hlen : strlen (some ((before ++ s ++ 0 :: rest).drop before.length)) = .ok s.length := by
    rw [List.append_assoc, List.drop_left, strlen_eq h0]
  simp only [fileNameFromPathCount, hlen, ok_bind]
  rfl

/-- The second search begins at the slash and goes on to the end of the string. -/
theorem lastBackslash_some (pre post : Block) (hobj : (pre ++ 47 :: post).length ≤ PTRDIFF_MAX)
    (blk : Block) (path : Nat) :
    lastBackslash (some blk) path (pre ++ 47 :: post).length (some (path + pre.length)) = (do
      let backslash ← findLastCharLoop blk (path + pre.length) 92 (post.length + 2)
      return some (backslash.getD (path + pre.length))) := by
  unfold PTRDIFF_MAX at hobj
  rw [List.length_append, List.length_cons] at hobj ⊢
  have hoff : ((path + pre.length : Nat) : Int) - path = (pre.length : Nat) := by omega
  have hrest : sizeSub (pre.length + (post.length + 1)) pre.length + 1 = post.length + 2 := by
    rw [sizeSub_eq (by omega) (by omega)]
    omega
  simp only [lastBackslash, findLastCharCount]
  rw [hoff, toSize_nat (by omega), hrest]

/-- A backslash behind the last slash, and none behind it. -/
theorem fileName_backslash {pre p q : Block} (h0 : 0 ∉ pre ++ 47 :: (p ++ 92 :: q))
    (hp : 47 ∉ p ++ 92 :: q) (hq : 92 ∉ q)
    (hobj : (pre ++ 47 :: (p ++ 92 :: q)).length ≤ PTRDIFF_MAX) :
    fileNameFromPathCount (some (before ++ (pre ++ 47 :: (p ++ 92 :: q)) ++ 0 :: rest))
      before.length 0 =
      .ok (some (before.length + nameStart (pre ++ 47 :: (p ++ 92 :: q)))) := by
  have hslash := @findLastCharLoop_hit (before ++ (pre ++ 47 :: (p ++ 92 :: q)) ++ 0 :: rest)
    (before ++ pre) (p ++ 92 :: q ++ [0]) rest 47 before.length pre.length
    (List.length_append) (by simpa using hp) (by simp)
  have hback := @findLastCharLoop_hit (before ++ (pre ++ 47 :: (p ++ 92 :: q)) ++ 0 :: rest)
    (before ++ pre ++ 47 :: p) (q ++ [0]) rest 92 (before.length + pre.length) (p.length + 1)
    (by simp only [List.length_append, List.length_cons]) (by simpa using hq) (by simp)
  have hn : pre.length + 1 + (p ++ 92 :: q ++ [0]).length =
      (pre ++ 47 :: (p ++ 92 :: q)).length + 1 := by
    simp only [List.length_append, List.length_cons, List.length_nil]
    omega
  have hm : p.length + 1 + 1 + (q ++ [0]).length = (p ++ 92 :: q).length + 2 := by
    simp only [List.length_append, List.length_cons, List.length_nil]
    omega
  rw [hn] at hslash
  rw [hm] at hback
  have hspec : nameStart (pre ++ 47 :: (p ++ 92 :: q)) = pre.length + 1 + p.length + 1 := by
    have hsplit : pre ++ 47 :: (p ++ 92 :: q) = (pre ++ 47 :: p) ++ 92 :: q := by simp
    have h47 : 47 ∉ q := fun h => hp (List.mem_append_right p (List.mem_cons_of_mem 92 h))
    rw [hsplit, nameStart_append rfl (not_delimiter_of_mem h47 hq), List.length_append,
      List.length_cons]
    omega
  rw [fileNameFromPathCount_zero h0, hslash, ok_bind, lastBackslash_some _ _ hobj, hback, ok_bind,
    hspec]
  simp only [Option.getD_some, Option.elim_some, pure_ok, ok_bind]
  congr 2
  omega

/-- No backslash behind the last slash: the character in front of that slash is looked at too. -/
theorem fileName_slash {front post : Block} {c : UInt8} (h0 : 0 ∉ front ++ [c] ++ 47 :: post)
    (h47 : 47 ∉ post) (h92 : 92 ∉ post)
    (hobj : (front ++ [c] ++ 47 :: post).length ≤ PTRDIFF_MAX) :
    fileNameFromPathCount (some (before ++ (front ++ [c] ++ 47 :: post) ++ 0 :: rest))
      before.length 0 =
      .ok (some (before.length + (front.length + if c = 92 then 1 else 2))) := by
  have hslash := @findLastCharLoop_hit (before ++ (front ++ [c] ++ 47 :: post) ++ 0 :: rest)
    (before ++ (front ++ [c])) (post ++ [0]) rest 47 before.length (front ++ [c]).length
    (List.length_append) (by simpa using h47) (by simp)
  have hback := @findLastCharLoop_front (before ++ (front ++ [c] ++ 47 :: post) ++ 0 :: rest)
    (before ++ front) (47 :: post ++ [0]) rest 92 c (by simpa using h92) (by simp)
  have hn : (front ++ [c]).length + 1 + (post ++ [0]).length =
      (front ++ [c] ++ 47 :: post).length + 1 := by
    simp only [List.length_append, List.length_cons, List.length_nil]
    omega
  have hm : (47 :: post ++ [0]).length = post.length + 2 := by
    rw [List.length_append, List.length_cons, List.length_singleton]
  have hat : (before ++ front).length + 1 = before.length + (front ++ [c]).length := by
    simp only [List.length_append, List.length_cons, List.length_nil]
    omega
  rw [hn] at hslash
  rw [hm, hat] at hback
  rw [fileNameFromPathCount_zero h0, hslash, ok_bind, lastBackslash_some _ _ hobj, hback, ok_bind]
  by_cases hc : c = 92
  · rw [if_pos hc, if_pos hc]
    simp only [Option.getD_some, Option.elim_some, pure_ok, ok_bind, List.length_append]
    congr 2
  · rw [if_neg hc, if_neg hc]
    simp only [Option.getD_none, Option.elim_some, pure_ok, ok_bind, List.length_append,
      List.length_singleton]
    congr 2

/-- A path without a slash has its front looked at. -/
theorem fileName_fault (h0 : 0 ∉ s) (h47 : 47 ∉ s) :
    fileNameFromPathCount (some ([] ++ s ++ 0 :: rest)) 0 0 = .error .outOfBounds := by
  have hmid : 47 ∉ s ++ [0] := by simpa using h47
  have hfault := @findLastCharLoop_fault ([] ++ s ++ 0 :: rest) (s ++ [0]) rest 47 hmid (by simp)
  rw [List.length_append, List.length_singleton] at hfault
  have hzero := @fileNameFromPathCount_zero s [] rest h0
  rw [List.length_nil, hfault] at hzero
  exact hzero

/-- So has one in which the last slash comes first and no backslash comes behind it. -/
theorem fileName_root_fault {post : Block} (h0 : 0 ∉ 47 :: post) (h47 : 47 ∉ post)
    (h92 : 92 ∉ post) (hobj : (47 :: post).length ≤ PTRDIFF_MAX) :
    fileNameFromPathCount (some ([] ++ 47 :: post ++ 0 :: rest)) 0 0 = .error .outOfBounds := by
  have hslash := @findLastCharLoop_hit ([] ++ 47 :: post ++ 0 :: rest) [] (post ++ [0]) rest 47 0 0
    rfl (by simpa using h47) (by simp)
  have hfault := @findLastCharLoop_fault ([] ++ 47 :: post ++ 0 :: rest) (47 :: post ++ [0]) rest 92
    (by simpa using h92) (by simp)
  have hn : 0 + 1 + (post ++ [0]).length = (47 :: post).length + 1 := by
    rw [List.length_append, List.length_singleton, List.length_cons]
    omega
  have hm : (47 :: post ++ [0]).length = post.length + 2 := by
    rw [List.length_append, List.length_cons, List.length_singleton]
  rw [hn] at hslash
  rw [hm] at hfault
  have hzero := @fileNameFromPathCount_zero (47 :: post) [] rest h0
  have hback : lastBackslash (some ([] ++ 47 :: post ++ 0 :: rest)) 0 (47 :: post).length
      (some (0 + 0)) = .error .outOfBounds :=
    (lastBackslash_some [] post hobj ([] ++ 47 :: post ++ 0 :: rest) 0).trans
      (by rw [List.length_nil, Nat.add_zero, hfault]; rfl)
  rw [List.length_nil, hslash, ok_bind, hback] at hzero
  exact hzero

/-- A backslash directly behind the characters that are asked for is taken for one of them. -/
theorem fileName_beyond (hs : s ≠ []) (hobj : s.length ≤ PTRDIFF_MAX) :
    fileNameFromPathCount (some ([] ++ s ++ [92, 0])) 0 s.length ≠ .ok (some (0 + nameStart s)) := by
  have hcount : s.length ≠ 0 := fun h => hs (List.eq_nil_of_length_eq_zero h)
  have hle := nameStart_le s
  have hrun : fileNameFromPathCount (some ([] ++ s ++ [92, 0])) 0 s.length = (do
      let slash ← findLastCharLoop ([] ++ s ++ [92, 0]) 0 47 (s.length + 1)
      let pathIt ← lastBackslash (some ([] ++ s ++ [92, 0])) 0 s.length slash
      return some (pathIt.elim 0 (· + 1))) := by
    simp only [fileNameFromPathCount, if_neg hcount, ok_bind]
    rfl
  by_cases hmem : 47 ∈ s
  · obtain ⟨pre, post, rfl, hpost⟩ := exists_last hmem
    have hslash := @findLastCharLoop_hit ([] ++ (pre ++ 47 :: post) ++ [92, 0]) pre (post ++ [92])
      [0] 47 0 pre.length (Nat.zero_add _).symm (by simpa using hpost) (by simp)
    have hback := @findLastCharLoop_hit ([] ++ (pre ++ 47 :: post) ++ [92, 0]) (pre ++ 47 :: post) []
      [0] 92 (0 + pre.length) (post.length + 1)
      (by rw [List.length_append, List.length_cons, Nat.zero_add]) (by simp) (by simp)
    have hn : pre.length + 1 + (post ++ [92]).length = (pre ++ 47 :: post).length + 1 := by
      simp only [List.length_append, List.length_cons, List.length_nil]
      omega
    rw [hn] at hslash
    rw [List.length_nil, Nat.add_zero] at hback
    rw [hrun, hslash, ok_bind, lastBackslash_some _ _ hobj, hback, ok_bind]
    simp only [Option.getD_some, Option.elim_some, pure_ok, ok_bind]
    rw [List.length_append, List.length_cons] at hle
    intro heq
    have hat := Option.some.inj (Except.ok.inj heq)
    omega
  · have hfault := @findLastCharLoop_fault ([] ++ s ++ [92, 0]) (s ++ [92]) [0] 47
      (by simpa using hmem) (by simp)
    rw [List.length_append, List.length_singleton] at hfault
    rw [hrun, hfault]
    exact nofun

/-- The name is found from the characters asked for alone exactly when their number is left to the
terminator and a slash settles both searches. -/
theorem namesWithin_iff (h0 : 0 ∉ s) (hobj : s.length ≤ PTRDIFF_MAX)
    (hcount : count = 0 ∨ count = s.length) :
    NamesWithin s count ↔ count = 0 ∧ SlashSettles s := by
  constructor
  · intro hnames
    have hzero : count = 0 := by
      by_contra hne
      obtain rfl : count = s.length := by omega
      have hs : s ≠ [] := fun h => hne (congrArg List.length h)
      exact fileName_beyond hs hobj (hnames [] [92, 0] (by simp) fun h => absurd h hne)
    subst hzero
    have hrun := hnames [] [0] (by simp) fun _ => rfl
    refine ⟨rfl, ?_⟩
    by_cases h47 : 47 ∈ s
    · obtain ⟨pre, post, rfl, hpost⟩ := exists_last h47
      refine ⟨pre, post, rfl, hpost, or_iff_not_imp_left.mpr fun h92 => ?_⟩
      rcases List.eq_nil_or_concat pre with rfl | ⟨front, c, rfl⟩
      · rw [List.nil_append] at hrun h0 hobj
        rw [List.length_nil, fileName_root_fault h0 hpost h92 hobj] at hrun
        cases hrun
      · refine ⟨front, c, List.concat_eq_append, fun hc => ?_⟩
        rw [List.concat_eq_append] at hrun h0 hobj
        have hspec : nameStart (front ++ [c] ++ 47 :: post) = (front ++ [c]).length + 1 :=
          nameStart_append rfl (not_delimiter_of_mem hpost h92)
        rw [fileName_slash h0 hpost h92 hobj, if_pos hc, hspec, List.length_append,
          List.length_singleton] at hrun
        have hat := Option.some.inj (Except.ok.inj hrun)
        omega
    · rw [List.length_nil, fileName_fault h0 h47] at hrun
      cases hrun
  · rintro ⟨rfl, pre, post, rfl, hpost, hcase⟩ before rest - hrest
    obtain ⟨rest, rfl⟩ : ∃ t, rest = 0 :: t := by
      cases rest with
      | nil => cases hrest rfl
      | cons b t => exact ⟨t, by cases hrest rfl; rfl⟩
    by_cases h92 : 92 ∈ post
    · obtain ⟨p, q, rfl, hq⟩ := exists_last h92
      exact fileName_backslash h0 hpost hq hobj
    · obtain ⟨front, c, rfl, hc⟩ := hcase.resolve_left h92
      have hspec : nameStart (front ++ [c] ++ 47 :: post) = (front ++ [c]).length + 1 :=
        nameStart_append rfl (not_delimiter_of_mem hpost h92)
      rw [fileName_slash h0 hpost h92 hobj, if_neg hc, hspec, List.length_append,
        List.length_singleton]

theorem namesWithin_dir : NamesWithin [97, 47, 98] 0 ↔ 0 = 0 ∧ SlashSettles [97, 47, 98] :=
  namesWithin_iff (by decide) (by decide) (.inl rfl)

/-- In `a/b` the character behind the first one is taken for a delimiter of it, and in `a\/b` the
name begins with the slash. -/
theorem fileName_wrong :
    fileNameFromPathCount (some [97, 47, 98, 0]) 0 1 = .ok (some 2) ∧ nameStart [97] = 0 ∧
    ¬NamesWithin [97] 1 ∧
    fileNameFromPathCount (some [97, 92, 47, 98, 0]) 0 0 = .ok (some 2) ∧
    nameStart [97, 92, 47, 98] = 3 := by
  refine ⟨by decide, by decide, fun h => ?_, by decide, by decide⟩
  have hrun := h [] [47, 98, 0] (by simp) nofun
  revert hrun
  decide

end NamesWithin

end AlibC
