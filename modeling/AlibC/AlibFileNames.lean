import AlibC.AlibString
import AlibC.Error
import AlibC.Lib.Block
import AlibC.Lib.Slots

/-! `get_all_file_names`: the entries of a directory are counted in one scan, and their names are
collected in another one, which may find other entries. -/
namespace AlibC

open CLang

/-- `d_type`: `DT_REG`, `DT_DIR`, or something else. -/
inductive DType where
  | reg | dir | other
deriving DecidableEq, Repr

/-- An entry with the characters of its name. -/
structure Dirent where
  type : DType
  name : Block
deriving DecidableEq, Repr

/-- `*dir->d_name == '.'` -/
def Dirent.hidden (dir : Dirent) : Bool := dir.name.head? == some 46

/-- What a scan of a directory finds, `none` if it does not open. -/
abbrev Listing := Option (List Dirent)

/-- An array of C strings. -/
abbrev Names := List (Option Block)

section Scans

variable (al : Alloc UInt8) (includeDirectories includeHidden : Bool)

/-- The loop of `get_file_count`. -/
def countLoop : List Dirent → Int → Outcome Int
  | [], fileCount => .ok fileCount
  | dir :: rest, fileCount =>
    if dir.type = .reg then
      if !includeHidden && dir.hidden then countLoop rest fileCount
      else do
        let fileCount ← checkInt (fileCount + 1)
        countLoop rest fileCount
    else if dir.type = .dir ∧ includeDirectories then do
      let fileCount ← checkInt (fileCount + 1)
      countLoop rest fileCount
    else countLoop rest fileCount

/-- `directory` is what the scan finds, `none` if the pointer is `NULL`. -/
def getFileCount : Option Listing → Outcome Int
  | none => .ok (-1)
  | some none => .ok AlibError.fileOpenErr.code
  | some (some entries) => countLoop includeDirectories includeHidden entries 0

/-- `*file_name_it = name;` -/
def storeName (names : Names) (it : Nat) (name : Option Block) : Outcome Names := do
  let p ← store (some names) it [name]
  return p.getD []

/-- The loop of `get_all_file_names`. The counter that ends it counts up. -/
def collectLoop : List Dirent → Int → Nat → Names → Outcome (AlibError × Names)
  | [], _, _, names => .ok (.ok, names)
  | dir :: rest, counter, it, names =>
    if counter ≤ 0 then .ok (.ok, names)
    else if dir.type = .reg ∨ includeDirectories ∧ dir.type = .dir then
      if dir.hidden && !includeHidden then collectLoop rest counter it names
      else do
        let name := al.block (dir.name.length + 1)
        let names ← storeName names it name
        match name with
        | none => return (.memErr, names)
        | some blk => do
          let name ← store (some blk) 0 (dir.name ++ [0])
          let names ← storeName names it name
          let counter ← checkInt (counter + 1)
          collectLoop rest counter (it + 1) names
    else collectLoop rest counter it names

/-- `for(file_name_it = *r_file_names; *file_name_it != NULL; ++file_name_it)free(*file_name_it);` -/
def freeNames : Names → Outcome Unit
  | [] => .error .outOfBounds
  | none :: _ => .ok ()
  | some _ :: rest => freeNames rest

/-- `directory` is what the two scans find, and `rFileNames` what `r_file_names` points to, `none` if it
is `NULL`. `grants` tells which requests `calloc` fulfils. -/
def getAllFileNames (grants : Nat → Bool) (directory : Option (Listing × Listing))
    (rFileNames : Option (Option Names)) : Outcome (Int × Option (Option Names)) := do
  let fileCount ← getFileCount includeDirectories includeHidden (directory.map Prod.fst)
  if fileCount < 0 ∨ rFileNames = none then return (AlibError.badArg.code, rFileNames)
  else if fileCount = 0 then return (fileCount, some none)
  else if !grants fileCount.toNat then return (AlibError.memErr.code, some none)
  else
    let names := List.replicate fileCount.toNat none
    match directory.bind Prod.snd with
    | none => do
      freeNames names
      return (AlibError.fileOpenErr.code, some none)
    | some entries => do
      let (err, names) ← collectLoop al includeDirectories includeHidden entries fileCount 0 names
      if err ≠ .ok then do
        freeNames names
        return (err.code, some none)
      else return (fileCount, some (some names))

end Scans

/-- The entries that the first scan counts. -/
def counted (includeDirectories includeHidden : Bool) (dir : Dirent) : Bool :=
  dir.type = .reg ∧ (includeHidden ∨ !dir.hidden) ∨ dir.type = .dir ∧ includeDirectories

/-- The entries whose names the flags admit, which the second scan collects. -/
def admitted (includeDirectories includeHidden : Bool) (dir : Dirent) : Bool :=
  (dir.type = .reg ∨ includeDirectories ∧ dir.type = .dir) ∧ (includeHidden ∨ !dir.hidden)

def admittedNames (includeDirectories includeHidden : Bool) (entries : List Dirent) : List Block :=
  (entries.filter (admitted includeDirectories includeHidden)).map fun dir => dir.name ++ [0]

section Counting

variable {includeDirectories includeHidden : Bool} {dir : Dirent} {entries rest : List Dirent}

theorem counted_of_admitted (h : admitted includeDirectories includeHidden dir = true) :
    counted includeDirectories includeHidden dir = true := by
  rw [admitted, decide_eq_true_eq] at h
  rw [counted, decide_eq_true_eq]
  obtain ⟨htype | ⟨hdirs, htype⟩, hhidden⟩ := h
  · exact .inl ⟨htype, hhidden⟩
  · exact .inr ⟨htype, hdirs⟩

theorem length_admittedNames : (admittedNames includeDirectories includeHidden entries).length =
    entries.countP (admitted includeDirectories includeHidden) := by
  rw [admittedNames, List.length_map, List.countP_eq_length_filter]

theorem countLoop_cons (dir : Dirent) (rest : List Dirent) (n : Int) :
    countLoop includeDirectories includeHidden (dir :: rest) n =
      if counted includeDirectories includeHidden dir then
        checkInt (n + 1) >>= countLoop includeDirectories includeHidden rest
      else countLoop includeDirectories includeHidden rest n := by
  rw [countLoop, counted]
  by_cases hreg : dir.type = .reg
  · cases includeHidden <;> cases dir.hidden <;> simp [hreg]
  · cases includeDirectories <;> by_cases hdir : dir.type = .dir <;> simp [hreg, hdir]

/-- The first scan returns the number of the entries that it counts. -/
theorem countLoop_eq (entries : List Dirent) : ∀ n : Nat,
    n + entries.countP (counted includeDirectories includeHidden) < 2 ^ 31 →
      countLoop includeDirectories includeHidden entries n =
        .ok ((n + entries.countP (counted includeDirectories includeHidden) : Nat) : Int) := by
  induction entries with
  | nil => exact fun n _ => rfl
  | cons dir rest ih =>
    intro n hn
    rw [countLoop_cons]
    by_cases hc : counted includeDirectories includeHidden dir = true
    · rw [List.countP_cons_of_pos hc] at hn ⊢
      rw [if_pos hc, ← Int.natCast_succ, checkInt_eq (by omega), ok_bind, ih _ (by omega)]
      congr 2
      omega
    · rw [List.countP_cons_of_neg hc] at hn ⊢
      rw [if_neg hc, ih _ hn]

/-- More entries than an `int` can count. -/
theorem countLoop_overflow (entries : List Dirent) : ∀ n : Nat, n < 2 ^ 31 →
    2 ^ 31 ≤ n + entries.countP (counted includeDirectories includeHidden) →
      countLoop includeDirectories includeHidden entries n = .error .overflow := by
  induction entries with
  | nil =>
    intro n hlt hn
    rw [List.countP_nil] at hn
    omega
  | cons dir rest ih =>
    intro n hlt hn
    rw [countLoop_cons]
    by_cases hc : counted includeDirectories includeHidden dir = true
    · rw [List.countP_cons_of_pos hc] at hn
      rw [if_pos hc, ← Int.natCast_succ]
      by_cases hlast : n + 1 < 2 ^ 31
      · rw [checkInt_eq (Nat.le_of_lt_succ hlast), ok_bind]
        exact ih _ hlast (by omega)
      · rw [checkInt_overflow (by omega), error_bind]
    · rw [List.countP_cons_of_neg hc] at hn
      rw [if_neg hc]
      exact ih _ hlt hn

end Counting

section Collecting

variable {al : Alloc UInt8} {includeDirectories includeHidden : Bool} {dir : Dirent}
  {rest : List Dirent} {c : Nat} {done : List Block} {post : Names}

theorem storeName_cell (cell name : Option Block) :
    storeName (done.map some ++ cell :: post) done.length name =
      .ok (done.map some ++ name :: post) := by
  have h := store_cell (d := name) (rfl : done.map some ++ cell :: post = _)
  rw [List.length_map] at h
  rw [storeName, h]
  rfl

theorem collectLoop_cons (hc : 0 < c) (it : Nat) (names : Names) :
    collectLoop al includeDirectories includeHidden (dir :: rest) c it names =
      if admitted includeDirectories includeHidden dir then
        storeName names it (al.block (dir.name.length + 1)) >>= fun names =>
          match al.block (dir.name.length + 1) with
          | none => .ok (.memErr, names)
          | some blk =>
            store (some blk) 0 (dir.name ++ [0]) >>= fun name =>
            storeName names it name >>= fun names =>
            checkInt (c + 1) >>= fun counter =>
            collectLoop al includeDirectories includeHidden rest counter (it + 1) names
      else collectLoop al includeDirectories includeHidden rest c it names := by
  have hskip : (dir.hidden && !includeHidden) = true ↔
      ¬(includeHidden = true ∨ (!dir.hidden) = true) := by
    cases includeHidden <;> cases dir.hidden <;> simp
  rw [collectLoop, if_neg (by omega), admitted]
  by_cases htype : dir.type = .reg ∨ includeDirectories = true ∧ dir.type = .dir
  · rw [if_pos htype]
    by_cases hshown : includeHidden = true ∨ (!dir.hidden) = true
    · rw [if_neg (mt hskip.mp (not_not.mpr hshown)), if_pos (decide_eq_true ⟨htype, hshown⟩)]
      rfl
    · rw [if_pos (hskip.mpr hshown), if_neg (mt of_decide_eq_true fun h => hshown h.2)]
  · rw [if_neg htype, if_neg (mt of_decide_eq_true fun h => htype h.1)]

/-- A name for which there is memory and a slot is stored. -/
theorem collectLoop_stored {blk : Block} (hc : 0 < c)
    (hadm : admitted includeDirectories includeHidden dir = true)
    (hblock : al.block (dir.name.length + 1) = some blk) :
    collectLoop al includeDirectories includeHidden (dir :: rest) c done.length
        (done.map some ++ none :: post) =
      checkInt ((c + 1 : Nat) : Int) >>= fun counter =>
        collectLoop al includeDirectories includeHidden rest counter
          (done ++ [dir.name ++ [0]]).length ((done ++ [dir.name ++ [0]]).map some ++ post) := by
  have hlen : (dir.name ++ [0]).length = blk.length := by
    rw [al.length_block hblock, List.length_append, List.length_singleton]
  rw [collectLoop_cons hc, if_pos hadm, storeName_cell, ok_bind, hblock]
  dsimp only
  rw [store_some (by omega), ok_bind, overwrite_all hlen, storeName_cell, ok_bind, Int.natCast_succ,
    List.length_append, List.length_singleton, List.map_append, List.append_assoc]
  rfl

theorem collectLoop_skipped (hc : 0 < c)
    (hadm : ¬admitted includeDirectories includeHidden dir = true) (it : Nat) (names : Names) :
    collectLoop al includeDirectories includeHidden (dir :: rest) c it names =
      collectLoop al includeDirectories includeHidden rest c it names := by
  rw [collectLoop_cons hc, if_neg hadm]

/-- How the second scan ends: with the names of all entries that are admitted, or without memory for
one, whose slot is `NULL` then. -/
inductive Collects (al : Alloc UInt8) (names : List Block) (free : Nat) :
    AlibError × Names → Prop where
  | all : Collects al names free (.ok, names.map some ++ List.replicate free none)
  | refused (done : List Block) (post : Names) {n : Nat} : al.block n = none →
      Collects al names free (.memErr, done.map some ++ none :: post)

/-- Names for which there are slots are collected. -/
theorem collectLoop_ends (entries : List Dirent) : ∀ {c free : Nat} {done : List Block}, 0 < c →
    c + entries.countP (admitted includeDirectories includeHidden) < 2 ^ 31 →
    entries.countP (admitted includeDirectories includeHidden) ≤ free →
    ∃ r, collectLoop al includeDirectories includeHidden entries c done.length
        (done.map some ++ List.replicate free none) = .ok r ∧
      Collects al (done ++ admittedNames includeDirectories includeHidden entries)
        (free - entries.countP (admitted includeDirectories includeHidden)) r := by
  induction entries with
  | nil =>
    intro c free done _ _ _
    refine ⟨_, rfl, ?_⟩
    rw [admittedNames, List.filter_nil, List.map_nil, List.append_nil]
    exact .all
  | cons dir rest ih =>
    intro c free done hpos hc hfree
    by_cases hadm : admitted includeDirectories includeHidden dir = true
    · rw [List.countP_cons_of_pos hadm] at hc hfree ⊢
      obtain ⟨free, rfl⟩ := Nat.exists_eq_add_of_le' (Nat.le_of_add_left_le hfree)
      rw [List.replicate_succ]
      cases hblock : al.block (dir.name.length + 1) with
      | none =>
        refine ⟨_, ?_, .refused done (List.replicate free none) hblock⟩
        rw [collectLoop_cons hpos, if_pos hadm, storeName_cell, ok_bind, hblock]
      | some blk =>
        obtain ⟨r, hrun, hr⟩ := @ih (c + 1) free (done ++ [dir.name ++ [0]]) (by omega) (by omega)
          (by omega)
        refine ⟨r, ?_, ?_⟩
        · rw [collectLoop_stored hpos hadm hblock, checkInt_eq (by omega), ok_bind]
          exact hrun
        · rw [admittedNames, List.filter_cons_of_pos hadm, List.map_cons, Nat.add_sub_add_right]
          rw [List.append_assoc] at hr
          exact hr
    · rw [List.countP_cons_of_neg hadm] at hc hfree ⊢
      rw [collectLoop_skipped hpos hadm, admittedNames, List.filter_cons_of_neg hadm]
      exact ih hpos hc hfree

/-- One name more than there are slots is stored behind them, and a counter that only grows overflows. -/
theorem collectLoop_faults (hal : al.Succeeds) (entries : List Dirent) :
    ∀ {c free : Nat} {done : List Block}, 0 < c → c < 2 ^ 31 →
      (free < entries.countP (admitted includeDirectories includeHidden) ∨
        2 ^ 31 ≤ c + entries.countP (admitted includeDirectories includeHidden)) →
      ∃ e, collectLoop al includeDirectories includeHidden entries c done.length
        (done.map some ++ List.replicate free none) = .error e := by
  induction entries with
  | nil =>
    intro c free done _ hc h
    rw [List.countP_nil] at h
    omega
  | cons dir rest ih =>
    intro c free done hpos hc h
    by_cases hadm : admitted includeDirectories includeHidden dir = true
    · rw [List.countP_cons_of_pos hadm] at h
      cases free with
      | zero =>
        refine ⟨.outOfBounds, ?_⟩
        rw [collectLoop_cons hpos, if_pos hadm, storeName, List.replicate_zero, List.append_nil, store,
          if_neg (by simp), deref_some, ok_bind, if_neg (by simp)]
        rfl
      | succ free =>
        obtain ⟨blk, hblock, -⟩ := hal.exists_block (dir.name.length + 1)
        rw [List.replicate_succ, collectLoop_stored hpos hadm hblock]
        by_cases hlast : c + 1 < 2 ^ 31
        · rw [checkInt_eq (Nat.le_of_lt_succ hlast), ok_bind]
          exact ih (by omega) hlast (by omega)
        · exact ⟨.overflow, by rw [checkInt_overflow (by omega), error_bind]⟩
    · rw [List.countP_cons_of_neg hadm] at h
      rw [collectLoop_skipped hpos hadm]
      exact ih hpos hc h

/-- The names in front of a free slot are freed. -/
theorem freeNames_eq (done : List Block) (post : Names) :
    freeNames (done.map some ++ none :: post) = .ok () := by
  induction done with
  | nil => rfl
  | cons name done ih => exact ih

end Collecting

section Results

variable {al : Alloc UInt8} {includeDirectories includeHidden : Bool} {first second : Listing}

/-- The names in an array. -/
def storedNames (names : Option Names) : List Block := (names.getD []).reduceOption

/-- Whatever memory there is, no name is stored beyond the slots, a number that is returned is the number
of the names that are stored, and these are the ones that the flags admit if the directory did not
change. -/
def NamesRight (includeDirectories includeHidden : Bool) (first second : Listing) : Prop :=
  ∀ al grants old, ∃ rc names,
    getAllFileNames al includeDirectories includeHidden grants (some (first, second)) (some old) =
        .ok (rc, some names) ∧
      (0 ≤ rc → rc = (storedNames names).length ∧ (first = second →
        storedNames names = admittedNames includeDirectories includeHidden (first.getD [])))

/-- The entries that the first scan counts are as many as the second one collects, and an `int` holds
twice their number, unless there are none, or a scan does not open the directory. -/
def CountsAgree (includeDirectories includeHidden : Bool) (first second : Listing) : Prop :=
  ∀ entries, first = some entries →
    entries.countP (counted includeDirectories includeHidden) < 2 ^ 31 ∧
    (entries.countP (counted includeDirectories includeHidden) = 0 ∨
      ∀ entries', second = some entries' →
        entries'.countP (admitted includeDirectories includeHidden) =
            entries.countP (counted includeDirectories includeHidden) ∧
          entries.countP (counted includeDirectories includeHidden) +
            entries'.countP (admitted includeDirectories includeHidden) < 2 ^ 31)

/-- What is returned after the second scan, which found `entries` where `c` were counted. -/
def afterScan (al : Alloc UInt8) (includeDirectories includeHidden : Bool) (entries : List Dirent)
    (c : Nat) : Outcome (Int × Option (Option Names)) :=
  collectLoop al includeDirectories includeHidden entries c 0 (List.replicate c none) >>= fun r =>
    if r.1 ≠ .ok then freeNames r.2 >>= fun _ => .ok (r.1.code, some none)
    else .ok ((c : Int), some (some r.2))

theorem getAllFileNames_counted {entries : List Dirent} (grants : Nat → Bool) (old : Option Names)
    (hc : entries.countP (counted includeDirectories includeHidden) < 2 ^ 31) :
    getAllFileNames al includeDirectories includeHidden grants (some (some entries, second)) (some old) =
      let c := entries.countP (counted includeDirectories includeHidden)
      if c = 0 then .ok (0, some none)
      else if !grants c then .ok (AlibError.memErr.code, some none)
      else match second with
        | none => .ok (AlibError.fileOpenErr.code, some none)
        | some entries' => afterScan al includeDirectories includeHidden entries' c := by
  have hrun := @countLoop_eq includeDirectories includeHidden entries 0 (by omega)
  rw [Nat.zero_add, Int.natCast_zero] at hrun
  rw [getAllFileNames, Option.map_some, getFileCount, hrun, ok_bind]
  dsimp only
  generalize entries.countP (counted includeDirectories includeHidden) = c
  rw [if_neg (by simp), Int.toNat_natCast]
  by_cases hzero : c = 0
  · rw [if_pos (by omega), if_pos hzero, hzero]
    rfl
  · rw [if_neg (by omega), if_neg hzero]
    by_cases hgrant : (!grants c) = true
    · rw [if_pos hgrant, if_pos hgrant]
      rfl
    · rw [if_neg hgrant, if_neg hgrant]
      cases second with
      | none =>
        obtain ⟨c, rfl⟩ := Nat.exists_eq_succ_of_ne_zero hzero
        rfl
      | some entries' => rfl

/-- Too many entries for an `int`. -/
theorem getAllFileNames_overflow {entries : List Dirent} (grants : Nat → Bool)
    (old : Option Names)
    (hc : 2 ^ 31 ≤ entries.countP (counted includeDirectories includeHidden)) :
    getAllFileNames al includeDirectories includeHidden grants (some (some entries, second)) (some old) =
      .error .overflow := by
  have hrun := @countLoop_overflow includeDirectories includeHidden entries 0 (by decide) (by omega)
  rw [Int.natCast_zero] at hrun
  rw [getAllFileNames, Option.map_some, getFileCount, hrun]
  rfl

theorem storedNames_all (names : List Block) (free : Nat) :
    storedNames (some (names.map some ++ List.replicate free none)) = names := by
  rw [storedNames, Option.getD_some, List.reduceOption_append, List.reduceOption_replicate_none,
    List.append_nil]
  exact Slots.reduceOption_map_some names

section AfterScan

variable {entries : List Dirent} {c : Nat}

/-- As many names as were counted are returned, or an error. -/
theorem afterScan_right (hpos : 0 < c)
    (heq : entries.countP (admitted includeDirectories includeHidden) = c)
    (hlt : c + entries.countP (admitted includeDirectories includeHidden) < 2 ^ 31) :
    ∃ rc names, afterScan al includeDirectories includeHidden entries c = .ok (rc, some names) ∧
      (0 ≤ rc → rc = c ∧
        storedNames names = admittedNames includeDirectories includeHidden entries) := by
  obtain ⟨r, hrun, hr⟩ := @collectLoop_ends al includeDirectories includeHidden entries c c [] hpos hlt
    (Nat.le_of_eq heq)
  rw [List.length_nil, List.map_nil, List.nil_append] at hrun
  rw [List.nil_append] at hr
  rw [afterScan, hrun, ok_bind]
  cases hr with
  | all => exact ⟨_, _, if_neg (by simp), fun _ => ⟨rfl, storedNames_all _ _⟩⟩
  | refused done post =>
    refine ⟨AlibError.memErr.code, none, ?_, fun hneg => absurd hneg (by decide)⟩
    rw [if_pos (by simp), freeNames_eq]
    rfl

/-- With memory for all names, a number that is returned and right is that of the entries. -/
theorem afterScan_counts (hal : al.Succeeds) (hpos : 0 < c) (hc : c < 2 ^ 31) {rc : Int}
    {names : Option Names}
    (hrun : afterScan al includeDirectories includeHidden entries c = .ok (rc, some names))
    (hright : 0 ≤ rc → rc = (storedNames names).length) :
    entries.countP (admitted includeDirectories includeHidden) = c ∧
      c + entries.countP (admitted includeDirectories includeHidden) < 2 ^ 31 := by
  rw [afterScan] at hrun
  by_cases hfault : c < entries.countP (admitted includeDirectories includeHidden) ∨
      2 ^ 31 ≤ c + entries.countP (admitted includeDirectories includeHidden)
  · obtain ⟨e, hloop⟩ := @collectLoop_faults al includeDirectories includeHidden hal entries c c []
      hpos hc hfault
    rw [List.length_nil, List.map_nil, List.nil_append] at hloop
    rw [hloop] at hrun
    cases hrun
  · rw [not_or] at hfault
    obtain ⟨r, hloop, hr⟩ := @collectLoop_ends al includeDirectories includeHidden entries c c [] hpos
      (by omega) (Nat.le_of_not_lt hfault.1)
    rw [List.length_nil, List.map_nil, List.nil_append] at hloop
    rw [hloop, ok_bind] at hrun
    rw [List.nil_append] at hr
    cases hr with
    | all =>
      rw [if_neg (by simp)] at hrun
      obtain ⟨rfl, hnames⟩ := Prod.mk.inj (Except.ok.inj hrun)
      obtain rfl := Option.some.inj hnames
      have hlen := hright (Int.natCast_nonneg _)
      rw [storedNames_all, length_admittedNames] at hlen
      omega
    | @refused done post n hrefused =>
      have hgiven := hal n
      rw [hrefused] at hgiven
      cases hgiven

end AfterScan

/-- Where the scans agree the names are right. -/
theorem namesRight_of_agree (h : CountsAgree includeDirectories includeHidden first second) :
    NamesRight includeDirectories includeHidden first second := by
  intro al grants old
  cases first with
  | none => exact ⟨AlibError.badArg.code, old, rfl, fun hneg => absurd hneg (by decide)⟩
  | some entries =>
    obtain ⟨hc, hrest⟩ := h entries rfl
    rw [getAllFileNames_counted grants old hc]
    have hle : entries.countP (admitted includeDirectories includeHidden) ≤
        entries.countP (counted includeDirectories includeHidden) :=
      List.countP_mono_left fun dir _ => counted_of_admitted
    dsimp only
    by_cases hzero : entries.countP (counted includeDirectories includeHidden) = 0
    · rw [if_pos hzero]
      refine ⟨0, none, rfl, fun _ => ⟨rfl, fun _ => ?_⟩⟩
      refine (List.eq_nil_of_length_eq_zero ?_).symm
      rw [length_admittedNames, Option.getD_some]
      omega
    · rw [if_neg hzero]
      by_cases hgrant : (!grants (entries.countP (counted includeDirectories includeHidden))) = true
      · rw [if_pos hgrant]
        exact ⟨_, none, rfl, fun hneg => absurd hneg (by decide)⟩
      · rw [if_neg hgrant]
        cases second with
        | none => exact ⟨_, none, rfl, fun hneg => absurd hneg (by decide)⟩
        | some entries' =>
          obtain ⟨heq, hlt⟩ := (hrest.resolve_left hzero) entries' rfl
          obtain ⟨rc, names, hrun, hnames⟩ := @afterScan_right al includeDirectories includeHidden
            entries' _ (by omega) heq hlt
          refine ⟨rc, names, hrun, fun hneg => ?_⟩
          obtain ⟨hrc, hstored⟩ := hnames hneg
          refine ⟨?_, fun hsame => ?_⟩
          · rw [hrc, hstored, length_admittedNames, heq]
          · rw [hstored, Option.some.inj hsame, Option.getD_some]

/-- Where the names are right the scans agree. -/
theorem agree_of_namesRight (h : NamesRight includeDirectories includeHidden first second) :
    CountsAgree includeDirectories includeHidden first second := by
  rintro entries rfl
  obtain ⟨rc, names, hrun, hright⟩ := h (.filled 0) (fun _ => true) none
  by_cases hc : entries.countP (counted includeDirectories includeHidden) < 2 ^ 31
  · rw [getAllFileNames_counted _ none hc] at hrun
    dsimp only at hrun
    refine ⟨hc, ?_⟩
    by_cases hzero : entries.countP (counted includeDirectories includeHidden) = 0
    · exact .inl hzero
    · refine .inr ?_
      rintro entries' rfl
      rw [if_neg hzero, if_neg (by decide)] at hrun
      exact afterScan_counts (Alloc.filled_succeeds 0) (by omega) hc hrun fun hneg => (hright hneg).1
  · rw [getAllFileNames_overflow _ none (Nat.le_of_not_lt hc)] at hrun
    cases hrun

/-- The names are right exactly where the scans agree. -/
theorem namesRight_iff (includeDirectories includeHidden : Bool) (first second : Listing) :
    NamesRight includeDirectories includeHidden first second ↔
      CountsAgree includeDirectories includeHidden first second :=
  ⟨agree_of_namesRight, namesRight_of_agree⟩

/-- The two hidden directories are counted and not collected, and a file that appears between the scans
is stored behind the last slot. -/
theorem getAllFileNames_miscounts :
    getAllFileNames (.filled 0) true false (fun _ => true)
        (some (some [⟨.dir, [46]⟩, ⟨.dir, [46, 46]⟩, ⟨.reg, [97]⟩],
          some [⟨.dir, [46]⟩, ⟨.dir, [46, 46]⟩, ⟨.reg, [97]⟩])) (some none) =
      .ok (3, some (some [some [97, 0], none, none])) ∧
    getAllFileNames (.filled 0) false false (fun _ => true)
        (some (some [⟨.reg, [97]⟩], some [⟨.reg, [97]⟩, ⟨.reg, [98]⟩])) (some none) =
      .error .outOfBounds ∧
    ¬NamesRight false false (some [⟨.reg, [97]⟩]) (some [⟨.reg, [97]⟩, ⟨.reg, [98]⟩]) := by
  have hfault : getAllFileNames (.filled 0) false false (fun _ => true)
      (some (some [⟨.reg, [97]⟩], some [⟨.reg, [97]⟩, ⟨.reg, [98]⟩])) (some none) =
      .error .outOfBounds := rfl
  refine ⟨rfl, hfault, fun h => ?_⟩
  obtain ⟨rc, names, hrun, -⟩ := h (.filled 0) (fun _ => true) none
  rw [hfault] at hrun
  cases hrun

end Results

end AlibC
