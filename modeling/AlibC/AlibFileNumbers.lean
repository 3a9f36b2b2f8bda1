import AlibC.AlibFileNames
import AlibC.Lib.Extremum
import AlibC.Lib.Strtoll
import Mathlib.Order.Nat

/-! The highest and the lowest number among the files of a directory. -/
namespace AlibC

open CLang

/-- `dir->d_type == DT_REG && *dir->d_name != '.'` -/
def Dirent.visibleFile (dir : Dirent) : Bool := dir.type = .reg && !dir.hidden

/-- `unsigned long long fn = strtoll(dir->d_name, NULL, 10);` -/
def Dirent.fn (dir : Dirent) : Nat := toSize (strtoll dir.name)

def highestLoop : List Dirent → Nat → Nat
  | [], highestValue => highestValue
  | dir :: rest, highestValue =>
    if dir.visibleFile then highestLoop rest (if dir.fn > highestValue then dir.fn else highestValue)
    else highestLoop rest highestValue

/-- The entries are those of the directory, in the order of `readdir`. -/
def highestValueFile : Listing → Nat
  | none => 0
  | some entries => highestLoop entries 0

def lowestLoop : List Dirent → Nat → Nat
  | [], lowestValue => lowestValue
  | dir :: rest, lowestValue =>
    if dir.visibleFile then
      lowestLoop rest (if dir.fn < lowestValue ∨ lowestValue = 0 then dir.fn else lowestValue)
    else lowestLoop rest lowestValue

def lowestValueFile : Listing → Nat
  | none => 0
  | some entries => lowestLoop entries 0

/-- The numbers of the non-hidden regular files whose names start with a number. -/
def fileNumbers (entries : List Dirent) : List Int :=
  ((entries.filter Dirent.visibleFile).filter fun dir => numeral dir.name ≠ []).map
    fun dir => strtoll dir.name

/-- In any order of the entries both functions give the same results, the greatest and the least of the
numbers, zero if there are none. -/
structure OrderFree (entries : List Dirent) : Prop where
  same : ∀ order order' : List Dirent, order.Perm entries → order'.Perm entries →
    highestValueFile (some order) = highestValueFile (some order') ∧
      lowestValueFile (some order) = lowestValueFile (some order')
  extreme : ∀ order : List Dirent, order.Perm entries →
    (highestValueFile (some order) : Int) = (fileNumbers entries).max?.getD 0 ∧
      (lowestValueFile (some order) : Int) = (fileNumbers entries).min?.getD 0

/-- What the loops read. -/
def fns (entries : List Dirent) : List Nat := (entries.filter Dirent.visibleFile).map Dirent.fn

variable {entries order : List Dirent} {dir : Dirent}

theorem highestLoop_eq (entries : List Dirent) :
    ∀ high, highestLoop entries high = Extremum.highestFrom high (fns entries) := by
  induction entries with
  | nil => exact fun high => rfl
  | cons dir rest ih =>
    intro high
    rw [highestLoop, fns]
    by_cases hvis : dir.visibleFile = true
    · rw [if_pos hvis, List.filter_cons_of_pos hvis, ih]
      rfl
    · rw [if_neg hvis, List.filter_cons_of_neg hvis, ih]
      rfl

theorem lowestLoop_eq (entries : List Dirent) :
    ∀ low, lowestLoop entries low = Extremum.lowestFrom low (fns entries) := by
  induction entries with
  | nil => exact fun low => rfl
  | cons dir rest ih =>
    intro low
    rw [lowestLoop, fns]
    by_cases hvis : dir.visibleFile = true
    · rw [if_pos hvis, List.filter_cons_of_pos hvis, ih]
      rfl
    · rw [if_neg hvis, List.filter_cons_of_neg hvis, ih]
      rfl

theorem highestValueFile_eq (entries : List Dirent) :
    highestValueFile (some entries) = Extremum.highest (fns entries) := highestLoop_eq entries 0

theorem lowestValueFile_eq (entries : List Dirent) :
    lowestValueFile (some entries) = Extremum.lowest (fns entries) := lowestLoop_eq entries 0

/-- Every order of what the loops read comes from an order of the entries. -/
theorem exists_order {ns : List Nat} (h : ns.Perm (fns entries)) :
    ∃ order : List Dirent, order.Perm entries ∧ fns order = ns := by
  obtain ⟨files, hfiles, rfl⟩ : ∃ files : List Dirent, files.Perm (entries.filter Dirent.visibleFile) ∧
      ns = files.map Dirent.fn := by
    have hcomp := congrFun (congrFun (List.eq_map_comp_perm Dirent.fn) ns) (entries.filter Dirent.visibleFile)
    obtain ⟨files, rfl, hperm⟩ := hcomp.mpr h
    exact ⟨files, hperm, rfl⟩
  refine ⟨files ++ entries.filter fun dir => !dir.visibleFile, ?_, ?_⟩
  · exact (hfiles.append_right _).trans (List.filter_append_perm _ entries)
  · have hvis : files.filter Dirent.visibleFile = files :=
      List.filter_eq_self.mpr fun dir hdir => (List.mem_filter.mp (hfiles.mem_iff.mp hdir)).2
    have hnone : (entries.filter fun dir => !dir.visibleFile).filter Dirent.visibleFile = [] := by
      rw [List.filter_filter]
      exact List.filter_eq_nil_iff.mpr fun dir _ => by simp
    rw [fns, List.filter_append, hvis, hnone, List.append_nil]

/-- A number that is not negative is read as it is, another one as an enormous one. -/
theorem Dirent.fn_cases (dir : Dirent) :
    0 ≤ strtoll dir.name ∧ (dir.fn : Int) = strtoll dir.name ∨
      strtoll dir.name < 0 ∧ 2 ^ 63 ≤ dir.fn := by
  have hlt := strtoll_lt dir.name
  have hle := le_strtoll dir.name
  unfold Dirent.fn toSize
  omega

theorem mem_fns {n : Nat} (h : n ∈ fns entries) :
    ∃ dir ∈ entries, dir.visibleFile = true ∧ dir.fn = n := by
  obtain ⟨dir, hdir, hn⟩ := List.mem_map.mp h
  exact ⟨dir, (List.mem_filter.mp hdir).1, (List.mem_filter.mp hdir).2, hn⟩

theorem fn_mem (hmem : dir ∈ entries) (hvis : dir.visibleFile = true) : dir.fn ∈ fns entries :=
  List.mem_map_of_mem (List.mem_filter.mpr ⟨hmem, hvis⟩)

theorem mem_fileNumbers {n : Int} (h : n ∈ fileNumbers entries) :
    ∃ dir ∈ entries, dir.visibleFile = true ∧ strtoll dir.name = n := by
  obtain ⟨dir, hdir, hn⟩ := List.mem_map.mp h
  have hdir := (List.mem_filter.mp hdir).1
  exact ⟨dir, (List.mem_filter.mp hdir).1, (List.mem_filter.mp hdir).2, hn⟩

theorem number_mem (hmem : dir ∈ entries) (hvis : dir.visibleFile = true)
    (hne : strtoll dir.name ≠ 0) : strtoll dir.name ∈ fileNumbers entries := by
  have hnum : numeral dir.name ≠ [] := fun h => hne (strtoll_no_numeral h)
  exact List.mem_map_of_mem
    (List.mem_filter.mpr ⟨List.mem_filter.mpr ⟨hmem, hvis⟩, decide_eq_true hnum⟩)

theorem max_getD {ns : List Int} {m : Int} (hmem : m ∈ ns) (hle : ∀ n ∈ ns, n ≤ m) :
    ns.max?.getD 0 = m := by
  rw [List.max?_eq_some_iff.mpr ⟨hmem, hle⟩, Option.getD_some]

theorem min_getD {ns : List Int} {m : Int} (hmem : m ∈ ns) (hle : ∀ n ∈ ns, m ≤ n) :
    ns.min?.getD 0 = m := by
  rw [List.min?_eq_some_iff.mpr ⟨hmem, hle⟩, Option.getD_some]

/-- The files either all have positive numbers, or all of them are read as zero. -/
def OneKind (entries : List Dirent) : Prop :=
  (∀ dir ∈ entries, dir.visibleFile = true → 0 < strtoll dir.name) ∨
    ∀ dir ∈ entries, dir.visibleFile = true → strtoll dir.name = 0

/-- Positive numbers are found. -/
theorem extreme_of_pos (hpos : ∀ dir ∈ entries, dir.visibleFile = true → 0 < strtoll dir.name)
    (hperm : order.Perm entries) :
    (highestValueFile (some order) : Int) = (fileNumbers entries).max?.getD 0 ∧
      (lowestValueFile (some order) : Int) = (fileNumbers entries).min?.getD 0 := by
  rw [highestValueFile_eq, lowestValueFile_eq]
  -- The numbers that are read are those of the files.
  have hread : ∀ n : Nat, n ∈ fns order → (n : Int) ∈ fileNumbers entries := by
    intro n hn
    obtain ⟨dir, hmem, hvis, rfl⟩ := mem_fns hn
    have hmem := hperm.mem_iff.mp hmem
    have hdir := hpos dir hmem hvis
    have hfn : (dir.fn : Int) = strtoll dir.name := by
      have := dir.fn_cases
      omega
    exact hfn ▸ number_mem hmem hvis (by omega)
  have hback : ∀ n ∈ fileNumbers entries, ∃ m ∈ fns order, n = (m : Int) := by
    intro n hn
    obtain ⟨dir, hmem, hvis, rfl⟩ := mem_fileNumbers hn
    have hdir := hpos dir hmem hvis
    refine ⟨dir.fn, fn_mem (hperm.mem_iff.mpr hmem) hvis, ?_⟩
    have := dir.fn_cases
    omega
  by_cases hnil : fns order = []
  · have hnone : fileNumbers entries = [] := by
      refine List.eq_nil_iff_forall_not_mem.mpr fun n hn => ?_
      obtain ⟨m, hm, -⟩ := hback n hn
      rw [hnil] at hm
      cases hm
    rw [hnil, hnone]
    exact ⟨rfl, rfl⟩
  · have hbot : ⊥ ∉ fns order := by
      intro hzero
      obtain ⟨dir, hmem, hvis, hfn⟩ := mem_fns hzero
      have hdir := hpos dir (hperm.mem_iff.mp hmem) hvis
      rw [Nat.bot_eq_zero] at hfn
      have := dir.fn_cases
      omega
    obtain ⟨hlow, hlowest⟩ := Extremum.lowest_spec hnil hbot
    refine ⟨(max_getD (hread _ (Extremum.highest_mem hnil)) fun n hn => ?_).symm,
      (min_getD (hread _ hlow) fun n hn => ?_).symm⟩
    · obtain ⟨m, hm, rfl⟩ := hback n hn
      exact Int.ofNat_le.mpr (Extremum.le_highest hm)
    · obtain ⟨m, hm, rfl⟩ := hback n hn
      exact Int.ofNat_le.mpr (hlowest m hm)

theorem getD_of_zero {o : Option Int} (h : ∀ n ∈ o, n = 0) : o.getD 0 = 0 := by
  cases o with
  | none => rfl
  | some n => exact h n rfl

/-- Where every file is read as zero, zero is found. -/
theorem extreme_of_zero (hzero : ∀ dir ∈ entries, dir.visibleFile = true → strtoll dir.name = 0)
    (hperm : order.Perm entries) :
    (highestValueFile (some order) : Int) = (fileNumbers entries).max?.getD 0 ∧
      (lowestValueFile (some order) : Int) = (fileNumbers entries).min?.getD 0 := by
  have hfns : ∀ n ∈ fns order, n = ⊥ := by
    intro n hn
    obtain ⟨dir, hmem, hvis, rfl⟩ := mem_fns hn
    rw [Dirent.fn, hzero dir (hperm.mem_iff.mp hmem) hvis]
    rfl
  have hnumbers : ∀ n ∈ fileNumbers entries, n = 0 := by
    intro n hn
    obtain ⟨dir, hmem, hvis, rfl⟩ := mem_fileNumbers hn
    exact hzero dir hmem hvis
  have hhigh : Extremum.highest (fns order) = ⊥ :=
    ((Extremum.highestFrom_spec (fns order) ⊥).1).elim id (hfns _)
  rw [highestValueFile_eq, lowestValueFile_eq, hhigh, Extremum.lowest_all_bot hfns]
  rw [getD_of_zero fun n hn => hnumbers n (List.max?_mem hn),
    getD_of_zero fun n hn => hnumbers n (List.min?_mem hn)]
  exact ⟨rfl, rfl⟩

theorem orderFree_of_oneKind (h : OneKind entries) : OrderFree entries := by
  have hextreme : ∀ order : List Dirent, order.Perm entries →
      (highestValueFile (some order) : Int) = (fileNumbers entries).max?.getD 0 ∧
        (lowestValueFile (some order) : Int) = (fileNumbers entries).min?.getD 0 := fun order hperm =>
    h.elim (fun hpos => extreme_of_pos hpos hperm) fun hzero => extreme_of_zero hzero hperm
  refine ⟨fun order order' hperm hperm' => ?_, hextreme⟩
  obtain ⟨hhigh, hlow⟩ := hextreme order hperm
  obtain ⟨hhigh', hlow'⟩ := hextreme order' hperm'
  exact ⟨Int.ofNat_inj.mp (hhigh.trans hhigh'.symm), Int.ofNat_inj.mp (hlow.trans hlow'.symm)⟩

/-- A negative number makes the highest one too large for a `long long`. -/
theorem OrderFree.nonneg (h : OrderFree entries) (hmem : dir ∈ entries)
    (hvis : dir.visibleFile = true) : 0 ≤ strtoll dir.name := by
  by_contra hneg
  have hfn : 2 ^ 63 ≤ dir.fn := by
    have := dir.fn_cases
    omega
  have hhigh := (h.extreme entries (List.Perm.refl _)).1
  rw [highestValueFile_eq] at hhigh
  have hle : dir.fn ≤ Extremum.highest (fns entries) := Extremum.le_highest (fn_mem hmem hvis)
  have hlt : (fileNumbers entries).max?.getD 0 < 2 ^ 63 := by
    cases hmax : (fileNumbers entries).max? with
    | none => decide
    | some n =>
      obtain ⟨dir, -, -, rfl⟩ := mem_fileNumbers (List.max?_mem hmax)
      exact strtoll_lt dir.name
  omega

/-- The results are right in every order exactly where all files have positive numbers, or all are read
as zero. -/
theorem orderFree_iff (entries : List Dirent) : OrderFree entries ↔ OneKind entries := by
  refine ⟨fun h => ?_, orderFree_of_oneKind⟩
  have hsame : ∀ ns ns' : List Nat, ns.Perm (fns entries) → ns'.Perm (fns entries) →
      Extremum.lowest ns = Extremum.lowest ns' := by
    intro ns ns' hns hns'
    obtain ⟨order, hperm, rfl⟩ := exists_order hns
    obtain ⟨order', hperm', rfl⟩ := exists_order hns'
    rw [← lowestValueFile_eq, ← lowestValueFile_eq]
    exact (h.same order order' hperm hperm').2
  refine ((Extremum.lowest_perm_iff (fns entries)).mp hsame).imp (fun hbot dir hmem hvis => ?_)
    fun hall dir hmem hvis => ?_
  · have hnonneg := h.nonneg hmem hvis
    have hne : dir.fn ≠ ⊥ := fun hzero => hbot (hzero ▸ fn_mem hmem hvis)
    rw [Nat.bot_eq_zero] at hne
    have := dir.fn_cases
    omega
  · have hnonneg := h.nonneg hmem hvis
    have hzero : dir.fn = 0 := hall dir.fn (fn_mem hmem hvis)
    have := dir.fn_cases
    omega

/-- A file without a number that is read last hides a number. -/
theorem lowestValueFile_depends :
    lowestValueFile (some [⟨.reg, [55]⟩, ⟨.reg, [97]⟩]) = 0 ∧
      lowestValueFile (some [⟨.reg, [97]⟩, ⟨.reg, [55]⟩]) = 7 ∧
      ¬OrderFree [⟨.reg, [55]⟩, ⟨.reg, [97]⟩] := by
  have hlast : lowestValueFile (some [⟨.reg, [55]⟩, ⟨.reg, [97]⟩]) = 0 := by decide
  have hfirst : lowestValueFile (some [⟨.reg, [97]⟩, ⟨.reg, [55]⟩]) = 7 := by decide
  refine ⟨hlast, hfirst, fun h => ?_⟩
  have hlow := (h.same _ _ (List.Perm.refl _) (List.Perm.swap _ _ [])).2
  rw [hlast, hfirst] at hlow
  cases hlow

end AlibC
