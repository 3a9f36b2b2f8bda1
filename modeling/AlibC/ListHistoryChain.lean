import AlibC.ListHistory

/-! The chain of a `ListHistory` and what the operations do to it. -/
namespace AlibC

open CLang Function Linked

namespace ListHistoryItem

variable {α R : Type} {items : Heap (ListHistoryItem α R)} {item : α}

abbrev links (items : Heap (ListHistoryItem α R)) : Nat → Option (Option Nat) :=
  Heap.links ListHistoryItem.next items

/-- What an item of the chain was pushed with. -/
def entry (items : Heap (ListHistoryItem α R)) (a : Nat) : Option (α × Option R) :=
  (items.cell a).map fun it => (it.listItem, it.removeCallback)

/-- The callback of the item at `a` finds the item at `b` equal to `item`. -/
def compares (items : Heap (ListHistoryItem α R)) (item : α) (a b : Nat) : Bool :=
  match items.cell a, items.cell b with
  | some x, some y => x.compareCallback y.listItem item = 0
  | _, _ => false

/-- The item before the first one that the callback of its predecessor finds equal. -/
def laterBefore (items : Heap (ListHistoryItem α R)) (item : α) : List Nat → Option Nat
  | a :: b :: as => if compares items item a b then some a else laterBefore items item (b :: as)
  | _ => none

/-- The item before the first equal one, unless that is the oldest. -/
def oneBefore (items : Heap (ListHistoryItem α R)) (item : α) (as : List Nat) : Option Nat :=
  match as with
  | [] => none
  | a :: as => if compares items item a a then none else laterBefore items item (a :: as)

/-- The items passed when following `next`. -/
def walk (items : Heap (ListHistoryItem α R)) : Nat → Option Nat → List Nat
  | fuel + 1, some a =>
    match items.cell a with
    | none => []
    | some it => a :: walk items fuel it.next
  | _, _ => []

theorem seg_cons_iff {p q : Option Nat} {a : Nat} {as : List Nat} :
    Seg (links items) p (a :: as) q ↔
      p = some a ∧ ∃ it, items.cell a = some it ∧ Seg (links items) it.next as q := by
  rw [seg_cons]
  constructor
  · rintro ⟨hp, r, hr, hs⟩
    obtain ⟨it, hit, rfl⟩ := Option.map_eq_some_iff.mp hr
    exact ⟨hp, it, hit, hs⟩
  · rintro ⟨hp, it, hit, hs⟩
    exact ⟨hp, it.next, Heap.links_eq hit, hs⟩

theorem walk_eq {as : List Nat} : ∀ {p : Option Nat} {fuel : Nat}, Seg (links items) p as none →
    as.length < fuel → walk items fuel p = as := by
  induction as with
  | nil =>
    rintro p fuel rfl h
    cases fuel <;> rfl
  | cons a as ih =>
    intro p fuel hs h
    obtain ⟨rfl, it, hit, hs⟩ := seg_cons_iff.mp hs
    cases fuel with
    | zero => cases h
    | succ fuel => rw [walk, hit]; exact congrArg _ (ih hs (Nat.lt_of_succ_lt_succ h))

theorem compares_eq {a b : Nat} {x y : ListHistoryItem α R} (hx : items.cell a = some x)
    (hy : items.cell b = some y) :
    compares items item a b = decide (x.compareCallback y.listItem item = 0) := by
  rw [compares, hx, hy]

theorem findOneBeforeLoop_eq {as : List Nat} : ∀ {a fuel : Nat},
    Seg (links items) (some a) (a :: as) none → as.length < fuel →
    findOneBeforeLoop items item fuel a = .ok (laterBefore items item (a :: as)) := by
  induction as with
  | nil =>
    intro a fuel hs h
    obtain ⟨-, x, hx, hn⟩ := seg_cons_iff.mp hs
    cases fuel with
    | zero => cases h
    | succ fuel =>
      rw [findOneBeforeLoop, Heap.get_eq hx, ok_bind, seg_nil.mp hn]
      rfl
  | cons b as ih =>
    intro a fuel hs h
    obtain ⟨-, x, hx, hs⟩ := seg_cons_iff.mp hs
    have hb := seg_cons_iff.mp hs
    obtain ⟨hn, y, hy, -⟩ := hb
    cases fuel with
    | zero => cases h
    | succ fuel =>
      rw [findOneBeforeLoop, Heap.get_eq hx, ok_bind, hn, laterBefore, compares_eq hx hy]
      dsimp only
      rw [Heap.get_eq hy, ok_bind]
      by_cases hc : x.compareCallback y.listItem item = 0
      · rw [if_neg (by simpa using hc), if_pos (by simpa using hc)]
        rfl
      · rw [if_pos hc, if_neg (by simpa using hc)]
        exact ih (hn ▸ hs) (Nat.lt_of_succ_lt_succ h)

theorem findOneBefore_eq {p : Option Nat} {as : List Nat} (hs : Seg (links items) p as none) :
    findOneBefore items p item = .ok (oneBefore items item as) := by
  cases as with
  | nil =>
    cases seg_nil.mp hs
    rfl
  | cons a as =>
    have hlen := Heap.length_le hs
    obtain ⟨rfl, x, hx, -⟩ := seg_cons_iff.mp hs
    rw [findOneBefore, oneBefore, compares_eq hx hx, Heap.get_eq hx, ok_bind]
    by_cases hc : x.compareCallback x.listItem item = 0
    · rw [if_pos hc, if_pos (by simpa using hc)]
      rfl
    · rw [if_neg hc, if_neg (by simpa using hc)]
      exact findOneBeforeLoop_eq hs (by simp at hlen; omega)

theorem lastLoop_eq {as : List Nat} : ∀ {a l fuel : Nat},
    Seg (links items) (some a) (a :: as) none → (a :: as).getLast? = some l → as.length < fuel →
    lastLoop items fuel a = .ok l := by
  induction as with
  | nil =>
    intro a l fuel hs hl h
    obtain ⟨-, x, hx, hn⟩ := seg_cons_iff.mp hs
    cases hl
    cases fuel with
    | zero => cases h
    | succ fuel =>
      rw [lastLoop, Heap.get_eq hx, ok_bind, seg_nil.mp hn]
      rfl
  | cons b as ih =>
    intro a l fuel hs hl h
    obtain ⟨-, x, hx, hs⟩ := seg_cons_iff.mp hs
    have hn := (seg_cons_iff.mp hs).1
    rw [List.getLast?_cons_cons] at hl
    cases fuel with
    | zero => cases h
    | succ fuel =>
      rw [lastLoop, Heap.get_eq hx, ok_bind, hn]
      exact ih (hn ▸ hs) hl (Nat.lt_of_succ_lt_succ h)

/-- What `laterBefore` finds has a successor in the chain. -/
theorem laterBefore_eq_some {as : List Nat} {a p : Nat}
    (h : laterBefore items item (a :: as) = some p) :
    ∃ pre b post, a :: as = pre ++ p :: b :: post := by
  induction as generalizing a with
  | nil => cases h
  | cons b as ih =>
    rw [laterBefore] at h
    split at h
    · cases h
      exact ⟨[], b, as, rfl⟩
    · obtain ⟨pre, c, post, he⟩ := ih h
      exact ⟨a :: pre, c, post, by rw [he]; rfl⟩

end ListHistoryItem

namespace ListHistory

open ListHistoryItem

variable {α R : Type} {hist : ListHistory α R} {as : List Nat}

/-- The chain `as` leads from the oldest item to the newest one and is counted. -/
structure Holds (hist : ListHistory α R) (as : List Nat) : Prop where
  seg : Seg (links hist.items) hist.listRoot as none
  end_eq : hist.listEnd = as.getLast?
  count_eq : hist.count = as.length

theorem new_holds (max : Int) : (new max : ListHistory α R).Holds [] := ⟨rfl, rfl, rfl⟩

theorem delItem_root_eq {a : Nat} {x : ListHistoryItem α R} (hroot : hist.listRoot = some a)
    (hx : hist.items.cell a = some x) : hist.delItem .root = .ok ⟨hist.items.put a none, x.next,
      hist.listEnd, hist.count, hist.max, hist.removed ++ x.removeCalls⟩ := by
  rw [delItem, read, hroot, ok_bind]
  dsimp only
  rw [Heap.get_eq hx, ok_bind]
  rfl

theorem seg_root {a : Nat} (hs : Seg (links hist.items) hist.listRoot (a :: as) none) :
    ∃ x, hist.items.cell a = some x ∧ Seg (links (hist.items.put a none)) x.next as none := by
  have hnd := List.nodup_cons.mp hs.nodup
  obtain ⟨-, x, hx, hs⟩ := seg_cons_iff.mp hs
  refine ⟨x, hx, ?_⟩
  rw [links, Heap.links_put hx]
  exact hs.update_of_not_mem hnd.1

theorem delItem_root {a : Nat} (hs : Seg (links hist.items) hist.listRoot (a :: as) none) :
    ∃ hist', hist.delItem .root = .ok hist' ∧
      Seg (links hist'.items) hist'.listRoot as none ∧
      hist'.listEnd = hist.listEnd ∧ hist'.count = hist.count := by
  obtain ⟨x, hx, hs'⟩ := seg_root hs
  exact ⟨_, delItem_root_eq hs.1 hx, hs', rfl, rfl⟩

theorem delItem_next {pre post : List Nat} {a b : Nat}
    (hs : Seg (links hist.items) hist.listRoot (pre ++ a :: b :: post) none) :
    ∃ hist', hist.delItem (.next a) = .ok hist' ∧
      Seg (links hist'.items) hist'.listRoot (pre ++ a :: post) none ∧
      hist'.listRoot = hist.listRoot ∧ hist'.listEnd = hist.listEnd ∧
      hist'.count = hist.count := by
  have hnd := hs.nodup
  have hne : b ≠ a := by
    intro he
    rw [he] at hnd
    exact (List.nodup_cons.mp (List.nodup_append.mp hnd).2.1).1 List.mem_cons_self
  obtain ⟨r, -, hr⟩ := seg_append.mp hs
  obtain ⟨-, x, hx, hr⟩ := seg_cons_iff.mp hr
  obtain ⟨hxn, y, hy, -⟩ := seg_cons_iff.mp hr
  have hput : (hist.items.put a (some { x with next := y.next })).cell b = some y := by
    rw [Heap.cell_put hx, update_of_ne hne, hy]
  refine ⟨⟨(hist.items.put a (some { x with next := y.next })).put b none, hist.listRoot,
    hist.listEnd, hist.count, hist.max, hist.removed ++ y.removeCalls⟩, ?_, ?_, rfl, rfl, rfl⟩
  · rw [delItem, read, Heap.get_eq hx, ok_bind, pure_ok, ok_bind, hxn]
    dsimp only
    rw [Heap.get_eq hy, ok_bind, write, Heap.modify_eq hx]
    rfl
  · show Seg (links ((hist.items.put a (some { x with next := y.next })).put b none))
      hist.listRoot (pre ++ a :: post) none
    rw [links, Heap.links_put hput, Heap.links_put hx]
    exact hs.unlink (Heap.links_eq hy) none

theorem dropCount_eq (h : hist.count ≠ 0) :
    hist.dropCount = .ok { hist with count := hist.count - 1 } := if_neg h

/-- The oldest item is given to its callback, and goes. -/
theorem popOff_oldest {a : Nat} (h : hist.Holds (a :: as)) : ∃ hist' x, hist.popOff = .ok hist' ∧
    hist'.Holds as ∧ hist.items.cell a = some x ∧ hist'.items = hist.items.put a none ∧
    hist'.removed = hist.removed ++ x.removeCalls ∧ hist'.max = hist.max := by
  have hroot := h.seg.1
  have hnd := List.nodup_cons.mp h.seg.nodup
  obtain ⟨x, hx, hs⟩ := seg_root h.seg
  -- the end pointer is right for what is left
  have hend : (if hist.listEnd = hist.listRoot then { hist with listEnd := none } else hist) =
      { hist with listEnd := as.getLast? } := by
    cases as with
    | nil =>
      rw [if_pos (by rw [hroot, h.end_eq]; rfl)]
      rfl
    | cons b as =>
      have hl := h.end_eq
      rw [List.getLast?_cons_cons] at hl
      have hne : hist.listEnd ≠ hist.listRoot := by
        intro he
        rw [hl, hroot] at he
        exact hnd.1 (List.mem_of_getLast? he)
      rw [if_neg hne, ← hl]
  have hcount : hist.count = as.length + 1 := h.count_eq
  refine ⟨⟨hist.items.put a none, x.next, as.getLast?, hist.count - 1, hist.max,
    hist.removed ++ x.removeCalls⟩, x, ?_, ⟨hs, rfl, by dsimp only; omega⟩, hx, rfl, rfl, rfl⟩
  have hdel := @delItem_root_eq α R { hist with listEnd := as.getLast? } a x hroot hx
  rw [popOff, hend]
  dsimp only
  rw [if_neg (by rw [hroot]; exact Option.some_ne_none _), hdel, ok_bind,
    dropCount_eq (by dsimp only; omega)]

theorem popOff_empty (h : hist.Holds []) :
    hist.popOff = .ok { hist with listEnd := none } := by
  have hroot : hist.listRoot = none := h.seg
  have hend : hist.listEnd = none := h.end_eq
  rw [popOff, hroot, hend, if_pos rfl]
  dsimp only
  rw [if_pos rfl]

theorem popOff_holds (h : hist.Holds as) : ∃ hist', hist.popOff = .ok hist' ∧
    hist'.Holds as.tail := by
  cases as with
  | nil => exact ⟨_, popOff_empty h, h.seg, rfl, h.count_eq⟩
  | cons a as =>
    obtain ⟨hist', -, hpop, h', -⟩ := popOff_oldest h
    exact ⟨hist', hpop, h'⟩

theorem Holds.fresh_not_mem (h : hist.Holds as) : hist.items.fresh ∉ as := by
  intro hm
  obtain ⟨x, hx⟩ := Heap.exists_cell h.seg hm
  rw [Heap.cell_fresh] at hx
  cases hx

theorem links_alloc {it : ListHistoryItem α R} (hn : it.next = none) :
    links (hist.items.alloc it) = update (links hist.items) hist.items.fresh (some none) := by
  rw [links, Heap.links_alloc, hn]

/-- The item is the newest one now, and the others are as they were. -/
structure Appends (hist hist' : ListHistory α R) (it : ListHistoryItem α R) (as : List Nat) :
    Prop where
  holds : hist'.Holds (as ++ [hist.items.fresh])
  removed_eq : hist'.removed = hist.removed
  max_eq : hist'.max = hist.max
  entry_new : entry hist'.items hist.items.fresh = some (it.listItem, it.removeCallback)
  entry_old : ∀ c ∈ as, entry hist'.items c = entry hist.items c

theorem entry_alloc_self (it : ListHistoryItem α R) :
    entry (hist.items.alloc it) hist.items.fresh = some (it.listItem, it.removeCallback) := by
  rw [entry, Heap.cell_alloc, update_self]
  rfl

theorem entry_alloc_ne (it : ListHistoryItem α R) {c : Nat} (hc : c ≠ hist.items.fresh) :
    entry (hist.items.alloc it) c = entry hist.items c := by
  rw [entry, Heap.cell_alloc, update_of_ne hc, entry]

/-- The first item is both the root and the end. -/
theorem newItem_first (h : hist.Holds []) {it : ListHistoryItem α R} (hn : it.next = none)
    (hcount : uintAdd hist.count 1 = 1) :
    ∃ hist₁ hist', hist.newItem true it = .ok (.ok, hist₁) ∧ hist₁.linkBack = .ok hist' ∧
      hist.Appends hist' it [] := by
  have hroot : hist.listRoot = none := h.seg
  have hend : hist.listEnd = none := h.end_eq
  rw [newItem, if_neg (by simp), hend]
  refine ⟨_, ⟨hist.items.alloc it, some hist.items.fresh, some hist.items.fresh,
    uintAdd hist.count 1, hist.max, hist.removed⟩, rfl, ?_, ⟨?_, rfl, hcount⟩, rfl, rfl,
    entry_alloc_self it, fun c hc => by cases hc⟩
  · rw [linkBack, if_pos hroot]
  · show Seg (links (hist.items.alloc it)) (some hist.items.fresh) [hist.items.fresh] none
    rw [links_alloc hn]
    exact ⟨rfl, none, update_self _ _ _, rfl⟩

/-- Another one is found from the end, and linked behind it. -/
theorem newItem_behind {init : List Nat} {l : Nat} (h : hist.Holds (init ++ [l]))
    {it : ListHistoryItem α R} (hn : it.next = none)
    (hcount : uintAdd hist.count 1 = (init ++ [l] ++ [hist.items.fresh]).length) :
    ∃ hist₁ hist', hist.newItem true it = .ok (.ok, hist₁) ∧ hist₁.linkBack = .ok hist' ∧
      hist.Appends hist' it (init ++ [l]) := by
  have hfresh := h.fresh_not_mem
  have hlinks := @links_alloc _ _ hist it hn
  have hl : l ∉ init := by
    have hnd := (List.nodup_append.mp h.seg.nodup).2.2
    exact fun hm => hnd l hm l (List.mem_singleton_self l) rfl
  have hend : hist.listEnd = some l := by
    rw [h.end_eq, List.getLast?_append_of_ne_nil _ (by simp)]
    rfl
  have hroot : hist.listRoot ≠ none := by
    rw [h.seg.head_eq]
    simp
  have hne : l ≠ hist.items.fresh := by
    intro he
    exact hfresh (he ▸ List.mem_append_right _ (List.mem_singleton_self l))
  have hs₁ : Seg (links (hist.items.alloc it)) hist.listRoot (init ++ [l]) none := by
    rw [hlinks]
    exact h.seg.update_of_not_mem hfresh
  obtain ⟨r, hinit, hlast⟩ := seg_append.mp hs₁
  have hr := hlast.1
  subst hr
  obtain ⟨x, hx⟩ := Heap.exists_cell hlast (List.mem_singleton_self l)
  have hput : ((hist.items.alloc it).put l
      (some { x with next := some hist.items.fresh })).cell l =
        some { x with next := some hist.items.fresh } := by
    rw [Heap.cell_put hx, update_self]
  have hentry : ∀ c, entry ((hist.items.alloc it).put l
      (some { x with next := some hist.items.fresh })) c = entry (hist.items.alloc it) c :=
    Heap.map_cell_modify (Heap.modify_eq hx fun y => { y with next := some hist.items.fresh })
      fun _ => rfl
  rw [newItem, if_neg (by simp), hend]
  dsimp only
  rw [lastLoop_eq hlast (show [l].getLast? = some l from rfl) (by simp), ok_bind,
    Heap.modify_eq hx, ok_bind]
  refine ⟨_, ⟨(hist.items.alloc it).put l (some { x with next := some hist.items.fresh }),
    hist.listRoot, some hist.items.fresh, uintAdd hist.count 1, hist.max, hist.removed⟩, rfl,
    ?_, ⟨?_, ?_, hcount⟩, rfl, rfl, (hentry _).trans (entry_alloc_self it), fun c hc => ?_⟩
  · rw [linkBack, if_neg hroot]
    dsimp only
    rw [Heap.get_eq hput]
    rfl
  · show Seg (links ((hist.items.alloc it).put l _)) hist.listRoot _ none
    rw [links, Heap.links_put hx]
    refine seg_concat.mpr ⟨hs₁.relink hl, ?_⟩
    rw [update_of_ne hne.symm, ← links, hlinks, update_self]
  · rw [List.getLast?_append_of_ne_nil _ (by simp)]
    rfl
  · exact (hentry c).trans (entry_alloc_ne it fun he => hfresh (he ▸ hc))

/-- The new item is linked behind the newest one. -/
theorem newItem_holds (h : hist.Holds as) (it : ListHistoryItem α R) (hn : it.next = none)
    (hcount : as.length + 1 < 2 ^ 32) :
    ∃ hist₁ hist', hist.newItem true it = .ok (.ok, hist₁) ∧ hist₁.linkBack = .ok hist' ∧
      hist.Appends hist' it as := by
  have hadd : uintAdd hist.count 1 = (as ++ [hist.items.fresh]).length := by
    rw [h.count_eq, uintAdd_eq hcount, List.length_append]
    rfl
  cases List.eq_nil_or_concat as with
  | inl hnil =>
    subst hnil
    exact newItem_first h hn hadd
  | inr hcons =>
    obtain ⟨init, l, has⟩ := hcons
    rw [List.concat_eq_append] at has
    subst has
    exact newItem_behind h hn hadd

/-- An item that is pushed is appended, and the oldest one goes if there are too many then. -/
theorem pushBack_eq [DecidableEq α] {hist₁ hist₂ : ListHistory α R} {item : α}
    {removeFunc : Option R} {compareFunc : Option (α → α → Int)}
    (hnew : hist.newItem true ⟨item, removeFunc, compareFunc.getD defaultCompare, none⟩ =
      .ok (.ok, hist₁)) (hlink : hist₁.linkBack = .ok hist₂) :
    hist.pushBack true (some item) removeFunc compareFunc =
      if hist₂.max > 0 ∧ hist₂.count > hist₂.max.toNat then do
        let hist' ← hist₂.popOff
        return (.ok, hist')
      else .ok (.ok, hist₂) := by
  rw [pushBack, hnew, ok_bind]
  dsimp only
  rw [if_neg (by simp), hlink, ok_bind]
  rfl

theorem pushBack_holds [DecidableEq α] (h : hist.Holds as) (mem : Bool) (item : Option α)
    (removeFunc : Option R) (compareFunc : Option (α → α → Int))
    (hcount : hist.count + 1 < 2 ^ 32) :
    ∃ code hist' as', hist.pushBack mem item removeFunc compareFunc = .ok (code, hist') ∧
      hist'.Holds as' := by
  cases item with
  | none => exact ⟨.badArg, hist, as, rfl, h⟩
  | some item =>
    cases mem with
    | false =>
      refine ⟨.memErr, hist, as, ?_, h⟩
      rw [pushBack, newItem, if_pos rfl, ok_bind]
      exact if_pos (by decide)
    | true =>
      obtain ⟨hist₁, hist₂, hnew, hlink, h₂⟩ := newItem_holds h
        ⟨item, removeFunc, compareFunc.getD defaultCompare, none⟩ rfl (h.count_eq ▸ hcount)
      obtain ⟨hist₃, hpop, h₃⟩ := popOff_holds h₂.holds
      rw [pushBack_eq hnew hlink]
      split
      · exact ⟨.ok, hist₃, _, by rw [hpop]; rfl, h₃⟩
      · exact ⟨.ok, hist₂, _, rfl, h₂.holds⟩

end ListHistory

end AlibC
