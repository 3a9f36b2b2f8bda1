import AlibC.ArrayListRuns
import Mathlib.Data.List.Nodup

/-! What adding and resizing do to the slots of an `ArrayList`, and the two ways between an item
and its index. -/
namespace AlibC.ArrayList

open CLang
variable {α : Type}

/-- The slot array. A list that has none has no slots. -/
def slots (l : ArrayList α) : List (Option α) := l.list.getD []

/-- The slot array has `capacity` slots and is no larger than an object can be, and `count` of them
hold an item. -/
structure Counted (l : ArrayList α) : Prop where
  length_eq : l.slots.length = l.capacity
  count_eq : l.count = l.entries.length
  object : 8 * l.capacity ≤ PTRDIFF_MAX

variable {l : ArrayList α}

theorem Counted.count_le (h : l.Counted) : l.count ≤ l.capacity := by
  rw [h.count_eq, ← h.length_eq]
  exact List.reduceOption_length_le _

theorem Counted.bytes_lt (h : l.Counted) : 8 * l.capacity < 2 ^ 64 :=
  Nat.lt_of_le_of_lt h.object (by decide)

theorem Counted.exists_cells (h : l.Counted) (hpos : 0 < l.capacity) :
    ∃ cells, l.list = some cells ∧ cells.length = l.capacity ∧
      l.count = cells.reduceOption.length := by
  have hlen := h.length_eq
  have hcount := h.count_eq
  rw [slots] at hlen
  rw [entries] at hcount
  cases hs : l.list with
  | none =>
    rw [hs, Option.getD_none, List.length_nil] at hlen
    omega
  | some cells =>
    rw [hs] at hlen hcount
    exact ⟨cells, rfl, hlen, hcount⟩

/-- The next capacity of an array that is an object can be addressed. -/
theorem Counted.nextCap_fits (h : l.Counted) (hmax : l.capacity < l.maxCap) :
    8 * l.nextCap < 2 ^ 64 := by
  have hobj := h.object
  unfold nextCap
  split
  · decide
  · unfold PTRDIFF_MAX at hobj
    split <;> omega

section Add

/-- What storing `a` has to leave: one slot that was free or is new holds it, and no other slot
differs from what it was, or from `NULL` if it is new. -/
structure Stored (l l' : ArrayList α) (a : α) : Prop where
  slots_eq : ∃ i, (l.slots ++ List.replicate (l'.capacity - l.capacity) none)[i]? = some none ∧
    l'.slots = (l.slots ++ List.replicate (l'.capacity - l.capacity) none).set i (some a)
  count_eq : l'.count = l.count + 1
  capacity_ge : l.capacity ≤ l'.capacity
  capacity_le : l'.capacity ≤ l'.maxCap
  maxCap_eq : l'.maxCap = l.maxCap
  freeItem_eq : l'.freeItem = l.freeItem

theorem set_append_cons (pre post : List (Option α)) (c d : Option α) :
    (pre ++ c :: post).set pre.length d = pre ++ d :: post := by
  rw [List.set_append_right _ _ (Nat.le_refl _), Nat.sub_self, List.set_cons_zero]

theorem getElem?_append_cons (pre post : List (Option α)) (c : Option α) :
    (pre ++ c :: post)[pre.length]? = some c := by
  rw [List.getElem?_append_right (Nat.le_refl _), Nat.sub_self]
  rfl

theorem add_stored (h : l.Counted) (hcap : l.capacity ≤ l.maxCap) (a : α)
    (hne : l.count ≠ l.maxCap) : ∃ l', l.add (some a) = .ok (true, l') ∧ l.Stored l' a := by
  have hle := h.count_le
  have hb := h.bytes_lt
  by_cases hlt : l.count < l.capacity
  · obtain ⟨cells, hs, hl, hc⟩ := h.exists_cells (by omega)
    obtain ⟨pre, post, rfl, hpre⟩ := exists_free (show cells.reduceOption.length < _ by omega)
    refine ⟨_, add_free hs hpre hl hlt a, ⟨⟨pre.length, ?_, ?_⟩, ?_, Nat.le_refl _, hcap, rfl, rfl⟩⟩
    · rw [Nat.sub_self, slots, hs, Option.getD_some, List.replicate_zero, List.append_nil,
        getElem?_append_cons]
    · rw [Nat.sub_self, slots, slots, hs, Option.getD_some, Option.getD_some, List.replicate_zero,
        List.append_nil, set_append_cons]
    · exact sizeAdd_eq (by omega)
  · have hmax : l.capacity < l.maxCap := by omega
    have hnext := nextCap_bounds hmax
    have hsucc : l.nextCap - l.capacity = l.nextCap - l.capacity - 1 + 1 := by omega
    refine ⟨_, add_behind h.length_eq (by omega) hmax (h.nextCap_fits hmax) a,
      ⟨⟨l.slots.length, ?_, ?_⟩, ?_, Nat.le_of_lt hnext.1, hnext.2, rfl, rfl⟩⟩
    · rw [hsucc, List.replicate_succ, getElem?_append_cons]
    · rw [slots, Option.getD_some]
      conv => rhs; rw [hsucc, List.replicate_succ, set_append_cons]
      rfl
    · exact sizeAdd_eq (by omega)

theorem entries_set_free {cells : List (Option α)} {i : Nat} (hi : cells[i]? = some none) (a : α) :
    (cells.set i (some a)).reduceOption.length = cells.reduceOption.length + 1 := by
  obtain ⟨hlt, hget⟩ := List.getElem?_eq_some_iff.mp hi
  have hset : (cells.set i (some a))[i]? = some (some a) := List.getElem?_set_self hlt
  have hclear : (cells.set i (some a)).set i none = cells := by
    rw [List.set_set, ← hget, List.set_getElem_self]
  have hp := Slots.perm_clear hset
  rw [hclear] at hp
  exact hp.length_eq

/-- A list to which an item was added is again one that counts its items. -/
theorem Stored.counted {l' : ArrayList α} {a : α} (hs : l.Stored l' a) (h : l.Counted)
    (hobj : 8 * l'.capacity ≤ PTRDIFF_MAX) : l'.Counted := by
  obtain ⟨i, hfree, hslots⟩ := hs.slots_eq
  have hcap := hs.capacity_ge
  refine ⟨?_, ?_, hobj⟩
  · rw [hslots, List.length_set, List.length_append, List.length_replicate, h.length_eq]
    omega
  · have hent : l'.entries = l'.slots.reduceOption := rfl
    have hent' : l.entries = l.slots.reduceOption := rfl
    rw [hs.count_eq, h.count_eq, hent, hslots, entries_set_free hfree, List.reduceOption_append,
      List.reduceOption_replicate_none, List.append_nil, hent']

/-- Items added one after the other, with what the calls returned. -/
def addAll : ArrayList α → List α → Outcome (List Bool × ArrayList α)
  | l, [] => .ok ([], l)
  | l, a :: items => do
    let (stored, l) ← l.add (some a)
    let (more, l) ← addAll l items
    return (stored :: more, l)

theorem addAll_eq (items : List α) : ∀ {l : ArrayList α}, l.Counted → l.capacity ≤ l.maxCap →
    8 * l.maxCap ≤ PTRDIFF_MAX → l.count + items.length ≤ l.maxCap →
    ∃ l', l.addAll items = .ok (items.map fun _ => true, l') ∧
      l'.count = l.count + items.length := by
  induction items with
  | nil => intro l _ _ _ _; exact ⟨l, rfl, rfl⟩
  | cons a items ih =>
    intro l h hcap hobj hroom
    rw [List.length_cons] at hroom
    obtain ⟨l₁, hadd, hs⟩ := add_stored h hcap a (by omega)
    have hcount := hs.count_eq
    have hle := hs.capacity_le
    have hmax := hs.maxCap_eq
    obtain ⟨l', hall, hcount'⟩ := ih (hs.counted h (by omega)) hle (by omega) (by omega)
    refine ⟨l', ?_, ?_⟩
    · rw [addAll, hadd, ok_bind]
      simp only [hall, ok_bind]
      rfl
    · rw [hcount', hcount, List.length_cons]
      omega

/-- `ArrayList_add` refuses no item before the list is at its maximum, where it changes nothing, and
stores one exactly once. So a list whose arrays can be allocated is filled up to that maximum. -/
theorem add_stores (h : l.Counted) (hcap : l.capacity ≤ l.maxCap) :
    (∀ item, item = none ∨ l.count = l.maxCap → l.add item = .ok (false, l)) ∧
    (∀ a, l.count ≠ l.maxCap → ∃ l', l.add (some a) = .ok (true, l') ∧ l.Stored l' a) ∧
    ∀ items : List α, 8 * l.maxCap ≤ PTRDIFF_MAX → l.count + items.length = l.maxCap →
      ∃ l', l.addAll items = .ok (items.map fun _ => true, l') ∧ l'.count = l.maxCap := by
  have hle := h.count_le
  refine ⟨fun item hno => ?_, fun a hne => add_stored h hcap a hne, fun items hobj hfill => ?_⟩
  · cases item with
    | none => rfl
    | some a =>
      rcases hno with hnone | hmax
      · cases hnone
      · rw [add, if_neg (by omega), if_pos (by omega)]
  · obtain ⟨l', hall, hcount⟩ := addAll_eq items h hcap hobj (Nat.le_of_eq hfill)
    exact ⟨l', hall, hcount.trans hfill⟩

theorem add_stores_two :
    let l : ArrayList Nat := ⟨some [none, some 7], 1, 2, 3, false⟩
    (∀ item, item = none ∨ l.count = l.maxCap → l.add item = .ok (false, l)) ∧
    (∀ a, l.count ≠ l.maxCap → ∃ l', l.add (some a) = .ok (true, l') ∧ l.Stored l' a) ∧
    ∀ items : List Nat, 8 * l.maxCap ≤ PTRDIFF_MAX → l.count + items.length = l.maxCap →
      ∃ l', l.addAll items = .ok (items.map fun _ => true, l') ∧ l'.count = l.maxCap :=
  add_stores ⟨rfl, rfl, by decide⟩ (by decide)

end Add

section Resize

theorem map_some_of_full {cells : List (Option α)}
    (h : cells.reduceOption.length = cells.length) : cells.reduceOption.map some = cells := by
  have hnone : none ∉ cells := fun hm =>
    absurd (List.reduceOption_length_lt_iff.mpr hm) (by omega)
  induction cells with
  | nil => rfl
  | cons c cells ih =>
    cases c with
    | none => exact absurd List.mem_cons_self hnone
    | some a =>
      rw [List.reduceOption_cons_of_some] at h ⊢
      rw [List.map_cons, ih (Nat.succ.inj h) fun hm => hnone (List.mem_cons_of_mem _ hm)]

/-- What a resize to `n` slots has to leave: the first items packed in front if there are fewer
slots than before, and every slot in its place otherwise. `dropped` is what the delete callback is
called with. -/
structure Resized (l l' : ArrayList α) (dropped : List α) (n : Nat) : Prop where
  capacity_eq : l'.capacity = n
  maxCap_eq : l'.maxCap = l.maxCap
  freeItem_eq : l'.freeItem = l.freeItem
  shrunk : n < l.capacity →
    l'.slots = (l.entries.take n).map some ++ List.replicate (n - l.count) none ∧
      l'.count = min l.count n ∧ dropped = if l.freeItem then l.entries.drop n else []
  grown : l.capacity ≤ n →
    l'.slots = l.slots ++ List.replicate (n - l.capacity) none ∧ l'.count = l.count ∧ dropped = []

/-- Only the first array is cut off at the maximum. -/
theorem askedCap_some {cells : List (Option α)} (hs : l.list = some cells) (n : Nat) :
    l.askedCap n = n := by
  rw [askedCap, hs]
  exact if_neg (Option.some_ne_none cells)

/-- The first allocation. -/
theorem resized_first (h : l.Counted) {n : Nat} (hs : l.list = none) (hn : 0 < n)
    (hfit : 8 * min n l.maxCap < 2 ^ 64) :
    ∃ l', l.resize n = .ok ([], l') ∧ l.Resized l' [] (l.askedCap n) := by
  have hlen := h.length_eq
  have h0 : l.capacity = 0 := by rw [← hlen, slots, hs]; rfl
  have hcut : (if n > l.maxCap then l.maxCap else n) = min n l.maxCap := by split <;> omega
  have hasked : l.askedCap n = min n l.maxCap := if_pos hs
  have hr : l.resize n = .ok ([], ⟨some (List.replicate (min n l.maxCap) none), l.count,
      min n l.maxCap, l.maxCap, l.freeItem⟩) := by
    rw [resize, if_neg (by omega)]
    simp only [hs, hcut, calloc, if_pos hfit]
  refine ⟨_, hr, ⟨hasked.symm, rfl, rfl, fun hlt => absurd hlt (by omega), fun _ => ⟨?_, rfl, rfl⟩⟩⟩
  rw [hasked, slots, slots, hs, h0]
  rfl

/-- Every other resize, of which the size can be addressed. -/
theorem resized_array (h : l.Counted) {cells : List (Option α)} {n : Nat} (hs : l.list = some cells)
    (hn : 0 < n) (hfit : 8 * n < 2 ^ 64) :
    ∃ dropped l', l.resize n = .ok (dropped, l') ∧ l.Resized l' dropped (l.askedCap n) := by
  have hlen := h.length_eq
  have hcount := h.count_eq
  have hent : l.entries = cells.reduceOption := by rw [entries, hs, Option.getD_some]
  rw [slots, hs, Option.getD_some] at hlen
  rw [hent] at hcount
  rw [askedCap_some hs]
  rcases Nat.lt_trichotomy n l.capacity with hlt | heq | hgt
  · refine ⟨_, _, resize_below hs hcount h.bytes_lt hn hlt, ⟨rfl, rfl, rfl, fun _ => ?_,
      fun hle => absurd hle (by omega)⟩⟩
    rw [hent, hcount]
    exact ⟨rfl, rfl, rfl⟩
  · refine ⟨[], l, by rw [heq, resize_same], ⟨heq.symm, rfl, rfl, fun hlt => absurd hlt (by omega),
      fun _ => ⟨?_, rfl, rfl⟩⟩⟩
    rw [heq, Nat.sub_self, List.replicate_zero, List.append_nil]
  · refine ⟨_, _, resize_above hs hlen hgt hfit, ⟨rfl, rfl, rfl,
      fun hlt => absurd hlt (by omega), fun _ => ⟨?_, rfl, rfl⟩⟩⟩
    rw [slots, slots, hs]
    rfl

theorem length_realloc (cells : List (Option α)) (size : Nat) :
    (realloc cells size).length = size / 8 := by
  rw [realloc, List.length_append, List.length_take, List.length_replicate]
  omega

/-- Where `sizeof(void*) * newcap` wraps around, the slots are not there. -/
theorem resize_wraps (h : l.Counted) {n : Nat} {cells dropped : List _} {l' : ArrayList α}
    (hs : l.list = some cells) (hwrap : 2 ^ 64 ≤ 8 * n) (hr : l.resize n = .ok (dropped, l')) :
    l'.slots.length < n := by
  have hb := h.bytes_lt
  rw [resize, if_neg (by omega), hs] at hr
  dsimp only at hr
  rw [if_pos (by omega), if_neg (by omega)] at hr
  obtain ⟨list, hstore, hr⟩ := bind_eq_ok.mp hr
  cases hr
  have hlen := (store_inv hstore).1
  rw [Option.getD_some, length_realloc] at hlen
  have hmod : sizeMul 8 n < 2 ^ 64 := Nat.mod_lt _ (Nat.two_pow_pos 64)
  rw [slots, hlen]
  omega

/-- `ArrayList_shrink` leaves the items and no hole. -/
theorem shrink_packs (h : l.Counted) :
    ∃ l', l.shrink = .ok ([], l') ∧ l'.capacity = l.count ∧ l'.count = l.count ∧
      l'.slots = l.entries.map some ∧ l'.maxCap = l.maxCap ∧ l'.freeItem = l.freeItem := by
  have hle := h.count_le
  have hcount := h.count_eq
  have hb := h.bytes_lt
  by_cases heq : l.count = l.capacity
  · refine ⟨l, by rw [shrink, heq, resize_same], heq.symm, rfl, ?_, rfl, rfl⟩
    have hfull : l.slots.reduceOption.length = l.slots.length := by
      rw [h.length_eq, ← heq]
      exact hcount.symm
    exact (map_some_of_full hfull).symm
  · obtain ⟨cells, hs, hl, hc⟩ := h.exists_cells (by omega)
    have hent : l.entries = cells.reduceOption := by rw [entries, hs, Option.getD_some]
    by_cases h0 : l.count = 0
    · have hnil : l.entries = [] := List.eq_nil_of_length_eq_zero (by omega)
      refine ⟨{ l with list := none, count := 0, capacity := 0 }, ?_, h0.symm, h0.symm, ?_, rfl,
        rfl⟩
      · rw [shrink, resize, if_neg heq, hs, h0]
        rfl
      · rw [hnil]
        rfl
    · have hnodrop : cells.reduceOption.drop l.count = [] :=
        List.drop_of_length_le (Nat.le_of_eq hc.symm)
      have hpad : l.count - cells.reduceOption.length = 0 := by omega
      have hr := resize_below hs hc hb (Nat.pos_of_ne_zero h0) (Nat.lt_of_le_of_ne hle heq)
      rw [hnodrop, hpad, List.take_of_length_le (Nat.le_of_eq hc.symm), ite_self] at hr
      refine ⟨_, hr, rfl, Nat.min_self _, ?_, rfl, rfl⟩
      rw [slots, Option.getD_some, List.replicate_zero, List.append_nil, hent]

/-- What resizing and shrinking have to do with the items, when the array asked for can be had. -/
def ResizeKeeps (l : ArrayList α) (n : Nat) : Prop :=
  (∃ dropped l', l.resize n = .ok (dropped, l') ∧ l.Resized l' dropped (l.askedCap n)) ∧
    ∃ l', l.shrink = .ok ([], l') ∧ l'.capacity = l.count ∧ l'.count = l.count ∧
      l'.slots = l.entries.map some ∧ l'.maxCap = l.maxCap ∧ l'.freeItem = l.freeItem

/-- They do, except where the size of the new array wraps around in the call of `realloc`. -/
theorem resizeKeeps_iff (h : l.Counted) {n : Nat} (hn : 0 < n)
    (halloc : l.list = none → 8 * min n l.maxCap < 2 ^ 64) :
    l.ResizeKeeps n ↔ l.list = none ∨ 8 * n < 2 ^ 64 := by
  constructor
  · rintro ⟨⟨dropped, l', hr, hres⟩, -⟩
    cases hs : l.list with
    | none => exact .inl rfl
    | some cells =>
      refine .inr (Nat.lt_of_not_le fun hwrap => ?_)
      have hshort := resize_wraps h hs hwrap hr
      have hb := h.bytes_lt
      have hasked := askedCap_some hs n
      obtain ⟨hslots, -, -⟩ := hres.grown (by omega)
      rw [hslots, hasked, List.length_append, List.length_replicate, h.length_eq] at hshort
      omega
  · intro hfit
    refine ⟨?_, shrink_packs h⟩
    cases hs : l.list with
    | none =>
      obtain ⟨l', hr, hres⟩ := resized_first h hs hn (halloc hs)
      exact ⟨[], l', hr, hres⟩
    | some cells =>
      exact resized_array h hs hn (hfit.resolve_left fun hnone => by rw [hs] at hnone; cases hnone)

theorem resizeKeeps_three :
    let l : ArrayList Nat := ⟨some [none, some 7, none, some 8], 2, 4, 4, true⟩
    l.ResizeKeeps 3 ↔ l.list = none ∨ 8 * 3 < 2 ^ 64 :=
  resizeKeeps_iff ⟨rfl, rfl, by decide⟩ (by decide) nofun

/-- Asked for more slots than can be addressed, `realloc` gives one, and the list counts on more. -/
theorem resize_loses_slots :
    (⟨some [some 7], 1, 1, 4, false⟩ : ArrayList Nat).resize (2 ^ 61 + 1) =
      .ok ([], ⟨some [some 7], 1, 2 ^ 61 + 1, 4, false⟩) ∧
    ¬(⟨some [some 7], 1, 1, 4, false⟩ : ArrayList Nat).ResizeKeeps (2 ^ 61 + 1) := by
  refine ⟨by decide, ?_⟩
  rintro ⟨⟨dropped, l', hr, hres⟩, -⟩
  have hshort := resize_wraps ⟨rfl, rfl, by decide⟩ rfl (by decide) hr
  obtain ⟨hslots, -, -⟩ := hres.grown (by decide)
  rw [hslots, List.length_append, List.length_replicate] at hshort
  have hasked : (⟨some [some 7], 1, 1, 4, false⟩ : ArrayList Nat).askedCap (2 ^ 61 + 1) =
      2 ^ 61 + 1 := rfl
  rw [hasked] at hshort
  exact absurd hshort (by decide)

end Resize

section Index

theorem getByIndex_eq (h : l.Counted) {v : Nat} (hv : v < l.count) :
    l.getByIndex v = .ok l.entries[v]? := by
  obtain ⟨cells, hs, hl, -⟩ := h.exists_cells (Nat.lt_of_le_of_lt (Nat.zero_le v)
    (Nat.lt_of_lt_of_le hv h.count_le))
  rw [getByIndex, if_neg (Nat.not_le.mpr hv), entries, hs, ← hl]
  exact Slots.nthEntry_eq cells v

variable [DecidableEq α]

theorem getItemIndex_eq (h : l.Counted) (a : α) :
    l.getItemIndex (some a) =
      .ok ((l.entries.findIdx? (· = a)).elim (-1) fun i => (i : Int)) := by
  have hb := h.bytes_lt
  have hle := h.count_le
  have hcount := h.count_eq
  rw [getItemIndex]
  by_cases h0 : l.capacity = 0 ∨ l.count = 0
  · have hnil : l.entries = [] := List.eq_nil_of_length_eq_zero (by omega)
    rw [if_pos h0, hnil]
    rfl
  · obtain ⟨cells, hs, -, hc⟩ := h.exists_cells (by omega)
    have hent : l.entries = cells.reduceOption := by rw [entries, hs, Option.getD_some]
    rw [if_neg h0, hs, deref_some, ok_bind,
      Slots.entryIndex_eq (show l.count = 0 + _ by rw [hc, Nat.zero_add]), hent, ok_bind]
    cases hf : cells.reduceOption.findIdx? fun x => decide (x = a) with
    | none => rfl
    | some i =>
      obtain ⟨hi, -⟩ := List.findIdx?_eq_some_iff_getElem.mp hf
      rw [Option.map_some, Nat.zero_add]
      dsimp only
      rw [toLong_eq (by omega)]
      rfl

/-- The index of an item that occurs once. -/
theorem findIdx?_of_nodup {as : List α} (hd : as.Nodup) {i : Nat} {a : α} (h : as[i]? = some a) :
    as.findIdx? (· = a) = some i := by
  obtain ⟨hi, rfl⟩ := List.getElem?_eq_some_iff.mp h
  rw [List.findIdx?_eq_some_iff_getElem]
  refine ⟨hi, decide_eq_true rfl, fun j hj heq => ?_⟩
  rw [decide_eq_true_eq] at heq
  exact absurd (hd.getElem_inj_iff.mp heq) (Nat.ne_of_lt hj)

/-- Items and their indices are one for one, and neither search leaves the slots. -/
theorem index_inverse (h : l.Counted) (hd : l.entries.Nodup) :
    (∀ v, v < l.count → ∃ a, l.getByIndex v = .ok (some a) ∧ l.getItemIndex (some a) = .ok v) ∧
    (∀ a ∈ l.entries, ∃ i : Nat, l.getItemIndex (some a) = .ok i ∧
      l.getByIndex i = .ok (some a)) ∧
    (∀ v, l.count ≤ v → l.getByIndex v = .ok none) ∧
    ∀ item, (∀ a ∈ l.entries, item ≠ some a) → l.getItemIndex item = .ok (-1) := by
  have hcount := h.count_eq
  refine ⟨fun v hv => ?_, fun a ha => ?_, fun v hv => ?_, fun item hno => ?_⟩
  · have hget : l.entries[v]? = some l.entries[v] := List.getElem?_eq_getElem (by omega)
    refine ⟨l.entries[v], by rw [getByIndex_eq h hv, hget], ?_⟩
    rw [getItemIndex_eq h, findIdx?_of_nodup hd hget]
    rfl
  · obtain ⟨i, hi, rfl⟩ := List.getElem_of_mem ha
    have hget : l.entries[i]? = some l.entries[i] := List.getElem?_eq_getElem hi
    refine ⟨i, ?_, by rw [getByIndex_eq h (by omega), hget]⟩
    rw [getItemIndex_eq h, findIdx?_of_nodup hd hget]
    rfl
  · rw [getByIndex, if_pos hv]
  · cases item with
    | none => rfl
    | some a =>
      have hnone : l.entries.findIdx? (· = a) = none := by
        rw [List.findIdx?_eq_none_iff]
        intro b hb
        exact decide_eq_false fun heq => hno b hb (congrArg some heq.symm)
      rw [getItemIndex_eq h, hnone]
      rfl

theorem index_inverse_two :
    let l : ArrayList Nat := ⟨some [none, some 7, none, some 8], 2, 4, 4, false⟩
    (∀ v, v < l.count → ∃ a, l.getByIndex v = .ok (some a) ∧ l.getItemIndex (some a) = .ok v) ∧
    (∀ a ∈ l.entries, ∃ i : Nat, l.getItemIndex (some a) = .ok i ∧
      l.getByIndex i = .ok (some a)) ∧
    (∀ v, l.count ≤ v → l.getByIndex v = .ok none) ∧
    ∀ item, (∀ a ∈ l.entries, item ≠ some a) → l.getItemIndex item = .ok (-1) :=
  index_inverse ⟨rfl, rfl, by decide⟩ (by decide)

end Index

end AlibC.ArrayList
