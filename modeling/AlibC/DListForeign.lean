import AlibC.DListRanges

/-! Removing items that belong to another list, or to none. -/
namespace AlibC.DList

open CLang Function Linked DListItem Reorder

variable {α : Type} {list : DList α} {xs ys : List Nat} {a index count : Nat}

/-- The ways of removing items told by one of them. -/
inductive ItemRemoval where
  | item
  | itemLsafe
  | itemCount (count : Nat)
  | itemCountLsafe (count : Nat)
deriving DecidableEq, Repr

def removeBy (list : DList α) : ItemRemoval → Option Nat → Outcome (AlibError × DList α)
  | .item, p => list.removeItem p
  | .itemLsafe, p => list.removeItemLsafe p
  | .itemCount count, p => list.removeItemCount p count
  | .itemCountLsafe count, p => list.removeItemCountLsafe p count

/-- The item is `NULL`, or among the items `ys` of another list or of a free chain. -/
def Foreign (list : DList α) (ys : List Nat) (p : Option Nat) : Prop :=
  ∀ a, p = some a → a ∈ ys ∧ ∃ q, q ≠ some list.self ∧ Chain (view list.items) q ys

/-- An error is returned, and nothing changes in the memory of all the lists. -/
def Refuses (list : DList α) (removal : ItemRemoval) (p : Option Nat) : Prop :=
  ∃ code, code ≠ .ok ∧ list.removeBy removal p = .ok (code, list)

/-- The index that a list looks for, which is that of the item in its own chain, as an `int`. -/
def ownIndex (ys : List Nat) : Option Nat → Nat
  | none => toSize AlibError.badArg.code
  | some a => toSize (toInt32 (ys.idxOf a))

/-- The foreign items that are refused by a list of `n` items. -/
def Refusable (n : Nat) (ys : List Nat) (p : Option Nat) : ItemRemoval → Prop
  | .item | .itemLsafe => p ≠ none
  | .itemCount _ | .itemCountLsafe _ => n ≤ ownIndex ys p

/-- An item tells its index in its own chain. -/
theorem index_own (h : Dll (view list.items).nx (view list.items).pv ys) (ha : a ∈ ys) :
    ∃ i, DListItem.index list.items (some a) = .ok i ∧ toSize i = ownIndex ys (some a) := by
  obtain ⟨pre, post, rfl⟩ := List.append_of_mem ha
  refine ⟨_, index_eq h, ?_⟩
  rw [ownIndex, idxOf_split h.nodup]

/-- The calls with a count are given the index that is told. -/
theorem counted_of_index {p : Option Nat} {i : Int} (hindex : DListItem.index list.items p = .ok i)
    (hi : toSize i = index) (count : Nat) :
    list.removeItemCount p count = list.removeCount index count ∧
      list.removeItemCountLsafe p count = list.removeCountLsafe index count := by
  rw [removeItemCount, removeItemCountLsafe, hindex, ok_bind, ok_bind, hi]
  exact ⟨rfl, rfl⟩

theorem Holds.counted_eq (h : list.Holds xs) (ha : a ∈ xs) (count : Nat) :
    list.removeItemCount (some a) count = list.removeCount (ownIndex xs (some a)) count ∧
      list.removeItemCountLsafe (some a) count =
        list.removeCountLsafe (ownIndex xs (some a)) count := by
  obtain ⟨i, hindex, hi⟩ := index_own h.chain.dll ha
  exact counted_of_index hindex hi count

theorem index_foreign {p : Option Nat} (hp : list.Foreign ys p) :
    ∃ i, DListItem.index list.items p = .ok i ∧ toSize i = ownIndex ys p := by
  cases p with
  | none => exact ⟨_, rfl, rfl⟩
  | some a =>
    obtain ⟨ha, q, -, hchain⟩ := hp a rfl
    exact index_own hchain.dll ha

theorem removeCountLsafe_code (h : list.Holds xs) (hlt : xs.length < 2 ^ 63)
    (hin : index < xs.length) {code : AlibError} {list' : DList α}
    (hr : list.removeCountLsafe index count = .ok (code, list')) : code = .ok := by
  rw [removeCountLsafe, if_neg (by rw [h.count_eq]; omega), get_eq h hlt,
    List.getElem?_eq_getElem hin, ok_bind, if_neg (Option.some_ne_none _)] at hr
  obtain ⟨items', -, hr⟩ := bind_eq_ok.mp hr
  cases hr
  rfl

theorem refuses_given (hp : list.Foreign ys (some a)) :
    list.removeItem (some a) = .ok (.badArg, list) ∧
      list.removeItemLsafe (some a) = .ok (.badArg, list) := by
  obtain ⟨ha, q, hq, hchain⟩ := hp a rfl
  have hpar := member_eq (hchain.par_eq a ha)
  rw [removeItem, removeItemLsafe, hpar, ok_bind, ok_bind]
  exact ⟨if_pos hq, if_pos hq⟩

theorem refuses_counted_iff (h : list.Holds xs) (hlt : xs.length < 2 ^ 63) {p : Option Nat}
    (hp : list.Foreign ys p) (count : Nat) :
    (list.Refuses (.itemCount count) p ↔ xs.length ≤ ownIndex ys p) ∧
      (list.Refuses (.itemCountLsafe count) p ↔ xs.length ≤ ownIndex ys p) := by
  have hn := h.count_eq
  obtain ⟨i, hindex, hi⟩ := index_foreign hp
  obtain ⟨hitem, hlsafe⟩ := counted_of_index hindex hi count
  rw [Refuses, Refuses, removeBy, removeBy, hitem, hlsafe]
  refine ⟨⟨fun ⟨code, hcode, hr⟩ => ?_, fun hout => ?_⟩,
    ⟨fun ⟨code, hcode, hr⟩ => ?_, fun hout => ?_⟩⟩
  · by_contra hin
    exact hcode (removeCount_inv (by omega) hr).1
  · exact ⟨.badArg, by decide, if_pos (by omega)⟩
  · by_contra hin
    exact hcode (removeCountLsafe_code h hlt (by omega) hr)
  · exact ⟨.badArg, by decide, if_pos (by omega)⟩

/-- A call that follows a null pointer refuses the others. -/
theorem refuses_alone_iff {removal : ItemRemoval} {p : Option Nat} {f : Fault}
    (hnone : list.removeBy removal none = .error f)
    (hsome : ∀ a, p = some a → list.removeBy removal (some a) = .ok (.badArg, list)) :
    list.Refuses removal p ↔ p ≠ none := by
  cases p with
  | none =>
    refine iff_of_false ?_ fun hne => hne rfl
    rintro ⟨code, -, hr⟩
    rw [hnone] at hr
    cases hr
  | some a => exact iff_of_true ⟨.badArg, by decide, hsome a rfl⟩ (Option.some_ne_none a)

/-- A list of one item beside another list of two items. -/
def oneBesideTwo : DList Nat where
  items := ⟨[some ⟨none, some 9, false, none, none⟩, some ⟨none, some 8, false, some 2, none⟩,
    some ⟨none, some 8, false, none, some 1⟩]⟩
  self := 9
  beginItem := some 0
  endItem := some 0
  count := 1
  itemsReadyForRemoval := false
  dropped := []

theorem oneBesideTwo_holds : oneBesideTwo.Holds [0] := by
  refine ⟨⟨⟨⟨rfl, trivial⟩, ⟨rfl, trivial⟩⟩, fun a ha => ?_⟩, rfl, rfl, rfl⟩
  cases List.mem_singleton.mp ha
  rfl

/-- The other list. -/
def twoBesideOne : DList Nat :=
  { oneBesideTwo with self := 8, beginItem := some 1, endItem := some 2, count := 2 }

theorem twoBesideOne_holds : twoBesideOne.Holds [1, 2] := by
  refine ⟨⟨⟨⟨rfl, rfl, trivial⟩, ⟨rfl, rfl, trivial⟩⟩, fun a ha => ?_⟩, rfl, rfl, rfl⟩
  rcases List.mem_cons.mp ha with rfl | ha
  · rfl
  · cases List.mem_singleton.mp ha
    rfl

theorem twoBesideOne_foreign {p : Nat} (hp : p ∈ [1, 2]) :
    oneBesideTwo.Foreign [1, 2] (some p) := by
  intro a ha
  cases ha
  exact ⟨hp, some 8, by decide, twoBesideOne_holds.chain⟩

end AlibC.DList
