import AlibC.DListDeque
import AlibC.DListItemSplice

/-! Inserting a chain next to an item of a `DList`. -/
namespace AlibC.DList

open CLang Function Linked DListItem Reorder

variable {α : Type} {list : DList α} {xs ys pre post u w : List Nat} {a b c : Nat}

theorem Holds.begin_mem (h : list.Holds xs) (hne : xs ≠ []) :
    ∃ b, list.beginItem = some b ∧ b ∈ xs := by
  obtain ⟨b, -, hb, -⟩ := exists_ends hne
  exact ⟨b, h.begin_eq.trans hb, List.mem_of_head? hb⟩

theorem Holds.end_mem (h : list.Holds xs) (hne : xs ≠ []) : ∃ e, list.endItem = some e ∧ e ∈ xs := by
  obtain ⟨-, e, -, he⟩ := exists_ends hne
  exact ⟨e, h.end_eq.trans he, List.mem_of_getLast? he⟩

/-- Wherever a chain is entered, its ends are found. -/
theorem ends_eq {items : Items α} (h : Dll (view items).nx (view items).pv xs) (ha : a ∈ xs) :
    getFirstItem items (some a) = .ok xs.head? ∧ getLastItem items (some a) = .ok xs.getLast? := by
  obtain ⟨u, w, rfl⟩ := List.append_of_mem ha
  exact ⟨getFirstItem_eq h, getLastItem_eq h⟩

/-- What `DList_insert_before` makes of a chain of items that comes before an item that is not
the first. One is added to the count, however many items there are. -/
theorem insertBefore_inner (h : list.Holds (pre ++ c :: post)) (hpre : pre ≠ [])
    (hy : Chain (view list.items) none (u ++ b :: w)) :
    ∃ items', list.insertBefore (some c) (some b) =
        .ok (.ok, { list with items := items', count := sizeAdd list.count 1 }) ∧
      Chain (view items') (some list.self) (pre ++ (u ++ b :: w) ++ c :: post) := by
  have hnd := nodup_insert h.chain rfl hy (by simp)
  obtain ⟨items', hins, hv⟩ := insertBefore_spec h.chain hy hnd hpre
  have hchain : Chain (view items') (some list.self) (pre ++ (u ++ b :: w) ++ c :: post) := by
    rw [hv]
    exact h.chain.spliced hy (by simp) hnd
  refine ⟨items', ?_, hchain⟩
  have hbpar := hy.par_eq b (List.mem_append_right _ List.mem_cons_self)
  obtain ⟨y, -, hhead, -⟩ := exists_ends (show u ++ b :: w ≠ [] by simp)
  have hyc : some y ≠ some c := by
    rintro hyc
    cases hyc
    rw [List.nodup_append] at hnd
    exact hnd.2.2 c (List.mem_append_right _ (List.mem_of_head? hhead)) c List.mem_cons_self rfl
  obtain ⟨p, -, hp, -⟩ := exists_ends hpre
  obtain ⟨tail, rfl⟩ := List.head?_eq_some_iff.mp hp
  have hbegin : list.beginItem = some p := h.begin_eq
  have hbefore : (view items').pv p = some none :=
    (@Dll.link_eq Nat _ _ p [] (tail ++ (u ++ b :: w) ++ c :: post) hchain.dll).2
  obtain ⟨e, he, -⟩ := h.end_mem (by simp)
  rw [insertBefore]
  dsimp only
  rw [member_eq (h.chain.par_eq c (by simp)), ok_bind, if_neg (fun hne => hne rfl),
    member_eq hbpar, ok_bind, if_neg (fun hne => hne rfl), hins, ok_bind]
  dsimp only
  rw [hhead, if_neg hyc, memberIf, hbegin, if_neg (Option.some_ne_none p), member_eq hbefore,
    ok_bind, firstIf, if_neg (by simp), ok_bind, lastIf, if_neg (by simp [he]), ok_bind, ← hbegin]
  rfl

/-- Before the first item the insertion faults. -/
theorem insertBefore_front (h : list.Holds (c :: post))
    (hy : Chain (view list.items) none (u ++ b :: w)) :
    list.insertBefore (some c) (some b) = .error .nullDeref := by
  have hbpar := hy.par_eq b (List.mem_append_right _ List.mem_cons_self)
  have hnd : ([] ++ (u ++ b :: w) ++ c :: post).Nodup := nodup_insert h.chain rfl hy (by simp)
  rw [insertBefore]
  dsimp only
  rw [member_eq (h.chain.par_eq c List.mem_cons_self), ok_bind, if_neg (fun hne => hne rfl),
    member_eq hbpar, ok_bind, if_neg (fun hne => hne rfl), insertBefore_fault h.chain hy hnd]
  rfl

/-- A single item comes before one that is not the first. -/
theorem insertBefore_single (h : list.Holds (pre ++ c :: post)) (hpre : pre ≠ [])
    (hb : Chain (view list.items) none [b]) (hlt : (pre ++ c :: post).length + 1 < 2 ^ 64) :
    ∃ list', list.insertBefore (some c) (some b) = .ok (.ok, list') ∧
      list'.Holds (pre ++ [b] ++ c :: post) ∧ list'.self = list.self := by
  obtain ⟨items', hins, hchain⟩ := @insertBefore_inner α list pre post [] [] b c h hpre hb
  refine ⟨_, hins, ⟨hchain, ?_, ?_, ?_⟩, rfl⟩
  · show list.beginItem = _
    rw [h.begin_eq, List.append_assoc, List.head?_append_of_ne_nil _ hpre,
      List.head?_append_of_ne_nil _ hpre]
  · show list.endItem = _
    rw [h.end_eq, List.getLast?_append_of_ne_nil _ (List.cons_ne_nil c post),
      List.getLast?_append_of_ne_nil _ (List.cons_ne_nil c post)]
  · show sizeAdd list.count 1 = _
    rw [h.count_eq, sizeAdd_eq hlt]
    simp only [List.length_append, List.length_cons, List.length_nil]
    omega

/-- `DList_insert_after` never inserts: either the new item has no parent and is refused, or it
has one and `DListItem_insert_after` refuses it. -/
theorem insertAfter_refused {p q : Option Nat} (hc : (view list.items).par c = some p)
    (hb : (view list.items).par b = some q) :
    ∃ code, code ≠ .ok ∧ list.insertAfter (some c) (some b) = .ok (code, list) := by
  rw [insertAfter]
  dsimp only
  rw [member_eq hc, ok_bind]
  by_cases hp : p = some list.self
  · rw [if_neg (fun hne => hne hp), member_eq hb, ok_bind]
    cases q with
    | none => exact ⟨.badArg, by decide, if_pos rfl⟩
    | some q =>
      rw [if_neg (Option.some_ne_none q), DListItem.insertAfter, member_eq hb, ok_bind,
        if_pos (Option.some_ne_none q), pure_ok, ok_bind]
      exact ⟨.unknownErr, by decide, if_pos rfl⟩
  · exact ⟨.badArg, by decide, if_pos hp⟩

/-- The two sides of an item. -/
inductive Side where
  | after
  | before
deriving DecidableEq, Repr

def insertBeside (list : DList α) : Side → Option Nat → Option Nat → Outcome (AlibError × DList α)
  | .after => list.insertAfter
  | .before => list.insertBefore

/-- The items `ys` next to the item `c` of `xs`. -/
def Side.place : Side → List Nat → Nat → List Nat → List Nat
  | after, xs, c, ys => xs.take (xs.idxOf c + 1) ++ ys ++ xs.drop (xs.idxOf c + 1)
  | before, xs, c, ys => xs.take (xs.idxOf c) ++ ys ++ xs.drop (xs.idxOf c)

/-- The chain is inserted next to the item, and the list is well-formed again. -/
def InsertsBeside (list : DList α) (side : Side) (xs : List Nat) (c : Nat) (ys : List Nat)
    (b : Nat) : Prop :=
  ∃ list', list.insertBeside side (some c) (some b) = .ok (.ok, list') ∧
    list'.Holds (side.place xs c ys) ∧ list'.self = list.self

/-- The item is `NULL` or does not belong to the list. -/
def NotIn (list : DList α) (item : Option Nat) : Prop :=
  ∀ a, item = some a → ∃ p, (view list.items).par a = some p ∧ p ≠ some list.self

/-- The item is `NULL` or belongs to a list. -/
def Owned (items : Items α) (item : Option Nat) : Prop :=
  ∀ a, item = some a → ∃ p, (view items).par a = some (some p)

theorem insertBeside_notIn {item : Option Nat} (hc : list.NotIn item) (side : Side)
    (newItem : Option Nat) : list.insertBeside side item newItem = .ok (.badArg, list) := by
  cases item with
  | none => cases side <;> rfl
  | some c =>
    obtain ⟨p, hp, hne⟩ := hc c rfl
    cases side with
    | after =>
      rw [insertBeside, insertAfter.eq_def]
      dsimp only
      rw [member_eq hp, ok_bind]
      exact if_pos hne
    | before =>
      rw [insertBeside, insertBefore.eq_def]
      dsimp only
      rw [member_eq hp, ok_bind]
      exact if_pos hne

theorem insertBeside_owned (h : list.Holds xs) (hc : c ∈ xs) (side : Side) {newItem : Option Nat}
    (hb : Owned list.items newItem) :
    ∃ code, code ≠ .ok ∧ list.insertBeside side (some c) newItem = .ok (code, list) := by
  have hpar := h.chain.par_eq c hc
  cases newItem with
  | none =>
    refine ⟨.badArg, by decide, ?_⟩
    cases side with
    | after =>
      rw [insertBeside, insertAfter, member_eq hpar, ok_bind, if_neg (fun hne => hne rfl)]
      rfl
    | before =>
      rw [insertBeside, insertBefore, member_eq hpar, ok_bind, if_neg (fun hne => hne rfl)]
      rfl
  | some b =>
    obtain ⟨p, hp⟩ := hb b rfl
    cases side with
    | after => exact insertAfter_refused hpar hp
    | before =>
      refine ⟨.badArg, by decide, ?_⟩
      rw [insertBeside, insertBefore]
      dsimp only
      rw [member_eq hpar, ok_bind, if_neg (fun hne => hne rfl), member_eq hp, ok_bind,
        if_pos (Option.some_ne_none p)]
      rfl

/-- An anchor that is not in the list and a chain that belongs to a list are refused. Otherwise a
chain is inserted exactly when it is a single item that comes before one that is not the first. -/
theorem insertBeside_splices_iff (h : list.Holds xs) (hmem : Fits list.items) (side : Side) :
    (∀ item newItem, list.NotIn item ∨ (∃ c ∈ xs, item = some c) ∧ Owned list.items newItem →
      ∃ code, code ≠ .ok ∧ list.insertBeside side item newItem = .ok (code, list)) ∧
    ∀ c ys b, c ∈ xs → Chain (view list.items) none ys → b ∈ ys →
      (list.InsertsBeside side xs c ys b ↔
        side = .before ∧ xs.head? ≠ some c ∧ ys.length = 1) := by
  refine ⟨fun item newItem hno => ?_, fun c ys b hc hy hb => ?_⟩
  · rcases hno with hno | ⟨⟨c, hc, rfl⟩, hown⟩
    · exact ⟨.badArg, by decide, insertBeside_notIn hno side newItem⟩
    · exact insertBeside_owned h hc side hown
  · obtain ⟨pre, post, rfl⟩ := List.append_of_mem hc
    obtain ⟨u, w, rfl⟩ := List.append_of_mem hb
    have hlen := lengths_lt h hy hmem
    have hpos := take_drop_idxOf h.chain.dll.nodup
    cases side with
    | after =>
      obtain ⟨code, hcode, hins⟩ :=
        insertAfter_refused (h.chain.par_eq c hc) (hy.par_eq b hb)
      refine ⟨fun ⟨list', hr, _⟩ => ?_, fun hcond => Side.noConfusion hcond.1⟩
      rw [insertBeside, hins] at hr
      cases hr
      exact absurd rfl hcode
    | before =>
      rw [InsertsBeside, Side.place, hpos.1, hpos.2.1]
      by_cases hpre : pre = []
      · subst hpre
        refine ⟨fun ⟨list', hr, _⟩ => ?_, fun hcond => absurd rfl hcond.2.1⟩
        rw [insertBeside, insertBefore_front h hy] at hr
        cases hr
      · have hhead : (pre ++ c :: post).head? ≠ some c := by
          rw [List.head?_append_of_ne_nil _ hpre]
          intro hhead
          have hnd := h.chain.dll.nodup
          rw [List.nodup_append] at hnd
          exact hnd.2.2 c (List.mem_of_head? hhead) c List.mem_cons_self rfl
        obtain ⟨items', hins, hchain⟩ := insertBefore_inner h hpre hy
        refine ⟨fun ⟨list', hr, hholds, _⟩ => ⟨rfl, hhead, ?_⟩, fun hcond => ?_⟩
        · rw [insertBeside, hins] at hr
          cases hr
          have hcount := hholds.count_eq
          change sizeAdd list.count 1 = _ at hcount
          rw [h.count_eq, sizeAdd_eq (by simp at hlen ⊢; omega)] at hcount
          simp only [List.length_append, List.length_cons] at hcount ⊢
          omega
        · obtain ⟨x, hx⟩ := List.length_eq_one_iff.mp hcond.2.2
          have hxb : x = b := by
            rw [hx] at hb
            exact (List.mem_singleton.mp hb).symm
          rw [hxb] at hx
          rw [hx] at hy hlen ⊢
          exact insertBefore_single h hpre hy hlen

/-- The second of two items, and a third one that is free. -/
def twoAndOne : DList Nat where
  items := ⟨[some ⟨none, some 9, false, some 1, none⟩, some ⟨none, some 9, false, none, some 0⟩,
    some ⟨none, none, false, none, none⟩]⟩
  self := 9
  beginItem := some 0
  endItem := some 1
  count := 2
  itemsReadyForRemoval := false
  dropped := []

theorem twoAndOne_holds : twoAndOne.Holds [0, 1] := by
  refine ⟨⟨⟨⟨rfl, rfl, trivial⟩, ⟨rfl, rfl, trivial⟩⟩, fun a ha => ?_⟩, rfl, rfl, rfl⟩
  rcases List.mem_cons.mp ha with rfl | ha
  · rfl
  · cases List.mem_singleton.mp ha
    rfl

theorem twoAndOne_chain : Chain (view twoAndOne.items) none [2] := by
  refine ⟨⟨⟨rfl, trivial⟩, ⟨rfl, trivial⟩⟩, fun a ha => ?_⟩
  cases List.mem_singleton.mp ha
  rfl

theorem insertBeside_splices_two : twoAndOne.InsertsBeside .before [0, 1] 1 [2] 2 ∧
    ∃ code, code ≠ .ok ∧ twoAndOne.insertBeside .before (some 1) (some 0) = .ok (code, twoAndOne) := by
  have h := insertBeside_splices_iff twoAndOne_holds (show 3 ≤ PTRDIFF_MAX by decide) .before
  refine ⟨(h.2 1 [2] 2 (by simp) twoAndOne_chain (by simp)).mpr ⟨rfl, by decide, rfl⟩, ?_⟩
  refine h.1 (some 1) (some 0) (.inr ⟨⟨1, by simp, rfl⟩, fun a ha => ?_⟩)
  cases ha
  exact ⟨9, rfl⟩

/-- Behind an item of the list the free item is refused, and before the first one it faults. -/
theorem insertBeside_fails : twoAndOne.Holds [0, 1] ∧ Chain (view twoAndOne.items) none [2] ∧
    twoAndOne.insertBeside .after (some 1) (some 2) = .ok (.badArg, twoAndOne) ∧
    twoAndOne.insertBeside .before (some 0) (some 2) = .error .nullDeref :=
  ⟨twoAndOne_holds, twoAndOne_chain, by decide, by decide⟩

end AlibC.DList
