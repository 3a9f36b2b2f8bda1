import AlibC.DListBeside

/-! The values of the items of a `DList`: how an item is found by its value, and which calls leave
the values alone. -/
namespace AlibC.DListItem

open CLang Function Linked

variable {α : Type} {items : Items α} {p q : Option Nat} {a : Nat}

/-- `DListItem_get_value`. -/
def getValue (items : Items α) (item : Option Nat) : Outcome α := do
  let it ← items.get item
  deref it.val

/-- The loop `for(; it && it->base.val->value != value; it = it->m);`. -/
def valueLoop [DecidableEq α] (m : DListItem α → Option Nat) (items : Items α) (value : α) :
    Nat → Option Nat → Outcome (Option Nat)
  | 0, _ => .error .diverges
  | _ + 1, none => .ok none
  | fuel + 1, some it => do
    let v ← getValue items (some it)
    if v = value then return some it
    else do
      let next ← member m items (some it)
      valueLoop m items value fuel next

/-- `DListItem_get_by_value`. -/
def getByValue [DecidableEq α] (items : Items α) (list : Option Nat) (value : α) :
    Outcome (Option Nat) :=
  match list with
  | none => .ok none
  | some list => do
    let found ← valueLoop prev items value (fuel items) (some list)
    if found ≠ none then return found
    else do
      let next ← member next items (some list)
      valueLoop DListItem.next items value (fuel items) next

/-- `ListItem_extract_value`: the value object the item referred to. -/
def extractValue (items : Items α) (item : Option Nat) : Outcome (Option α × Items α) :=
  match item with
  | none => .ok (none, items)
  | some a => do
    let it ← items.get (some a)
    let items ← items.modify (some a) fun it => { it with val := none }
    let items ← markForRemoval items (some a)
    return (it.val, items)

/-- `newDListItem` without a list to put the item in. -/
def new (items : Items α) (value : α) : Nat × Items α :=
  (items.fresh, items.alloc ⟨some value, none, false, none, none⟩)

/-- What each item that is alive refers to. -/
def vals (items : Items α) (a : Nat) : Option (Option α) := (items.cell a).map val

/-- The items `xs` have the values `vs`. -/
def HasValues (items : Items α) (xs : List Nat) (vs : List α) : Prop :=
  xs.map (vals items) = vs.map fun v => some (some v)

/-- A new item is in no list, and the other items stay. -/
theorem new_spec {items' : Items α} {value : α} (hnew : new items value = (a, items')) :
    Chain (view items') none [a] ∧ vals items' a = some (some value) ∧
      ∀ c x, items.cell c = some x → items'.cell c = some x := by
  cases hnew
  have hcell := Heap.cell_alloc items ⟨some value, none, false, none, none⟩
  have hself : (items.alloc ⟨some value, none, false, none, none⟩).cell items.fresh =
      some ⟨some value, none, false, none, none⟩ := by rw [hcell, update_self]
  refine ⟨⟨⟨⟨Heap.links_eq hself, trivial⟩, ⟨Heap.links_eq hself, trivial⟩⟩, fun c hc => ?_⟩, ?_,
    fun c x hx => ?_⟩
  · cases List.mem_singleton.mp hc
    exact Heap.links_eq hself
  · rw [vals, hself]
    rfl
  · have hne : c ≠ items.fresh := by
      rintro rfl
      rw [Heap.cell_fresh] at hx
      cases hx
    rw [hcell, update_of_ne hne, hx]

section Find

variable {xs ys : List Nat} {vs ws : List α} {v : α}

theorem HasValues.cons (h : HasValues items (a :: xs) vs) :
    ∃ v ws, vs = v :: ws ∧ vals items a = some (some v) ∧ HasValues items xs ws := by
  cases vs with
  | nil => cases h
  | cons v ws =>
    rw [HasValues, List.map_cons, List.map_cons] at h
    exact ⟨v, ws, rfl, (List.cons.inj h).1, (List.cons.inj h).2⟩

theorem HasValues.length_eq (h : HasValues items xs vs) : xs.length = vs.length := by
  have hlen := congrArg List.length h
  rwa [List.length_map, List.length_map] at hlen

theorem HasValues.append (h : HasValues items xs vs) (h' : HasValues items ys ws) :
    HasValues items (xs ++ ys) (vs ++ ws) := by
  rw [HasValues, List.map_append, List.map_append, h, h']

theorem HasValues.single (h : vals items a = some (some v)) : HasValues items [a] [v] := by
  rw [HasValues, List.map_singleton, List.map_singleton, h]

theorem HasValues.congr {items' : Items α} (h : HasValues items xs vs)
    (hc : ∀ c ∈ xs, vals items' c = vals items c) : HasValues items' xs vs :=
  (List.map_congr_left hc).trans h

/-- The item with a value comes after as many items as the value after values. -/
theorem HasValues.split (h : HasValues items xs (vs ++ v :: ws)) :
    ∃ pre a post, xs = pre ++ a :: post ∧ HasValues items pre vs ∧
      vals items a = some (some v) ∧ HasValues items post ws := by
  rw [HasValues, List.map_append, List.map_cons] at h
  obtain ⟨pre, rest, rfl, hpre, hrest⟩ := List.map_eq_append_iff.mp h
  obtain ⟨a, post, rfl, ha, hpost⟩ := List.map_eq_cons_iff.mp hrest
  exact ⟨pre, a, post, rfl, hpre, ha, hpost⟩

theorem getValue_eq (h : vals items a = some (some v)) : getValue items (some a) = .ok v := by
  obtain ⟨x, hx, hv⟩ := Option.map_eq_some_iff.mp h
  rw [getValue, Heap.get_eq hx, ok_bind, hv]
  rfl

/-- The loop stops at the first item with the value, or behind the last one. -/
theorem valueLoop_eq [DecidableEq α] {m : DListItem α → Option Nat} (value : α) :
    ∀ {vs : List α} {n : Nat}, Path (Heap.links m items) xs none → HasValues items xs vs →
      xs.length < n → valueLoop m items value n xs.head? = .ok xs[vs.idxOf value]? := by
  induction xs with
  | nil =>
    intro vs n _ hv hn
    obtain ⟨n, rfl⟩ := Nat.exists_eq_succ_of_ne_zero (Nat.ne_of_gt hn)
    rfl
  | cons a xs ih =>
    intro vs n hpath hv hn
    obtain ⟨n, rfl⟩ := Nat.exists_eq_succ_of_ne_zero (Nat.ne_of_gt (Nat.zero_lt_of_lt hn))
    obtain ⟨v, ws, rfl, hval, hvs⟩ := hv.cons
    rw [List.head?_cons, valueLoop, getValue_eq hval, ok_bind]
    by_cases hvalue : v = value
    · rw [if_pos hvalue, hvalue, List.idxOf_cons_self]
      rfl
    · rw [if_neg hvalue, member_eq hpath.1, ok_bind, Option.or_none,
        ih hpath.2 hvs (Nat.lt_of_succ_lt_succ hn), List.idxOf_cons_ne _ hvalue,
        List.getElem?_cons_succ]

/-- From the first item on the search goes through the whole list. -/
theorem getByValue_eq [DecidableEq α] {r : Option Nat} (h : Chain (view items) r xs)
    (hv : HasValues items xs vs) (value : α) :
    getByValue items xs.head? value = .ok xs[vs.idxOf value]? := by
  cases xs with
  | nil => rfl
  | cons a xs =>
    obtain ⟨v, ws, rfl, hval, hvs⟩ := hv.cons
    have hlink := @Dll.link_eq Nat _ _ a [] xs h.dll
    have hfuel := length_lt_fuel h.dll.fwd
    rw [List.length_cons] at hfuel
    have hback : valueLoop prev items value (fuel items) [a].head? =
        .ok [a][[v].idxOf value]? :=
      valueLoop_eq value ⟨hlink.2, trivial⟩
        (HasValues.single hval)
        (by rw [List.length_singleton]; omega)
    rw [List.head?_cons] at hback ⊢
    rw [getByValue, hback, ok_bind]
    by_cases hvalue : v = value
    · rw [hvalue, List.idxOf_cons_self, List.idxOf_cons_self,
        if_pos (show [a][0]? ≠ none from Option.some_ne_none a)]
      rfl
    · rw [List.idxOf_cons_ne _ hvalue, List.idxOf_cons_ne _ hvalue, if_neg (fun hne => hne rfl),
        member_eq hlink.1, ok_bind, valueLoop_eq value h.dll.fwd.2 hvs (by omega),
        List.getElem?_cons_succ]

end Find

section Keep

variable {v : Nat → Option (Option α)}

theorem modify_vals {f : DListItem α → DListItem α} (hf : ∀ x, (f x).val = x.val)
    (h : vals items = v) : Ensures (items.modify p f) fun items' => vals items' = v :=
  fun _ hr => h ▸ funext fun c => Heap.map_cell_modify hr hf c

theorem setNext_vals (h : vals items = v) : Ensures (setNext items p q) fun items' => vals items' = v :=
  modify_vals (fun _ => rfl) h

theorem setPrev_vals (h : vals items = v) : Ensures (setPrev items p q) fun items' => vals items' = v :=
  modify_vals (fun _ => rfl) h

theorem setNextIf_vals (h : vals items = v) :
    Ensures (setNextIf items p q) fun items' => vals items' = v :=
  Ensures.ite (fun _ => ensures_ok h) fun _ => setNext_vals h

theorem setPrevIf_vals (h : vals items = v) :
    Ensures (setPrevIf items p q) fun items' => vals items' = v :=
  Ensures.ite (fun _ => ensures_ok h) fun _ => setPrev_vals h

theorem setParentLoop_vals : ∀ {n : Nat} {items : Items α} {p : Option Nat}, vals items = v →
    Ensures (setParentLoop q n items p) fun items' => vals items' = v := by
  intro n
  induction n with
  | zero => intro items p _; exact ensures_error _ _
  | succ n ih =>
    intro items p h
    cases p with
    | none => exact ensures_ok h
    | some a =>
      rw [setParentLoop]
      refine Ensures.bind (modify_vals (fun _ => rfl) h) fun items' h' => ?_
      exact Ensures.of_any fun _ => ih h'

theorem setListParent_vals (h : vals items = v) :
    Ensures (setListParent items p q) fun items' => vals items' = v := by
  cases p with
  | none => exact ensures_ok h
  | some a =>
    rw [setListParent]
    refine Ensures.of_any fun _ => Ensures.ite (fun _ => ensures_ok h) fun _ => ?_
    exact Ensures.of_any fun _ => setParentLoop_vals h

theorem pushBack_vals {list newItem : Option Nat} (h : vals items = v) :
    Ensures (pushBack items list newItem) fun r => vals r.2 = v := by
  cases list with
  | none => exact Ensures.of_any fun _ => ensures_ok h
  | some list =>
    cases newItem with
    | none => exact ensures_ok h
    | some newItem =>
      rw [pushBack]
      refine Ensures.of_any fun _ => Ensures.ite (fun _ => ensures_ok h) fun _ => ?_
      refine Ensures.of_any fun _ => Ensures.of_any fun _ => ?_
      refine Ensures.of_any fun _ =>
        Ensures.bind (setListParent_vals h) fun items₁ h₁ => ?_
      refine Ensures.bind (setNext_vals h₁) fun items₂ h₂ => ?_
      exact Ensures.bind (setPrev_vals h₂) fun items₃ h₃ => ensures_ok h₃

theorem insertBefore_vals {list newItem : Option Nat} (h : vals items = v) :
    Ensures (insertBefore items list newItem) fun r => vals r.2 = v := by
  cases list with
  | none => exact Ensures.of_any fun _ => ensures_ok h
  | some list =>
    cases newItem with
    | none => exact ensures_ok h
    | some newItem =>
      rw [insertBefore]
      refine Ensures.of_any fun _ => Ensures.ite (fun _ => ensures_ok h) fun _ => ?_
      refine Ensures.of_any fun _ => Ensures.of_any fun _ => ?_
      refine Ensures.of_any fun _ =>
        Ensures.bind (setListParent_vals h) fun items₁ h₁ => ?_
      refine Ensures.bind (setNext_vals h₁) fun items₂ h₂ => ?_
      refine Ensures.of_any fun _ =>
        Ensures.bind (setPrev_vals h₂) fun items₃ h₃ => ?_
      refine Ensures.of_any fun _ =>
        Ensures.bind (setPrevIf_vals h₃) fun items₄ h₄ => ?_
      refine Ensures.of_any fun _ =>
        Ensures.bind (setNext_vals h₄) fun items₅ h₅ => ?_
      exact ensures_ok h₅

theorem pullOut_vals (h : vals items = v) :
    Ensures (pullOut items p) fun r => vals r.2.2 = v := by
  cases p with
  | none => exact ensures_ok h
  | some pulled =>
    rw [pullOut]
    refine Ensures.of_any fun _ => Ensures.of_any fun _ => ?_
    refine Ensures.of_any fun _ =>
      Ensures.bind (setPrevIf_vals h) fun items₁ h₁ => ?_
    refine Ensures.of_any fun _ => Ensures.of_any fun _ => ?_
    refine Ensures.bind (setNextIf_vals h₁) fun items₂ h₂ => ?_
    refine Ensures.bind (setNext_vals h₂) fun items₃ h₃ => ?_
    refine Ensures.bind (setPrev_vals h₃) fun items₄ h₄ => ?_
    exact Ensures.bind (setListParent_vals h₄) fun items₅ h₅ => ensures_ok h₅

/-- The value of the item that is deleted is given up, the others stay. -/
theorem del_vals {value : α} (h : vals items a = some (some value)) :
    Ensures (del items (some a)) fun r =>
      r.1 = [value] ∧ ∀ c, c ≠ a → vals r.2.2 c = vals items c := by
  rw [del]
  refine Ensures.of_any fun _ => Ensures.of_any fun _ => ?_
  refine Ensures.of_any fun _ =>
    Ensures.bind (setNextIf_vals rfl) fun items₁ h₁ => ?_
  refine Ensures.of_any fun _ => Ensures.of_any fun _ => ?_
  refine Ensures.bind (setPrevIf_vals h₁) fun items₂ h₂ => ?_
  obtain ⟨x, hx, hval⟩ := Option.map_eq_some_iff.mp (h₂ ▸ h : vals items₂ a = some (some value))
  rw [Heap.get_eq hx, ok_bind]
  refine ensures_ok ⟨by rw [hval]; rfl, fun c hc => ?_⟩
  rw [← h₂, vals, vals, Heap.cell_put hx, update_of_ne hc]

/-- An item in no list is freed without its value, and the other items stay. -/
theorem extractValue_spec {value : α} (h : Chain (view items) none [a])
    (hv : vals items a = some (some value)) :
    ∃ items₁ r, extractValue items (some a) = .ok (some value, items₁) ∧
      del items₁ (some a) = .ok r ∧ ∀ c, c ≠ a → r.2.2.cell c = items.cell c := by
  obtain ⟨x, hx, hval⟩ := Option.map_eq_some_iff.mp hv
  have hput : ∀ v : DListItem α, (items.put a (some v)).cell a = some v := by
    intro v
    rw [Heap.cell_put hx, update_self]
  have hchain : Chain (view (items.put a (some { x with val := none, removed := true }))) none [a] := by
    refine h.congr fun c hc => ?_
    cases List.mem_singleton.mp hc
    simp only [view, Heap.links_eq (hput _), Heap.links_eq hx, and_self]
  obtain ⟨items', hdel, -, hgone⟩ :=
    @del_spec α _ a [] [] none hchain { x with val := none, removed := true } (hput _)
  refine ⟨_, _, ?_, hdel, fun c hc => ?_⟩
  · rw [extractValue, Heap.get_eq hx, ok_bind, Heap.modify_eq hx, ok_bind, markForRemoval,
      Heap.modify_eq (hput _), Heap.put_put, ok_bind, hval]
    rfl
  · rw [hgone.outside c (by simpa using hc), Heap.cell_put hx, update_of_ne hc]

end Keep

end AlibC.DListItem

namespace AlibC.DList

open CLang Linked DListItem

variable {α : Type} {list : DList α} {a index : Nat} {v : Nat → Option (Option α)}

theorem adoptBegin_vals (h : vals list.items = v) :
    Ensures list.adoptBegin fun list' => vals list'.items = v := by
  rw [adoptBegin]
  refine Ensures.of_any fun _ => Ensures.ite (fun _ => ?_) fun _ => ensures_ok h
  exact Ensures.bind (setListParent_vals h) fun items₁ h₁ => ensures_ok h₁

theorem pushBack_vals {item : Option Nat} (h : vals list.items = v) :
    Ensures (list.pushBack item) fun r => vals r.2.items = v := by
  cases item with
  | none => exact ensures_ok h
  | some item =>
    rw [pushBack]
    refine Ensures.of_any fun _ => Ensures.ite (fun _ => ensures_ok h) fun _ => ?_
    refine Ensures.of_any fun _ =>
      Ensures.bind (DListItem.pushBack_vals h) fun r h₁ => ?_
    refine Ensures.of_any fun _ =>
      Ensures.bind (adoptBegin_vals h₁) fun list₂ h₂ => ensures_ok h₂

theorem insertBefore_vals {curItm newItm : Option Nat} (h : vals list.items = v) :
    Ensures (list.insertBefore curItm newItm) fun r => vals r.2.items = v := by
  cases curItm with
  | none => exact ensures_ok h
  | some curItm =>
    rw [insertBefore.eq_def]
    dsimp only
    refine Ensures.of_any fun _ => Ensures.ite (fun _ => ensures_ok h) fun _ => ?_
    cases newItm with
    | none => exact ensures_ok h
    | some newItm =>
      refine Ensures.of_any fun _ => Ensures.ite (fun _ => ensures_ok h) fun _ => ?_
      refine Ensures.bind (DListItem.insertBefore_vals h) fun r h₁ =>
        Ensures.ite (fun _ => ensures_ok h₁) fun _ => ?_
      refine Ensures.of_any fun _ => Ensures.of_any fun _ => ?_
      exact Ensures.of_any fun _ => ensures_ok h₁

theorem pullOut_vals (h : vals list.items = v) :
    Ensures (list.pullOut index) fun r => vals r.2.items = v := by
  rw [pullOut]
  refine Ensures.ite (fun _ => ensures_ok h) fun _ => ?_
  have htake : Ensures (list.takeAt DListItem.pullOut index) fun r => vals r.2.items = v := by
    rw [takeAt]
    refine Ensures.ite (fun _ => ?_) fun _ => Ensures.ite (fun _ => ?_) fun _ => ?_
    · rw [takeBegin]
      exact Ensures.bind (DListItem.pullOut_vals h) fun r h₁ => ensures_ok h₁
    · rw [takeEnd]
      exact Ensures.bind (DListItem.pullOut_vals h) fun r h₁ => ensures_ok h₁
    · refine Ensures.of_any fun _ => ?_
      rw [takeItem]
      exact Ensures.bind (DListItem.pullOut_vals h) fun r h₁ => ensures_ok h₁
  refine Ensures.bind htake fun r h₁ => ?_
  obtain ⟨pulled, items, self, b, e, n, flag, dropped⟩ := r
  have hvals : vals items = v := h₁
  exact ensures_ok hvals

/-- The value of the item that is removed is given up, the others stay. -/
theorem removeItem_vals {value : α} (h : vals list.items a = some (some value)) :
    Ensures (list.removeItem (some a)) fun r => r.1 = .ok →
      r.2.dropped = list.dropped ++ [value] ∧
        ∀ c, c ≠ a → vals r.2.items c = vals list.items c := by
  rw [removeItem]
  refine Ensures.of_any fun _ => Ensures.ite (fun _ => ?_) fun _ => ?_
  · exact ensures_ok fun hc => by cases hc
  have htake : Ensures (list.takeGiven del (some a)) fun r => r.1 = [value] ∧
      r.2.dropped = list.dropped ∧ ∀ c, c ≠ a → vals r.2.items c = vals list.items c := by
    rw [takeGiven]
    refine Ensures.ite (fun hb => ?_) fun _ => Ensures.ite (fun he => ?_) fun _ => ?_
    · rw [takeBegin, ← hb]
      exact Ensures.bind (del_vals h) fun r hr => ensures_ok ⟨hr.1, rfl, hr.2⟩
    · rw [takeEnd, ← he]
      exact Ensures.bind (del_vals h) fun r hr => ensures_ok ⟨hr.1, rfl, hr.2⟩
    · rw [takeItem]
      exact Ensures.bind (del_vals h) fun r hr => ensures_ok ⟨hr.1, rfl, hr.2⟩
  refine Ensures.bind htake fun r h₁ => ?_
  obtain ⟨values, items, self, b, e, n, flag, dropped⟩ := r
  have hvalues : values = [value] := h₁.1
  have hdropped : dropped = list.dropped := h₁.2.1
  have hvals : ∀ c, c ≠ a → vals items c = vals list.items c := h₁.2.2
  subst hvalues hdropped
  exact ensures_ok fun _ => ⟨rfl, hvals⟩

end AlibC.DList
