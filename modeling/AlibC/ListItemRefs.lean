import AlibC.ListItem
import AlibC.Lib.Slots

/-! Reference counts are exact: who holds a value, when it is freed, and how often. -/
namespace AlibC.ListItemVal

open CLang
variable {V F : Type}

/-- The calls of its callback that are due when the object `a` is released. -/
def due (created : List (Option V × Option F)) (a : Nat) : List (FreeCall V F) :=
  match created[a]? with
  | none => []
  | some (value, cb) => freeCalls a value cb

def counts (h : Heap V F) : RefCount.Counts :=
  ⟨h.vals.map (Option.map refCount), h.freed⟩

/-- A heap with the objects `created`, to which exactly the references `refs` exist. -/
structure Sound (h : Heap V F) (created : List (Option V × Option F)) (refs : List Nat) :
    Prop where
  exact : RefCount.Exact (counts h) refs
  length_eq : created.length = h.vals.length
  made : ∀ (a : Nat) (v : ListItemVal V F), h.vals[a]? = some (some v) →
    created[a]? = some (v.value, v.freeValueCb)
  calls_eq : h.calls = h.freed.flatMap (due created)

variable {h : Heap V F} {created : List (Option V × Option F)} {refs refs' : List Nat} {a : Nat}

theorem Sound.perm (hs : Sound h created refs) (hp : refs.Perm refs') : Sound h created refs' :=
  ⟨hs.exact.perm hp, hs.length_eq, hs.made, hs.calls_eq⟩

theorem sound_nil : Sound (⟨[], [], []⟩ : Heap V F) [] [] :=
  ⟨RefCount.exact_nil, rfl, fun _ _ h => by simp at h, rfl⟩

/-- A reference leads to an object that was not freed and that counts its references. -/
theorem Sound.get_eq (hs : Sound h created refs) (ha : a ∈ refs) :
    ∃ v, get h a = .ok v ∧ h.vals[a]? = some (some v) ∧ v.refCount = refs.count a := by
  obtain ⟨-, hcell, -⟩ := hs.exact.held ha
  simp only [counts, List.getElem?_map, Option.map_eq_some_iff] at hcell
  obtain ⟨c, hc, hv⟩ := hcell
  obtain ⟨v, rfl, hcount⟩ := hv
  exact ⟨v, by simp only [get, hc], hc, hcount⟩

theorem length_counts (h : Heap V F) : (counts h).cells.length = h.vals.length :=
  List.length_map _

theorem Sound.lt (hs : Sound h created refs) (ha : a ∈ refs) : a < h.vals.length :=
  length_counts h ▸ hs.exact.refs_lt a ha

/-- A changed count changes neither what was made nor what is due. -/
theorem Sound.set_count (hs : Sound h created refs) {v : ListItemVal V F}
    (hv : h.vals[a]? = some (some v)) (n : Nat)
    (he : RefCount.Exact ⟨(counts h).cells.set a (some n), h.freed⟩ refs') :
    Sound (set h a (some { v with refCount := n })) created refs' := by
  refine ⟨?_, by simp [set, hs.length_eq], ?_, hs.calls_eq⟩
  · rw [counts, set, List.map_set]
    exact he
  · intro b w hw
    rw [set, List.getElem?_set] at hw
    split at hw
    · rename_i hab
      subst hab
      split at hw
      · cases hw
        exact hs.made a v hv
      · cases hw
    · exact hs.made b w hw

theorem Sound.ref_eq (hs : Sound h created refs) (ha : a ∈ refs)
    (hlt : refs.count a + 1 < 2 ^ 64) :
    ∃ h', ref h (some a) = .ok (some a, h') ∧ Sound h' created (a :: refs) := by
  obtain ⟨v, hg, hv, hc⟩ := hs.get_eq ha
  have hpos := List.count_pos_iff.mpr ha
  refine ⟨_, ?_, hs.set_count hv (refs.count a + 1) (hs.exact.take ha)⟩
  rw [ref, hg, ok_bind, if_neg (by omega), hc, sizeAdd_eq hlt]
  rfl

theorem due_append {created : List (Option V × Option F)} (x : Option V × Option F)
    (ha : a < created.length) : due (created ++ [x]) a = due created a := by
  rw [due, due, List.getElem?_append_left ha]

theorem Sound.new_eq (hs : Sound h created refs) (val : Option V) (cb : Option F) :
    Sound (new h true val cb).2 (created ++ [(val, cb)]) (h.vals.length :: refs) := by
  have he := hs.exact.make
  rw [length_counts] at he
  refine ⟨?_, by simp [new, hs.length_eq], ?_, ?_⟩
  · have hc : counts (new h true val cb).2 = ⟨(counts h).cells ++ [some 1], h.freed⟩ := by
      simp [counts, new]
    rw [hc]
    exact he
  · intro b w hw
    simp only [new, if_true] at hw
    by_cases hlast : b < h.vals.length
    · rw [List.getElem?_append_left hlast] at hw
      rw [List.getElem?_append_left (by rw [hs.length_eq]; exact hlast)]
      exact hs.made b w hw
    · have hb := (List.getElem?_eq_some_iff.mp hw).1
      rw [List.length_append, List.length_singleton] at hb
      obtain rfl : b = h.vals.length := by omega
      rw [List.getElem?_append_right (Nat.le_refl _), Nat.sub_self] at hw
      rw [← hs.length_eq, List.getElem?_append_right (Nat.le_refl _), Nat.sub_self]
      cases hw
      rfl
  · simp only [new, if_true]
    rw [hs.calls_eq]
    apply List.flatMap_congr
    intro b hb
    have hlt := hs.exact.released_lt hb
    rw [length_counts] at hlt
    exact (due_append (val, cb) (by rw [hs.length_eq]; exact hlt)).symm

/-- Giving up a reference frees the object if nobody else holds it, and touches no other. -/
theorem Sound.del_eq (hs : Sound h created (a :: refs)) :
    ∃ h', del h (some a) = .ok (none, h') ∧ Sound h' created refs ∧
      (∀ b, b ≠ a → h'.vals[b]? = h.vals[b]?) ∧
      h'.calls = h.calls ++ if a ∈ refs then [] else due created a := by
  obtain ⟨v, hg, hv, hc⟩ := hs.get_eq List.mem_cons_self
  rw [List.count_cons_self] at hc
  have hsub : v.refCount - 1 = refs.count a := by omega
  by_cases ha : a ∈ refs
  · have hpos := List.count_pos_iff.mpr ha
    refine ⟨_, ?_, hs.set_count hv (refs.count a) (hs.exact.drop ha), ?_, ?_⟩
    · rw [del, hg, ok_bind, if_pos (by omega), if_neg (by omega), hsub]
      rfl
    · intro b hb
      exact List.getElem?_set_ne (Ne.symm hb)
    · rw [if_pos ha, List.append_nil]
      rfl
  · have hzero := List.count_eq_zero.mpr ha
    have hdue : due created a = freeCalls a v.value v.freeValueCb := by
      rw [due, hs.made a v hv]
    refine ⟨⟨h.vals.set a none, h.freed ++ [a], h.calls ++ due created a⟩, ?_, ⟨?_, ?_, ?_, ?_⟩,
      ?_, ?_⟩
    · rw [del, hg, ok_bind, if_pos (by omega), if_pos (by omega), hdue]
      rfl
    · rw [counts, List.map_set]
      exact hs.exact.release ha
    · simp [hs.length_eq]
    · intro b w hw
      simp only [List.getElem?_set] at hw
      split at hw
      · split at hw
        · cases hw
        · cases hw
      · exact hs.made b w hw
    · rw [List.flatMap_append, List.flatMap_singleton, hs.calls_eq]
    · intro b hb
      exact List.getElem?_set_ne (Ne.symm hb)
    · rw [if_neg ha]

theorem freeCalls_liv {value : Option V} {cb : Option F} {c : FreeCall V F}
    (hc : c ∈ freeCalls a value cb) : c.liv = a := by
  unfold freeCalls at hc
  split at hc
  · rw [List.mem_singleton.mp hc]
  · cases hc

theorem filter_due (created : List (Option V × Option F)) (b : Nat) :
    (due created b).filter (fun c => c.liv = a) = if b = a then due created a else [] := by
  have hliv : ∀ c ∈ due created b, c.liv = b := by
    intro c hc
    unfold due at hc
    split at hc
    · cases hc
    · exact freeCalls_liv hc
  by_cases hab : b = a
  · subst hab
    rw [if_pos rfl, List.filter_eq_self]
    intro c hc
    simpa using hliv c hc
  · rw [if_neg hab, List.filter_eq_nil_iff]
    intro c hc
    simpa [hliv c hc] using hab

/-- The calls made for an object: those due, as often as the object was released. -/
theorem filter_flatMap_due (created : List (Option V × Option F)) (freed : List Nat) :
    (freed.flatMap (due created)).filter (fun c => c.liv = a) =
      (List.replicate (freed.count a) (due created a)).flatten := by
  induction freed with
  | nil => rfl
  | cons b freed ih =>
    rw [List.flatMap_cons, List.filter_append, filter_due, ih]
    by_cases hab : b = a
    · subst hab
      rw [if_pos rfl, List.count_cons_self, List.replicate_succ, List.flatten_cons]
    · rw [if_neg hab, List.count_cons_of_ne hab, List.nil_append]

/-- What is promised of an object made with `value` and `cb` while `n` references to it
exist. -/
structure Counted (h : Heap V F) (a : Nat) (value : Option V) (cb : Option F) (n : Nat) :
    Prop where
  object : h.vals[a]? = some (if n = 0 then none else some ⟨value, cb, n⟩)
  calls : h.calls.filter (fun c => c.liv = a) = if n = 0 then freeCalls a value cb else []

theorem Sound.counted (hs : Sound h created refs) {value : Option V} {cb : Option F}
    (ha : created[a]? = some (value, cb)) : Counted h a value cb (refs.count a) := by
  have hlt : a < h.vals.length := hs.length_eq ▸ (List.getElem?_eq_some_iff.mp ha).1
  have hdue : due created a = freeCalls a value cb := by rw [due, ha]
  have hrel := hs.exact.released_eq a
  rw [length_counts] at hrel
  constructor
  · have hcell := hs.exact.cell_eq a (by rw [length_counts]; exact hlt)
    by_cases hz : refs.count a = 0
    · rw [if_pos hz] at hcell ⊢
      simpa [counts] using hcell
    · obtain ⟨v, -, hv, hc⟩ := hs.get_eq (List.count_pos_iff.mp (Nat.pos_of_ne_zero hz))
      have hmade := hs.made a v hv
      rw [ha] at hmade
      cases hmade
      rw [if_neg hz, hv, ← hc]
  · rw [hs.calls_eq, filter_flatMap_due, hdue]
    by_cases hz : refs.count a = 0
    · rw [if_pos ⟨hlt, hz⟩] at hrel
      rw [if_pos hz, show h.freed.count a = 1 from hrel, List.replicate_one]
      simp
    · rw [if_neg (fun hh => hz hh.2)] at hrel
      rw [if_neg hz, show h.freed.count a = 0 from hrel]
      rfl

end AlibC.ListItemVal

namespace AlibC.ListItem

open CLang
open ListItemVal (Heap Sound Counted)
variable {V F : Type}

/-- The pointer variables of a program that uses list items and bare handles. A variable
that is `NULL` is `none`. -/
structure Client (V F : Type) where
  heap : Heap V F
  /-- With what value and callback each object was made. -/
  created : List (Option V × Option F)
  handles : List (Option Nat)
  items : List (Option ListItem)
deriving DecidableEq, Repr

/-- Every pointer to a value, in a handle or in an item. -/
def Client.pointers (c : Client V F) : List (Option Nat) :=
  c.handles ++ c.items.map fun item => item.bind val

/-- The live handles. -/
def Client.refs (c : Client V F) : List Nat := c.pointers.reduceOption

inductive Op (V F : Type) where
  | newVal (val : Option V) (freeVal : Option F) (alloc : Bool)
  | new (val : Option V) (freeVal : Option F) (allocVal allocItem : Bool)
  /-- The item takes over the reference of the handle. -/
  | newEx (handle : Nat) (alloc : Bool)
  | ref (handle : Nat)
  | getValRef (item : Nat)
  | delVal (handle : Nat)
  | del (item : Nat)
deriving DecidableEq, Repr

def step (c : Client V F) : Op V F → Outcome (Unit × Client V F)
  | .newVal value freeVal alloc =>
    let (liv, heap) := ListItemVal.new c.heap alloc value freeVal
    let created := if alloc then c.created ++ [(value, freeVal)] else c.created
    .ok ((), { c with heap, created, handles := c.handles ++ [liv] })
  | .new value freeVal allocVal allocItem =>
    let (item, heap) := new c.heap allocVal allocItem value freeVal
    let created := if allocVal then c.created ++ [(value, freeVal)] else c.created
    .ok ((), { c with heap, created, items := c.items ++ [item] })
  | .newEx handle alloc =>
    let item := newEx alloc (c.handles[handle]?.join)
    let handles := if item.isSome then c.handles.set handle none else c.handles
    .ok ((), { c with handles, items := c.items ++ [item] })
  | .ref handle => do
    let (liv, heap) ← ListItemVal.ref c.heap (c.handles[handle]?.join)
    return ((), { c with heap, handles := c.handles ++ [liv] })
  | .getValRef item => do
    let (liv, heap) ← getValRef c.heap (c.items[item]?.join)
    return ((), { c with heap, handles := c.handles ++ [liv] })
  | .delVal handle => do
    let (liv, heap) ← ListItemVal.del c.heap (c.handles[handle]?.join)
    return ((), { c with heap, handles := c.handles.set handle liv })
  | .del item => do
    let (ptr, heap) ← del c.heap (c.items[item]?.join)
    return ((), { c with heap, items := c.items.set item ptr })

/-- One more reference to `liv` can be counted. -/
def Client.CanRef (c : Client V F) (liv : Option Nat) : Prop :=
  ∀ a, liv = some a → c.refs.count a + 1 < 2 ^ 64

/-- `newListItem` does not run out of memory between its two allocations; a reference is
taken from an item that exists and is one of fewer than `2 ^ 64`. -/
def Admissible (c : Client V F) : Op V F → Prop
  | .new _ _ allocVal allocItem => allocVal = true → allocItem = true
  | .ref handle => c.CanRef (c.handles[handle]?.join)
  | .getValRef item => ∃ i, c.items[item]?.join = some i ∧ c.CanRef i.val
  | _ => True

def Client.Sound (c : Client V F) : Prop := ListItemVal.Sound c.heap c.created c.refs

theorem reduceOption_snoc (cells : List (Option Nat)) (c : Option Nat) :
    (cells ++ [c]).reduceOption = cells.reduceOption ++ c.toList := by
  rw [List.reduceOption_append, List.reduceOption_singleton]

theorem Client.refs_eq (c : Client V F) : c.refs =
    c.handles.reduceOption ++ (c.items.map fun item => item.bind val).reduceOption :=
  List.reduceOption_append _ _

theorem perm_handle (heap : Heap V F) (created : List (Option V × Option F))
    (handles : List (Option Nat)) (items : List (Option ListItem)) (liv : Option Nat) :
    (liv.toList ++ Client.refs ⟨heap, created, handles, items⟩).Perm
      (Client.refs ⟨heap, created, handles ++ [liv], items⟩) := by
  rw [Client.refs_eq, Client.refs_eq, reduceOption_snoc, List.append_assoc]
  exact List.perm_append_comm_assoc _ _ _

theorem perm_item (heap : Heap V F) (created : List (Option V × Option F))
    (handles : List (Option Nat)) (items : List (Option ListItem)) (item : Option ListItem) :
    ((item.bind val).toList ++ Client.refs ⟨heap, created, handles, items⟩).Perm
      (Client.refs ⟨heap, created, handles, items ++ [item]⟩) := by
  rw [Client.refs_eq, Client.refs_eq, List.map_append, List.map_singleton, reduceOption_snoc,
    ← List.append_assoc (List.reduceOption handles)]
  exact List.perm_append_comm

theorem perm_clear_handle (heap : Heap V F) (created : List (Option V × Option F))
    (handles : List (Option Nat)) (items : List (Option ListItem)) (i : Nat) :
    (Client.refs ⟨heap, created, handles, items⟩).Perm
      (handles[i]?.join.toList ++ Client.refs ⟨heap, created, handles.set i none, items⟩) := by
  rw [Client.refs_eq, Client.refs_eq]
  cases h : handles[i]?.join with
  | none => simp only [Slots.clear_free h, Option.toList_none, List.nil_append]; exact .refl _
  | some a => exact (Slots.perm_clear (Option.join_eq_some_iff.mp h)).append_right _

theorem perm_clear_item (heap : Heap V F) (created : List (Option V × Option F))
    (handles : List (Option Nat)) (items : List (Option ListItem)) (i : Nat) :
    (Client.refs ⟨heap, created, handles, items⟩).Perm
      ((items[i]?.join.bind val).toList ++
        Client.refs ⟨heap, created, handles, items.set i none⟩) := by
  have hcell : (items.map fun item => item.bind val)[i]?.join = items[i]?.join.bind val := by
    rw [List.getElem?_map]
    cases items[i]? with
    | none => rfl
    | some item => rfl
  rw [Client.refs_eq, Client.refs_eq, List.map_set, ← hcell, Option.bind_none]
  cases h : (items.map fun item => item.bind val)[i]?.join with
  | none => simp only [Slots.clear_free h, Option.toList_none, List.nil_append]; exact .refl _
  | some a =>
    exact ((Slots.perm_clear (Option.join_eq_some_iff.mp h)).append_left _).trans List.perm_middle

/-- Neither the object nor the calls made for it have changed. -/
def Unaffected (h h' : Heap V F) (b : Nat) : Prop :=
  h'.vals[b]? = h.vals[b]? ∧
    h'.calls.filter (fun c => c.liv = b) = h.calls.filter fun c => c.liv = b

theorem drop_sound {h : Heap V F} {created : List (Option V × Option F)} {liv : Option Nat}
    {refs refs' : List Nat} (hs : Sound h created refs) (hp : refs.Perm (liv.toList ++ refs')) :
    ∃ h', ListItemVal.del h liv = .ok (none, h') ∧ Sound h' created refs' ∧
      ∀ b, liv ≠ some b → Unaffected h h' b := by
  cases liv with
  | none => exact ⟨h, rfl, hs.perm hp, fun _ _ => ⟨rfl, rfl⟩⟩
  | some a =>
    rw [Option.toList_some, List.singleton_append] at hp
    obtain ⟨h', hd, hs', hvals, hcalls⟩ := Sound.del_eq (hs.perm hp)
    refine ⟨h', hd, hs', fun b hb => ?_⟩
    have hba : b ≠ a := fun heq => hb (heq ▸ rfl)
    refine ⟨hvals b hba, ?_⟩
    rw [hcalls, List.filter_append]
    have hnone : (if a ∈ refs' then [] else ListItemVal.due created a).filter
        (fun c => c.liv = b) = [] := by
      split
      · rfl
      · rw [ListItemVal.filter_due, if_neg (Ne.symm hba)]
    rw [hnone, List.append_nil]

/-- `delListItemVal(&handle)`. -/
theorem delVal_eq {c : Client V F} (hs : c.Sound) (i : Nat) :
    ∃ heap, step c (.delVal i) = .ok ((), { c with heap, handles := c.handles.set i none }) ∧
      Client.Sound { c with heap, handles := c.handles.set i none } ∧
      ∀ b, c.handles[i]?.join ≠ some b → Unaffected c.heap heap b := by
  obtain ⟨heap, hd, hs', hother⟩ := drop_sound hs (perm_clear_handle c.heap c.created c.handles
    c.items i)
  exact ⟨heap, by rw [step, hd]; rfl, hs', hother⟩

/-- `delListItem(&item)`. -/
theorem del_eq {c : Client V F} (hs : c.Sound) (i : Nat) :
    ∃ heap, step c (.del i) = .ok ((), { c with heap, items := c.items.set i none }) ∧
      Client.Sound { c with heap, items := c.items.set i none } ∧
      ∀ b, c.items[i]?.join.bind val ≠ some b → Unaffected c.heap heap b := by
  obtain ⟨heap, hd, hs', hother⟩ := drop_sound hs (perm_clear_item c.heap c.created c.handles
    c.items i)
  refine ⟨heap, ?_, hs', hother⟩
  cases hi : c.items[i]?.join with
  | none =>
    rw [hi] at hd
    cases hd
    rw [step, hi]
    rfl
  | some item =>
    rw [hi] at hd
    rw [step, hi, del, show ListItemVal.del c.heap item.val = _ from hd]
    rfl

theorem mem_refs_handle {c : Client V F} {i a : Nat} (h : c.handles[i]?.join = some a) :
    a ∈ c.refs := by
  rw [Client.refs, List.reduceOption_mem_iff]
  exact List.mem_append_left _ (List.mem_of_getElem? (Option.join_eq_some_iff.mp h))

theorem mem_refs_item {c : Client V F} {i a : Nat} {item : ListItem}
    (h : c.items[i]?.join = some item) (ha : item.val = some a) : a ∈ c.refs := by
  rw [Client.refs, List.reduceOption_mem_iff]
  apply List.mem_append_right
  rw [← ha]
  exact List.mem_map.mpr
    ⟨some item, List.mem_of_getElem? (Option.join_eq_some_iff.mp h), rfl⟩

/-- A reference taken through any pointer that exists. -/
theorem ref_sound {c : Client V F} (hs : c.Sound) {liv : Option Nat}
    (hmem : ∀ a, liv = some a → a ∈ c.refs) (hroom : c.CanRef liv) :
    ∃ heap liv', ListItemVal.ref c.heap liv = .ok (liv', heap) ∧
      Client.Sound { c with heap, handles := c.handles ++ [liv'] } := by
  cases liv with
  | none => exact ⟨c.heap, none, rfl, hs.perm (perm_handle _ _ _ _ none)⟩
  | some a =>
    obtain ⟨heap, hr, hs'⟩ := Sound.ref_eq hs (hmem a rfl) (hroom a rfl)
    exact ⟨heap, some a, hr, hs'.perm (perm_handle _ _ _ _ (some a))⟩

theorem step_sound (c : Client V F) (op : Op V F) (hs : c.Sound) (hop : Admissible c op) :
    ∃ o c', step c op = .ok (o, c') ∧ c'.Sound := by
  cases op with
  | newVal value freeVal alloc =>
    refine ⟨(), _, rfl, ?_⟩
    cases alloc with
    | false => exact hs.perm (perm_handle _ _ _ _ none)
    | true => exact (Sound.new_eq hs value freeVal).perm (perm_handle _ _ _ _ (some _))
  | new value freeVal allocVal allocItem =>
    refine ⟨(), _, rfl, ?_⟩
    cases allocVal with
    | false => exact hs.perm (perm_item _ _ _ _ none)
    | true =>
      obtain rfl : allocItem = true := hop rfl
      exact (Sound.new_eq hs value freeVal).perm (perm_item _ _ _ _ (some ⟨some _, false⟩))
  | newEx handle alloc =>
    refine ⟨(), _, rfl, ?_⟩
    -- the reference goes from the handle to the item, or stays where it is
    cases hh : c.handles[handle]?.join with
    | none => exact hs.perm (perm_item _ _ _ _ none)
    | some a =>
      cases alloc with
      | false => exact hs.perm (perm_item _ _ _ _ none)
      | true =>
        have hgone := perm_clear_handle c.heap c.created c.handles c.items handle
        rw [hh] at hgone
        exact hs.perm (hgone.trans (perm_item _ _ _ _ (some ⟨some a, false⟩)))
  | ref handle =>
    obtain ⟨heap, liv, hr, hs'⟩ := ref_sound hs (fun a ha => mem_refs_handle ha) hop
    exact ⟨(), _, by rw [step, hr]; rfl, hs'⟩
  | getValRef i =>
    obtain ⟨item, hi, hroom⟩ := hop
    obtain ⟨heap, liv, hr, hs'⟩ := ref_sound hs (fun a ha => mem_refs_item hi ha) hroom
    exact ⟨(), _, by rw [step, getValRef, hi, deref_some, ok_bind, hr]; rfl, hs'⟩
  | delVal handle =>
    obtain ⟨heap, hd, hs', -⟩ := delVal_eq hs handle
    exact ⟨(), _, hd, hs'⟩
  | del item =>
    obtain ⟨heap, hd, hs', -⟩ := del_eq hs item
    exact ⟨(), _, hd, hs'⟩

/-- A value is freed, through its callback if there is one, with the last handle and no
sooner; until then its count is the number of its handles. Giving up a handle sets it to
`NULL` and does nothing to other values. -/
theorem ref_count_exact (ops : List (Op V F))
    (hops : Machine.AllSteps step Admissible ⟨⟨[], [], []⟩, [], [], []⟩ ops) :
    ∃ outs c, Machine.run step ⟨⟨[], [], []⟩, [], [], []⟩ ops = .ok (outs, c) ∧
      (∀ a value cb, c.created[a]? = some (value, cb) →
        Counted c.heap a value cb (c.refs.count a)) ∧
      (∀ i, ∃ heap, step c (.delVal i) =
          .ok ((), { c with heap, handles := c.handles.set i none }) ∧
        ∀ b, c.handles[i]?.join ≠ some b → Unaffected c.heap heap b) ∧
      ∀ i, ∃ heap, step c (.del i) = .ok ((), { c with heap, items := c.items.set i none }) ∧
        ∀ b, c.items[i]?.join.bind val ≠ some b → Unaffected c.heap heap b := by
  have h0 : Client.Sound (⟨⟨[], [], []⟩, [], [], []⟩ : Client V F) := ListItemVal.sound_nil
  obtain ⟨outs, c, hr, hs⟩ := Machine.run_invariant step_sound ops _ h0 hops
  refine ⟨outs, c, hr, fun a value cb ha => hs.counted ha, fun i => ?_, fun i => ?_⟩
  · obtain ⟨heap, hd, -, hother⟩ := delVal_eq hs i
    exact ⟨heap, hd, hother⟩
  · obtain ⟨heap, hd, -, hother⟩ := del_eq hs i
    exact ⟨heap, hd, hother⟩

/-- A value shared by an item and a handle, both given up. -/
theorem ref_count_exact_shared :
    ∃ outs c, Machine.run step ⟨⟨[], [], []⟩, [], [], []⟩ [.new (some 7) (some 1) true true,
        .getValRef 0, .del 0, .delVal 0] = .ok (outs, (c : Client Nat Nat)) ∧
      (∀ a value cb, c.created[a]? = some (value, cb) →
        Counted c.heap a value cb (c.refs.count a)) ∧
      (∀ i, ∃ heap, step c (.delVal i) =
          .ok ((), { c with heap, handles := c.handles.set i none }) ∧
        ∀ b, c.handles[i]?.join ≠ some b → Unaffected c.heap heap b) ∧
      ∀ i, ∃ heap, step c (.del i) = .ok ((), { c with heap, items := c.items.set i none }) ∧
        ∀ b, c.items[i]?.join.bind val ≠ some b → Unaffected c.heap heap b := by
  refine ref_count_exact _ (.cons (fun _ => rfl) rfl (.cons ?_ rfl
    ⟨trivial, fun _ _ _ => ⟨trivial, fun _ _ _ => trivial⟩⟩))
  refine ⟨⟨some 0, false⟩, rfl, fun a ha => ?_⟩
  cases ha
  decide

/-- The second allocation of `newListItem` fails: the value is never freed. -/
theorem new_leaks_value :
    ∃ c : Client Nat Nat, Machine.run step ⟨⟨[], [], []⟩, [], [], []⟩
        [.new (some 7) (some 1) true false] = .ok ([()], c) ∧
      c.created[0]? = some (some 7, some 1) ∧ c.refs = [] ∧
      ¬ Counted c.heap 0 (some 7) (some 1) (c.refs.count 0) := by
  refine ⟨_, rfl, rfl, rfl, ?_⟩
  rintro ⟨hobj, -⟩
  exact absurd hobj (by decide)

end AlibC.ListItem
