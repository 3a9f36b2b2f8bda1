import AlibC.DListItemRanges
import AlibC.ListItemRefs

/-! `delDListItem` and `delDListItem_all` with the values of the items, which other items may
share. -/
namespace AlibC.DListItem

open CLang Linked
open ListItemVal (Sound)

/-- The items, the values they refer to, and the items given to `free` so far. -/
structure Memory (V F : Type) where
  items : Items Nat
  values : ListItemVal.Heap V F
  freed : List Nat
deriving DecidableEq, Repr

namespace Memory

variable {V F : Type}

/-- `delListItem` on the `ListItem` that an item begins with. -/
def delListItem (m : Memory V F) (item : Option Nat) : Outcome (Option Nat × Memory V F) :=
  match item with
  | none => .ok (none, m)
  | some a => do
    let it ← m.items.get (some a)
    let (_, values) ← ListItem.del m.values (some { val := it.val, removed := it.removed })
    return (none, { items := m.items.put a none, values, freed := m.freed ++ [a] })

/-- `delDListItem`: the pointer it was given becomes the one it returns. -/
def del (m : Memory V F) (listItem : Option Nat) : Outcome (Option Nat × Memory V F) :=
  match listItem with
  | none => .ok (none, m)
  | some a => do
    let listItem ← adjacent m.items a
    let items ← unlink m.items (some a) (some a)
    let (_, m) ← delListItem { m with items } (some a)
    return (listItem, m)

/-- The loop of `delDListItem_all`. -/
def delLoop : Nat → Memory V F → Option Nat → Outcome (Option Nat × Memory V F)
  | _, m, none => .ok (none, m)
  | 0, _, some _ => .error .diverges
  | fuel + 1, m, some a => do
    let (listItem, m) ← del m (some a)
    delLoop fuel m listItem

/-- `delDListItem_all`. -/
def delAll (m : Memory V F) (listItem : Option Nat) : Outcome (Option Nat × Memory V F) :=
  delLoop (fuel m.items) m listItem

variable {m : Memory V F} {created : List (Option V × Option F)} {refs : List Nat} {a : Nat}
  {xs order : List Nat}

/-- The items become what `DListItem.del` makes of them, and the value it gives up is dropped. -/
theorem del_eq {vs : List Nat} {p : Option Nat} {items' : Items Nat}
    (hdel : DListItem.del m.items (some a) = .ok (vs, p, items'))
    (hs : Sound m.values created (vs ++ refs)) :
    ∃ values', m.del (some a) = .ok (p, ⟨items', values', m.freed ++ [a]⟩) ∧
      Sound values' created refs := by
  rw [del_eq_unlink] at hdel
  obtain ⟨q, hadj, hdel⟩ := bind_eq_ok.mp hdel
  obtain ⟨items₁, hunlink, hdel⟩ := bind_eq_ok.mp hdel
  obtain ⟨it, hget, hdel⟩ := bind_eq_ok.mp hdel
  cases hdel
  obtain ⟨values', hdrop, hs', -⟩ := ListItem.drop_sound hs (.refl _)
  refine ⟨values', ?_, hs'⟩
  rw [del, hadj, ok_bind, hunlink, ok_bind, delListItem, hget, ok_bind, ListItem.del, hdrop]
  rfl

/-- Along a walk the loop does to the items what `DListItem.delLoop` does. Each item is given to
`free` after its value was dropped. -/
theorem delLoop_eq (hw : Walk xs order) : ∀ {m : Memory V F} {n : Nat} (dropped : List Nat),
    Dll (view m.items).nx (view m.items).pv xs → order.length ≤ n →
    Sound m.values created (held m.items order ++ refs) →
    ∃ m', delLoop n m order.head? = .ok (none, m') ∧
      DListItem.delLoop n m.items order.head? dropped =
        .ok (dropped ++ held m.items order, m'.items) ∧
      m'.freed = m.freed ++ order ∧ Sound m'.values created refs := by
  induction hw with
  | nil =>
    intro m n dropped _ _ hs
    refine ⟨m, ?_, ?_, (List.append_nil _).symm, hs⟩
    · rw [List.head?_nil, delLoop.eq_def]
    · rw [List.head?_nil, DListItem.delLoop.eq_def, held, List.filterMap_nil, List.append_nil]
  | @step pre post order a hhead hw ih =>
    intro m n dropped h hn hs
    obtain ⟨n, rfl⟩ := Nat.exists_eq_succ_of_ne_zero (Nat.ne_of_gt (Nat.zero_lt_of_lt hn))
    obtain ⟨x, hx⟩ := Heap.exists_cell (seg_iff_path.mpr ⟨rfl, h.fwd⟩)
      (List.mem_append_right pre List.mem_cons_self)
    obtain ⟨items₁, hdel, hwithout⟩ := del_without h hx
    have hheld := hwithout.held_eq (hw.not_mem h.not_mem)
    rw [held_cons hx, List.append_assoc] at hs
    obtain ⟨values₁, hdel₁, hs₁⟩ := del_eq hdel hs
    rw [← hheld] at hs₁
    obtain ⟨m', hr, hitems, hfreed, hs'⟩ := @ih ⟨items₁, values₁, m.freed ++ [a]⟩ n
      (dropped ++ x.val.toList) hwithout.dll (Nat.le_of_succ_le_succ hn) hs₁
    refine ⟨m', ?_, ?_, ?_, hs'⟩
    · rw [List.head?_cons, delLoop, hdel₁, ok_bind]
      dsimp only
      rw [← hhead, hr]
    · rw [List.head?_cons, DListItem.delLoop, hdel, ok_bind]
      dsimp only
      rw [← hhead, hitems, hheld, held_cons hx, List.append_assoc]
    · rw [hfreed, List.append_assoc]
      rfl

/-- What is left when the items `xs` were deleted in the given order, and their values are referred
to by `refs` only. -/
structure ChainFreed (m m' : Memory V F) (xs order : List Nat)
    (created : List (Option V × Option F)) (refs : List Nat) : Prop where
  /-- Each item is freed once. -/
  freed_eq : m'.freed = m.freed ++ order
  perm : order.Perm xs
  nodup : order.Nodup
  /-- The values that were dropped are those of the items, each in its turn. -/
  items_eq : DListItem.delAll m.items order.head? = .ok (held m.items order, m'.items)
  emptied : Emptied m.items m'.items xs
  sound : Sound m'.values created refs

/-- From any item of a chain on `delDListItem_all` deletes it to the end, first backward and then
forward, and leaves `NULL`. No item is used after it was freed, which would be a fault. -/
theorem delAll_frees_chain (m : Memory V F) (pre : List Nat) (a : Nat) (post : List Nat)
    (created : List (Option V × Option F)) (refs : List Nat)
    (h : Dll (view m.items).nx (view m.items).pv (pre ++ a :: post))
    (hs : Sound m.values created (held m.items (pre ++ a :: post) ++ refs)) :
    ∃ m', m.delAll (some a) = .ok (none, m') ∧
      ChainFreed m m' (pre ++ a :: post) (a :: (pre.reverse ++ post)) created refs := by
  have hw := walk_from pre a post
  have hn : (a :: (pre.reverse ++ post)).length ≤ fuel m.items := by
    rw [hw.perm.length_eq]
    exact Nat.le_of_lt (length_lt_fuel h.fwd)
  obtain ⟨m', hr, hitems, hfreed, hs'⟩ := @delLoop_eq V F created refs _ _ hw m _ [] h hn
    (hs.perm ((hw.perm.symm.filterMap _).append_right refs))
  obtain ⟨items', hr', hempty⟩ := @DListItem.delLoop_eq Nat _ _ hw m.items _ [] h hn
  rw [hitems] at hr'
  cases hr'
  exact ⟨m', hr, hfreed, hw.perm, hw.perm.nodup_iff.mpr h.nodup, hitems, hempty, hs'⟩

/-- Three items, the last one without a value, deleted from the middle on. -/
theorem delAll_frees_chain_middle :
    ∃ m', Memory.delAll ⟨⟨[some ⟨some 0, none, false, some 1, none⟩,
        some ⟨some 1, none, false, some 2, some 0⟩, some ⟨none, none, false, none, some 1⟩]⟩,
        ⟨[some ⟨some 7, some 3, 1⟩, some ⟨some 8, none, 1⟩], [], []⟩, []⟩ (some 1) =
        .ok (none, m') ∧
      ChainFreed (V := Nat) (F := Nat) ⟨⟨[some ⟨some 0, none, false, some 1, none⟩,
        some ⟨some 1, none, false, some 2, some 0⟩, some ⟨none, none, false, none, some 1⟩]⟩,
        ⟨[some ⟨some 7, some 3, 1⟩, some ⟨some 8, none, 1⟩], [], []⟩, []⟩ m' [0, 1, 2] [1, 0, 2]
        [(some 7, some 3), (some 8, none)] [] := by
  refine delAll_frees_chain _ [0] 1 [2] _ [] ⟨⟨rfl, rfl, rfl, trivial⟩, rfl, rfl, rfl, trivial⟩ ?_
  have hs := (ListItemVal.sound_nil.new_eq (some 7) (some 3)).new_eq (some 8) none
  exact Sound.perm hs (List.Perm.swap 0 1 [])

end Memory

end AlibC.DListItem
