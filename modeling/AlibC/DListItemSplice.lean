import AlibC.DListItemEnds
import AlibC.Lib.Reorder

/-! Putting a whole chain into another one: after an item, at the end or at the beginning. -/
namespace AlibC.DListItem

open CLang Function Linked Reorder

variable {α : Type} {items : Items α} {a b c : Nat} {xs ys pre post : List Nat}
  {q r : Option Nat}

/-- The three functions that link a chain to a chain. -/
inductive Splicing where
  | insertAfter
  | pushBack
  | pushForward
deriving DecidableEq, Repr

def Splicing.splice : Splicing → Items α → Option Nat → Option Nat → Outcome (Option Nat × Items α)
  | insertAfter => DListItem.insertAfter
  | pushBack => DListItem.pushBack
  | pushForward => DListItem.pushForward

/-- Where the items `ys` come, told by an item `c` of the chain `xs`. -/
def Splicing.place (s : Splicing) (xs : List Nat) (c : Nat) (ys : List Nat) : List Nat :=
  match s with
  | insertAfter => xs.take (xs.idxOf c + 1) ++ ys ++ xs.drop (xs.idxOf c + 1)
  | pushBack => xs ++ ys
  | pushForward => ys ++ xs

/-- A chain that belongs to nothing becomes a part of the other one. -/
theorem Splicing.splice_eq (s : Splicing) (h : Chain (view items) q xs) (hc : c ∈ xs)
    (hy : Chain (view items) none ys) (hb : b ∈ ys) (hdis : ∀ a ∈ xs, a ∉ ys) :
    ∃ items', s.splice items (some c) (some b) = .ok (ys.head?, items') ∧
      Chain (view items') q (s.place xs c ys) := by
  obtain ⟨pre, post, rfl⟩ := List.append_of_mem hc
  obtain ⟨u, w, rfl⟩ := List.append_of_mem hb
  have hyne : u ++ b :: w ≠ [] := by simp
  have hxs : pre ++ c :: post = pre ++ [c] ++ post := by simp
  cases s with
  | insertAfter =>
    have hnd := nodup_between (hxs ▸ h.dll.nodup) hy.dll.nodup (hxs ▸ hdis)
    obtain ⟨items', hs, hv⟩ := insertAfter_spec h hy hnd
    have hpos := take_drop_idxOf h.dll.nodup
    refine ⟨items', hs, ?_⟩
    rw [Splicing.place, hpos.2.2.1, hpos.2.2.2, hv]
    exact (hxs ▸ h).spliced hy hyne hnd
  | pushBack =>
    have hnd := @nodup_between Nat (pre ++ c :: post) (u ++ b :: w) []
      (by rw [List.append_nil]; exact h.dll.nodup) hy.dll.nodup (by rw [List.append_nil]; exact hdis)
    obtain ⟨items', hs, hv⟩ := pushBack_spec h hy (by rwa [List.append_nil] at hnd)
    refine ⟨items', hs, ?_⟩
    have hchain := Chain.spliced (by rwa [List.append_nil]) hy hyne hnd
    rw [← hv, List.append_nil] at hchain
    exact hchain
  | pushForward =>
    have hnd := @nodup_between Nat [] (u ++ b :: w) (pre ++ c :: post) h.dll.nodup hy.dll.nodup hdis
    obtain ⟨items', hs, hv⟩ := pushForward_spec h hy hnd
    refine ⟨items', hs, ?_⟩
    rw [hv]
    exact @Chain.spliced _ [] (pre ++ c :: post) q none _ h hy hyne hnd

/-- An item that is `NULL` or has a parent is not linked. -/
theorem Splicing.splice_refused (s : Splicing) (items : Items α) (c : Nat) {newItem : Option Nat}
    (hnew : ∀ b, newItem = some b → ∃ p, (view items).par b = some (some p)) :
    s.splice items (some c) newItem = .ok (some c, items) := by
  cases newItem with
  | none => cases s <;> rfl
  | some b =>
    obtain ⟨p, hp⟩ := hnew b rfl
    have hmember := member_eq hp
    cases s with
    | insertAfter =>
      rw [splice, DListItem.insertAfter, hmember, ok_bind, if_pos (Option.some_ne_none p)]
      rfl
    | pushBack =>
      rw [splice, DListItem.pushBack, hmember, ok_bind, if_pos (Option.some_ne_none p)]
      rfl
    | pushForward =>
      rw [splice, DListItem.pushForward, hmember, ok_bind, if_pos (Option.some_ne_none p)]
      rfl

theorem Splicing.splice_nothing (s : Splicing) (h : Chain (view items) r ys) (hb : b ∈ ys) :
    s.splice items none (some b) = .ok (ys.head?, items) := by
  obtain ⟨u, w, rfl⟩ := List.append_of_mem hb
  have hfirst := getFirstItem_eq h.dll
  cases s with
  | insertAfter =>
    rw [splice, DListItem.insertAfter, hfirst]
    rfl
  | pushBack =>
    rw [splice, DListItem.pushBack, hfirst]
    rfl
  | pushForward =>
    rw [splice, DListItem.pushForward, hfirst]
    rfl

/-- Whatever items they are told by, a chain without a parent becomes a part of another chain.
Without a chain to link nothing changes. -/
theorem splice_chains (s : Splicing) (items : Items α) :
    (∀ q xs ys c b, Chain (view items) q xs → c ∈ xs → Chain (view items) none ys → b ∈ ys →
      (∀ a ∈ xs, a ∉ ys) → ∃ items', s.splice items (some c) (some b) = .ok (ys.head?, items') ∧
        Chain (view items') q (s.place xs c ys)) ∧
    (∀ c newItem, (∀ b, newItem = some b → ∃ p, (view items).par b = some (some p)) →
      s.splice items (some c) newItem = .ok (some c, items)) ∧
    (∀ r ys b, Chain (view items) r ys → b ∈ ys →
      s.splice items none (some b) = .ok (ys.head?, items)) ∧
    s.splice items none none = .ok (none, items) := by
  refine ⟨fun q xs ys c b h hc hy hb hdis => s.splice_eq h hc hy hb hdis,
    fun c newItem hnew => s.splice_refused items c hnew,
    fun r ys b h hb => s.splice_nothing h hb, ?_⟩
  cases s <;> rfl

/-- Three items of a list and two items that are linked to each other. -/
def threeAndTwo : Items Nat :=
  ⟨[some ⟨none, some 9, false, some 1, none⟩, some ⟨none, some 9, false, some 2, some 0⟩,
    some ⟨none, some 9, false, none, some 1⟩, some ⟨none, none, false, some 4, none⟩,
    some ⟨none, none, false, none, some 3⟩]⟩

theorem splice_chains_three :
    (∃ items', Splicing.insertAfter.splice threeAndTwo (some 1) (some 4) = .ok (some 3, items') ∧
      Chain (view items') (some 9) [0, 1, 3, 4, 2]) ∧
    Splicing.insertAfter.splice threeAndTwo (some 3) (some 1) = .ok (some 3, threeAndTwo) ∧
    Splicing.insertAfter.splice threeAndTwo none (some 4) = .ok (some 3, threeAndTwo) := by
  have hx : Chain (view threeAndTwo) (some 9) [0, 1, 2] := by
    refine ⟨⟨⟨rfl, rfl, rfl, trivial⟩, ⟨rfl, rfl, rfl, trivial⟩⟩, fun a ha => ?_⟩
    simp only [List.mem_cons, List.not_mem_nil, or_false] at ha
    rcases ha with rfl | rfl | rfl <;> rfl
  have hy : Chain (view threeAndTwo) none [3, 4] := by
    refine ⟨⟨⟨rfl, rfl, trivial⟩, ⟨rfl, rfl, trivial⟩⟩, fun a ha => ?_⟩
    simp only [List.mem_cons, List.not_mem_nil, or_false] at ha
    rcases ha with rfl | rfl <;> rfl
  have h := splice_chains .insertAfter threeAndTwo
  refine ⟨h.1 (some 9) [0, 1, 2] [3, 4] 1 4 hx (by simp) hy (by simp) (by decide), ?_, ?_⟩
  · refine h.2.1 3 (some 1) fun b hb => ?_
    cases hb
    exact ⟨9, rfl⟩
  · exact h.2.2.1 none [3, 4] 4 hy (by simp)

end AlibC.DListItem
