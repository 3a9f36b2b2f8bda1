import AlibC.ArrayListSlots

/-! `ArrayList_contains` beside `ArrayList_find_item_by_value`: the one passes as many slots as there
are items, the other as many items. -/
namespace AlibC.ArrayList

open CLang
variable {α : Type}

/-- `memcmp(p, q, n) == 0`. -/
def memcmpZero (p q : Option (List UInt8)) (n : Nat) : Outcome Bool := do
  let bs ← load p 0 n
  let cs ← load q 0 n
  return bs == cs

/-- The loop of `ArrayList_contains` with `n` slots to go. -/
def containsLoop (bytes : α → List UInt8) (data : Option (List UInt8)) (dataLen : Nat) :
    List (Option α) → Nat → Outcome Bool
  | _, 0 => .ok false
  | [], _ + 1 => .error .outOfBounds
  | none :: cells, n + 1 => containsLoop bytes data dataLen cells n
  | some a :: cells, n + 1 => do
    if ← memcmpZero data (some (bytes a)) dataLen then return true
    else containsLoop bytes data dataLen cells n

/-- `bytes` is the memory behind an item. -/
def contains (bytes : α → List UInt8) (l : ArrayList α) (data : Option (List UInt8))
    (dataLen : Nat) : Outcome Bool :=
  match data with
  | none => .ok false
  | some _ =>
    match l.list with
    | none => if l.count = 0 then .ok false else .error .nullDeref
    | some cells => containsLoop bytes data dataLen cells l.count

/-- The item equals `data` on the first `dataLen` bytes. -/
def sameBytes (bytes : α → List UInt8) (data : List UInt8) (dataLen : Nat) (a : α) : Bool :=
  data.take dataLen == (bytes a).take dataLen

variable {l : ArrayList α} {bytes : α → List UInt8} {data : List UInt8} {dataLen : Nat}

theorem memcmpZero_eq {item : List UInt8} (hdata : dataLen ≤ data.length)
    (hitem : dataLen ≤ item.length) :
    memcmpZero (some data) (some item) dataLen =
      .ok (data.take dataLen == item.take dataLen) := by
  rw [memcmpZero, load_some (by omega), ok_bind, load_some (by omega), ok_bind]
  rfl

/-- Holes are passed, but counted. -/
theorem containsLoop_eq (hdata : dataLen ≤ data.length) {cells : List (Option α)}
    (hitems : ∀ a ∈ cells.reduceOption, dataLen ≤ (bytes a).length) :
    ∀ {n : Nat}, n ≤ cells.length → containsLoop bytes (some data) dataLen cells n =
      .ok ((cells.take n).reduceOption.any (sameBytes bytes data dataLen)) := by
  induction cells with
  | nil =>
    intro n hn
    cases n with
    | zero => rfl
    | succ n => cases hn
  | cons c cells ih =>
    intro n hn
    cases n with
    | zero => rfl
    | succ n =>
      have hle : n ≤ cells.length := Nat.le_of_succ_le_succ hn
      cases c with
      | none =>
        rw [List.reduceOption_cons_of_none] at hitems
        rw [containsLoop, ih hitems hle, List.take_succ_cons, List.reduceOption_cons_of_none]
      | some a =>
        rw [List.reduceOption_cons_of_some, List.forall_mem_cons] at hitems
        rw [containsLoop, memcmpZero_eq hdata hitems.1, ok_bind, List.take_succ_cons,
          List.reduceOption_cons_of_some, List.any_cons, sameBytes]
        by_cases heq : (data.take dataLen == (bytes a).take dataLen) = true
        · rw [if_pos heq, heq]
          rfl
        · rw [if_neg heq, ih hitems.2 hle, eq_false_of_ne_true heq, Bool.false_or]

/-- `ArrayList_contains` sees the items of the first `count` slots. -/
theorem contains_eq (hcount : l.count = l.entries.length) (hdata : dataLen ≤ data.length)
    (hitems : ∀ a ∈ l.entries, dataLen ≤ (bytes a).length) :
    l.contains bytes (some data) dataLen =
      .ok ((l.slots.take l.count).reduceOption.any (sameBytes bytes data dataLen)) := by
  have hent : l.entries = l.slots.reduceOption := rfl
  rw [hent] at hcount hitems
  have hle : l.count ≤ l.slots.length := by
    rw [hcount]
    exact List.reduceOption_length_le _
  rw [contains]
  cases hs : l.list with
  | none =>
    have hnil : l.slots = [] := by rw [slots, hs]; rfl
    rw [hnil, List.length_nil] at hle
    rw [hnil, Nat.le_zero.mp hle]
    rfl
  | some cells =>
    have hcells : l.slots = cells := by rw [slots, hs]; rfl
    rw [hcells] at hitems hle ⊢
    exact containsLoop_eq hdata hitems hle

/-- What the two searches have to answer: whether there is an item that matches, and a slot that
holds one if there is. -/
structure Found (bytes : α → List UInt8) (l : ArrayList α) (data : List UInt8) (dataLen : Nat) :
    Prop where
  contains_eq : l.contains bytes (some data) dataLen =
    .ok (l.entries.any (sameBytes bytes data dataLen))
  missing : l.entries.any (sameBytes bytes data dataLen) = false →
    l.findItemByValue (sameBytes bytes data dataLen) = .ok none
  present : l.entries.any (sameBytes bytes data dataLen) = true →
    ∃ i a, l.findItemByValue (sameBytes bytes data dataLen) = .ok (some (i, a)) ∧
      l.slots[i]? = some (some a) ∧ sameBytes bytes data dataLen a = true

/-- They do unless the items that match all lie behind the first `count` slots. -/
theorem found_iff (hcount : l.count = l.entries.length) (hdata : dataLen ≤ data.length)
    (hitems : ∀ a ∈ l.entries, dataLen ≤ (bytes a).length) :
    Found bytes l data dataLen ↔
      ((∃ a ∈ l.entries, sameBytes bytes data dataLen a = true) →
        ∃ a ∈ (l.slots.take l.count).reduceOption, sameBytes bytes data dataLen a = true) := by
  have hc := contains_eq hcount hdata hitems
  -- the slots that are passed hold none but items of the list
  have hsub : ∀ a ∈ (l.slots.take l.count).reduceOption, a ∈ l.entries := by
    intro a ha
    rw [List.reduceOption_mem_iff] at ha
    exact List.reduceOption_mem_iff.mpr (List.mem_of_mem_take ha)
  rw [← List.any_eq_true, ← List.any_eq_true]
  constructor
  · intro h hany
    have hans := h.contains_eq
    rw [hc, hany] at hans
    exact Except.ok.inj hans
  · intro h
    refine ⟨?_, fun hno => ?_, fun hany => ?_⟩
    · rw [hc]
      by_cases hany : l.entries.any (sameBytes bytes data dataLen) = true
      · rw [h hany, hany]
      · rw [eq_false_of_ne_true hany, List.any_eq_false.mpr]
        intro a ha hm
        exact hany (List.any_eq_true.mpr ⟨a, hsub a ha, hm⟩)
    · rcases findItemByValue_counted hcount (sameBytes bytes data dataLen) with
        ⟨-, hfind⟩ | ⟨pre, a, post, hs, hm, -⟩
      · exact hfind
      · have ha : a ∈ l.entries := by
          rw [entries, hs, Option.getD_some, List.reduceOption_append,
            List.reduceOption_cons_of_some]
          exact List.mem_append_right _ List.mem_cons_self
        exact absurd hm (List.any_eq_false.mp hno a ha)
    · obtain ⟨b, hb, hm⟩ := List.any_eq_true.mp hany
      rcases findItemByValue_counted hcount (sameBytes bytes data dataLen) with
        ⟨hno, -⟩ | ⟨pre, a, post, hs, hma, hfind⟩
      · exact absurd hm (hno b hb)
      · refine ⟨pre.length, a, hfind, ?_, hma⟩
        rw [slots, hs, Option.getD_some, getElem?_append_cons]

theorem found_two :
    let l : ArrayList UInt8 := ⟨some [none, some 2, some 7, none], 2, 4, 4, false⟩
    Found (fun a => [a]) l [2] 1 ↔
      ((∃ a ∈ l.entries, sameBytes (fun a => [a]) [2] 1 a = true) →
        ∃ a ∈ (l.slots.take l.count).reduceOption, sameBytes (fun a => [a]) [2] 1 a = true) :=
  found_iff rfl (Nat.le_refl 1) fun _ _ => Nat.le_refl 1

/-- Of two items the first is removed. The one that is left is behind the one slot that is passed. -/
theorem contains_misses_second :
    (do
      let l ← deref (newEx false 0 0)
      let (_, l) ← l.add (some 1)
      let (_, l) ← l.add (some 2)
      let (_, l) ← l.remove (some 1)
      let seen ← l.contains (fun a => [a]) (some [2]) 1
      return (seen, l) : Outcome (Bool × ArrayList UInt8)) =
        .ok (false, ⟨some [none, some 2], 1, 2, ULONG_MAX, false⟩) ∧
      ¬Found (fun a => [a]) (⟨some [none, some 2], 1, 2, ULONG_MAX, false⟩ : ArrayList UInt8)
        [2] 1 := by
  refine ⟨by decide, fun h => ?_⟩
  have hans := h.contains_eq
  exact absurd hans (by decide)

end AlibC.ArrayList
