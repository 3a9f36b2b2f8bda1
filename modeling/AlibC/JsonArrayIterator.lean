import AlibC.Lib.Cursor
import AlibC.Lib.SizeT

/-! `JsonArrayIterator`: the search for the first array in a JSON value, and the way along its items. -/
namespace AlibC

open CLang Machine

/-- `json_object`. A JSON null is a null pointer. Of an object there are the values of its members, in the
order of the iteration. -/
inductive Json where
  | null
  /-- A boolean, a number or a string. -/
  | scalar
  | array (items : List Json)
  | object (values : List Json)

inductive JsonArrayIteratorError where
  | memErr
  | badArg
  | ok
deriving DecidableEq, Repr

structure JsonArrayIterator where
  jArray : List Json
  it : Int
  length : Nat

namespace Json

mutual

/-- The values met in a pre-order walk through objects, which does not enter arrays. -/
def walk : Json → List Json
  | .object values => .object values :: walkAll values
  | .null => [.null]
  | .scalar => [.scalar]
  | .array items => [.array items]

def walkAll : List Json → List Json
  | [] => []
  | value :: values => walk value ++ walkAll values

end

def array? : Json → Option (List Json)
  | .array items => some items
  | _ => none

/-- The first array of a walk. -/
def firstArray (j : Json) : Option (List Json) := j.walk.findSome? array?

/-- An array, or an object without members. -/
def stops : Json → Bool
  | .array _ => true
  | .object [] => true
  | _ => false

def firstStop (j : Json) : Option Json := j.walk.find? stops

end Json

namespace JsonArrayIterator

mutual

/-- `JsonArrayIterator_new`, with what `*it` is before and after it. `none` where `jaie` is returned
before it has a value, which may then be any. -/
def new (alloc : Bool) : Option JsonArrayIterator → Json →
    Option (JsonArrayIteratorError × Option JsonArrayIterator)
  | it, .null => some (.badArg, it)
  | _, .scalar => some (.badArg, none)
  | _, .array items =>
    if alloc then some (.ok, some ⟨items, 0, toUInt items.length⟩) else some (.memErr, none)
  | _, .object values => newMember alloc none none values

/-- The loop over the members of an object. -/
def newMember (alloc : Bool) (jaie : Option JsonArrayIteratorError) :
    Option JsonArrayIterator → List Json → Option (JsonArrayIteratorError × Option JsonArrayIterator)
  | it, [] => jaie.map fun jaie => (jaie, it)
  | it, value :: values => do
    let (jaie, it) ← new alloc it value
    if jaie ≠ .badArg then some (jaie, it) else newMember alloc (some jaie) it values

end

/-- `json_object_array_get_idx`, whose index is a `size_t`. -/
def getIdx (jArray : List Json) (idx : Int) : Option Json := jArray[toSize idx]?

/-- `JsonArrayIterator_next`. `none` is the null pointer that is not an item. -/
def next (iter : JsonArrayIterator) : Outcome (Option Json × JsonArrayIterator) :=
  if toUInt iter.it = iter.length then .ok (none, iter)
  else do
    let it ← checkInt (iter.it + 1)
    return (getIdx iter.jArray iter.it, { iter with it })

def prev (iter : JsonArrayIterator) : Outcome (Option Json × JsonArrayIterator) :=
  if iter.it = 0 then .ok (none, iter)
  else do
    let it ← checkInt (iter.it - 1)
    return (getIdx iter.jArray it, { iter with it })

def setBegin (iter : JsonArrayIterator) : JsonArrayIterator := { iter with it := 0 }

def setEnd (iter : JsonArrayIterator) : JsonArrayIterator := { iter with it := toInt32 iter.length }

def step (iter : JsonArrayIterator) : Cursor.Move → Outcome (Option Json × JsonArrayIterator)
  | .next => iter.next
  | .prev => iter.prev
  | .toBegin => .ok (none, iter.setBegin)
  | .toEnd => .ok (none, iter.setEnd)

/-- The iterator over `items` with `n` of them before it. -/
def iterAt (items : List Json) (n : Nat) : JsonArrayIterator := ⟨items, n, toUInt items.length⟩

/-- The items are met in order and then in the reverse order, with null pointers at both ends. -/
def Iterates (items : List Json) (iter : JsonArrayIterator) : Prop :=
  ∀ k l, ∃ iter', run step iter (List.replicate (items.length + k) .next ++
      List.replicate (items.length + l) .prev) =
    .ok (items.map some ++ List.replicate k none ++ (items.reverse.map some ++ List.replicate l none), iter')

/-- The first array is found, if there is one. -/
def FindsFirst (it : Option JsonArrayIterator) (j : Json) : Prop :=
  match j.firstArray with
  | some items => ∃ iter, new true it j = some (.ok, some iter) ∧ iter.jArray = items ∧ Iterates items iter
  | none => new true it j = some (.badArg, none)

/-- What is returned where the walk stops, if it does. -/
def answer (it : Option JsonArrayIterator) :
    Option Json → Option (JsonArrayIteratorError × Option JsonArrayIterator)
  | some (.array items) => some (.ok, some (iterAt items 0))
  | some _ => none
  | none => some (.badArg, it)

mutual

/-- The search is a walk. -/
theorem new_eq : ∀ j : Json, new true none j = answer none j.firstStop
  | .null => rfl
  | .scalar => rfl
  | .array _ => rfl
  | .object [] => rfl
  | .object (value :: values) => newMember_eq (value :: values) none nofun

theorem newMember_eq : ∀ (values : List Json) (jaie : Option JsonArrayIteratorError),
    (values = [] → jaie = some .badArg) →
      newMember true jaie none values = answer none ((Json.walkAll values).find? Json.stops)
  | [], jaie, h => by
    rw [h rfl]
    rfl
  | value :: values, jaie, _ => by
    have hvalues := newMember_eq values (some .badArg) fun _ => rfl
    rw [newMember, new_eq value, Json.walkAll, List.find?_append, Json.firstStop]
    cases value.walk.find? Json.stops with
    | none => exact hvalues
    | some j => cases j <;> rfl

end

/-- Only a null pointer leaves what `*it` was. -/
theorem new_ne_null {j : Json} (hj : j ≠ .null) (it : Option JsonArrayIterator) :
    new true it j = new true none j := by
  cases j with
  | null => exact absurd rfl hj
  | scalar => rfl
  | array items => rfl
  | object values => rfl

/-- Where no empty object comes first, the walk stops at the first array. -/
theorem findSome?_array {nodes : List Json} (h : nodes.find? Json.stops ≠ some (.object [])) :
    nodes.findSome? Json.array? = (nodes.find? Json.stops).bind Json.array? := by
  induction nodes with
  | nil => rfl
  | cons j nodes ih =>
    cases j with
    | null => exact ih h
    | scalar => exact ih h
    | array items => rfl
    | object values =>
      cases values with
      | nil => exact absurd rfl h
      | cons value values => exact ih h

/-- The iterator is where the cursor is, in an array whose items an `int` can count. -/
structure Tracks (iter : JsonArrayIterator) (c : Cursor Json) : Prop where
  jArray : iter.jArray = c.items
  it : iter.it = c.passed.length
  length : iter.length = c.passed.length + c.ahead.length
  fits : c.passed.length + c.ahead.length < 2 ^ 31

theorem iterAt_tracks {items : List Json} (h : items.length < 2 ^ 31) : Tracks (iterAt items 0) ⟨[], items⟩ := by
  refine ⟨rfl, rfl, ?_, ?_⟩
  · rw [List.length_nil, Nat.zero_add]
    exact toUInt_nat (by omega)
  · rw [List.length_nil, Nat.zero_add]
    exact h

theorem getIdx_eq {items : List Json} {n : Nat} (h : n < 2 ^ 31) : getIdx items n = items[n]? := by
  rw [getIdx, toSize_nat (by omega)]

variable {iter : JsonArrayIterator} {c : Cursor Json}

theorem next_tracks (h : Tracks iter c) :
    ∃ iter', iter.next = .ok (c.next.1, iter') ∧ Tracks iter' c.next.2 := by
  obtain ⟨harray, hit, hlength, hfits⟩ := h
  obtain ⟨passed, ahead⟩ := c
  dsimp only at hit hlength hfits
  rw [next, hit, hlength, toUInt_nat (by omega)]
  cases ahead with
  | nil => exact ⟨iter, if_pos (by simp), harray, hit, hlength, hfits⟩
  | cons a ahead =>
    rw [List.length_cons] at hfits hlength
    have hitem : (Cursor.mk passed (a :: ahead)).items[passed.length]? = some a := by
      simp [Cursor.items]
    rw [if_neg (by simp only [List.length_cons]; omega), ← Int.natCast_succ, checkInt_eq (by omega), ok_bind,
      getIdx_eq (by omega), harray, hitem]
    refine ⟨_, rfl, ?_, rfl, ?_, ?_⟩
    · exact (Cursor.items_next ⟨passed, a :: ahead⟩).symm
    · simp only [Cursor.next, List.length_cons]
      omega
    · simp only [Cursor.next, List.length_cons]
      omega

theorem prev_tracks (h : Tracks iter c) :
    ∃ iter', iter.prev = .ok (c.prev.1, iter') ∧ Tracks iter' c.prev.2 := by
  obtain ⟨harray, hit, hlength, hfits⟩ := h
  obtain ⟨passed, ahead⟩ := c
  dsimp only at hit hlength hfits
  rw [prev, hit]
  cases passed with
  | nil => exact ⟨iter, if_pos rfl, harray, hit, hlength, hfits⟩
  | cons a passed =>
    rw [List.length_cons] at hfits hlength
    have hitem : (Cursor.mk (a :: passed) ahead).items[passed.length]? = some a := by
      simp [Cursor.items]
    have hpred : ((a :: passed).length : Int) - 1 = passed.length := by
      rw [List.length_cons]
      omega
    rw [if_neg (by simp only [List.length_cons]; omega), hpred, checkInt_eq (by omega), ok_bind,
      getIdx_eq (by omega), harray, hitem]
    refine ⟨_, rfl, ?_, rfl, ?_, ?_⟩
    · exact (Cursor.items_step ⟨a :: passed, ahead⟩ .prev).symm
    · simp only [Cursor.prev, Cursor.flip, Cursor.next, List.length_cons]
      omega
    · simp only [Cursor.prev, Cursor.flip, Cursor.next, List.length_cons]
      omega

theorem setEnd_eq (h : iter.length < 2 ^ 31) : iter.setEnd = { iter with it := iter.length } := by
  rw [setEnd, toInt32_eq (by omega) (by omega)]

/-- Each call does what it says of the cursor. -/
theorem step_tracks (h : Tracks iter c) (m : Cursor.Move) :
    ∃ iter', iter.step m = .ok ((c.step m).1, iter') ∧ Tracks iter' (c.step m).2 := by
  have hlength : c.items.length = c.passed.length + c.ahead.length := by
    simp [Cursor.items]
  cases m with
  | next => exact next_tracks h
  | prev => exact prev_tracks h
  | toBegin =>
    refine ⟨_, rfl, h.jArray, rfl, ?_, ?_⟩
    · simp only [Cursor.step, List.length_nil, Nat.zero_add, hlength]
      exact h.length
    · simp only [Cursor.step, List.length_nil, Nat.zero_add, hlength]
      exact h.fits
  | toEnd =>
    have hend := setEnd_eq (h.length ▸ h.fits)
    refine ⟨{ iter with it := iter.length }, by rw [step, hend]; rfl, ?_, ?_, ?_, ?_⟩
    · exact h.jArray.trans (Cursor.items_step c .toEnd).symm
    · simp only [Cursor.step, List.length_reverse, hlength, h.length]
    · simp only [Cursor.step, List.length_reverse, List.length_nil, Nat.add_zero, hlength]
      exact h.length
    · simp only [Cursor.step, List.length_reverse, List.length_nil, Nat.add_zero, hlength]
      exact h.fits

/-- All calls of the functions of the iterator are those of a cursor. -/
theorem run_tracks (h : Tracks iter c) (moves : List Cursor.Move) :
    ∃ iter', run step iter moves = .ok ((trace Cursor.step c moves).1, iter') ∧
      Tracks iter' (trace Cursor.step c moves).2 :=
  @run_simulates _ _ _ _ step Cursor.step Tracks (fun _ _ => True) (fun _ _ m h _ => step_tracks h m)
    moves iter c h (allTrace_of_forall (fun _ _ => trivial) moves c)

/-- What `next` does at any position that an `int` can hold. -/
theorem next_iterAt {items : List Json} {n : Nat} (hfits : n < 2 ^ 31) : next (iterAt items n) =
    if n = toUInt items.length then .ok (none, iterAt items n)
    else if n + 1 < 2 ^ 31 then .ok (items[n]?, iterAt items (n + 1))
    else .error .overflow := by
  simp only [next, iterAt, toUInt_nat (show n < 2 ^ 32 by omega), getIdx_eq hfits]
  split
  · rfl
  · rw [← Int.natCast_succ]
    split
    · rw [checkInt_eq (by omega)]
      rfl
    · rw [checkInt_overflow (by omega)]
      rfl

theorem toUInt_le (n : Nat) : toUInt n ≤ n := by
  unfold toUInt
  omega

/-- The first calls of `next`, while neither the stored length nor the range of the position is
reached. -/
theorem run_next {items : List Json} (n : Nat) (hlength : n ≤ toUInt items.length) (hfits : n < 2 ^ 31) :
    run step (iterAt items 0) (List.replicate n .next) =
      .ok ((items.take n).map some, iterAt items n) := by
  induction n with
  | zero => rfl
  | succ n ih =>
    have hle := toUInt_le items.length
    have hnext : step (iterAt items n) .next = .ok (items[n]?, iterAt items (n + 1)) := by
      rw [step, next_iterAt (by omega), if_neg (by omega), if_pos hfits]
    rw [List.replicate_succ', run_append _ (ih (by omega) (by omega)), run, hnext, List.take_add_one,
      List.getElem?_eq_getElem (by omega), List.map_append]
    rfl

/-- The items are met in order and back exactly if an `int` can count them. -/
theorem iterates_iff (items : List Json) : Iterates items (iterAt items 0) ↔ items.length < 2 ^ 31 := by
  constructor
  · intro h
    by_contra hlong
    -- The call that finds the stored length reached too early, or the position at its largest.
    have hle := toUInt_le items.length
    obtain ⟨n, hn⟩ : ∃ n, n = min (toUInt items.length) (2 ^ 31 - 1) := ⟨_, rfl⟩
    obtain ⟨iter', hr⟩ := h 0 0
    have hsplit : List.replicate (items.length + 0) Cursor.Move.next =
        List.replicate n .next ++ .next :: List.replicate (items.length - n - 1) .next := by
      rw [← List.replicate_succ, List.replicate_append_replicate]
      congr 1
      omega
    rw [hsplit, List.append_assoc, run_append _ (run_next n (by omega) (by omega)), List.cons_append, run,
      step, next_iterAt (by omega)] at hr
    by_cases hend : n = toUInt items.length
    · rw [if_pos hend, ok_bind] at hr
      dsimp only at hr
      cases hrest : run step (iterAt items n) (List.replicate (items.length - n - 1) .next ++
          List.replicate (items.length + 0) .prev) with
      | error f =>
        rw [hrest] at hr
        cases hr
      | ok r =>
        rw [hrest] at hr
        have houts : (items.take n).map some ++ none :: r.1 = _ := congrArg Prod.fst (Except.ok.inj hr)
        have htaken : ((items.take n).map some).length = n := by
          rw [List.length_map, List.length_take]
          omega
        have hn' : n < items.length := by omega
        have hat := congrArg (fun outs => outs[n]?) houts
        dsimp only at hat
        rw [List.getElem?_append_right (Nat.le_of_eq htaken), htaken, Nat.sub_self, List.append_assoc,
          List.getElem?_append_left (by rwa [List.length_map]), List.getElem?_map,
          List.getElem?_eq_getElem hn'] at hat
        cases hat
    · rw [if_neg hend, if_neg (by omega)] at hr
      cases hr
  · intro h k l
    obtain ⟨iter', hr, -⟩ := run_tracks (iterAt_tracks h)
      (List.replicate (items.length + k) .next ++ List.replicate (items.length + l) .prev)
    rw [Cursor.trace_next_prev] at hr
    exact ⟨iter', hr⟩

/-- Where the walk stops decides what is found. -/
theorem findsFirst_iff {it : Option JsonArrayIterator} {j : Json} (hj : j ≠ .null)
    (hstop : j.firstStop ≠ some (.object [])) :
    FindsFirst it j ↔ ∀ items, j.firstArray = some items → items.length < 2 ^ 31 := by
  have harray : j.firstArray = j.firstStop.bind Json.array? := findSome?_array hstop
  rw [FindsFirst, new_ne_null hj, new_eq, harray]
  cases hfound : j.firstStop with
  | none => exact iff_of_true rfl nofun
  | some stop =>
    have hstops : stop.stops = true := List.find?_some hfound
    cases stop with
    | null => cases hstops
    | scalar => cases hstops
    | object values =>
      cases values with
      | nil => exact absurd hfound hstop
      | cons value values => cases hstops
    | array items =>
      constructor
      · rintro ⟨iter, hr, -, hiter⟩ _ ⟨⟩
        cases hr
        exact (iterates_iff items).mp hiter
      · intro h
        exact ⟨_, rfl, rfl, (iterates_iff items).mpr (h items rfl)⟩

/-- The first array is found, and its items are met in order and back, exactly if the value is not a null
pointer while `*it` is another, no object without members is met before the first array, and an `int`
can count the items of the array. -/
theorem new_findsFirst_iff (it : Option JsonArrayIterator) (j : Json) : FindsFirst it j ↔
    (j = .null → it = none) ∧ j.firstStop ≠ some (.object []) ∧
      ∀ items, j.firstArray = some items → items.length < 2 ^ 31 := by
  by_cases hj : j = .null
  · subst hj
    constructor
    · intro h
      have hit : some (JsonArrayIteratorError.badArg, it) = some (.badArg, none) := h
      cases hit
      exact ⟨fun _ => rfl, nofun, nofun⟩
    · rintro ⟨hit, -, -⟩
      rw [hit rfl]
      rfl
  · rw [and_iff_right fun h => absurd h hj]
    by_cases hstop : j.firstStop = some (.object [])
    · refine iff_of_false (fun h => ?_) fun h => h.1 hstop
      rw [FindsFirst, new_ne_null hj, new_eq, hstop] at h
      cases hfirst : j.firstArray with
      | none =>
        rw [hfirst] at h
        cases h
      | some items =>
        rw [hfirst] at h
        obtain ⟨iter, hr, -⟩ := h
        cases hr
    · rw [and_iff_right hstop]
      exact findsFirst_iff hj hstop

/-- An object without members, and an array behind one: no result has a value. -/
theorem new_empty_object :
    new true none (.object []) = none ∧ new true none (.object [.object [], .array [.scalar]]) = none ∧
      ¬FindsFirst none (.object []) ∧ ¬FindsFirst none (.object [.object [], .array [.scalar]]) := by
  refine ⟨rfl, rfl, nofun, ?_⟩
  rintro ⟨iter, hr, -⟩
  cases hr

end JsonArrayIterator

end AlibC
