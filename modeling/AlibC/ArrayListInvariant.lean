import AlibC.ArrayList

/-! What every operation keeps of an `ArrayList`, and what each does with the items. -/
namespace AlibC.ArrayList

open CLang
variable {α β : Type}

/-- The slot array has exactly `capacity` slots, of which `count` hold an item. -/
structure WF (l : ArrayList α) : Prop where
  length_eq : (l.list.getD []).length = l.capacity
  null_iff : l.list = none ↔ l.capacity = 0
  count_eq : l.count = l.entries.length
  bytes_lt : 8 * l.capacity < 2 ^ 64

/-- Twice the slots there are can still be addressed. -/
def CanDouble (l : ArrayList α) : Prop := 16 * l.count + 8 < 2 ^ 64

instance (l : ArrayList α) : Decidable l.CanDouble :=
  inferInstanceAs (Decidable (16 * l.count + 8 < 2 ^ 64))

variable {l : ArrayList α}

theorem WF.count_le (h : l.WF) : l.count ≤ l.capacity := by
  rw [h.count_eq, ← h.length_eq]
  exact List.reduceOption_length_le _

theorem WF.of_null (h : l.WF) (hn : l.list = none) :
    l.capacity = 0 ∧ l.count = 0 ∧ l.entries = [] := by
  have he : l.entries = [] := by simp [entries, hn]
  exact ⟨h.null_iff.mp hn, by rw [h.count_eq, he]; rfl, he⟩

theorem WF.of_some (h : l.WF) {cells : List (Option α)} (hs : l.list = some cells) :
    cells.length = l.capacity ∧ 0 < l.capacity ∧ l.count = cells.reduceOption.length := by
  have hne : l.capacity ≠ 0 := fun h0 => by simp [h.null_iff.mpr h0] at hs
  have hl := h.length_eq
  have hc := h.count_eq
  rw [entries, hs] at hc
  rw [hs] at hl
  exact ⟨hl, Nat.pos_of_ne_zero hne, hc⟩

theorem WF.exists_cells (h : l.WF) (hpos : 0 < l.capacity) : ∃ cells, l.list = some cells := by
  cases hs : l.list with
  | none => exact absurd (h.null_iff.mp hs) (Nat.ne_of_gt hpos)
  | some cells => exact ⟨cells, rfl⟩

theorem WF.mk_some {cells : List (Option α)} {count capacity maxCap : Nat} {freeItem : Bool}
    (hl : cells.length = capacity) (hpos : 0 < capacity)
    (hc : count = cells.reduceOption.length) (hb : 8 * capacity < 2 ^ 64) :
    (⟨some cells, count, capacity, maxCap, freeItem⟩ : ArrayList α).WF :=
  ⟨hl, by simp; omega, hc, hb⟩

theorem WF.mk_null {maxCap : Nat} {freeItem : Bool} :
    (⟨none, 0, 0, maxCap, freeItem⟩ : ArrayList α).WF :=
  ⟨rfl, by simp, rfl, Nat.two_pow_pos 64⟩

theorem overwrite_calloc (n : Nat) (as : List α) :
    overwrite (List.replicate n none) 0 (as.map some) =
      as.map some ++ List.replicate (n - as.length) none := by
  simp [overwrite]

section resize

/-- Slots are put behind those there are. -/
theorem resize_above {cells : List (Option α)} {n : Nat} (hs : l.list = some cells)
    (hl : cells.length = l.capacity) (hn : l.capacity < n) (hfit : 8 * n < 2 ^ 64) :
    l.resize n = .ok ([], ⟨some (cells ++ List.replicate (n - l.capacity) none), l.count, n,
      l.maxCap, l.freeItem⟩) := by
  have hmul : sizeMul 8 n / 8 = n := by
    rw [sizeMul_eq hfit]
    omega
  have hset : sizeMul (sizeSub n l.capacity) 8 / 8 = n - l.capacity := by
    rw [sizeSub_eq (by omega) (by omega), sizeMul_eq (by omega)]
    omega
  have hre : realloc cells (sizeMul 8 n) =
      cells ++ List.replicate (n - l.capacity) none := by
    rw [realloc, hmul, List.take_of_length_le (by omega), hl]
  rw [resize, if_neg (by omega)]
  simp only [hs, hset, hre]
  rw [if_pos (by omega), if_neg (by omega), store_some (by simp; omega), ok_bind, ← hl,
    overwrite, List.take_left, List.length_replicate, List.drop_of_length_le (by simp),
    List.append_nil]
  rfl

/-- Nothing is lost and nothing moves when the array grows. -/
theorem resize_grow (h : l.WF) {n : Nat} (hpos : 0 < l.capacity) (hn : l.capacity < n)
    (hfit : 8 * n < 2 ^ 64) :
    ∃ cells l', l.list = some cells ∧ l.resize n = .ok ([], l') ∧ l'.WF ∧
      l' = ⟨some (cells ++ List.replicate (n - l.capacity) none), l.count, n, l.maxCap,
        l.freeItem⟩ := by
  obtain ⟨cells, hs⟩ := h.exists_cells hpos
  obtain ⟨hl, -, hc⟩ := h.of_some hs
  refine ⟨cells, _, hs, resize_above hs hl hn hfit, .mk_some ?_ (by omega) ?_ hfit, rfl⟩
  · rw [List.length_append, List.length_replicate]
    omega
  · rw [hc, List.reduceOption_append, List.reduceOption_replicate_none, List.append_nil]

/-- The first allocation of the array. -/
theorem resize_null (h : l.WF) {n : Nat} (h0 : l.capacity = 0) (hn : 0 < n)
    (hmax : 0 < l.maxCap) (hfit : 8 * min n l.maxCap < 2 ^ 64) :
    ∃ l', l.resize n = .ok ([], l') ∧ l'.WF ∧
      l' = ⟨some (List.replicate (min n l.maxCap) none), 0, min n l.maxCap, l.maxCap,
        l.freeItem⟩ := by
  have hs := h.null_iff.mpr h0
  obtain ⟨-, hc, -⟩ := h.of_null hs
  have hmin : (if n > l.maxCap then l.maxCap else n) = min n l.maxCap := by
    split <;> omega
  refine ⟨_, ?_, .mk_some (by simp) (by omega) ?_ hfit, rfl⟩
  · rw [resize, if_neg (by omega)]
    simp only [hs, hmin, calloc, if_pos hfit, hc]
  · simp [List.reduceOption_replicate_none]

/-- The first items are packed in front of the new array, and the others are let go. -/
theorem resize_below {cells : List (Option α)} {n : Nat} (hs : l.list = some cells)
    (hc : l.count = cells.reduceOption.length) (hb : 8 * l.capacity < 2 ^ 64) (hn0 : 0 < n)
    (hn : n < l.capacity) :
    l.resize n = .ok (if l.freeItem then cells.reduceOption.drop n else [],
      ⟨some ((cells.reduceOption.take n).map some ++
          List.replicate (n - cells.reduceOption.length) none),
        min l.count n, n, l.maxCap, l.freeItem⟩) := by
  have htake : cells.reduceOption.take (min l.count n) = cells.reduceOption.take n := by
    rw [hc, List.take_eq_take_iff]
    omega
  have hdrop : cells.reduceOption.drop (min l.count n) = cells.reduceOption.drop n := by
    rcases Nat.le_total n l.count with hle | hle
    · rw [Nat.min_eq_right hle]
    · rw [Nat.min_eq_left hle, List.drop_of_length_le (by omega),
        List.drop_of_length_le (by omega)]
  obtain ⟨rest, hk, hrest, -⟩ :=
    Slots.takeEntries_eq (show min l.count n ≤ cells.reduceOption.length by omega)
  rw [htake] at hk
  rw [hdrop] at hrest
  obtain ⟨rest', hd, -, -⟩ :=
    Slots.takeEntries_eq (show l.count - n ≤ rest.reduceOption.length by
      rw [hrest, List.length_drop]
      omega)
  rw [hrest, List.take_of_length_le (by rw [List.length_drop]; omega)] at hd
  have hlen : (cells.reduceOption.take n).length = min n cells.reduceOption.length :=
    List.length_take
  have htaken : 0 + ((cells.reduceOption.take n).map some).length ≤
      (List.replicate n (none : Option α)).length := by
    rw [Nat.zero_add, List.length_map, List.length_replicate, hlen]
    exact Nat.min_le_left _ _
  have hpad : n - (cells.reduceOption.take n).length = n - cells.reduceOption.length := by
    rw [hlen]
    omega
  rw [resize, if_neg (by omega)]
  simp only [hs]
  rw [if_pos hn0, if_pos hn, hk, ok_bind, calloc, if_pos (by omega),
    store_some htaken, overwrite_calloc, ok_bind, hd, ok_bind, hpad]
  rfl

/-- The first items are kept, packed in front, and the others are let go. -/
theorem resize_shrink (h : l.WF) {n : Nat} (hn0 : 0 < n) (hn : n < l.capacity) :
    ∃ l', l.resize n = .ok (if l.freeItem then l.entries.drop n else [], l') ∧ l'.WF ∧
      l'.entries = l.entries.take n ∧ l'.capacity = n ∧ l'.maxCap = l.maxCap ∧
      l'.freeItem = l.freeItem := by
  obtain ⟨cells, hs⟩ := h.exists_cells (by omega)
  obtain ⟨-, -, hc⟩ := h.of_some hs
  have hent : l.entries = cells.reduceOption := by rw [entries, hs, Option.getD_some]
  have hb := h.bytes_lt
  have hlen : (cells.reduceOption.take n).length = min n cells.reduceOption.length :=
    List.length_take
  have hkept : ((cells.reduceOption.take n).map some ++
      List.replicate (n - cells.reduceOption.length) none).reduceOption =
      cells.reduceOption.take n := by
    rw [List.reduceOption_append, Slots.reduceOption_map_some, List.reduceOption_replicate_none,
      List.append_nil]
  refine ⟨_, by rw [resize_below hs hc hb hn0 hn, hent], .mk_some ?_ hn0 ?_ (by omega), ?_, rfl,
    rfl, rfl⟩
  · rw [List.length_append, List.length_map, List.length_replicate, hlen]
    omega
  · rw [hkept, hlen, hc, Nat.min_comm]
  · rw [entries, Option.getD_some, hkept, hent]

theorem resize_same (l : ArrayList α) : l.resize l.capacity = .ok ([], l) := by
  rw [resize, if_pos rfl]

theorem resize_zero (h : l.WF) (hpos : 0 < l.capacity) :
    l.resize 0 = .ok ([], { l with list := none, count := 0, capacity := 0 }) := by
  obtain ⟨cells, hs⟩ := h.exists_cells hpos
  rw [resize, if_neg (by omega)]
  simp [hs]

/-- `ArrayList_shrink` keeps every item. -/
theorem shrink_eq (h : l.WF) :
    ∃ l', l.shrink = .ok ([], l') ∧ l'.WF ∧ l'.entries = l.entries ∧
      l'.maxCap = l.maxCap ∧ l'.freeItem = l.freeItem := by
  have hle := h.count_le
  by_cases heq : l.count = l.capacity
  · exact ⟨l, by rw [shrink, heq, resize_same], h, rfl, rfl, rfl⟩
  · have hlen := h.count_eq
    by_cases h0 : l.count = 0
    · have hnil : l.entries = [] := List.eq_nil_of_length_eq_zero (by omega)
      refine ⟨_, by rw [shrink, h0, resize_zero h (by omega)], .mk_null, ?_, rfl, rfl⟩
      rw [hnil]
      rfl
    · obtain ⟨l', hr, hwf, he, -, hm, hf⟩ :=
        resize_shrink h (show 0 < l.count by omega) (by omega)
      rw [List.drop_of_length_le (by omega)] at hr
      rw [List.take_of_length_le (by omega)] at he
      refine ⟨l', ?_, hwf, he, hm, hf⟩
      rw [shrink, hr]
      split <;> rfl

end resize

/-- The capacity that `ArrayList_expand` asks for. -/
def nextCap (l : ArrayList α) : Nat :=
  if l.capacity = 0 then 1
  else if l.maxCap - l.capacity < l.capacity then l.maxCap else l.capacity * 2

theorem nextCap_bounds (hmax : l.capacity < l.maxCap) :
    l.capacity < l.nextCap ∧ l.nextCap ≤ l.maxCap := by
  unfold nextCap
  split
  · omega
  · split <;> omega

theorem expand_resize (hmax : l.capacity < l.maxCap) :
    l.expand = (do
      let (_, l') ← l.resize l.nextCap
      return l') := by
  rw [expand, nextCap]
  by_cases h0 : l.capacity = 0
  · rw [if_pos h0, if_pos h0]
  · rw [if_neg h0, if_neg h0, if_pos hmax]
    by_cases hhalf : l.maxCap - l.capacity < l.capacity
    · rw [if_pos hhalf, if_pos hhalf]
    · rw [if_neg hhalf, if_neg hhalf]

/-- Expanding adds free slots behind the others. -/
theorem expand_eq (hlen : (l.list.getD []).length = l.capacity) (hmax : l.capacity < l.maxCap)
    (hfit : 8 * l.nextCap < 2 ^ 64) :
    l.expand = .ok ⟨some (l.list.getD [] ++ List.replicate (l.nextCap - l.capacity) none), l.count,
      l.nextCap, l.maxCap, l.freeItem⟩ := by
  have hb := nextCap_bounds hmax
  rw [expand_resize hmax]
  cases hs : l.list with
  | none =>
    have h0 : l.capacity = 0 := by rw [← hlen, hs]; rfl
    have hcut : (if l.nextCap > l.maxCap then l.maxCap else l.nextCap) = l.nextCap :=
      if_neg (by omega)
    rw [resize, if_neg (by omega)]
    simp only [hs, hcut, calloc, if_pos hfit, h0, Nat.sub_zero]
    rfl
  | some cells =>
    rw [hs] at hlen
    rw [resize_above hs hlen hb.1 hfit]
    rfl

theorem CanDouble.nextCap_fits (hfit : l.CanDouble) (hfull : l.count = l.capacity) :
    8 * l.nextCap < 2 ^ 64 := by
  unfold CanDouble at hfit
  unfold nextCap
  split
  · omega
  · split <;> omega

/-- `ArrayList_add` takes the first free slot. -/
theorem add_free {pre post : List (Option α)} (hs : l.list = some (pre ++ none :: post))
    (hpre : none ∉ pre) (hl : (pre ++ none :: post).length = l.capacity)
    (hlt : l.count < l.capacity) (a : α) :
    l.add (some a) = .ok (true, ⟨some (pre ++ some a :: post), sizeAdd l.count 1, l.capacity,
      l.maxCap, l.freeItem⟩) := by
  have hfull : ∀ c ∈ pre, ¬Option.isNone c := by
    intro c hc hcn
    rw [Option.isNone_iff_eq_none] at hcn
    exact hpre (hcn ▸ hc)
  rw [List.length_append, List.length_cons] at hl
  have hfind : l.findSlot (·.isNone) = .ok (some pre.length) := by
    rw [findSlot, hs]
    exact Slots.find_eq_some hfull rfl (by omega)
  rw [add, if_pos hlt, hfind, ok_bind, hs]
  simp only [store_cell rfl, ok_bind]
  rfl

/-- `ArrayList_add` takes the slot behind those there were. -/
theorem add_behind (hlen : (l.list.getD []).length = l.capacity) (hfull : l.count = l.capacity)
    (hmax : l.capacity < l.maxCap) (hfit : 8 * l.nextCap < 2 ^ 64) (a : α) :
    l.add (some a) = .ok (true, ⟨some (l.list.getD [] ++ some a ::
      List.replicate (l.nextCap - l.capacity - 1) none), sizeAdd l.count 1, l.nextCap, l.maxCap,
      l.freeItem⟩) := by
  have hb := nextCap_bounds hmax
  have hsucc : l.nextCap - l.capacity = l.nextCap - l.capacity - 1 + 1 := by omega
  have hcount : l.count = (l.list.getD []).length := by rw [hlen, hfull]
  rw [add, if_neg (by omega), if_neg (by omega), expand_eq hlen hmax hfit, hsucc,
    List.replicate_succ, ok_bind]
  simp only [hcount, store_cell rfl, ok_bind]
  rfl

/-- The first free slot of an array that is not full. -/
theorem exists_free {cells : List (Option α)} (hlt : cells.reduceOption.length < cells.length) :
    ∃ pre post, cells = pre ++ none :: post ∧ none ∉ pre :=
  List.eq_append_cons_of_mem (List.reduceOption_length_lt_iff.mp hlt)

/-- `ArrayList_add` where a slot is free. -/
theorem add_room (h : l.WF) (a : α) (hlt : l.count < l.capacity) :
    ∃ l' pre post, l.add (some a) = .ok (true, l') ∧ l'.WF ∧ l.entries = pre ++ post ∧
      l'.entries = pre ++ a :: post ∧ l'.maxCap = l.maxCap ∧ l'.freeItem = l.freeItem ∧
      l'.capacity = l.capacity := by
  have hb := h.bytes_lt
  obtain ⟨cells, hs⟩ := h.exists_cells (by omega)
  obtain ⟨hl, hpos, hc⟩ := h.of_some hs
  obtain ⟨pre, post, rfl, hpre⟩ := exists_free (show cells.reduceOption.length < _ by omega)
  have he : l.entries = pre.reduceOption ++ post.reduceOption := by
    rw [entries, hs, Option.getD_some, List.reduceOption_append, List.reduceOption_cons_of_none]
  have he' : (pre ++ some a :: post).reduceOption =
      pre.reduceOption ++ a :: post.reduceOption := by
    rw [List.reduceOption_append, List.reduceOption_cons_of_some]
  refine ⟨_, pre.reduceOption, post.reduceOption, add_free hs hpre hl hlt a,
    .mk_some ?_ hpos ?_ hb, he, he', rfl, rfl, rfl⟩
  · rw [← hl, List.length_append, List.length_append, List.length_cons, List.length_cons]
  · rw [sizeAdd_eq (by omega), h.count_eq, he, he', List.length_append, List.length_append,
      List.length_cons, Nat.add_assoc]

/-- `ArrayList_add` where the array has to grow. -/
theorem add_full (h : l.WF) (a : α) (hfull : l.count = l.capacity) (hmax : l.capacity < l.maxCap)
    (hfit : 8 * l.nextCap < 2 ^ 64) :
    ∃ l', l.add (some a) = .ok (true, l') ∧ l'.WF ∧ l'.entries = l.entries ++ [a] ∧
      l'.maxCap = l.maxCap ∧ l'.freeItem = l.freeItem ∧ l'.capacity = l.nextCap := by
  have hb := nextCap_bounds hmax
  have hent : (l.list.getD [] ++ some a ::
      List.replicate (l.nextCap - l.capacity - 1) none).reduceOption = l.entries ++ [a] := by
    rw [List.reduceOption_append, List.reduceOption_cons_of_some,
      List.reduceOption_replicate_none]
    rfl
  refine ⟨_, add_behind h.length_eq hfull hmax hfit a, .mk_some ?_ (by omega) ?_ hfit, hent, rfl,
    rfl, rfl⟩
  · rw [List.length_append, List.length_cons, List.length_replicate, h.length_eq]
    omega
  · rw [hent, sizeAdd_eq (by omega), h.count_eq, List.length_append]
    rfl

/-- `ArrayList_add` on a list that is not at its maximum. -/
theorem add_eq (h : l.WF) (a : α) (hmax : l.capacity < l.maxCap) (hfit : l.CanDouble) :
    ∃ l' pre post, l.add (some a) = .ok (true, l') ∧ l'.WF ∧ l.entries = pre ++ post ∧
      l'.entries = pre ++ a :: post ∧ l'.maxCap = l.maxCap ∧ l'.freeItem = l.freeItem ∧
      l'.capacity ≤ l'.maxCap := by
  have hle := h.count_le
  by_cases hlt : l.count < l.capacity
  · obtain ⟨l', pre, post, hr, hwf, he, he', hm, hf, hcap⟩ := add_room h a hlt
    exact ⟨l', pre, post, hr, hwf, he, he', hm, hf, by omega⟩
  · have hfull : l.count = l.capacity := by omega
    have hb := nextCap_bounds hmax
    obtain ⟨l', hr, hwf, he, hm, hf, hcap⟩ := add_full h a hfull hmax (hfit.nextCap_fits hfull)
    exact ⟨l', l.entries, [], hr, hwf, (List.append_nil _).symm, he, hm, hf, by omega⟩

/-- `ArrayList_find_item_by_value` relies on the count of the items only. -/
theorem findItemByValue_counted (h : l.count = l.entries.length) (p : α → Bool) :
    (∀ a ∈ l.entries, ¬ p a) ∧ l.findItemByValue p = .ok none ∨
      ∃ pre a post, l.list = some (pre ++ some a :: post) ∧ p a ∧
        l.findItemByValue p = .ok (some (pre.length, a)) := by
  cases hs : l.list with
  | none =>
    have he : l.entries = [] := by rw [entries, hs]; rfl
    rw [he, List.length_nil] at h
    exact .inl ⟨by simp [he], by simp [findItemByValue, hs, h]⟩
  | some cells =>
    have he : l.entries = cells.reduceOption := by rw [entries, hs, Option.getD_some]
    have hc : l.count = cells.reduceOption.length := by rw [h, he]
    by_cases hp : ∀ a ∈ cells.reduceOption, ¬ p a
    · refine .inl ⟨he ▸ hp, ?_⟩
      simp only [findItemByValue, hs]
      exact Slots.findEntry_eq_none (by omega) hp
    · -- split the array at the first slot whose item matches
      obtain ⟨a, ha, hpa⟩ : ∃ a ∈ cells.reduceOption, p a := by simpa using hp
      have hfind : (cells.find? fun c => c.any p).isSome := by
        rw [List.find?_isSome]
        exact ⟨some a, List.reduceOption_mem_iff.mp ha, hpa⟩
      obtain ⟨c, hc'⟩ := Option.isSome_iff_exists.mp hfind
      obtain ⟨hany, pre, post, rfl, hpre⟩ := List.find?_eq_some_iff_append.mp hc'
      cases c with
      | none => cases hany
      | some b =>
        refine .inr ⟨pre, b, post, rfl, hany, ?_⟩
        simp only [findItemByValue, hs]
        apply Slots.findEntry_eq_some (show p b from hany)
        · intro x hx
          simpa using hpre (some x) (List.reduceOption_mem_iff.mp hx)
        · rw [hc, List.reduceOption_append, List.reduceOption_cons_of_some]
          simp

/-- `ArrayList_find_item_by_value` misses no item and returns the first that matches. -/
theorem findItemByValue_spec (h : l.WF) (p : α → Bool) :
    (∀ a ∈ l.entries, ¬ p a) ∧ l.findItemByValue p = .ok none ∨
      ∃ pre a post, l.list = some (pre ++ some a :: post) ∧ p a ∧
        l.findItemByValue p = .ok (some (pre.length, a)) :=
  findItemByValue_counted h.count_eq p

/-- A walk leaves the array, clears what it removes, and keeps the rest. -/
theorem visit_eq (h : l.WF) (body : α → List β × Bool) :
    ∃ l', l.visit body = .ok ((l.entries.take
        (Slots.reach (fun a => (body a).2) l.entries l.entries.length)).flatMap
          fun a => (body a).1, l') ∧ l'.WF ∧
      l'.entries = (l.entries.take
        (Slots.reach (fun a => (body a).2) l.entries l.entries.length)).filter
          (fun a => !(body a).2) ++
        l.entries.drop (Slots.reach (fun a => (body a).2) l.entries l.entries.length) ∧
      l'.maxCap = l.maxCap ∧ l'.freeItem = l.freeItem := by
  cases hs : l.list with
  | none =>
    obtain ⟨-, hc, he⟩ := h.of_null hs
    exact ⟨l, by simp [visit, hs, hc, he], h, by simp [he], rfl, rfl⟩
  | some cells =>
    obtain ⟨hl, hpos, hc⟩ := h.of_some hs
    have he : l.entries = cells.reduceOption := by rw [entries, hs, Option.getD_some]
    obtain ⟨cells', hv, hl', hr⟩ := Slots.visit_eq body cells 0 l.count (by omega)
    rw [Nat.sub_zero, hc] at hv hr
    rw [he]
    refine ⟨_, by simp only [visit, hs, hc, hv, ok_bind]; rfl,
      .mk_some (hl'.trans hl) hpos ?_ h.bytes_lt, hr, rfl, rfl⟩
    rw [hr]
    exact Slots.length_left _ (Slots.reach_le_length _ _ _)

theorem visit_capacity {body : α → List β × Bool} {events : List β} {l' : ArrayList α}
    (h : l.visit body = .ok (events, l')) : l'.capacity = l.capacity := by
  rw [visit] at h
  split at h
  · split at h
    · cases h
      rfl
    · cases h
  · obtain ⟨r, -, hr⟩ := bind_eq_ok.mp h
    cases hr
    rfl

/-- A walk never faults. -/
theorem visit_keeps (h : l.WF) (hcap : l.capacity ≤ l.maxCap) (body : α → List β × Bool) :
    ∃ events l', l.visit body = .ok (events, l') ∧ l'.WF ∧ l'.capacity ≤ l'.maxCap := by
  obtain ⟨l', hv, hwf, -, hmax, -⟩ := visit_eq h body
  exact ⟨_, l', hv, hwf, by rw [visit_capacity hv, hmax]; exact hcap⟩

/-- A walk that brings about all it should and removes all it should: no entry that matters
was left out. -/
theorem visit_complete_iff (h : l.WF) (body : α → List β × Bool) :
    (∃ events l', l.visit body = .ok (events, l') ∧
        events.Perm (l.entries.flatMap fun a => (body a).1) ∧
        l'.entries.Perm (l.entries.filter fun a => !(body a).2)) ↔
      ∀ pre a post, l.entries = pre ++ a :: post → (body a).1 ≠ [] ∨ (body a).2 = true →
        pre.countP (fun a => (body a).2) ≤ post.length := by
  obtain ⟨l', hv, -, he, -, -⟩ := visit_eq h body
  rw [← Slots.reach_all_iff (P := fun a => (body a).1 ≠ [] ∨ (body a).2 = true)]
  rw [← Slots.handled_all_iff, List.take_append_drop, ← he]
  constructor
  · rintro ⟨events, l₁, hv', hp, hq⟩
    rw [hv] at hv'
    cases hv'
    exact ⟨hp, hq⟩
  · intro hpq
    exact ⟨_, l', hv, hpq⟩

end AlibC.ArrayList
