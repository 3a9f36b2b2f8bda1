import AlibC.ArrayListInvariant
import Mathlib.Data.List.Induction

/-! Removing, clearing and sifting: the operations that work in place. -/
namespace AlibC.ArrayList

open CLang
variable {α : Type} {l : ArrayList α}

/-- The first slot that holds an item, if there is one. -/
theorem findSlot_item [DecidableEq α] (h : l.WF) (a : α) :
    a ∉ l.entries ∧ l.findSlot (· = some a) = .ok none ∨
      ∃ pre post, l.list = some (pre ++ some a :: post) ∧
        l.findSlot (· = some a) = .ok (some pre.length) := by
  cases hs : l.list with
  | none =>
    left
    rw [(h.of_null hs).2.2, findSlot, hs]
    exact ⟨List.not_mem_nil, if_pos (h.null_iff.mp hs)⟩
  | some cells =>
    obtain ⟨hl, -, -⟩ := h.of_some hs
    by_cases hm : some a ∈ cells
    · obtain ⟨pre, post, rfl, hpre⟩ := List.eq_append_cons_of_mem hm
      refine .inr ⟨pre, post, rfl, ?_⟩
      rw [findSlot, hs]
      apply Slots.find_eq_some
      · intro c hc he
        exact hpre (of_decide_eq_true he ▸ hc)
      · exact decide_eq_true rfl
      · rw [← hl, List.length_append, List.length_cons]
        omega
    · left
      rw [entries, findSlot, hs]
      refine ⟨fun ha => hm (List.reduceOption_mem_iff.mp ha), Slots.find_eq_none (Nat.le_of_eq hl.symm) ?_⟩
      intro c hc he
      exact hm (of_decide_eq_true he ▸ List.mem_of_mem_take hc)

/-- A slot that holds an item is emptied. -/
theorem removeByPtrNoFree_eq (h : l.WF) {pre post : List (Option α)} {a : α}
    (hs : l.list = some (pre ++ some a :: post)) :
    l.removeByPtrNoFree pre.length =
        .ok ⟨some (pre ++ none :: post), l.count - 1, l.capacity, l.maxCap, l.freeItem⟩ ∧
      WF ⟨some (pre ++ none :: post), l.count - 1, l.capacity, l.maxCap, l.freeItem⟩ := by
  obtain ⟨hl, hpos, hc⟩ := h.of_some hs
  have hb := h.bytes_lt
  rw [List.reduceOption_append, List.reduceOption_cons_of_some, List.length_append,
    List.length_cons] at hc
  have hle := h.count_le
  refine ⟨?_, .mk_some (by simpa using hl) hpos ?_ hb⟩
  · rw [removeByPtrNoFree, hs, store_cell rfl, ok_bind, sizeSub_eq (by omega) (by omega)]
    rfl
  · rw [List.reduceOption_append, List.reduceOption_cons_of_none, List.length_append]
    omega

theorem removeNoFree_eq [DecidableEq α] (h : l.WF) (item : Option α) :
    ∃ l', l.removeNoFree item = .ok l' ∧ l'.WF ∧ l'.capacity = l.capacity ∧
      l'.maxCap = l.maxCap := by
  cases item with
  | none => exact ⟨l, rfl, h, rfl, rfl⟩
  | some a =>
    rcases findSlot_item h a with ⟨-, hnone⟩ | ⟨pre, post, hs, hf⟩
    · exact ⟨l, by rw [removeNoFree, hnone]; rfl, h, rfl, rfl⟩
    · obtain ⟨hr, hwf⟩ := removeByPtrNoFree_eq h hs
      refine ⟨_, ?_, hwf, rfl, rfl⟩
      rw [removeNoFree, hf]
      exact hr

/-- An item that is in the list leaves it, and the others stay in order. -/
theorem remove_item [DecidableEq α] (h : l.WF) (a : α) :
    a ∉ l.entries ∧ l.remove (some a) = .ok ([], l) ∨
      ∃ l' pre post, l.remove (some a) = .ok (if l.freeItem then [a] else [], l') ∧ l'.WF ∧
        l.entries = pre ++ a :: post ∧ l'.entries = pre ++ post ∧ l'.capacity = l.capacity ∧
        l'.maxCap = l.maxCap ∧ l'.freeItem = l.freeItem := by
  rcases findSlot_item h a with ⟨ha, hnone⟩ | ⟨pre, post, hs, hf⟩
  · exact .inl ⟨ha, by rw [remove, hnone]; rfl⟩
  · obtain ⟨hr, hwf⟩ := removeByPtrNoFree_eq h hs
    have hload : load l.list pre.length 1 = .ok [some a] := by
      rw [hs, load_some (by simp), List.drop_left]
      rfl
    refine .inr ⟨_, pre.reduceOption, post.reduceOption, ?_, hwf, ?_, ?_, rfl, rfl, rfl⟩
    · rw [remove, hf, ok_bind]
      dsimp only
      rw [removeByPtr, hload, ok_bind, hr]
      rfl
    · rw [entries, hs, Option.getD_some, List.reduceOption_append, List.reduceOption_cons_of_some]
    · rw [entries, Option.getD_some, List.reduceOption_append, List.reduceOption_cons_of_none]

/-- The item found is one of the list. -/
theorem findItemByValue_entry (h : l.WF) (p : α → Bool) :
    (∀ a ∈ l.entries, ¬ p a) ∧ l.findItemByValue p = .ok none ∨
      ∃ i a, a ∈ l.entries ∧ p a ∧ l.findItemByValue p = .ok (some (i, a)) := by
  refine (findItemByValue_spec h p).imp id ?_
  rintro ⟨pre, a, post, hs, hp, hr⟩
  refine ⟨_, a, ?_, hp, hr⟩
  rw [entries, hs]
  exact List.reduceOption_mem_iff.mpr (by simp)

theorem remove_eq [DecidableEq α] (h : l.WF) (item : Option α) :
    ∃ dropped l', l.remove item = .ok (dropped, l') ∧ l'.WF ∧ l'.capacity = l.capacity ∧
      l'.maxCap = l.maxCap := by
  cases item with
  | none => exact ⟨[], l, rfl, h, rfl, rfl⟩
  | some a =>
    rcases remove_item h a with ⟨-, hr⟩ | ⟨l', -, -, hr, hwf, -, -, hcap, hmax, -⟩
    · exact ⟨[], l, hr, h, rfl, rfl⟩
    · exact ⟨_, l', hr, hwf, hcap, hmax⟩

/-- The items that are let go are those of the list, in order. -/
theorem clear_items (h : l.WF) :
    ∃ l', l.clear = .ok (if l.freeItem then l.entries else [], l') ∧ l'.WF ∧ l'.entries = [] ∧
      l'.count = 0 ∧ l'.capacity = l.capacity ∧ l'.maxCap = l.maxCap ∧ l'.freeItem = l.freeItem := by
  cases hs : l.list with
  | none =>
    have hc := (h.of_null hs).2.1
    have hentries : l.entries = [] := by rw [entries, hs]; rfl
    refine ⟨l, ?_, h, hentries, hc, rfl, rfl, rfl⟩
    rw [clear, hs, hentries]
    simp [hc]
  | some cells =>
    obtain ⟨hl, hpos, hc⟩ := h.of_some hs
    obtain ⟨rest, ht, hrest, hle⟩ := Slots.takeEntries_eq (Nat.le_of_eq hc)
    have hnone : rest.reduceOption = [] := by
      rw [hrest, List.drop_of_length_le (Nat.le_of_eq hc.symm)]
    have hempty : (List.replicate (cells.length - rest.length) none ++ rest).reduceOption = [] := by
      rw [List.reduceOption_append, List.reduceOption_replicate_none, hnone, List.nil_append]
    refine ⟨⟨some (List.replicate (cells.length - rest.length) none ++ rest), 0, l.capacity, l.maxCap,
        l.freeItem⟩, ?_, .mk_some ?_ hpos ?_ h.bytes_lt, hempty, rfl, rfl, rfl, rfl⟩
    · have hall : cells.reduceOption.take l.count = l.entries := by
        rw [entries, hs, Option.getD_some, List.take_of_length_le (Nat.le_of_eq hc.symm)]
      simp only [clear, hs, ht, ok_bind, hall]
      rfl
    · rw [List.length_append, List.length_replicate, ← hl]
      omega
    · rw [hempty]
      rfl

/-- All items are let go and the slots stay. -/
theorem clear_eq (h : l.WF) :
    ∃ dropped l', l.clear = .ok (dropped, l') ∧ l'.WF ∧ l'.capacity = l.capacity ∧
      l'.maxCap = l.maxCap := by
  obtain ⟨l', hr, hwf, -, -, hcap, hmax, -⟩ := clear_items h
  exact ⟨_, l', hr, hwf, hcap, hmax⟩

section Sift

variable {cells : List (Option α)}

theorem load_cell {pre post : List (Option α)} {c : Option α} (hs : cells = pre ++ c :: post) :
    load (some cells) pre.length 1 = .ok [c] := by
  rw [hs, load_some (by simp), List.drop_left]
  rfl

theorem siftEnd_self (i : Nat) : siftEnd cells i i = .ok i := by
  cases i with
  | zero => rw [siftEnd, if_pos rfl]
  | succ i => rw [siftEnd, if_pos rfl]

theorem siftEnd_item {pre post : List (Option α)} {x : α} {i : Nat} (hi : i < pre.length)
    (hs : cells = pre ++ some x :: post) : siftEnd cells i pre.length = .ok pre.length := by
  obtain ⟨k, hk⟩ : ∃ k, pre.length = k + 1 := ⟨pre.length - 1, by omega⟩
  have hload := load_cell hs
  rw [hk] at hload
  rw [hk, siftEnd, if_neg (by omega), hload]
  rfl

/-- The search comes down over free slots. -/
theorem siftEnd_skip {pre : List (Option α)} {c : Option α} {i : Nat} (hi : i ≤ pre.length)
    {b : List (Option α)} : ∀ {post : List (Option α)}, cells = pre ++ c :: (b ++ post) →
      b.reduceOption = [] →
      siftEnd cells i (pre.length + b.length) = siftEnd cells i pre.length := by
  induction b using List.reverseRecOn with
  | nil => intro post _ _; rfl
  | append_singleton b d ih =>
    intro post hs hb
    rw [List.reduceOption_append, List.append_eq_nil_iff] at hb
    have hd : d = none := by
      cases d with
      | none => rfl
      | some y => exact absurd hb.2 (by simp)
    subst hd
    have hsplit : cells = (pre ++ c :: b) ++ none :: post := by
      rw [hs]
      simp
    have hload := load_cell hsplit
    have hlen : (pre ++ c :: b).length = pre.length + b.length + 1 := by
      rw [List.length_append, List.length_cons]
      omega
    rw [hlen] at hload
    rw [List.length_append, List.length_singleton, ← Nat.add_assoc, siftEnd, if_neg (by omega),
      hload, ok_bind]
    exact @ih (none :: post) (by rw [hs]; simp) hb.1

theorem exists_last_item {mid : List (Option α)} (h : mid.reduceOption ≠ []) :
    ∃ a x b, mid = a ++ some x :: b ∧ b.reduceOption = [] := by
  induction mid with
  | nil => exact absurd rfl h
  | cons c mid ih =>
    by_cases hm : mid.reduceOption = []
    · cases c with
      | none => exact absurd hm h
      | some x => exact ⟨[], x, mid, rfl, hm⟩
    · obtain ⟨a, x, b, rfl, hb⟩ := ih hm
      exact ⟨c :: a, x, b, rfl, hb⟩

/-- A round at an item. -/
theorem siftLoop_pass {pre post : List (Option α)} {x : α} (hs : cells = pre ++ some x :: post)
    (j n : Nat) : siftLoop cells pre.length j (n + 1) = siftLoop cells (pre.length + 1) j n := by
  rw [siftLoop, load_cell hs, ok_bind, if_neg (by simp)]

/-- A round at a free slot behind which no item is left. -/
theorem siftLoop_stuck {pre mid post : List (Option α)} (hs : cells = pre ++ none :: (mid ++ post))
    (hm : mid.reduceOption = []) (n : Nat) :
    siftLoop cells pre.length (pre.length + mid.length) (n + 1) = .ok (some pre.length, cells) := by
  rw [siftLoop, load_cell hs, ok_bind, if_pos (by simp), siftEnd_skip (Nat.le_refl _) hs hm,
    siftEnd_self, ok_bind, if_pos rfl, pure_ok]

/-- A round at a free slot: the last item is moved there, and its own slot is free then. -/
theorem siftLoop_move {pre a b post : List (Option α)} {x : α} (n : Nat)
    (hs : cells = pre ++ (none :: a ++ some x :: b) ++ post) (hb : b.reduceOption = []) :
    siftLoop cells pre.length (pre.length + (none :: a ++ some x :: b).length - 1) (n + 1) =
      siftLoop (pre ++ some x :: (a ++ none :: b) ++ post) (pre.length + 1)
        (pre.length + 1 + a.length) n := by
  have hfirst : cells = pre ++ none :: (a ++ some x :: (b ++ post)) := by rw [hs]; simp
  have hlast : cells = (pre ++ none :: a) ++ some x :: (b ++ post) := by rw [hs]; simp
  have hj : (pre ++ none :: a).length = pre.length + 1 + a.length := by
    rw [List.length_append, List.length_cons]
    omega
  have hend : siftEnd cells pre.length (pre.length + (none :: a ++ some x :: b).length - 1) =
      .ok (pre ++ none :: a).length := by
    have hlen : pre.length + (none :: a ++ some x :: b).length - 1 =
        (pre ++ none :: a).length + b.length := by
      simp only [List.length_append, List.length_cons]
      omega
    rw [hlen, siftEnd_skip (by omega) hlast hb, siftEnd_item (by omega) hlast]
  have hfilled : overwrite cells pre.length [some x] =
      (pre ++ some x :: a) ++ some x :: (b ++ post) := by
    rw [overwrite_cell hfirst]
    simp
  have hmoved : overwrite (overwrite cells pre.length [some x]) (pre ++ none :: a).length
      [none] = pre ++ some x :: (a ++ none :: b) ++ post := by
    have hk : (pre ++ none :: a).length = (pre ++ some x :: a).length := by simp
    rw [hk, overwrite_cell hfilled]
    simp
  rw [siftLoop, load_cell hfirst, ok_bind, if_pos (by simp), hend, ok_bind, if_neg (by omega),
    load_cell hlast, ok_bind, hmoved, hj]

/-- Of the part `mid` behind the first `k` items, `n` items have come to them. When there are fewer, all
items are in front and that is told. -/
structure Sifted (cells mid : List (Option α)) (k n : Nat) (r : Option Nat) (items : List α)
    (rest : List (Option α)) : Prop where
  length_eq : (items.map some ++ rest).length = cells.length
  perm : (items ++ rest.reduceOption).Perm cells.reduceOption
  enough : n ≤ mid.reduceOption.length → r = none ∧ items.length = k + n
  tooFew : mid.reduceOption.length < n → r = some items.length ∧ rest.reduceOption = []

theorem Sifted.pass {mid : List (Option α)} {k n : Nat} {r : Option Nat} {items : List α}
    {rest : List (Option α)} (h : Sifted cells mid (k + 1) n r items rest) (x : α) :
    Sifted cells (some x :: mid) k (n + 1) r items rest := by
  have hlen : (some x :: mid).reduceOption.length = mid.reduceOption.length + 1 := by
    rw [List.reduceOption_cons_of_some, List.length_cons]
  refine ⟨h.length_eq, h.perm, fun hn => ?_, fun hn => h.tooFew (by omega)⟩
  obtain ⟨hr, hlen'⟩ := h.enough (by omega)
  exact ⟨hr, by omega⟩

/-- An item was taken from its slot, and no other is behind it. -/
theorem Sifted.move {pre a b post : List (Option α)} {x : α} {k n : Nat} {r : Option Nat}
    {items : List α} {rest : List (Option α)}
    (h : Sifted (pre ++ some x :: (a ++ none :: b) ++ post) (a ++ [none]) (k + 1) n r items rest)
    (hb : b.reduceOption = []) :
    Sifted (pre ++ (none :: a ++ some x :: b) ++ post) (none :: a ++ some x :: b) k (n + 1) r items
      rest := by
  have hcount : (none :: a ++ some x :: b).reduceOption.length =
      (a ++ [none]).reduceOption.length + 1 := by
    simp only [List.reduceOption_append, List.reduceOption_cons_of_some,
      List.reduceOption_cons_of_none, List.reduceOption_nil, List.length_append, List.length_cons,
      List.length_nil, hb]
  refine ⟨h.length_eq.trans ?_, h.perm.trans ?_, fun hn => ?_, fun hn => h.tooFew (by omega)⟩
  · simp only [List.length_append, List.length_cons]
    omega
  · simp only [List.reduceOption_append, List.reduceOption_cons_of_some,
      List.reduceOption_cons_of_none, List.append_assoc, List.cons_append]
    exact List.perm_middle.symm.append_left _
  · obtain ⟨hr, hlen⟩ := h.enough (by omega)
    exact ⟨hr, by omega⟩

/-- With `mid` the part from `array_it` to `array_end_it` and no item behind it, the loop moves
the items of `mid` to its front until `n` are there. -/
theorem siftLoop_eq : ∀ (n : Nat) {cells mid post : List (Option α)} {items : List α},
    cells = items.map some ++ mid ++ post → post.reduceOption = [] →
    (n ≤ mid.length ∨ none ∈ mid) →
    ∃ r items' rest, siftLoop cells items.length (items.length + mid.length - 1) n =
        .ok (r, items'.map some ++ rest) ∧
      Sifted cells mid items.length n r items' rest := by
  intro n
  induction n with
  | zero =>
    intro cells mid post items hs _ _
    refine ⟨none, items, mid ++ post, ?_, ?_, ?_, fun _ => ⟨rfl, rfl⟩, fun h => nomatch h⟩
    · rw [siftLoop, hs, List.append_assoc]
    · rw [hs, List.append_assoc]
    · rw [hs, List.append_assoc, List.reduceOption_append (items.map some), Slots.reduceOption_map_some]
  | succ n ih =>
    intro cells mid post items hs hpost hroom
    have hlen : (items.map some).length = items.length := List.length_map _
    cases mid with
    | nil => rcases hroom with hle | hmem <;> simp at *
    | cons c mid =>
      have hlast : items.length + (c :: mid).length - 1 = items.length + mid.length := by
        rw [List.length_cons]
        omega
      have hsplit : cells = items.map some ++ c :: (mid ++ post) := by rw [hs]; simp
      cases c with
      | some x =>
        have hpass := siftLoop_pass hsplit (items.length + mid.length) n
        obtain ⟨r, items', rest, hr, hsifted⟩ := @ih cells mid post (items ++ [x])
          (by rw [hs]; simp) hpost (by simpa using hroom)
        rw [List.length_append, List.length_singleton] at hr hsifted
        rw [hlen] at hpass
        have hj : items.length + mid.length = items.length + 1 + mid.length - 1 := by omega
        exact ⟨r, items', rest, by rw [hlast, hpass, hj, hr], hsifted.pass x⟩
      | none =>
        by_cases hm : mid.reduceOption = []
        · have hstuck := siftLoop_stuck hsplit hm n
          rw [hlen] at hstuck
          refine ⟨some items.length, items, none :: (mid ++ post), ?_, by rw [hsplit], ?_,
            fun hn => ?_, fun _ => ⟨rfl, ?_⟩⟩
          · rw [hlast, hstuck, ← hsplit]
          · rw [hsplit, List.reduceOption_append, Slots.reduceOption_map_some]
          · rw [List.reduceOption_cons_of_none, hm] at hn
            exact absurd hn (Nat.not_succ_le_zero n)
          · rw [List.reduceOption_cons_of_none, List.reduceOption_append, hm, hpost]
            rfl
        · obtain ⟨a, x, b, rfl, hb⟩ := exists_last_item hm
          have hmove := @siftLoop_move _ cells (items.map some) a b post x n (by rw [hs]; simp) hb
          obtain ⟨r, items', rest, hr, hsifted⟩ :=
            @ih (items.map some ++ some x :: (a ++ none :: b) ++ post) (a ++ [none]) (b ++ post)
              (items ++ [x]) (by simp) (by rw [List.reduceOption_append, hb, hpost]; rfl)
              (.inr (by simp))
          have hj : items.length + 1 + a.length = items.length + 1 + (a ++ [none]).length - 1 := by
            rw [List.length_append, List.length_singleton]
            omega
          rw [List.length_append, List.length_singleton] at hr hsifted
          rw [hlen, hj, hr] at hmove
          rw [hs] at hmove ⊢
          exact ⟨r, items', rest, hmove, hsifted.move hb⟩

/-- `ArrayList_sift` for any count up to the number of slots: so many items are in front then, or
all there are, and the count is told to be wrong. -/
theorem sift_some (hs : l.list = some cells) (hl : cells.length = l.capacity)
    (h0 : l.count ≠ 0) (hle : l.count ≤ l.capacity) :
    ∃ items rest, (items.map some ++ rest).length = cells.length ∧
      (items ++ rest.reduceOption).Perm cells.reduceOption ∧
      (l.count ≤ cells.reduceOption.length ∧ items.length = l.count ∧
          l.sift = .ok (.ok, { l with list := some (items.map some ++ rest) }) ∨
        cells.reduceOption.length < l.count ∧ rest.reduceOption = [] ∧
          l.sift = .ok (.objCorruption,
            { l with list := some (items.map some ++ rest), count := items.length })) := by
  obtain ⟨r, items, rest, hr, hlen, hp, hok, hbad⟩ :=
    @siftLoop_eq α l.count cells cells [] [] (by simp) rfl (.inl (by omega))
  rw [List.length_nil, Nat.zero_add, hl] at hr
  refine ⟨items, rest, hlen, hp, ?_⟩
  rw [sift, if_neg h0, hs, deref_some, ok_bind, hr]
  by_cases hn : l.count ≤ cells.reduceOption.length
  · obtain ⟨rfl, hi⟩ := hok hn
    exact .inl ⟨hn, by rw [hi, List.length_nil, Nat.zero_add], rfl⟩
  · obtain ⟨rfl, hrest⟩ := hbad (Nat.lt_of_not_le hn)
    exact .inr ⟨Nat.lt_of_not_le hn, hrest, rfl⟩

/-- Sifting finds the count right and changes neither it nor the number of slots. -/
theorem sift_eq (h : l.WF) :
    ∃ l', l.sift = .ok (.ok, l') ∧ l'.WF ∧ l'.capacity = l.capacity ∧ l'.maxCap = l.maxCap := by
  by_cases h0 : l.count = 0
  · exact ⟨l, by rw [sift, if_pos h0], h, rfl, rfl⟩
  · obtain ⟨cells, hs⟩ := h.exists_cells (Nat.lt_of_lt_of_le (Nat.pos_of_ne_zero h0) h.count_le)
    obtain ⟨hl, hpos, hc⟩ := h.of_some hs
    obtain ⟨items, rest, hlen, hp, ⟨-, -, hr⟩ | ⟨hlt, -, -⟩⟩ := sift_some hs hl h0 h.count_le
    · refine ⟨_, hr, .mk_some (hlen.trans hl) hpos ?_ h.bytes_lt, rfl, rfl⟩
      rw [hc, List.reduceOption_append, Slots.reduceOption_map_some, hp.length_eq]
    · omega

/-- Sifting packs the items in front, loses none of them, and tells whether the count was more than
there are. -/
theorem sift_packs (hlen : (l.list.getD []).length = l.capacity) (hcount : l.count ≤ l.capacity) :
    ∃ error l', l.sift = .ok (error, l') ∧ (l'.list.getD []).length = l.capacity ∧
      l'.capacity = l.capacity ∧ l'.maxCap = l.maxCap ∧ l'.freeItem = l.freeItem ∧
      l'.entries.Perm l.entries ∧
      (l.count ≤ l.entries.length → error = .ok ∧ l'.count = l.count ∧
        none ∉ (l'.list.getD []).take l.count) ∧
      (l.entries.length < l.count → error = .objCorruption ∧ l'.count = l.entries.length ∧
        l'.list.getD [] = l'.entries.map some ++
          List.replicate (l.capacity - l.entries.length) none) := by
  by_cases h0 : l.count = 0
  · refine ⟨.ok, l, by rw [sift, if_pos h0], hlen, rfl, rfl, rfl, .refl _, fun _ => ⟨rfl, rfl, ?_⟩,
      fun hlt => absurd hlt (by omega)⟩
    rw [h0, List.take_zero]
    exact List.not_mem_nil
  · obtain ⟨cells, hs⟩ : ∃ cells, l.list = some cells := by
      cases hs : l.list with
      | none =>
        rw [hs, Option.getD_none, List.length_nil] at hlen
        omega
      | some cells => exact ⟨cells, rfl⟩
    rw [hs, Option.getD_some] at hlen
    have hent : l.entries = cells.reduceOption := by rw [entries, hs, Option.getD_some]
    obtain ⟨items, rest, hl, hp, hcase⟩ := sift_some hs hlen h0 hcount
    rw [← hent] at hp hcase
    have hent' : (items.map some ++ rest).reduceOption = items ++ rest.reduceOption := by
      rw [List.reduceOption_append, Slots.reduceOption_map_some]
    rcases hcase with ⟨hle, hi, hr⟩ | ⟨hlt, hrest, hr⟩
    · refine ⟨_, _, hr, hl.trans hlen, rfl, rfl, rfl, ?_, fun _ => ⟨rfl, rfl, ?_⟩,
        fun hlt => absurd hlt (by omega)⟩
      · rw [entries, Option.getD_some, hent']
        exact hp
      · rw [Option.getD_some, List.take_left' (by rw [List.length_map, hi])]
        simp
    · rw [hrest, List.append_nil] at hp
      have hnone : rest = List.replicate (l.capacity - l.entries.length) none := by
        have hlen' : rest.length = l.capacity - l.entries.length := by
          rw [List.length_append, List.length_map, hp.length_eq] at hl
          omega
        rw [← hlen']
        exact List.eq_replicate_of_mem fun c hc => by
          cases c with
          | none => rfl
          | some x =>
            rw [← List.reduceOption_mem_iff, hrest] at hc
            cases hc
      refine ⟨_, _, hr, hl.trans hlen, rfl, rfl, rfl, ?_, fun hle => absurd hle (by omega),
        fun _ => ⟨rfl, hp.length_eq, ?_⟩⟩
      · rw [entries, Option.getD_some, hent', hrest, List.append_nil]
        exact hp
      · rw [entries, Option.getD_some, hent', hrest, List.append_nil, ← hnone]

theorem sift_packs_holes :
    let l : ArrayList Nat := ⟨some [none, some 7, none, some 8], 3, 4, 4, false⟩
    ∃ error l', l.sift = .ok (error, l') ∧ (l'.list.getD []).length = l.capacity ∧
      l'.capacity = l.capacity ∧ l'.maxCap = l.maxCap ∧ l'.freeItem = l.freeItem ∧
      l'.entries.Perm l.entries ∧
      (l.count ≤ l.entries.length → error = .ok ∧ l'.count = l.count ∧
        none ∉ (l'.list.getD []).take l.count) ∧
      (l.entries.length < l.count → error = .objCorruption ∧ l'.count = l.entries.length ∧
        l'.list.getD [] = l'.entries.map some ++
          List.replicate (l.capacity - l.entries.length) none) :=
  sift_packs rfl (by decide)

end Sift

end AlibC.ArrayList
