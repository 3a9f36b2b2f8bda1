import AlibC.Lib.SizeT
import AlibC.Lib.Outcome
import Mathlib.Data.List.Basic

/-! Allocated blocks. A pointer to a block is `none` when it is `NULL`; every access
is checked against the length the block was allocated with. -/
namespace CLang

variable {α : Type}

/-- The block after `bs` is stored from position `off` on. -/
def overwrite (blk : List α) (off : Nat) (bs : List α) : List α :=
  blk.take off ++ bs ++ blk.drop (off + bs.length)

theorem length_overwrite {blk : List α} {off : Nat} {bs : List α}
    (h : off + bs.length ≤ blk.length) : (overwrite blk off bs).length = blk.length := by
  simp only [overwrite, List.length_append, List.length_take, List.length_drop]
  omega

theorem take_overwrite {blk : List α} {off : Nat} {bs : List α} (h : off ≤ blk.length) :
    (overwrite blk off bs).take (off + bs.length) = blk.take off ++ bs := by
  have hl : (blk.take off ++ bs).length = off + bs.length := by simp [h]
  rw [overwrite, List.take_append_of_le_length (by omega), List.take_of_length_le (by omega)]

theorem take_overwrite_of_le {blk : List α} {off k : Nat} {bs : List α} (hk : k ≤ off)
    (h : off ≤ blk.length) : (overwrite blk off bs).take k = blk.take k := by
  have hl : k ≤ (blk.take off).length := by simp; omega
  rw [overwrite, List.append_assoc, List.take_append_of_le_length hl, List.take_take,
    Nat.min_eq_left hk]

theorem drop_overwrite {blk : List α} {off : Nat} {bs : List α} (h : off ≤ blk.length) :
    (overwrite blk off bs).drop (off + bs.length) = blk.drop (off + bs.length) := by
  have hl : (blk.take off ++ bs).length = off + bs.length := by simp [h]
  rw [overwrite, ← hl, List.drop_left, hl]

theorem drop_overwrite_of_le {blk : List α} {off k : Nat} {bs : List α} (h : off ≤ blk.length)
    (hk : off + bs.length ≤ k) : (overwrite blk off bs).drop k = blk.drop k := by
  have hsplit : k = off + bs.length + (k - (off + bs.length)) := by omega
  rw [hsplit, ← List.drop_drop, drop_overwrite h, List.drop_drop]

@[simp] theorem overwrite_nil (blk : List α) (off : Nat) : overwrite blk off [] = blk := by
  simp [overwrite]

/-- Two writes one behind the other. -/
theorem overwrite_append {blk : List α} {off : Nat} {as bs : List α}
    (h : off + as.length ≤ blk.length) :
    overwrite (overwrite blk off as) (off + as.length) bs = overwrite blk off (as ++ bs) := by
  have ht : (overwrite blk off as).take (off + as.length) = blk.take off ++ as :=
    take_overwrite (by omega)
  have hd : (overwrite blk off as).drop (off + as.length + bs.length) =
      blk.drop (off + as.length + bs.length) := by
    rw [← List.drop_drop, drop_overwrite (by omega), List.drop_drop]
  rw [overwrite, ht, hd, overwrite, List.length_append, List.append_assoc (List.take off blk),
    Nat.add_assoc]

/-- Writing what is there changes nothing. -/
theorem overwrite_self {blk : List α} {off n : Nat} (h : off + n ≤ blk.length) :
    overwrite blk off ((blk.drop off).take n) = blk := by
  have hn : ((blk.drop off).take n).length = n := List.length_take_of_le (by simp; omega)
  rw [overwrite, hn, ← List.drop_drop, List.append_assoc, List.take_append_drop,
    List.take_append_drop]

/-- The end of a block is written, and then a part in front of it. -/
theorem take_overwrite_part {blk pre post new : List α} {index k : Nat}
    (hpre : blk.take index = pre) (hi : index + k + post.length ≤ blk.length)
    (hk : new.length = k) :
    (overwrite (overwrite blk (index + k) post) index new).take (index + k + post.length) =
      pre ++ new ++ post := by
  have hplen : pre.length = index := by rw [← hpre]; simp; omega
  have hlen := @length_overwrite _ blk (index + k) post hi
  rw [overwrite, take_overwrite_of_le (by omega) (by omega), hpre, hk]
  have hdrop : (overwrite blk (index + k) post).drop (index + k) =
      post ++ blk.drop (index + k + post.length) := by
    have htake : (blk.take (index + k)).length = index + k := List.length_take_of_le (by omega)
    rw [overwrite, List.append_assoc, List.drop_append_of_le_length (Nat.le_of_eq htake.symm),
      List.drop_eq_nil_of_le (Nat.le_of_eq htake), List.nil_append]
  rw [hdrop, ← List.append_assoc]
  exact List.take_left' (by simp; omega)

theorem getElem?_overwrite {blk : List α} {off : Nat} {bs : List α} (h : off ≤ blk.length)
    (i : Nat) : (overwrite blk off bs)[i]? =
      if i < off then blk[i]? else if i < off + bs.length then bs[i - off]? else blk[i]? := by
  have hl : (blk.take off).length = off := by simp [h]
  unfold overwrite
  split
  · rw [List.append_assoc, List.getElem?_append_left (by omega), List.getElem?_take_of_lt ‹_›]
  · rw [List.append_assoc, List.getElem?_append_right (by omega), hl]
    split
    · rw [List.getElem?_append_left (by omega)]
    · rw [List.getElem?_append_right (by omega), List.getElem?_drop]
      congr 1
      omega

/-- All but the last of the first `len` cells behind `index` are moved, and new ones put in front of
them. The last place stays as it was. -/
theorem take_overwrite_shift {blk new : List α} {index len k : Nat} (hin : index < len)
    (hk : new.length = k) (hfit : len + k - 1 < blk.length) :
    (overwrite (overwrite blk (index + k) ((blk.drop index).take (len - (index + 1)))) index
      new).take (len + k) =
      blk.take index ++ new ++ (((blk.take len).drop index).dropLast ++ [blk[len + k - 1]]) := by
  have hpost : (blk.drop index).take (len - (index + 1)) =
      ((blk.take len).drop index).dropLast := by
    rw [List.dropLast_eq_take, List.drop_take, List.take_take, List.length_take, List.length_drop]
    congr 1
    omega
  have hplen : ((blk.take len).drop index).dropLast.length = len - (index + 1) := by
    rw [List.length_dropLast, List.length_drop, List.length_take]
    omega
  rw [hpost]
  generalize ((blk.take len).drop index).dropLast = post at *
  have hlen : (overwrite blk (index + k) post).length = blk.length := length_overwrite (by omega)
  have hfront := take_overwrite_part (rfl : blk.take index = blk.take index)
    (show index + k + post.length ≤ blk.length by omega) hk
  have hlast : (overwrite (overwrite blk (index + k) post) index new)[len + k - 1]? =
      some blk[len + k - 1] := by
    rw [getElem?_overwrite (by omega), if_neg (by omega), if_neg (by omega),
      getElem?_overwrite (by omega), if_neg (by omega), if_neg (by omega),
      List.getElem?_eq_getElem hfit]
  have hplace : index + k + post.length = len + k - 1 := by omega
  have hsucc : len + k = len + k - 1 + 1 := by omega
  rw [hplace] at hfront
  conv => lhs; rw [hsucc]
  rw [List.take_add_one, hfront, hlast, List.append_assoc, Option.toList_some]

/-- Read `n` cells. A read of nothing touches no memory. -/
def load (p : Option (List α)) (off n : Nat) : Outcome (List α) :=
  if n = 0 then .ok []
  else do
    let blk ← deref p
    if off + n ≤ blk.length then .ok ((blk.drop off).take n) else .error .outOfBounds

/-- Write the cells `bs`. A write of nothing touches no memory. -/
def store (p : Option (List α)) (off : Nat) (bs : List α) : Outcome (Option (List α)) :=
  if bs.length = 0 then .ok p
  else do
    let blk ← deref p
    if off + bs.length ≤ blk.length then .ok (some (overwrite blk off bs))
    else .error .outOfBounds

/-- `p + k`: the cells that can be reached going forward from there. -/
def advance (p : Option (List α)) (k : Nat) : Option (List α) :=
  if k = 0 then p else some ((p.getD []).drop k)

/-- `memcpy` into another block, so that the ranges cannot overlap. -/
def memcpy (dst : Option (List α)) (dstOff : Nat) (src : Option (List α)) (srcOff n : Nat) :
    Outcome (Option (List α)) := do
  let bs ← load src srcOff n
  store dst dstOff bs

/-- `memcpy` inside one block is defined only for ranges that share no byte. -/
def memcpyWithin (p : Option (List α)) (dst src n : Nat) : Outcome (Option (List α)) :=
  if n ≠ 0 ∧ dst < src + n ∧ src < dst + n then .error .overlap
  else do
    let bs ← load p src n
    store p dst bs

@[simp] theorem load_zero (p : Option (List α)) (off : Nat) : load p off 0 = .ok [] := rfl

theorem load_some {blk : List α} {off n : Nat} (h : off + n ≤ blk.length) :
    load (some blk) off n = .ok ((blk.drop off).take n) := by
  unfold load
  split
  · simp [*]
  · simp [h]

@[simp] theorem advance_some (blk : List α) (k : Nat) :
    advance (some blk) k = some (blk.drop k) := by
  unfold advance
  split <;> simp_all

@[simp] theorem store_nil (p : Option (List α)) (off : Nat) : store p off [] = .ok p := rfl

theorem store_some {blk : List α} {off : Nat} {bs : List α}
    (h : off + bs.length ≤ blk.length) :
    store (some blk) off bs = .ok (some (overwrite blk off bs)) := by
  unfold store
  split
  · rename_i h0
    simp [overwrite, List.eq_nil_of_length_eq_zero h0]
  · simp [h]

/-- All of a block is written. -/
theorem overwrite_all {blk bs : List α} (h : bs.length = blk.length) : overwrite blk 0 bs = bs := by
  rw [overwrite, List.take_zero, List.nil_append, Nat.zero_add, h, List.drop_length,
    List.append_nil]

/-- One cell is written. -/
theorem overwrite_cell {cells pre post : List α} {c d : α} (hs : cells = pre ++ c :: post) :
    overwrite cells pre.length [d] = pre ++ d :: post := by
  subst hs
  simp [overwrite]

theorem store_cell {cells pre post : List α} {c d : α} (hs : cells = pre ++ c :: post) :
    store (some cells) pre.length [d] = .ok (some (pre ++ d :: post)) := by
  rw [store_some (by simp [hs]), overwrite_cell hs]

/-- Storing a whole source block of which `n` cells are used. -/
theorem memcpy_some {blk src : List α} {dstOff srcOff n : Nat}
    (hd : dstOff + n ≤ blk.length) (hs : srcOff + n ≤ src.length) :
    memcpy (some blk) dstOff (some src) srcOff n =
      .ok (some (overwrite blk dstOff ((src.drop srcOff).take n))) := by
  have hl : ((src.drop srcOff).take n).length = n := by simp; omega
  simp only [memcpy, load_some hs, ok_bind]
  exact store_some (by omega)

theorem memcpyWithin_some {blk : List α} {dst src n : Nat}
    (hn : n = 0 ∨ src + n ≤ dst ∨ dst + n ≤ src)
    (hd : dst + n ≤ blk.length) (hs : src + n ≤ blk.length) :
    memcpyWithin (some blk) dst src n =
      .ok (some (overwrite blk dst ((blk.drop src).take n))) := by
  have hl : ((blk.drop src).take n).length = n := by simp; omega
  rw [memcpyWithin, if_neg (by omega), load_some hs, ok_bind]
  exact store_some (by omega)

/-- A read that ends lies within its block. -/
theorem load_inv {p : Option (List α)} {off n : Nat} {bs : List α} (h : load p off n = .ok bs)
    (hn : n ≠ 0) : ∃ blk, p = some blk ∧ off + n ≤ blk.length ∧ bs = (blk.drop off).take n := by
  rw [load, if_neg hn] at h
  cases p with
  | none => cases h
  | some blk =>
    rw [deref_some, ok_bind] at h
    split at h
    · cases h
      exact ⟨blk, rfl, ‹_›, rfl⟩
    · cases h

/-- A write that ends lies within its block, whose length stays. -/
theorem store_inv {p q : Option (List α)} {off : Nat} {bs : List α} (h : store p off bs = .ok q) :
    (q.getD []).length = (p.getD []).length ∧
      (bs.length ≠ 0 → off + bs.length ≤ (p.getD []).length) := by
  rw [store] at h
  split at h
  · cases h
    exact ⟨rfl, fun hne => absurd ‹_› hne⟩
  · cases p with
    | none => cases h
    | some blk =>
      rw [deref_some, ok_bind] at h
      split at h
      · cases h
        exact ⟨length_overwrite ‹_›, fun _ => ‹_›⟩
      · cases h

/-- The block after a copy to `t`: the bytes `bs` lie there, and only the `count` bytes from there on
may have changed. -/
structure Copied (blk blk' : List α) (t count : Nat) (bs : List α) : Prop where
  length_eq : blk'.length = blk.length
  before : blk'.take t = blk.take t
  data : (blk'.drop t).take bs.length = bs
  behind : blk'.drop (t + count) = blk.drop (t + count)

/-- What lies from the position of a write on. -/
theorem drop_overwrite_add {blk : List α} {off : Nat} {bs : List α} (h : off ≤ blk.length)
    (k : Nat) : (overwrite blk off bs).drop (off + k) =
      (bs ++ blk.drop (off + bs.length)).drop k := by
  have htake : (blk.take off).length = off := List.length_take_of_le h
  rw [← List.drop_drop, overwrite, List.append_assoc, List.drop_left' htake]

/-- The bytes that are copied have a place. -/
theorem Copied.room {blk blk' bs : List α} {t count : Nat} (h : Copied blk blk' t count bs)
    (ht : t ≤ blk.length) : t + bs.length ≤ blk.length := by
  have hlen := congrArg List.length h.data
  rw [List.length_take, List.length_drop, h.length_eq] at hlen
  omega

theorem copied_overwrite {blk bs : List α} {t count : Nat} (hroom : t + bs.length ≤ blk.length)
    (hcount : bs.length ≤ count) : Copied blk (overwrite blk t bs) t count bs where
  length_eq := length_overwrite hroom
  before := take_overwrite_of_le (Nat.le_refl t) (by omega)
  data := by
    have hdrop := @drop_overwrite_add _ blk t bs (by omega) 0
    rw [Nat.add_zero, List.drop_zero] at hdrop
    rw [hdrop, List.take_left]
  behind := drop_overwrite_of_le (by omega) (by omega)

/-- Which write leaves the bytes of a copy: it brings those that are not there already, and what it
stores behind them was there before. -/
theorem store_copied_iff {blk l bs : List α} {t count : Nat} (ht : t ≤ blk.length) :
    (∃ blk', store (some blk) t l = .ok (some blk') ∧ Copied blk blk' t count bs) ↔
      t + l.length ≤ blk.length ∧ (l ++ blk.drop (t + l.length)).take bs.length = bs ∧
        l.drop count <+: blk.drop (t + count) := by
  have hdrop := @drop_overwrite_add _ blk t l ht
  have hdata := hdrop 0
  rw [Nat.add_zero, List.drop_zero] at hdata
  -- behind the copy lies the rest of what was stored, and then what was there
  have hbehind : t + l.length ≤ blk.length →
      ((overwrite blk t l).drop (t + count) = blk.drop (t + count) ↔
        l.drop count <+: blk.drop (t + count)) := by
    intro hroom
    rw [hdrop count]
    by_cases hc : l.length ≤ count
    · have hnil : l.drop count = [] := List.drop_eq_nil_of_le hc
      have hrest : t + l.length + (count - l.length) = t + count := by omega
      rw [List.drop_append, hnil, List.drop_drop, List.nil_append, hrest]
      exact ⟨fun _ => List.nil_prefix, fun _ => rfl⟩
    · rw [List.drop_append_of_le_length (by omega)]
      constructor
      · intro heq
        exact ⟨_, heq⟩
      · rintro ⟨post, hpost⟩
        have hlen : (l.drop count).length = l.length - count := List.length_drop
        have hsum : t + count + (l.length - count) = t + l.length := by omega
        have hrest : post = blk.drop (t + l.length) := by
          rw [← hsum, ← List.drop_drop, ← hpost, List.drop_left' hlen]
        rw [← hpost, hrest]
  constructor
  · rintro ⟨blk', hstore, hcopied⟩
    have hroom : t + l.length ≤ blk.length := by
      by_cases hl : l.length = 0
      · omega
      · exact (store_inv hstore).2 hl
    rw [store_some hroom] at hstore
    cases hstore
    refine ⟨hroom, ?_, (hbehind hroom).mp hcopied.behind⟩
    rw [← hdata]
    exact hcopied.data
  · rintro ⟨hroom, hbs, hpre⟩
    refine ⟨_, store_some hroom, length_overwrite hroom, ?_, ?_, (hbehind hroom).mpr hpre⟩
    · exact take_overwrite_of_le (Nat.le_refl t) ht
    · rw [hdata]
      exact hbs

theorem memcpy_inv {p q src : Option (List α)} {dstOff srcOff n : Nat}
    (h : memcpy p dstOff src srcOff n = .ok q) :
    (q.getD []).length = (p.getD []).length ∧ (n ≠ 0 → dstOff + n ≤ (p.getD []).length) := by
  obtain ⟨bs, hload, hstore⟩ := bind_eq_ok.mp h
  obtain ⟨hlen, hfit⟩ := store_inv hstore
  refine ⟨hlen, fun hn => ?_⟩
  obtain ⟨blk, -, hle, rfl⟩ := load_inv hload hn
  have hbs : ((blk.drop srcOff).take n).length = n :=
    List.length_take_of_le (by rw [List.length_drop]; omega)
  rw [hbs] at hfit
  exact hfit hn

/-- What was copied is where it was copied to. -/
theorem memcpy_data {p q : Option (List α)} {data : List α} {off n : Nat}
    (h : memcpy p off (some data) 0 n = .ok q) (hn : n ≠ 0) :
    ((q.getD []).drop off).take n = data.take n := by
  obtain ⟨bs, hload, hstore⟩ := bind_eq_ok.mp h
  obtain ⟨blk, hblk, hle, rfl⟩ := load_inv hload hn
  cases hblk
  rw [List.drop_zero] at hstore
  have hbs : (data.take n).length = n := List.length_take_of_le (by omega)
  have hfit := (store_inv hstore).2 (by omega)
  cases p with
  | none =>
    rw [Option.getD_none, List.length_nil] at hfit
    omega
  | some blk =>
    rw [Option.getD_some] at hfit
    rw [store_some hfit] at hstore
    cases hstore
    rw [Option.getD_some, overwrite, List.append_assoc,
      List.drop_left' (List.length_take_of_le (by omega)), List.take_left' hbs]

/-- A copy inside a block that ends is one of nothing, or between ranges that lie apart. -/
theorem memcpyWithin_inv {p q : Option (List α)} {dst src n : Nat}
    (h : memcpyWithin p dst src n = .ok q) (hn : n ≠ 0) :
    (src + n ≤ dst ∨ dst + n ≤ src) ∧ ∃ blk, p = some blk ∧ src + n ≤ blk.length := by
  rw [memcpyWithin] at h
  split at h
  · cases h
  · obtain ⟨bs, hload, -⟩ := bind_eq_ok.mp h
    obtain ⟨blk, hp, hle, -⟩ := load_inv hload hn
    exact ⟨by omega, blk, hp, hle⟩

theorem memcpyWithin_room {p q : Option (List α)} {dst src n : Nat}
    (h : memcpyWithin p dst src n = .ok q) (hn : n ≠ 0) : dst + n ≤ (p.getD []).length := by
  rw [memcpyWithin] at h
  split at h
  · cases h
  · exact (memcpy_inv h).2 hn

theorem memcpyWithin_length {p q : Option (List α)} {dst src n : Nat}
    (h : memcpyWithin p dst src n = .ok q) : (q.getD []).length = (p.getD []).length := by
  rw [memcpyWithin] at h
  split at h
  · cases h
  · obtain ⟨bs, -, hstore⟩ := bind_eq_ok.mp h
    exact (store_inv hstore).1

/-- An allocator: for each requested size either nothing or a block of that size, whose
cells hold whatever was there before. -/
structure Alloc (α : Type) where
  block : Nat → Option (List α)
  length_block : ∀ {n : Nat} {blk : List α}, block n = some blk → blk.length = n

/-- No request is refused. -/
def Alloc.Succeeds (al : Alloc α) : Prop := ∀ n, (al.block n).isSome

/-- The allocator that hands out blocks filled with `a`. -/
def Alloc.filled (a : α) : Alloc α where
  block n := some (List.replicate n a)
  length_block h := by
    obtain rfl := Option.some.inj h
    exact List.length_replicate

/-- The allocator that refuses everything. -/
def Alloc.refusing : Alloc α where
  block _ := none
  length_block h := by cases h

theorem Alloc.filled_succeeds (a : α) : (Alloc.filled a).Succeeds := fun _ => rfl

theorem Alloc.Succeeds.exists_block {al : Alloc α} (h : al.Succeeds) (n : Nat) :
    ∃ blk, al.block n = some blk ∧ blk.length = n := by
  obtain ⟨blk, hb⟩ := Option.isSome_iff_exists.mp (h n)
  exact ⟨blk, hb, al.length_block hb⟩

/-- `realloc`: the cells of the old block that fit are kept, the others are fresh. -/
def Alloc.realloc (al : Alloc α) (old : Option (List α)) (n : Nat) : Option (List α) :=
  (al.block n).map fun fresh => (old.getD []).take n ++ fresh.drop (old.getD []).length

theorem Alloc.realloc_refused {al : Alloc α} {n : Nat} (h : al.block n = none)
    (old : Option (List α)) : al.realloc old n = none := by
  rw [Alloc.realloc, h]
  rfl

theorem Alloc.realloc_granted {al : Alloc α} {n : Nat} {fresh : List α}
    (h : al.block n = some fresh) (old : Option (List α)) :
    ∃ blk, al.realloc old n = some blk ∧ blk.length = n ∧
      ∀ k, k ≤ n → k ≤ (old.getD []).length → blk.take k = (old.getD []).take k := by
  have hl := al.length_block h
  refine ⟨_, by rw [Alloc.realloc, h]; rfl, by simp [hl]; omega, ?_⟩
  intro k hk hlen
  rw [List.take_append_of_le_length (by simp; omega), List.take_take, Nat.min_eq_left hk]

theorem Alloc.Succeeds.realloc {al : Alloc α} (h : al.Succeeds) (old : Option (List α))
    (n : Nat) : ∃ blk, al.realloc old n = some blk ∧ blk.length = n ∧
      ∀ k, k ≤ n → k ≤ (old.getD []).length → blk.take k = (old.getD []).take k := by
  obtain ⟨fresh, hb, -⟩ := h.exists_block n
  exact Alloc.realloc_granted hb old

end CLang
