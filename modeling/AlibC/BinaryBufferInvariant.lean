import AlibC.BinaryBuffer

/-! What every operation of `BinaryBuffer` needs and keeps, and what the growing
operations do to the stored bytes. -/
namespace AlibC.BinaryBuffer

open CLang

/-- The bytes that are stored. -/
def contents (b : BinaryBuffer) : Block := (b.buff.getD []).take b.len

/-- The invariant: the memory is exactly `capacity` bytes long and `NULL` exactly when
that is nothing, and the stored bytes fit. -/
structure WF (b : BinaryBuffer) : Prop where
  block : (b.buff.getD []).length = b.capacity
  null : b.buff = none ↔ b.capacity = 0
  len_le : b.len ≤ b.capacity
  capacity_lt : b.capacity < 2 ^ 64
  minCap_lt : b.minCap < 2 ^ 64
  maxExpand_pos : 0 < b.maxExpand

/-- The two numbers that only a setter changes. -/
def SameLimits (b b' : BinaryBuffer) : Prop :=
  b'.minCap = b.minCap ∧ b'.maxExpand = b.maxExpand

theorem SameLimits.trans {b b' b'' : BinaryBuffer} (h : SameLimits b b')
    (h' : SameLimits b' b'') : SameLimits b b'' :=
  ⟨h'.1.trans h.1, h'.2.trans h.2⟩

theorem WF.length_contents {b : BinaryBuffer} (h : b.WF) : b.contents.length = b.len := by
  have := h.len_le
  rw [contents, List.length_take, h.block]
  omega

theorem WF.buff_eq_some {b : BinaryBuffer} (h : b.WF) (hc : 0 < b.capacity) :
    ∃ blk, b.buff = some blk ∧ blk.length = b.capacity := by
  cases hb : b.buff with
  | none =>
    have := h.null.mp hb
    omega
  | some blk => exact ⟨blk, rfl, by simpa [hb] using h.block⟩

/-- Reading the stored bytes, also when there is no memory for them. -/
theorem WF.load_contents {b : BinaryBuffer} (h : b.WF) :
    load b.buff 0 b.len = .ok b.contents := by
  have hle := h.len_le
  by_cases hz : b.len = 0
  · simp [hz, contents]
  · obtain ⟨blk, hb, hl⟩ := h.buff_eq_some (by omega)
    rw [hb, load_some (by omega), contents, hb]
    rfl

/-- One round of the growth loop makes progress until the type is exhausted, in steps of at most
`maxExpand`. -/
theorem lt_calculateExpansion {b : BinaryBuffer} {c : Nat} (hb : 0 < b.maxExpand)
    (hc : c < 2 ^ 64 - 1) :
    c < b.calculateExpansion c ∧ b.calculateExpansion c < 2 ^ 64 ∧
      (b.calculateExpansion c ≤ c + b.maxExpand ∨ b.calculateExpansion c = ULONG_MAX) := by
  have hadd : sizeAdd c b.maxExpand = (c + b.maxExpand) % 2 ^ 64 := rfl
  have hmul : sizeMul c 2 = (c * 2) % 2 ^ 64 := rfl
  unfold calculateExpansion ULONG_MAX
  split
  · omega
  · dsimp only
    split <;> split <;> omega

/-- The growth loop ends, at a capacity that is large enough and not larger than it has to be. -/
theorem expandLoop_eq {b : BinaryBuffer} {target : Nat} (hb : 0 < b.maxExpand)
    (ht : target < 2 ^ 64) : ∀ (fuel c : Nat), target ≤ c + fuel → c < 2 ^ 64 →
      ∃ n, expandLoop b target fuel c = .ok n ∧ target ≤ n ∧ c ≤ n ∧ n < 2 ^ 64 ∧
        (n < target + b.maxExpand ∨ n = c ∨ n = ULONG_MAX) := by
  intro fuel
  induction fuel with
  | zero =>
    intro c hf hc
    exact ⟨c, if_neg (by omega), by omega, Nat.le_refl c, hc, .inr (.inl rfl)⟩
  | succ fuel ih =>
    intro c hf hc
    by_cases hlt : c < target
    · obtain ⟨hgt, hub, hstep⟩ := lt_calculateExpansion hb (show c < 2 ^ 64 - 1 by omega)
      obtain ⟨n, hn, htn, hcn, hn64, hbound⟩ := ih (b.calculateExpansion c) (by omega) hub
      exact ⟨n, by rw [expandLoop, if_pos hlt, hn], htn, by omega, hn64, by omega⟩
    · exact ⟨c, if_neg hlt, by omega, Nat.le_refl c, hc, .inr (.inl rfl)⟩

/-- The memory that is there is written to, and so much of it holds stored bytes then. -/
theorem WF.rewritten {b : BinaryBuffer} (h : b.WF) {blk blk' : Block} {n : Nat}
    (hb : b.buff = some blk) (hlen : blk'.length = blk.length) (hn : n ≤ b.capacity) :
    ({ b with buff := some blk', len := n } : BinaryBuffer).WF := by
  have hnull : some blk' = none ↔ b.capacity = 0 := by
    rw [← h.null, hb]
    exact iff_of_false (Option.some_ne_none blk') (Option.some_ne_none blk)
  have hblock := h.block
  rw [hb, Option.getD_some] at hblock
  exact ⟨hlen.trans hblock, hnull, hn, h.capacity_lt, h.minCap_lt, h.maxExpand_pos⟩

/-- The object without memory that `hardResize 0` and `extractBuffer` leave. -/
theorem WF.released {b : BinaryBuffer} (h : b.WF) :
    ({ b with buff := none, capacity := 0, len := 0 } : BinaryBuffer).WF :=
  ⟨rfl, by simp, Nat.le_refl 0, Nat.two_pow_pos 64, h.minCap_lt, h.maxExpand_pos⟩

/-- Resizing keeps what fits. -/
theorem hardResize_eq {al : Alloc UInt8} (hal : al.Succeeds) {b : BinaryBuffer} (h : b.WF)
    {n : Nat} (hn : n < 2 ^ 64) :
    ∃ b', hardResize al b n = (.ok, b') ∧ b'.WF ∧ b'.capacity = n ∧ b'.len = min b.len n ∧
      b'.contents = b.contents.take n ∧ SameLimits b b' := by
  have hlen := h.len_le
  unfold hardResize
  split
  · rename_i hc
    refine ⟨b, rfl, h, hc, by omega, ?_, rfl, rfl⟩
    rw [List.take_of_length_le (by rw [h.length_contents]; omega)]
  · split
    · rename_i hz
      subst hz
      refine ⟨_, rfl, h.released, rfl, by simp, by simp [contents], rfl, rfl⟩
    · obtain ⟨blk, hr, hl, htake⟩ := hal.realloc b.buff n
      rw [hr]
      refine ⟨_, rfl, ⟨by simpa using hl, by simp; omega, Nat.min_le_right _ _, hn, h.minCap_lt,
        h.maxExpand_pos⟩, rfl, rfl, ?_, rfl, rfl⟩
      have hb := h.block
      simp only [contents, Option.getD_some]
      rw [htake (min b.len n) (by omega) (by omega), List.take_take, Nat.min_comm]

theorem resize_eq {al : Alloc UInt8} (hal : al.Succeeds) {b : BinaryBuffer} (h : b.WF)
    {n : Nat} (hn : n < 2 ^ 64) :
    ∃ b', resize al b n = (.ok, b') ∧ b'.WF ∧ b'.capacity = max n b.minCap ∧
      b'.contents = b.contents.take (max n b.minCap) ∧ SameLimits b b' := by
  have hm := h.minCap_lt
  have he : (if n < b.minCap then b.minCap else n) = max n b.minCap := by split <;> omega
  obtain ⟨b', hr, hwf, hcap, -, hcont, hs⟩ :=
    hardResize_eq hal h (show max n b.minCap < 2 ^ 64 by omega)
  exact ⟨b', by rw [resize, he, hr], hwf, hcap, hcont, hs⟩

/-- Nothing is lost when there is room for what is stored. -/
theorem resize_keeps {al : Alloc UInt8} (hal : al.Succeeds) {b : BinaryBuffer} (h : b.WF)
    {n : Nat} (hn : n < 2 ^ 64) (hlen : b.len ≤ max n b.minCap) :
    ∃ b', resize al b n = (.ok, b') ∧ b'.WF ∧ b'.capacity = max n b.minCap ∧
      b'.contents = b.contents ∧ b'.len = b.len ∧ SameLimits b b' := by
  obtain ⟨b', hr, hwf, hcap, hcont, hs⟩ := resize_eq hal h hn
  have hc : b'.contents = b.contents := by
    rw [hcont, List.take_of_length_le (by rw [h.length_contents]; exact hlen)]
  refine ⟨b', hr, hwf, hcap, hc, ?_, hs⟩
  rw [← hwf.length_contents, ← h.length_contents, hc]

/-- Expansion loses nothing: the new capacity is never below the old one. -/
theorem expandToTarget_eq {al : Alloc UInt8} (hal : al.Succeeds) {b : BinaryBuffer} (h : b.WF)
    {target : Nat} (ht : target < 2 ^ 64) :
    ∃ b', expandToTarget al b target = .ok (.ok, b') ∧ b'.WF ∧ target ≤ b'.capacity ∧
      max b.capacity b.minCap ≤ b'.capacity ∧ b'.contents = b.contents ∧ b'.len = b.len ∧
      SameLimits b b' ∧ (b'.capacity < target + b.maxExpand ∨ b'.capacity = b.minCap ∨
        b'.capacity = b.capacity ∨ b'.capacity = ULONG_MAX) := by
  obtain ⟨n, hn, htn, hcn, hn64, hbound⟩ :=
    expandLoop_eq h.maxExpand_pos ht target b.capacity (by omega) h.capacity_lt
  have hlen := h.len_le
  obtain ⟨b', hr, hwf, hcap, hcont, hlen', hs⟩ := resize_keeps hal h hn64 (by omega)
  exact ⟨b', by simp [expandToTarget, hn, hr], hwf, by omega, by omega, hcont, hlen', hs,
    by omega⟩

/-- The bytes stay while room is made for `n` of them. -/
theorem ensureRoom_eq {al : Alloc UInt8} (hal : al.Succeeds) {b : BinaryBuffer} (h : b.WF)
    {n : Nat} (hn : n < 2 ^ 64) :
    ∃ b', ensureRoom al b n = .ok (.ok, b') ∧
      b'.WF ∧ n ≤ b'.capacity ∧ b'.contents = b.contents ∧ b'.len = b.len ∧
      SameLimits b b' := by
  unfold ensureRoom
  split
  · obtain ⟨b', he, hwf, hcap, -, hc, hl, hs, -⟩ := expandToTarget_eq hal h hn
    exact ⟨b', he, hwf, hcap, hc, hl, hs⟩
  · exact ⟨b, rfl, h, by omega, rfl, rfl, rfl, rfl⟩

/-- Storing bytes right behind the stored ones. -/
theorem store_end {b : BinaryBuffer} (h : b.WF) {bs : Block}
    (hroom : b.len + bs.length ≤ b.capacity) :
    ∃ p, store b.buff b.len bs = .ok p ∧
      ({ b with buff := p, len := b.len + bs.length } : BinaryBuffer).WF ∧
      ({ b with buff := p, len := b.len + bs.length } : BinaryBuffer).contents =
        b.contents ++ bs := by
  by_cases hz : bs = []
  · subst hz
    exact ⟨b.buff, rfl, by simpa using h, by simp [contents]⟩
  · have hpos : 0 < bs.length := List.length_pos_iff.mpr hz
    obtain ⟨blk, hb, hl⟩ := h.buff_eq_some (by omega)
    refine ⟨some (overwrite blk b.len bs), ?_, ⟨?_, ?_, ?_, h.capacity_lt, h.minCap_lt,
      h.maxExpand_pos⟩, ?_⟩
    · rw [hb]
      exact store_some (by omega)
    · simp [length_overwrite (show b.len + bs.length ≤ blk.length by omega), hl]
    · simp
      omega
    · simpa using hroom
    · simp [contents, hb, take_overwrite (show b.len ≤ blk.length by omega)]

/-- A copy behind the stored bytes that ended found its source and its room. -/
theorem memcpy_fits {b : BinaryBuffer} (h : b.WF) {data : Block} {off n : Nat}
    (hoff : b.len = off) {p : Option Block}
    (hp : memcpy b.buff b.len (some data) 0 n = .ok p) :
    n ≤ data.length ∧ off + n < 2 ^ 64 := by
  have hle := h.len_le
  have hcap := h.capacity_lt
  by_cases hz : n = 0
  · omega
  · obtain ⟨bs, hbs, hstore⟩ := bind_eq_ok.mp hp
    simp only [load, hz, if_false, deref_some, ok_bind, Nat.zero_add] at hbs
    split at hbs
    case isFalse => cases hbs
    case isTrue hd =>
      cases hbs
      have hl : ((data.drop 0).take n).length = n := by simp [hd]
      refine ⟨hd, ?_⟩
      simp only [store, hl, hz, if_false] at hstore
      cases hb : b.buff with
      | none => simp [hb] at hstore
      | some blk =>
        have hblk : blk.length = b.capacity := by simpa [hb] using h.block
        simp only [hb, deref_some, ok_bind] at hstore
        split at hstore
        case isTrue => omega
        case isFalse => cases hstore

/-- `append` puts the caller's bytes behind the stored ones. -/
theorem append_eq {al : Alloc UInt8} (hal : al.Succeeds) {b : BinaryBuffer} (h : b.WF)
    {data : Block} {n : Nat} (hd : n ≤ data.length) (hlen : b.len + n < 2 ^ 64) :
    ∃ b', append al b (some data) n = .ok (.ok, b') ∧ b'.WF ∧
      b'.contents = b.contents ++ data.take n ∧ b'.len = b.len + n ∧ SameLimits b b' := by
  have hadd : sizeAdd b.len n = b.len + n := sizeAdd_eq (by omega)
  obtain ⟨b₁, he, hwf, hcap, hc, hl, hs⟩ := ensureRoom_eq hal h hlen
  have htake : (data.take n).length = n := by simp [hd]
  obtain ⟨p, hp, hwf', hc'⟩ := store_end hwf (show _ + (data.take n).length ≤ _ by omega)
  rw [htake] at hwf' hc'
  refine ⟨_, ?_, hwf', by rw [hc', hc], by simp [hl], hs⟩
  have hm : memcpy b₁.buff b.len (some data) 0 n = .ok p := by
    rw [memcpy, load_some (by omega), ok_bind, ← hl]
    exact hp
  rw [append, if_neg (by simp), hadd, if_neg (by unfold ULONG_MAX; omega)]
  simp [he, hm, hl]

/-- An `append` that ends did so with room for the bytes. -/
theorem append_inv {al : Alloc UInt8} (hal : al.Succeeds) {b b' : BinaryBuffer} (h : b.WF)
    {data : Block} {n : Nat} {e : AlibError} (hr : append al b (some data) n = .ok (e, b')) :
    e = .ok ∧ b'.WF ∧ b'.contents = b.contents ++ data.take n ∧ b'.len = b.len + n ∧
      SameLimits b b' := by
  have hfit : n ≤ data.length ∧ b.len + n < 2 ^ 64 := by
    have hlt : sizeAdd b.len n < 2 ^ 64 := Nat.mod_lt _ (Nat.two_pow_pos 64)
    obtain ⟨b₁, he, hwf, -, -, hl, -⟩ := ensureRoom_eq hal h hlt
    rw [append, if_neg (by simp), if_neg (Nat.not_lt.mpr (Nat.le_of_lt_succ hlt))] at hr
    simp only [he, ok_bind, ne_eq, not_true_eq_false, if_false] at hr
    obtain ⟨p, hp, -⟩ := bind_eq_ok.mp hr
    exact memcpy_fits hwf hl hp
  obtain ⟨b₁, he, hrest⟩ := append_eq hal h hfit.1 hfit.2
  rw [he] at hr
  cases hr
  exact ⟨rfl, hrest⟩

theorem append_null (al : Alloc UInt8) (b : BinaryBuffer) (n : Nat) :
    append al b none n = .ok (.badArg, b) := if_pos rfl

theorem contents_of_len_zero {b : BinaryBuffer} (h : b.len = 0) : b.contents = [] := by
  simp [contents, h]

theorem WF.clearNoResize {b : BinaryBuffer} (h : b.WF) : b.clearNoResize.WF :=
  ⟨h.block, h.null, Nat.zero_le _, h.capacity_lt, h.minCap_lt, h.maxExpand_pos⟩

/-- `clear` empties the buffer and frees memory above the minimum, without asking the
allocator for anything. -/
theorem clear_eq (al : Alloc UInt8) {b : BinaryBuffer} (h : b.WF) :
    (b.clear al).WF ∧ (b.clear al).len = 0 ∧ SameLimits b (b.clear al) := by
  unfold clear
  split
  · rename_i hc
    rw [hardResize, if_neg (by omega), if_pos rfl]
    exact ⟨h.released, rfl, rfl, rfl⟩
  · exact ⟨h.clearNoResize, rfl, rfl, rfl⟩

/-- Removing up to the end only moves the end. -/
theorem remove_tail {b : BinaryBuffer} (h : b.WF) {lo hi : Nat} (hlo : lo ≤ hi)
    (hhi : b.len ≤ hi + 1) (hpos : 0 < b.len) (hle : lo ≤ b.len) :
    ∃ b', remove b lo hi = .ok (.ok, b') ∧ b'.WF ∧ b'.contents = b.contents.take lo ∧
      SameLimits b b' := by
  have hl := h.len_le
  have hc := h.capacity_lt
  have hsub : sizeSub b.len 1 = b.len - 1 := sizeSub_eq (by omega) hpos
  refine ⟨{ b with len := lo }, ?_, ⟨h.block, h.null, by simp; omega, h.capacity_lt, h.minCap_lt,
    h.maxExpand_pos⟩, ?_, rfl, rfl⟩
  · simp only [remove, if_neg (show ¬ lo > hi by omega), hsub]
    exact if_pos (by omega)
  · simp only [contents]
    rw [List.take_take, Nat.min_eq_left hle]

theorem shrinkToFit_eq {al : Alloc UInt8} (hal : al.Succeeds) {b : BinaryBuffer} (h : b.WF) :
    (b.shrinkToFit al).WF ∧ (b.shrinkToFit al).contents = b.contents ∧
      (b.shrinkToFit al).capacity = b.len ∧ SameLimits b (b.shrinkToFit al) := by
  have hl := h.len_le
  have hc := h.capacity_lt
  obtain ⟨b', hr, hwf, hcap, -, hcont, hs⟩ := hardResize_eq hal h (show b.len < 2 ^ 64 by omega)
  have he : b.shrinkToFit al = b' := by rw [shrinkToFit, hr]
  rw [he]
  exact ⟨hwf, by rw [hcont, List.take_of_length_le (Nat.le_of_eq h.length_contents)], hcap, hs⟩

/-- The constructor returns a well-formed buffer that holds the data it was given. -/
theorem newEx_eq {al : Alloc UInt8} {data : Option Block} {dataLen startCap minCap maxExpand : Nat}
    {b : BinaryBuffer} (hs : startCap < 2 ^ 64) (hm : minCap < 2 ^ 64)
    (hd : dataLen < 2 ^ 64)
    (h : newEx al data dataLen startCap minCap maxExpand = .ok (some b)) :
    b.WF ∧ b.minCap = minCap ∧ b.len = dataLen ∧
      ∀ d, data = some d → b.contents = d.take dataLen := by
  set cap := max (max dataLen startCap) minCap with hcap
  have e1 : (if dataLen > startCap then dataLen else startCap) = max dataLen startCap := by
    split <;> omega
  have e2 : (if minCap > max dataLen startCap then minCap else max dataLen startCap) = cap := by
    split <;> omega
  have hexp : 0 < if maxExpand = 0 then ULONG_MAX else maxExpand := by
    unfold ULONG_MAX
    split <;> omega
  simp only [newEx, e1, e2] at h
  split at h
  · rename_i hz
    obtain rfl := Option.some.inj (Except.ok.inj h)
    exact ⟨⟨by simp [hz], by simp [hz], by simp; omega, by simp [hz], hm, hexp⟩, rfl, rfl,
      fun d _ => by simp [contents, show dataLen = 0 by omega]⟩
  · rename_i hz
    split at h
    · split at h <;> simp at h
    · rename_i blk hblk
      have hl := al.length_block hblk
      split at h
      · rename_i hdata
        obtain ⟨p, hp, hb⟩ := bind_eq_ok.mp h
        obtain rfl := Option.some.inj (Except.ok.inj hb)
        obtain ⟨d, rfl⟩ := Option.ne_none_iff_exists'.mp hdata.1
        obtain ⟨bs, hbs, hstore⟩ := bind_eq_ok.mp hp
        have hbl : dataLen ≤ d.length ∧ bs = d.take dataLen := by
          simp only [load, hdata.2, if_false, deref_some, ok_bind] at hbs
          split at hbs
          · obtain rfl := Except.ok.inj hbs
            exact ⟨by omega, by simp⟩
          · cases hbs
        obtain ⟨hdl, rfl⟩ := hbl
        have htl : (d.take dataLen).length = dataLen := by simp [hdl]
        rw [store_some (by omega)] at hstore
        obtain rfl := Except.ok.inj hstore
        have hol : (overwrite blk 0 (d.take dataLen)).length = blk.length :=
          length_overwrite (by omega)
        have htk : (overwrite blk 0 (d.take dataLen)).take (0 + (d.take dataLen).length) =
            blk.take 0 ++ d.take dataLen := take_overwrite (Nat.zero_le _)
        refine ⟨⟨by simp [hol, hl], by simp [hz], by simp; omega, by simp; omega, hm, hexp⟩,
          rfl, rfl, ?_⟩
        intro d' hd'
        obtain rfl := Option.some.inj hd'
        simpa [contents, htl] using htk
      · rename_i hdata
        obtain rfl := Option.some.inj (Except.ok.inj h)
        refine ⟨⟨by simp [hl], by simp [hz], by simp; omega, by simp; omega, hm, hexp⟩,
          rfl, rfl, ?_⟩
        intro d hd'
        have hz' : dataLen = 0 := by
          by_contra hne
          exact hdata ⟨by simp [hd'], hne⟩
        simp [contents, hz']

/-- The default buffer, which starts with its minimum capacity. -/
theorem new_eq {al : Alloc UInt8} (hal : al.Succeeds) :
    ∃ b, new al = .ok (some b) ∧ b.WF ∧ b.len = 0 ∧ b.minCap = defaultMinCap := by
  obtain ⟨blk, hb, -⟩ := hal.exists_block defaultMinCap
  have hnew : ∃ b, new al = .ok (some b) := by
    simp only [new, newEx, defaultMinCap] at hb ⊢
    simp [hb]
  obtain ⟨b, h⟩ := hnew
  obtain ⟨hwf, hmin, hlen, -⟩ := newEx_eq (by decide) (by decide) (by decide) h
  exact ⟨b, h, hwf, hlen, hmin⟩

end AlibC.BinaryBuffer
