import AlibC.BinaryBufferRemove
import AlibC.Lib.Machine

/-! Draining a `BinaryBuffer`: what is copied out and what is left. -/
namespace AlibC.BinaryBuffer

open CLang Machine

variable {b : BinaryBuffer} {dst : Block} {lo hi begin_ end_ count k : Nat}

/-- Reading a part of the stored bytes. -/
theorem WF.load_part (h : b.WF) (hin : lo + k ≤ b.len) :
    load b.buff lo k = .ok ((b.contents.drop lo).take k) := by
  have hle := h.len_le
  by_cases hk : k = 0
  · rw [hk, load_zero, List.take_zero]
  · obtain ⟨blk, hb, hl⟩ := h.buff_eq_some (by omega)
    rw [hb, load_some (by omega), contents, hb, Option.getD_some, List.drop_take, List.take_take,
      Nat.min_eq_left (by omega)]

/-- The caller's memory after the first `k` bytes from `lo` on were copied into it. -/
def delivered (b : BinaryBuffer) (lo k : Nat) (dst : Block) : Block :=
  overwrite dst 0 ((b.contents.drop lo).take k)

/-- These bytes are delivered and removed, and no others. -/
def Drains (b : BinaryBuffer) (lo k : Nat) (dst : Block)
    (r : Outcome (AlibError × Option Block × BinaryBuffer)) : Prop :=
  ∃ e b', r = .ok (e, some (delivered b lo k dst), b') ∧
    b'.contents = b.contents.take lo ++ b.contents.drop (lo + k)

theorem WF.memcpy_out (h : b.WF) (hin : lo + k ≤ b.len) (hdst : k ≤ dst.length) :
    memcpy (some dst) 0 b.buff lo k = .ok (some (delivered b lo k dst)) := by
  rw [memcpy, h.load_part hin]
  refine store_some ?_
  rw [List.length_take, List.length_drop, h.length_contents]
  omega

theorem WF.drop_min (h : b.WF) (count : Nat) :
    b.contents.drop (min count b.len) = b.contents.drop count := by
  have hlen := h.length_contents
  by_cases hle : count ≤ b.len
  · rw [Nat.min_eq_left hle]
  · rw [Nat.min_eq_right (by omega), List.drop_eq_nil_of_le (by omega),
      List.drop_eq_nil_of_le (by omega)]

/-- Where the copy is right the removal decides. -/
theorem drains_iff {r : Outcome (AlibError × Option Block × BinaryBuffer)}
    {q : Outcome (AlibError × BinaryBuffer)}
    (hr : r = (do
      let (err, b') ← q
      return (err, some (delivered b lo k dst), b'))) :
    Drains b lo k dst r ↔ ∃ e b', q = .ok (e, b') ∧
      b'.contents = b.contents.take lo ++ b.contents.drop (lo + k) := by
  rw [Drains, hr]
  constructor
  · rintro ⟨e, b', hq, hcont⟩
    obtain ⟨⟨e', b''⟩, hq, hr⟩ := bind_eq_ok.mp hq
    cases hr
    exact ⟨e, b', hq, hcont⟩
  · rintro ⟨e, b', hq, hcont⟩
    exact ⟨e, b', by rw [hq]; rfl, hcont⟩

section CopyAndDrain

theorem copyAndDrain_eq (h : b.WF) (hdst : min count b.len ≤ dst.length) :
    copyAndDrain b (some dst) count = (do
      let (err, b') ← b.remove 0 (min count b.len)
      return (err, some (delivered b 0 (min count b.len) dst), b')) := by
  have hmin : (if count > b.len then b.len else count) = min count b.len := by
    split <;> omega
  rw [copyAndDrain, if_neg (Option.some_ne_none dst)]
  dsimp only
  rw [hmin, h.memcpy_out (by omega) hdst, ok_bind]

/-- A drain from the front that works: of everything, or of a half or more that leaves more than a
byte. -/
def Drainable (b : BinaryBuffer) (count : Nat) : Prop :=
  b.len ≤ count ∨ count + 1 < b.len ∧ b.len ≤ 2 * count

theorem drainable_iff : Drainable b count ↔ Removable b 0 (min count b.len) := by
  unfold Drainable Removable
  omega

theorem Drainable.copyAndDrain_eq (hd : Drainable b count) (h : b.WF)
    (hdst : min count b.len ≤ dst.length) : ∃ b',
      copyAndDrain b (some dst) count = .ok (.ok, some (delivered b 0 (min count b.len) dst), b') ∧
      b'.WF ∧ b'.contents = b.contents.drop count := by
  obtain ⟨b', hr, hwf, hcont⟩ := (drainable_iff.mp hd).remove_eq h (Nat.zero_le _)
  refine ⟨b', ?_, hwf, ?_⟩
  · rw [BinaryBuffer.copyAndDrain_eq h hdst, hr]
    rfl
  · rw [hcont, List.take_zero, List.nil_append, h.drop_min]

theorem copyAndDrain_iff (h : b.WF) (hdst : min count b.len ≤ dst.length) :
    Drains b 0 (min count b.len) dst (copyAndDrain b (some dst) count) ↔ Drainable b count := by
  have hlt := h.capacity_lt
  have hle := h.len_le
  have hlen := h.length_contents
  rw [drains_iff (copyAndDrain_eq h hdst), remove_leaves_iff h (Nat.zero_le _)
    (by unfold ULONG_MAX; omega) (Nat.zero_le _) (fun hlast => by simp; omega), drainable_iff,
    Nat.zero_add]
  exact and_iff_left rfl

end CopyAndDrain

section CopyBlock

/-- The part that is copied out of a range and then, counted from `begin_`, removed. -/
theorem copyBlockAndDrain_eq (h : b.WF) (hin : max begin_ end_ < b.len)
    (hdst : min count (max begin_ end_ - min begin_ end_) ≤ dst.length) :
    copyBlockAndDrain b begin_ end_ (some dst) count = (do
      let (err, b') ← b.remove begin_ (sizeAdd begin_ (min count (sizeSub end_ begin_)))
      return (err, some (delivered b (min begin_ end_)
        (min count (max begin_ end_ - min begin_ end_)) dst), b')) := by
  have hlt := h.capacity_lt
  have hle := h.len_le
  have hsub : sizeSub (max begin_ end_) (min begin_ end_) = max begin_ end_ - min begin_ end_ :=
    sizeSub_eq (by omega) (by omega)
  have hmin : ∀ avail, (if count > avail then avail else count) = min count avail := by
    intro avail
    split <;> omega
  rw [copyBlockAndDrain, copyBlock, ordered_eq]
  dsimp only
  rw [if_neg (by omega), hsub, hmin, h.memcpy_out (by omega) hdst, ok_bind, pure_ok, ok_bind]
  dsimp only
  rw [if_neg (fun hne => hne rfl), hmin]

theorem copyBlockAndDrain_refused (hin : max begin_ end_ = b.len) :
    copyBlockAndDrain b begin_ end_ (some dst) count = .ok (.badIndex, some dst, b) := by
  rw [copyBlockAndDrain, copyBlock, ordered_eq]
  dsimp only
  rw [if_pos (by omega)]
  rfl

/-- The drains of a range that work, `k` being the number of bytes that are delivered. In order,
when their removal does. In the other order, when `begin_ + count` wraps around to `end_` and the
removal of the whole range works, or when the bytes that are removed behind `begin_` happen to leave
the same. At the end of the buffer, when nothing is to be delivered. -/
def BlockDrainable (b : BinaryBuffer) (begin_ end_ count k : Nat) : Prop :=
  max begin_ end_ = b.len ∧ k = 0 ∨
  max begin_ end_ < b.len ∧
    if begin_ ≤ end_ then Removable b begin_ (begin_ + k)
    else
      k = begin_ - end_ ∧ 2 ^ 64 ≤ count + (begin_ - end_) ∧ Removable b end_ begin_ ∨
      begin_ + count < 2 ^ 64 ∧ Removable b begin_ (begin_ + count) ∧
        b.contents.take begin_ ++ b.contents.drop (begin_ + count) =
          b.contents.take end_ ++ b.contents.drop (end_ + k)

/-- In order the bytes delivered are removed. -/
theorem remove_forward_iff (h : b.WF) (hfwd : begin_ ≤ end_) (hin : end_ < b.len)
    (hk : k ≤ end_ - begin_) (hmin : min count (end_ - begin_) = k) :
    (∃ e b', b.remove begin_ (sizeAdd begin_ (min count (sizeSub end_ begin_))) = .ok (e, b') ∧
      b'.contents = b.contents.take begin_ ++ b.contents.drop (begin_ + k)) ↔
      Removable b begin_ (begin_ + k) := by
  have hlt := h.capacity_lt
  have hle := h.len_le
  have hlen := h.length_contents
  have hadd : sizeAdd begin_ k = begin_ + k := sizeAdd_eq (by omega)
  rw [sizeSub_eq (by omega) hfwd, hmin, hadd, remove_leaves_iff h (Nat.le_add_right _ _)
    (by unfold ULONG_MAX; omega) (by omega) (fun _ => by
      rw [List.length_append, List.length_take, List.length_drop]
      omega)]
  exact and_iff_left rfl

/-- In the other order those behind `begin_` are removed, or, when the sum wraps around, those
between where it gets to and `begin_`. -/
theorem remove_backward_iff (h : b.WF) (hback : end_ < begin_) (hin : begin_ < b.len)
    (hcount : count < 2 ^ 64) (hk : k ≤ begin_ - end_) (hle : k ≤ count) :
    (∃ e b', b.remove begin_ (sizeAdd begin_ (min count (sizeSub end_ begin_))) = .ok (e, b') ∧
      b'.contents = b.contents.take end_ ++ b.contents.drop (end_ + k)) ↔
      k = begin_ - end_ ∧ 2 ^ 64 ≤ count + (begin_ - end_) ∧ Removable b end_ begin_ ∨
      begin_ + count < 2 ^ 64 ∧ Removable b begin_ (begin_ + count) ∧
        b.contents.take begin_ ++ b.contents.drop (begin_ + count) =
          b.contents.take end_ ++ b.contents.drop (end_ + k) := by
  have hlt := h.capacity_lt
  have hcap := h.len_le
  have hleft : ((b.contents.take end_ ++ b.contents.drop (end_ + k)) : Block).length = b.len - k := by
    rw [List.length_append, List.length_take, List.length_drop, h.length_contents]
    omega
  have hwrap : sizeSub end_ begin_ = 2 ^ 64 - (begin_ - end_) := by
    rw [sizeSub_wrap (by omega) hback]
    omega
  rw [remove_ordered, hwrap]
  by_cases hover : begin_ + count < 2 ^ 64
  · have hmin : min count (2 ^ 64 - (begin_ - end_)) = count := Nat.min_eq_left (by omega)
    have hadd : sizeAdd begin_ count = begin_ + count := sizeAdd_eq hover
    rw [hmin, hadd, Nat.min_eq_left (by omega), Nat.max_eq_right (by omega),
      remove_leaves_iff h (by omega) (by unfold ULONG_MAX; omega) (by omega) (by omega)]
    constructor
    · exact fun hr => .inr ⟨hover, hr⟩
    · rintro (⟨-, hcount, -⟩ | ⟨-, hr⟩)
      · omega
      · exact hr
  · obtain ⟨c, hc, hcount', hgap⟩ : ∃ c, min count (2 ^ 64 - (begin_ - end_)) = c ∧
        2 ^ 64 ≤ begin_ + c ∧ begin_ + c ≤ 2 ^ 64 + end_ ∧
        (begin_ + c = 2 ^ 64 + end_ ↔ 2 ^ 64 ≤ count + (begin_ - end_)) :=
      ⟨_, rfl, by omega, by omega, by omega⟩
    obtain ⟨w, hw⟩ := Nat.exists_eq_add_of_le hcount'
    have hadd : sizeAdd begin_ c = w := by
      rw [sizeAdd, hw]
      omega
    rw [hc, hadd, Nat.min_eq_right (by omega), Nat.max_eq_left (by omega),
      remove_leaves_iff h (by omega) (by unfold ULONG_MAX; omega) (by omega) (by omega)]
    constructor
    · rintro ⟨hok, hsame⟩
      have hsize := congrArg List.length hsame
      rw [hleft, List.length_append, List.length_take, List.length_drop, h.length_contents,
        Nat.min_eq_left (by omega)] at hsize
      obtain rfl : w = end_ := by omega
      exact .inl ⟨by omega, hgap.2.mp hw, hok⟩
    · rintro (⟨hall, hcount, hok⟩ | ⟨hsum, -⟩)
      · obtain rfl : w = end_ := by
          have hsum := hgap.2.mpr hcount
          omega
        exact ⟨hok, by rw [hall, Nat.add_sub_cancel' (Nat.le_of_lt hback)]⟩
      · exact absurd hsum hover

theorem copyBlockAndDrain_iff (h : b.WF) (hin : max begin_ end_ ≤ b.len) (hcount : count ≤ ULONG_MAX)
    (hk : k = min count (max begin_ end_ - min begin_ end_)) (hdst : k ≤ dst.length) :
    Drains b (min begin_ end_) k dst (copyBlockAndDrain b begin_ end_ (some dst) count) ↔
      BlockDrainable b begin_ end_ count k := by
  rw [BlockDrainable]
  by_cases hend : max begin_ end_ = b.len
  · rw [Drains, copyBlockAndDrain_refused hend]
    constructor
    · rintro ⟨e, b', hr, hcont⟩
      simp only [Except.ok.injEq, Prod.mk.injEq] at hr
      obtain ⟨-, -, rfl⟩ := hr
      have hsize := congrArg List.length hcont
      rw [List.length_append, List.length_take, List.length_drop, h.length_contents] at hsize
      exact .inl ⟨hend, by omega⟩
    · rintro (⟨-, hzero⟩ | ⟨hlt, -⟩)
      · refine ⟨.badIndex, b, ?_, ?_⟩
        · rw [hzero, delivered, List.take_zero, overwrite_nil]
        · rw [hzero, Nat.add_zero, List.take_append_drop]
      · exact absurd hend (Nat.ne_of_lt hlt)
  · have hlt : max begin_ end_ < b.len := Nat.lt_of_le_of_ne hin hend
    have heq := @copyBlockAndDrain_eq b dst begin_ end_ count h hlt (hk ▸ hdst)
    rw [← hk] at heq
    rw [drains_iff heq, or_iff_right (fun hr => hend hr.1), and_iff_right hlt]
    rcases Nat.lt_or_ge end_ begin_ with hback | hfwd
    · rw [Nat.min_eq_right (Nat.le_of_lt hback), Nat.max_eq_left (Nat.le_of_lt hback)] at *
      rw [if_neg (Nat.not_le.mpr hback)]
      exact remove_backward_iff h hback hlt (lt_of_le_max hcount) (by omega) (by omega)
    · rw [Nat.min_eq_left hfwd, Nat.max_eq_right hfwd] at *
      rw [if_pos hfwd]
      exact remove_forward_iff h hfwd hlt (by omega) hk.symm

end CopyBlock

section Runs

/-- A drain from the front into some memory, and the bytes that it delivers. -/
def drainStep (b : BinaryBuffer) (i : Block × Nat) : Outcome (Block × BinaryBuffer) := do
  let (_, to_, b') ← b.copyAndDrain (some i.1) i.2
  return ((to_.getD []).take (min i.2 b.len), b')

/-- The same of a list. -/
def listDrain (l : Block) (i : Block × Nat) : Block × Block := (l.take i.2, l.drop i.2)

theorem trace_listDrain (is : List (Block × Nat)) : ∀ l : Block,
    (trace listDrain l is).1.flatten ++ (trace listDrain l is).2 = l := by
  induction is with
  | nil => intro l; rfl
  | cons i is ih =>
    intro l
    rw [trace, List.flatten_cons, List.append_assoc, ih]
    exact List.take_append_drop i.2 l

theorem delivered_take (h : b.WF) (hin : k ≤ b.len) :
    (delivered b 0 k dst).take k = b.contents.take k := by
  have hlen : (b.contents.take k).length = 0 + k := by
    rw [List.length_take, h.length_contents]
    omega
  rw [delivered, List.drop_zero, overwrite, List.take_zero, List.nil_append]
  exact List.take_left' (by omega)

theorem drainStep_simulates (b : BinaryBuffer) (l : Block) (i : Block × Nat)
    (hb : b.WF ∧ b.contents = l) (hok : min i.2 b.len ≤ i.1.length ∧ Drainable b i.2) :
    ∃ b', drainStep b i = .ok ((listDrain l i).1, b') ∧ b'.WF ∧ b'.contents = (listDrain l i).2 := by
  obtain ⟨h, rfl⟩ := hb
  obtain ⟨b', hr, hwf, hcont⟩ := hok.2.copyAndDrain_eq h hok.1
  refine ⟨b', ?_, hwf, hcont⟩
  have htake : b.contents.take (min i.2 b.len) = b.contents.take i.2 := by
    rw [← h.length_contents, ← List.take_take, List.take_length]
  rw [drainStep, hr, ok_bind]
  dsimp only
  rw [Option.getD_some, delivered_take h (by omega), htake]
  rfl

end Runs

/-- Which drains deliver the first bytes asked for and remove just these. In a run of drains from
the front that do, what was delivered and what is left make up what was stored. -/
theorem drains_conserve (h : b.WF) :
    (∀ count dst, min count b.len ≤ dst.length →
      (Drains b 0 (min count b.len) dst (copyAndDrain b (some dst) count) ↔ Drainable b count)) ∧
    (∀ begin_ end_ count k dst, max begin_ end_ ≤ b.len → count ≤ ULONG_MAX →
      k = min count (max begin_ end_ - min begin_ end_) → k ≤ dst.length →
      (Drains b (min begin_ end_) k dst (copyBlockAndDrain b begin_ end_ (some dst) count) ↔
        BlockDrainable b begin_ end_ count k)) ∧
    ∀ is, AllSteps drainStep (fun b i => min i.2 b.len ≤ i.1.length ∧ Drainable b i.2) b is →
      ∃ os b', run drainStep b is = .ok (os, b') ∧ os.flatten ++ b'.contents = b.contents := by
  refine ⟨fun count dst hdst => copyAndDrain_iff h hdst,
    fun begin_ end_ count k dst hin hcount hk hdst => copyBlockAndDrain_iff h hin hcount hk hdst,
    fun is hok => ?_⟩
  obtain ⟨b', hr, -, hcont⟩ := run_simulates_steps drainStep_simulates is b b.contents ⟨h, rfl⟩ hok
  exact ⟨_, b', hr, by rw [hcont]; exact trace_listDrain is b.contents⟩

/-- Two bytes of four from the front, a range of two of them, and all of them in two drains. -/
theorem drains_conserve_four :
    Drains ⟨some [1, 2, 3, 4], 4, 4, 1, 1⟩ 0 2 [0, 0, 0]
      (copyAndDrain ⟨some [1, 2, 3, 4], 4, 4, 1, 1⟩ (some [0, 0, 0]) 2) ∧
    Drains ⟨some [1, 2, 3, 4], 4, 4, 1, 1⟩ 0 2 [0, 0]
      (copyBlockAndDrain ⟨some [1, 2, 3, 4], 4, 4, 1, 1⟩ 0 2 (some [0, 0]) 7) ∧
    ∃ os b', run drainStep ⟨some [1, 2, 3, 4], 4, 4, 1, 1⟩ [([0, 0], 2), ([0, 0, 0], 5)] =
      .ok (os, b') ∧ os.flatten ++ b'.contents = [1, 2, 3, 4] := by
  obtain ⟨hfront, hblock, hrun⟩ := @drains_conserve ⟨some [1, 2, 3, 4], 4, 4, 1, 1⟩
    ⟨rfl, by decide, by decide, by decide, by decide, by decide⟩
  refine ⟨(hfront 2 [0, 0, 0] (by decide)).mpr (.inr ⟨by decide, by decide⟩),
    (hblock 0 2 7 2 [0, 0] (by decide) (by decide) (by decide) (by decide)).mpr
      (.inr ⟨by decide, by rw [if_pos (by decide)]; exact .inr ⟨by decide, by decide⟩⟩),
    hrun _ ?_⟩
  refine AllSteps.cons ⟨by decide, .inr ⟨by decide, by decide⟩⟩
    (show drainStep _ _ = .ok ([1, 2], ⟨some [3, 4, 3, 4], 2, 4, 1, 1⟩) by decide) ?_
  exact ⟨⟨by decide, .inl (by decide)⟩, fun _ _ _ => trivial⟩

/-- Two bytes of three are delivered and all three removed. A range up to the end is refused, and
one whose ends are swapped is copied from its beginning and removed from its end. -/
theorem drains_lose_bytes :
    copyAndDrain ⟨some [1, 2, 3], 3, 3, 1, 1⟩ (some [0, 0]) 2 =
      .ok (.ok, some [1, 2], ⟨some [1, 2, 3], 0, 3, 1, 1⟩) ∧
    ¬Drains ⟨some [1, 2, 3], 3, 3, 1, 1⟩ 0 2 [0, 0]
      (copyAndDrain ⟨some [1, 2, 3], 3, 3, 1, 1⟩ (some [0, 0]) 2) ∧
    copyBlockAndDrain ⟨some [1, 2, 3], 3, 3, 1, 1⟩ 1 3 (some [0, 0]) 2 =
      .ok (.badIndex, some [0, 0], ⟨some [1, 2, 3], 3, 3, 1, 1⟩) ∧
    copyBlockAndDrain ⟨some [1, 2, 3], 3, 3, 1, 1⟩ 2 0 (some [0, 0]) 2 =
      .ok (.ok, some [1, 2], ⟨some [1, 2, 3], 2, 3, 1, 1⟩) := by
  have hr : copyAndDrain ⟨some [1, 2, 3], 3, 3, 1, 1⟩ (some [0, 0]) 2 =
      .ok (.ok, some [1, 2], ⟨some [1, 2, 3], 0, 3, 1, 1⟩) := by decide
  refine ⟨hr, fun ⟨e, b', hr', hcont⟩ => ?_, by decide, by decide⟩
  rw [hr] at hr'
  cases hr'
  exact absurd hcont (by decide)

end AlibC.BinaryBuffer
