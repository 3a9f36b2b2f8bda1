import AlibC.BinaryBufferInvariant

/-! Removing a range from a `BinaryBuffer`. -/
namespace AlibC.BinaryBuffer

open CLang

variable {al : Alloc UInt8} {b b' : BinaryBuffer} {lo hi begin_ end_ : Nat}

/-- The order of the two indices does not matter. -/
theorem remove_ordered (b : BinaryBuffer) (begin_ end_ : Nat) :
    remove b begin_ end_ = remove b (min begin_ end_) (max begin_ end_) := by
  have hsame : (if min begin_ end_ > max begin_ end_ then (max begin_ end_, min begin_ end_)
      else (min begin_ end_, max begin_ end_)) = (min begin_ end_, max begin_ end_) :=
    if_neg (by omega)
  rw [remove, ordered_eq, remove, hsame]

/-- From the last byte on everything is taken for the end. -/
theorem remove_to_end (hlo : lo ≤ hi) (hhi : sizeSub b.len 1 ≤ hi) :
    remove b lo hi = .ok (.ok, { b with len := lo }) := by
  rw [remove, if_neg (Nat.not_lt.mpr hlo)]
  exact if_pos hhi

theorem remove_before_end (hlo : lo ≤ hi) (hhi : hi < sizeSub b.len 1) :
    remove b lo hi = (do
      let p ← memcpyWithin b.buff lo hi (sizeSub b.len hi)
      return (.ok, { b with buff := p, len := sizeSub b.len (sizeSub hi lo) })) := by
  rw [remove, if_neg (Nat.not_lt.mpr hlo)]
  exact if_neg (Nat.not_le.mpr hhi)

/-- The bytes behind the range move to the front, if that is not onto themselves. -/
theorem remove_inner (h : b.WF) (hlo : lo ≤ hi) (hhi : hi + 1 < b.len)
    (hgap : b.len - hi ≤ hi - lo) :
    ∃ b', remove b lo hi = .ok (.ok, b') ∧ b'.WF ∧
      b'.contents = b.contents.take lo ++ b.contents.drop hi ∧ b'.capacity = b.capacity := by
  have hle := h.len_le
  have hlt := h.capacity_lt
  obtain ⟨blk, hb, hl⟩ := h.buff_eq_some (by omega)
  have hcont : blk.take b.len = b.contents := by rw [contents, hb, Option.getD_some]
  have hlen := h.length_contents
  have hfront : blk.take lo = b.contents.take lo := by
    rw [← hcont, List.take_take, Nat.min_eq_left (by omega)]
  have htail : (blk.drop hi).take (b.len - hi) = b.contents.drop hi := by
    rw [← hcont, List.drop_take]
  have htlen : (b.contents.drop hi).length = b.len - hi := by rw [List.length_drop, hlen]
  have hlast : sizeSub b.len 1 = b.len - 1 := sizeSub_eq (by omega) (by omega)
  have hrest : sizeSub b.len hi = b.len - hi := sizeSub_eq (by omega) (by omega)
  have hnew : sizeSub b.len (sizeSub hi lo) = lo + (b.len - hi) := by
    rw [sizeSub_eq (show hi < 2 ^ 64 by omega) hlo, sizeSub_eq (by omega) (by omega)]
    omega
  have hmove : memcpyWithin (some blk) lo hi (b.len - hi) =
      .ok (some (overwrite blk lo (b.contents.drop hi))) := by
    rw [memcpyWithin_some (.inr (.inr (by omega))) (by omega) (by omega), htail]
  refine ⟨{ b with
    buff := some (overwrite blk lo (b.contents.drop hi)), len := lo + (b.len - hi) }, ?_,
    h.rewritten hb (length_overwrite (by omega)) (by omega), ?_, rfl⟩
  · rw [remove_before_end hlo (by omega), hb, hrest, hmove, ok_bind, hnew]
    rfl
  · rw [contents, ← htlen]
    dsimp only
    rw [Option.getD_some, take_overwrite (by omega), hfront]

/-- The ranges that are removed as they should be: those that begin in the buffer and reach its end,
and those that end before the last byte and are not shorter than what is behind them. -/
def Removable (b : BinaryBuffer) (lo hi : Nat) : Prop :=
  lo ≤ b.len ∧ b.len ≤ hi ∧ (b.len = 0 → hi = 0 ∨ hi = ULONG_MAX) ∨
  hi + 1 < b.len ∧ b.len - hi ≤ hi - lo

theorem Removable.remove_eq (hr : Removable b lo hi) (h : b.WF) (hlo : lo ≤ hi) :
    ∃ b', remove b lo hi = .ok (.ok, b') ∧ b'.WF ∧
      b'.contents = b.contents.take lo ++ b.contents.drop hi := by
  rcases hr with ⟨hin, hend, hempty⟩ | ⟨hend, hgap⟩
  · have hdrop : b.contents.drop hi = [] := List.drop_eq_nil_of_le (by rw [h.length_contents]; exact hend)
    rw [hdrop, List.append_nil]
    by_cases hlen : b.len = 0
    · obtain rfl : lo = 0 := by omega
      have hwf : b.clearNoResize.WF := h.clearNoResize
      refine ⟨b.clearNoResize, ?_, hwf, by rw [contents_of_len_zero rfl, List.take_zero]⟩
      rcases hempty hlen with rfl | rfl
      · rw [remove_before_end (Nat.le_refl 0) (by rw [hlen]; decide), hlen]
        rfl
      · rw [remove_to_end (Nat.zero_le _) (by rw [hlen]; decide)]
        rfl
    · obtain ⟨b', hr, hwf, hcont, -⟩ := remove_tail h hlo (by omega) (by omega) hin
      exact ⟨b', hr, hwf, hcont⟩
  · obtain ⟨b', hr, hwf, hcont, -⟩ := remove_inner h hlo hend hgap
    exact ⟨b', hr, hwf, hcont⟩

/-- What a removal that ends comes to. -/
theorem remove_cases {e : AlibError} (h : b.WF) (hlo : lo ≤ hi) (hhi : hi ≤ ULONG_MAX)
    (hr : remove b lo hi = .ok (e, b')) :
    Removable b lo hi ∨ b'.len = lo ∧ (b.len < lo ∨ hi + 1 = b.len) := by
  have hle := h.len_le
  have hlt := h.capacity_lt
  unfold ULONG_MAX at hhi
  by_cases hlen : b.len = 0
  · have hlast : sizeSub b.len 1 = 2 ^ 64 - 1 := by
      rw [hlen]
      rfl
    by_cases hend : hi = ULONG_MAX
    · rw [remove_to_end hlo (by rw [hlast, hend]; decide)] at hr
      cases hr
      by_cases hzero : lo = 0
      · exact .inl (.inl ⟨by omega, by omega, fun _ => .inr hend⟩)
      · exact .inr ⟨rfl, .inl (by omega)⟩
    · unfold ULONG_MAX at hend
      rw [remove_before_end hlo (by omega)] at hr
      obtain ⟨p, hmove, -⟩ := bind_eq_ok.mp hr
      by_cases hzero : hi = 0
      · exact .inl (.inl ⟨by omega, by omega, fun _ => .inl hzero⟩)
      · have hcount : sizeSub b.len hi = 2 ^ 64 - hi := by
          rw [hlen, sizeSub_wrap (by omega) (by omega)]
          omega
        obtain ⟨-, blk, hb, hin⟩ := memcpyWithin_inv hmove (by omega)
        have hblk : blk.length = b.capacity := by rw [← h.block, hb, Option.getD_some]
        omega
  · have hlast : sizeSub b.len 1 = b.len - 1 := sizeSub_eq (by omega) (by omega)
    by_cases hend : b.len ≤ hi + 1
    · rw [remove_to_end hlo (by omega)] at hr
      cases hr
      by_cases hin : lo ≤ b.len ∧ b.len ≤ hi
      · exact .inl (.inl ⟨hin.1, hin.2, fun hz => absurd hz hlen⟩)
      · exact .inr ⟨rfl, by omega⟩
    · rw [remove_before_end hlo (by omega)] at hr
      obtain ⟨p, hmove, -⟩ := bind_eq_ok.mp hr
      rw [sizeSub_eq (by omega) (by omega)] at hmove
      obtain ⟨hapart, -⟩ := memcpyWithin_inv hmove (by omega)
      exact .inl (.inr ⟨by omega, by omega⟩)

/-- Which removals leave the bytes `l`, which are more than those in front of the range when the
last byte is the one behind it. -/
theorem remove_leaves_iff (h : b.WF) (hlo : lo ≤ hi) (hhi : hi ≤ ULONG_MAX) (hin : lo ≤ b.len)
    {l : Block} (hl : hi + 1 = b.len → lo < l.length) :
    (∃ e b', remove b lo hi = .ok (e, b') ∧ b'.contents = l) ↔
      Removable b lo hi ∧ b.contents.take lo ++ b.contents.drop hi = l := by
  constructor
  · rintro ⟨e, b', hr, hcont⟩
    rcases remove_cases h hlo hhi hr with hok | ⟨hlen, hbad⟩
    · obtain ⟨b'', hr', -, hcont'⟩ := hok.remove_eq h hlo
      rw [hr] at hr'
      cases hr'
      exact ⟨hok, hcont'.symm.trans hcont⟩
    · -- the length that is set is not that of what is left
      have hshort : b'.contents.length ≤ b'.len := List.length_take_le _ _
      rw [hcont] at hshort
      omega
  · rintro ⟨hok, hleft⟩
    obtain ⟨b', hr, -, hcont⟩ := hok.remove_eq h hlo
    exact ⟨.ok, b', hr, hcont.trans hleft⟩

/-- The bytes of the range go, and no others. -/
def Removes (b : BinaryBuffer) (begin_ end_ : Nat) : Prop :=
  ∃ b', remove b begin_ end_ = .ok (.ok, b') ∧
    b'.contents = b.contents.take (min begin_ end_) ++ b.contents.drop (max begin_ end_) ∧
    b'.len ≤ b.len ∧ b'.len ≤ b'.capacity

theorem remove_removes_iff (h : b.WF) (hbegin : begin_ ≤ ULONG_MAX) (hend : end_ ≤ ULONG_MAX) :
    Removes b begin_ end_ ↔ Removable b (min begin_ end_) (max begin_ end_) := by
  have hlo : min begin_ end_ ≤ max begin_ end_ := by omega
  have hhi : max begin_ end_ ≤ ULONG_MAX := by omega
  rw [Removes, remove_ordered]
  generalize min begin_ end_ = lo at *
  generalize max begin_ end_ = hi at *
  have hlen := h.length_contents
  constructor
  · rintro ⟨b', hr, hcont, hle, -⟩
    by_cases hin : lo ≤ b.len
    · exact ((remove_leaves_iff h hlo hhi hin (fun hlast => by
        rw [List.length_append, List.length_take, List.length_drop]
        omega)).mp ⟨.ok, b', hr, hcont⟩).1
    · rcases remove_cases h hlo hhi hr with hok | ⟨hlen', -⟩
      · exact hok
      · omega
  · intro hok
    obtain ⟨b', hr, hwf, hcont⟩ := hok.remove_eq h hlo
    refine ⟨b', hr, hcont, ?_, hwf.len_le⟩
    have hlen' := congrArg List.length hcont
    rw [hwf.length_contents, List.length_append, List.length_take, List.length_drop] at hlen'
    omega

/-- Half of four bytes is removed from the front. -/
theorem remove_removes_three : Removes ⟨some [1, 2, 3, 4], 4, 4, 1, 1⟩ 2 0 :=
  (remove_removes_iff ⟨rfl, by decide, by decide, by decide, by decide, by decide⟩ (by decide)
    (by decide)).mpr (.inr ⟨by decide, by decide⟩)

/-- When a byte is left behind the range it goes too, more of them are copied onto themselves, and
an empty buffer grows. -/
theorem remove_fails :
    remove ⟨some [1, 2, 3], 3, 3, 1, 1⟩ 0 2 = .ok (.ok, ⟨some [1, 2, 3], 0, 3, 1, 1⟩) ∧
    ¬Removes ⟨some [1, 2, 3], 3, 3, 1, 1⟩ 0 2 ∧
    remove ⟨some [1, 2, 3], 3, 3, 1, 1⟩ 0 1 = .error .overlap ∧
    remove ⟨some [1, 2, 3], 0, 3, 1, 1⟩ 7 ULONG_MAX = .ok (.ok, ⟨some [1, 2, 3], 7, 3, 1, 1⟩) := by
  have hr : remove ⟨some [1, 2, 3], 3, 3, 1, 1⟩ 0 2 = .ok (.ok, ⟨some [1, 2, 3], 0, 3, 1, 1⟩) := by
    decide
  refine ⟨hr, fun ⟨b', hr', hcont, _⟩ => ?_, by decide, by decide⟩
  rw [hr] at hr'
  cases hr'
  exact absurd hcont (by decide)

/-- The bytes of one range are copied to another one that may share some with it. -/
def Moves (blk : Block) (t f count : Nat) : Prop :=
  ∃ blk', memcpySafe (some blk) t f count = .ok (some blk') ∧
    Copied blk blk' t count ((blk.drop f).take count)

/-- A copy to the front is left to `memcpy`, which is right for ranges that lie apart. -/
theorem memcpySafe_moves_iff {blk : Block} {t f count : Nat} (ht : t + count ≤ blk.length)
    (hf : f + count ≤ blk.length) :
    Moves blk t f count ↔ f < t ∨ t + count ≤ f ∨ count = 0 := by
  have hlen : ((blk.drop f).take count).length = count :=
    List.length_take_of_le (by rw [List.length_drop]; omega)
  have hcopied : Copied blk _ t count _ := copied_overwrite (hlen.symm ▸ ht) (Nat.le_of_eq hlen)
  by_cases hback : f < t
  · have hr : memcpySafe (some blk) t f count =
        .ok (some (overwrite blk t ((blk.drop f).take count))) := by
      rw [memcpySafe, if_pos hback, memcpyBack_eq (Nat.le_of_lt hback) ht]
    exact ⟨fun _ => .inl hback, fun _ => ⟨_, hr, hcopied⟩⟩
  · have hr : memcpySafe (some blk) t f count = memcpyWithin (some blk) t f count := if_neg hback
    rw [Moves, hr]
    constructor
    · rintro ⟨blk', hmove, -⟩
      by_cases h0 : count = 0
      · exact .inr (.inr h0)
      · obtain ⟨hapart, -⟩ := memcpyWithin_inv hmove h0
        omega
    · intro hapart
      exact ⟨_, memcpyWithin_some (by omega) ht hf, hcopied⟩

/-- A removal that ends moves nothing, or bytes that are not more than those removed. -/
theorem remove_defined_iff (h : b.WF) (hbegin : begin_ ≤ ULONG_MAX) (hend : end_ ≤ ULONG_MAX) :
    (∃ r, remove b begin_ end_ = .ok r) ↔
      sizeSub b.len 1 ≤ max begin_ end_ ∨ (b.len = 0 ∧ max begin_ end_ = 0) ∨
        max begin_ end_ + 1 < b.len ∧
          b.len - max begin_ end_ ≤ max begin_ end_ - min begin_ end_ := by
  have hlo : min begin_ end_ ≤ max begin_ end_ := by omega
  have hhi : max begin_ end_ ≤ ULONG_MAX := by omega
  rw [remove_ordered]
  generalize min begin_ end_ = lo at *
  generalize max begin_ end_ = hi at *
  have hle := h.len_le
  have hlt := h.capacity_lt
  constructor
  · rintro ⟨⟨e, b'⟩, hr⟩
    rcases remove_cases h hlo hhi hr with (⟨hin, hlast, hempty⟩ | hok) | ⟨-, hbad⟩
    · by_cases hlen : b.len = 0
      · rcases hempty hlen with rfl | rfl
        · exact .inr (.inl ⟨hlen, rfl⟩)
        · exact .inl (by rw [hlen]; decide)
      · exact .inl (by rw [sizeSub_eq (by omega) (by omega)]; omega)
    · exact .inr (.inr hok)
    · by_cases hmove : sizeSub b.len 1 ≤ hi
      · exact .inl hmove
      · -- behind an index past the end the subtraction has wrapped around
        have hpast : b.len < lo := by
          rcases hbad with hpast | hlast
          · exact hpast
          · rw [sizeSub_eq (by omega) (by omega)] at hmove
            omega
        rw [remove_before_end hlo (by omega)] at hr
        obtain ⟨p, hcopy, -⟩ := bind_eq_ok.mp hr
        have hlen : b.len = 0 := by
          by_contra hne
          rw [sizeSub_eq (by omega) (by omega)] at hmove
          omega
        unfold ULONG_MAX at hhi
        rw [hlen, sizeSub_wrap (by omega) (by omega)] at hcopy
        obtain ⟨-, blk, hb, hin⟩ := memcpyWithin_inv hcopy (by omega)
        have hblk : blk.length = b.capacity := by rw [← h.block, hb, Option.getD_some]
        omega
  · rintro (hlast | ⟨hlen, rfl⟩ | hok)
    · exact ⟨_, remove_to_end hlo hlast⟩
    · obtain rfl : lo = 0 := by omega
      rw [remove_before_end (Nat.le_refl 0) (by rw [hlen]; decide), hlen]
      exact ⟨_, rfl⟩
    · obtain ⟨b', hr, -⟩ := remove_inner h hlo hok.1 hok.2
      exact ⟨_, hr⟩

/-- Which moves of bytes inside a block are defined, whether asked for or made by a removal. -/
theorem moves_defined_iff (h : b.WF) (hbegin : begin_ ≤ ULONG_MAX) (hend : end_ ≤ ULONG_MAX)
    {blk : Block} {t f count : Nat} (ht : t + count ≤ blk.length) (hf : f + count ≤ blk.length) :
    (Moves blk t f count ↔ f < t ∨ t + count ≤ f ∨ count = 0) ∧
      ((∃ r, remove b begin_ end_ = .ok r) ↔
        sizeSub b.len 1 ≤ max begin_ end_ ∨ (b.len = 0 ∧ max begin_ end_ = 0) ∨
          max begin_ end_ + 1 < b.len ∧
            b.len - max begin_ end_ ≤ max begin_ end_ - min begin_ end_) :=
  ⟨memcpySafe_moves_iff ht hf, remove_defined_iff h hbegin hend⟩

/-- Two of three bytes are moved to the back, and two of four removed from the front. -/
theorem moves_defined_two :
    (Moves [1, 2, 3] 1 0 2 ↔ 0 < 1 ∨ 1 + 2 ≤ 0 ∨ 2 = 0) ∧
      ((∃ r, remove ⟨some [1, 2, 3, 4], 4, 4, 1, 1⟩ 0 2 = .ok r) ↔
        sizeSub 4 1 ≤ max 0 2 ∨ (4 = 0 ∧ max 0 2 = 0) ∨ max 0 2 + 1 < 4 ∧
          4 - max 0 2 ≤ max 0 2 - min 0 2) :=
  moves_defined_iff ⟨rfl, by decide, by decide, by decide, by decide, by decide⟩ (by decide)
    (by decide) (by decide) (by decide)

/-- To the front, and over themselves, bytes are copied with `memcpy` also when the ranges overlap. -/
theorem moves_overlap :
    memcpySafe (some ([1, 2, 3] : Block)) 0 1 2 = .error .overlap ∧ ¬Moves [1, 2, 3] 0 1 2 ∧
    memcpySafe (some ([1, 2, 3] : Block)) 1 1 2 = .error .overlap ∧
    remove ⟨some [1, 2, 3], 3, 3, 1, 1⟩ 0 1 = .error .overlap := by
  have hr : memcpySafe (some ([1, 2, 3] : Block)) 0 1 2 = .error .overlap := by decide
  refine ⟨hr, fun ⟨blk', hr', _⟩ => ?_, by decide, by decide⟩
  rw [hr] at hr'
  cases hr'

end AlibC.BinaryBuffer
