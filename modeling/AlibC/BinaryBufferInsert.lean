import AlibC.BinaryBufferInvariant

/-! Inserting into a `BinaryBuffer`, and the lengths that `append` and `insert` accept. -/
namespace AlibC.BinaryBuffer

open CLang

variable {al : Alloc UInt8} {b : BinaryBuffer} {data : Block} {index dataLen : Nat}

section Insert

/-- What the memory contains at the last of `n` places once it has room for them. -/
def roomLast (al : Alloc UInt8) (b : BinaryBuffer) (n : Nat) : Option UInt8 :=
  match ensureRoom al b n with
  | .ok (_, b) => (b.buff.getD [])[n - 1]?
  | .error _ => none

/-- The call is an insertion into the list of the stored bytes, or refuses the index. -/
def Inserts (al : Alloc UInt8) (b : BinaryBuffer) (index : Nat) (data : Block) (dataLen : Nat) :
    Prop :=
  if index ≤ b.len then
    ∃ b', insert al b index (some data) dataLen = .ok (.ok, b') ∧
      b'.contents = b.contents.take index ++ data.take dataLen ++ b.contents.drop index ∧
      b'.len = b.len + dataLen
  else insert al b index (some data) dataLen = .ok (.badIndex, b)

/-- What `insert` does once there is room. -/
theorem insert_room (hmax : b.len + dataLen < 2 ^ 64) (hin : index ≤ b.len) {b₁ : BinaryBuffer}
    (hroom : ensureRoom al b (b.len + dataLen) = .ok (.ok, b₁)) :
    insert al b index (some data) dataLen = (do
      let p ← memcpyBack b₁.buff (index + dataLen) index (sizeSub b₁.len (index + 1))
      let p ← memcpy p index (some data) 0 dataLen
      return (.ok, { b₁ with buff := p, len := b.len + dataLen })) := by
  have hadd : sizeAdd b.len dataLen = b.len + dataLen := sizeAdd_eq hmax
  rw [insert, if_neg (Option.some_ne_none data), if_neg (Nat.not_lt.mpr hin), hadd,
    if_neg (by unfold ULONG_MAX; omega)]
  dsimp only
  rw [hroom, ok_bind]
  rfl

/-- In front of a stored byte all but the last byte move, and where that belongs stays what the
memory contains. -/
theorem insert_inner (hal : al.Succeeds) (h : b.WF) (hd : dataLen ≤ data.length)
    (hmax : b.len + dataLen < 2 ^ 64) (hin : index < b.len) :
    ∃ b' x, insert al b index (some data) dataLen = .ok (.ok, b') ∧
      roomLast al b (b.len + dataLen) = some x ∧ b'.WF ∧
      b'.contents = b.contents.take index ++ data.take dataLen ++
        ((b.contents.drop index).dropLast ++ [x]) ∧
      b'.len = b.len + dataLen ∧ (b.len + dataLen ≤ b.capacity → b'.capacity = b.capacity) := by
  obtain ⟨b₁, hroom, hwf, hcap, hcont, hlen, -⟩ := ensureRoom_eq hal h hmax
  obtain ⟨blk, hb, hl⟩ := hwf.buff_eq_some (by omega)
  have hc := hwf.capacity_lt
  have htake : blk.take b.len = b.contents := by rw [← hcont, contents, hb, hlen, Option.getD_some]
  have hfront : blk.take index = b.contents.take index := by
    rw [← htake, List.take_take, Nat.min_eq_left (Nat.le_of_lt hin)]
  have hcount : sizeSub b₁.len (index + 1) = b.len - (index + 1) := by
    rw [hlen, sizeSub_eq (by omega) (by omega)]
  have hnew : (data.take dataLen).length = dataLen := List.length_take_of_le hd
  have hmlen : ((blk.drop index).take (b.len - (index + 1))).length = b.len - (index + 1) :=
    List.length_take_of_le (by rw [List.length_drop]; omega)
  have hback : memcpyBack (some blk) (index + dataLen) index (b.len - (index + 1)) =
      .ok (some (overwrite blk (index + dataLen)
        ((blk.drop index).take (b.len - (index + 1))))) :=
    memcpyBack_eq (Nat.le_add_right _ _) (by omega)
  have hlt : b.len + dataLen - 1 < blk.length := by omega
  have hshift := take_overwrite_shift hin hnew hlt
  rw [hfront, htake] at hshift
  generalize hblk₁ : overwrite blk (index + dataLen)
    ((blk.drop index).take (b.len - (index + 1))) = blk₁ at hback hshift
  have hlen₁ : blk₁.length = blk.length := by rw [← hblk₁, length_overwrite (by omega)]
  have hcopy : memcpy (some blk₁) index (some data) 0 dataLen =
      .ok (some (overwrite blk₁ index (data.take dataLen))) := by
    rw [memcpy_some (by omega) (by omega), List.drop_zero]
  refine ⟨{ b₁ with
    buff := some (overwrite blk₁ index (data.take dataLen)), len := b.len + dataLen },
    blk[b.len + dataLen - 1], ?_, ?_, hwf.rewritten hb ?_ hcap,
    hshift, rfl, fun hfit => ?_⟩
  · rw [insert_room hmax (Nat.le_of_lt hin) hroom, hb, hcount, hback, ok_bind, hcopy]
    rfl
  · rw [roomLast, hroom]
    dsimp only
    rw [hb]
    exact List.getElem?_eq_getElem hlt
  · rw [length_overwrite (by omega), hlen₁]
  · have hsame : ensureRoom al b (b.len + dataLen) = .ok (.ok, b) := if_neg (Nat.not_lt.mpr hfit)
    rw [hroom] at hsame
    cases hsame
    rfl

/-- The insertion behind the stored bytes that ends: of nothing, into nothing. -/
def EndInsertable (b : BinaryBuffer) (dataLen : Nat) : Prop :=
  b.len = 0 ∧ dataLen = 0 ∧ (b.capacity = 0 ∨ b.capacity = ULONG_MAX)

/-- Behind the stored bytes the number of bytes to move wraps around. -/
theorem insert_end (hal : al.Succeeds) (h : b.WF) (hmax : b.len + dataLen < 2 ^ 64) :
    (EndInsertable b dataLen → insert al b b.len (some data) dataLen = .ok (.ok, b)) ∧
    (¬EndInsertable b dataLen →
      insert al b b.len (some data) dataLen = .error .outOfBounds) := by
  obtain ⟨b₁, hroom, hwf, hcap, -, hlen, -⟩ := ensureRoom_eq hal h hmax
  have hle := hwf.capacity_lt
  have hcount : sizeSub b₁.len (b.len + 1) = 2 ^ 64 - 1 := by
    rw [hlen]
    unfold sizeSub
    omega
  have hstep := @insert_room al b data b.len dataLen hmax (Nat.le_refl _) b₁ hroom
  rw [hcount] at hstep
  constructor
  · rintro ⟨hlen0, rfl, hcap0⟩
    have hsame : ensureRoom al b (b.len + 0) = .ok (.ok, b) := if_neg (by omega)
    rw [hroom] at hsame
    cases hsame
    have hback : memcpyBack b.buff (b.len + 0) b.len (2 ^ 64 - 1) = .ok b.buff := by
      rw [hlen0]
      cases hb : b.buff with
      | none => rfl
      | some blk =>
        have hl : blk.length = b.capacity := by rw [← h.block, hb, Option.getD_some]
        have hnull := h.null
        rw [hb] at hnull
        have hpos : b.capacity ≠ 0 := fun hc => Option.some_ne_none blk (hnull.mpr hc)
        unfold ULONG_MAX at hcap0
        rw [memcpyBack_eq (Nat.le_refl _) (by omega), overwrite_self (by omega)]
    rw [hstep, hback]
    rfl
  · intro hnot
    have hback : memcpyBack b₁.buff (b.len + dataLen) b.len (2 ^ 64 - 1) = .error .outOfBounds := by
      -- nothing is needed, so that the capacity is the old one
      have hsame : b.len + dataLen = 0 → b₁.capacity = b.capacity := by
        intro hzero
        have hkeep : ensureRoom al b (b.len + dataLen) = .ok (.ok, b) := if_neg (by omega)
        rw [hroom] at hkeep
        cases hkeep
        rfl
      have hno : ¬(b.len + dataLen = 0 ∧ (b₁.capacity = 0 ∨ b₁.capacity = ULONG_MAX)) := by
        rintro ⟨hzero, hcap0⟩
        rw [hsame hzero] at hcap0
        exact hnot ⟨by omega, by omega, hcap0⟩
      unfold ULONG_MAX at hno
      cases hb : b₁.buff with
      | none =>
        have hcap0 := hwf.null.mp hb
        omega
      | some blk =>
        have hl : blk.length = b₁.capacity := by rw [← hwf.block, hb, Option.getD_some]
        exact memcpyBack_fault (by omega) (by omega)
    rw [hstep, hback]
    rfl

/-- Inserting works where the memory happens to contain the last byte already, as it does when
nothing is inserted, and the last byte need not move. -/
theorem insert_inserts_iff (hal : al.Succeeds) (h : b.WF) (hd : dataLen ≤ data.length)
    (hmax : b.len + dataLen ≤ ULONG_MAX) :
    Inserts al b index data dataLen ↔ b.len < index ∨
      (index < b.len ∧ roomLast al b (b.len + dataLen) = b.contents.getLast?) ∨
      (index = b.len ∧ EndInsertable b dataLen) := by
  have hlt := lt_of_le_max hmax
  rw [Inserts]
  rcases Nat.lt_trichotomy index b.len with hin | rfl | hout
  · obtain ⟨b', x, hr, hx, -, hcont, hlen, -⟩ := insert_inner hal h hd hlt hin
    have hne : b.contents.drop index ≠ [] := by
      rw [Ne, List.drop_eq_nil_iff, h.length_contents]
      omega
    have hlast : b.contents.getLast? = some ((b.contents.drop index).getLast hne) := by
      rw [← List.getLast?_eq_some_getLast hne, List.getLast?_drop, if_neg]
      rw [h.length_contents]
      omega
    have hsplit := List.dropLast_append_getLast hne
    rw [if_pos (Nat.le_of_lt hin), hr, hx, hlast]
    constructor
    · rintro ⟨b'', hr', hcont', -⟩
      cases hr'
      rw [hcont, List.append_cancel_left_eq] at hcont'
      conv at hcont' => rhs; rw [← hsplit]
      rw [List.append_cancel_left_eq] at hcont'
      exact .inr (.inl ⟨hin, congrArg some (List.cons.inj hcont').1⟩)
    · intro hcond
      rcases hcond with hout | ⟨-, hbyte⟩ | ⟨rfl, -⟩
      · omega
      · refine ⟨b', rfl, ?_, hlen⟩
        rw [hcont, Option.some.inj hbyte, hsplit]
      · omega
  · obtain ⟨hyes, hno⟩ := @insert_end al b data dataLen hal h hlt
    rw [if_pos (Nat.le_refl _)]
    constructor
    · rintro ⟨b', hr, -⟩
      refine .inr (.inr ⟨rfl, by_contra fun hend => ?_⟩)
      rw [hno hend] at hr
      cases hr
    · intro hcond
      rcases hcond with hout | ⟨hin, -⟩ | ⟨-, hend⟩
      · exact absurd hout (Nat.lt_irrefl _)
      · exact absurd hin (Nat.lt_irrefl _)
      · refine ⟨b, hyes hend, ?_, by rw [hend.2.1, Nat.add_zero]⟩
        rw [contents_of_len_zero hend.1, hend.2.1]
        simp
  · rw [if_neg (Nat.not_le.mpr hout)]
    exact iff_of_true (by rw [insert, if_neg (Option.some_ne_none data), if_pos hout]) (.inl hout)

/-- The byte behind the stored ones is the last of them. -/
theorem insert_inserts_same : Inserts (.filled 0) ⟨some [1, 2, 2], 2, 3, 1, 1⟩ 0 [9] 1 := by
  refine (insert_inserts_iff (Alloc.filled_succeeds 0) ⟨rfl, by decide, by decide, by decide,
    by decide, by decide⟩ (Nat.le_refl 1) (by decide)).mpr (.inr (.inl ⟨by decide, rfl⟩))

/-- One byte is put in front of two, and the second of them is lost; behind them nothing can be
inserted. -/
theorem insert_loses_last :
    insert (.filled 0) ⟨some [1, 2, 0], 2, 3, 1, 1⟩ 0 (some [9]) 1 =
      .ok (.ok, ⟨some [9, 1, 0], 3, 3, 1, 1⟩) ∧
    ¬Inserts (.filled 0) ⟨some [1, 2, 0], 2, 3, 1, 1⟩ 0 [9] 1 ∧
    insert (.filled 0) ⟨some [1, 2, 0], 2, 3, 1, 1⟩ 2 (some [9]) 1 = .error .outOfBounds := by
  have hr : insert (.filled 0) ⟨some [1, 2, 0], 2, 3, 1, 1⟩ 0 (some [9]) 1 =
      .ok (.ok, ⟨some [9, 1, 0], 3, 3, 1, 1⟩) := by decide
  refine ⟨hr, fun hins => ?_, by rfl⟩
  obtain ⟨b', hr', hcont, -⟩ := (if_pos (by decide)).mp hins
  rw [hr] at hr'
  cases hr'
  exact absurd hcont (by decide)

end Insert

section Lengths

/-- A length that does not fit is refused, and one that fits is computed as it is. -/
def RefusesOverflow (b : BinaryBuffer) (dataLen : Nat) (r : Outcome (AlibError × BinaryBuffer)) :
    Prop :=
  if b.len + dataLen ≤ ULONG_MAX then
    sizeAdd b.len dataLen = b.len + dataLen ∧
      ∀ b', r = .ok (.ok, b') → b'.len = b.len + dataLen
  else r = .ok (.internalMaxReached, b)

theorem hardResize_code (al : Alloc UInt8) (b : BinaryBuffer) (n : Nat) :
    (hardResize al b n).1 ≠ .internalMaxReached := by
  intro he
  rw [hardResize] at he
  split at he
  · cases he
  · split at he
    · cases he
    · split at he <;> cases he

theorem ensureRoom_code {n : Nat} {e : AlibError} {b' : BinaryBuffer}
    (h : ensureRoom al b n = .ok (e, b')) : e ≠ .internalMaxReached := by
  rw [ensureRoom] at h
  split at h
  · obtain ⟨newCap, -, h⟩ := bind_eq_ok.mp h
    have he : (resize al b newCap).1 = e := congrArg Prod.fst (Except.ok.inj h)
    exact he ▸ hardResize_code al b _
  · cases h
    exact nofun

/-- Without room the error is another one, and with it what follows decides. -/
theorem code_of_room {n len : Nat} {e₁ e : AlibError} {b₁ b' : BinaryBuffer}
    {r : Outcome (AlibError × BinaryBuffer)} (hroom : ensureRoom al b n = .ok (e₁, b₁))
    (h : (if e₁ ≠ .ok then .ok (e₁, b₁) else r) = .ok (e, b'))
    (hr : r = .ok (e, b') → e = .ok ∧ b'.len = len) :
    e ≠ .internalMaxReached ∧ (e = .ok → b'.len = len) := by
  by_cases he : e₁ ≠ .ok
  · rw [if_pos he] at h
    cases h
    exact ⟨ensureRoom_code hroom, fun hok => absurd hok he⟩
  · rw [if_neg he] at h
    obtain ⟨rfl, hlen⟩ := hr h
    exact ⟨by decide, fun _ => hlen⟩

/-- An `append` that ends has the sum of its type as its length, and never refuses it. -/
theorem append_code {e : AlibError} {b' : BinaryBuffer}
    (h : append al b (some data) dataLen = .ok (e, b')) :
    e ≠ .internalMaxReached ∧ (e = .ok → b'.len = sizeAdd b.len dataLen) := by
  rw [append, if_neg (Option.some_ne_none data), if_neg (sizeAdd_le _ _)] at h
  obtain ⟨⟨e₁, b₁⟩, hroom, h⟩ := bind_eq_ok.mp h
  refine code_of_room hroom h fun hr => ?_
  obtain ⟨p, -, hr⟩ := bind_eq_ok.mp hr
  cases hr
  exact ⟨rfl, rfl⟩

theorem insert_code {e : AlibError} {b' : BinaryBuffer}
    (h : insert al b index (some data) dataLen = .ok (e, b')) :
    e ≠ .internalMaxReached ∧ (e = .ok → b'.len = sizeAdd b.len dataLen) := by
  rw [insert, if_neg (Option.some_ne_none data)] at h
  by_cases hout : index > b.len
  · rw [if_pos hout] at h
    cases h
    exact ⟨by decide, fun hok => by cases hok⟩
  · rw [if_neg hout, if_neg (sizeAdd_le _ _)] at h
    obtain ⟨⟨e₁, b₁⟩, hroom, h⟩ := bind_eq_ok.mp h
    refine code_of_room hroom h fun hr => ?_
    obtain ⟨p, -, hr⟩ := bind_eq_ok.mp hr
    obtain ⟨p', -, hr⟩ := bind_eq_ok.mp hr
    cases hr
    exact ⟨rfl, rfl⟩

theorem refusesOverflow_iff_of_code {r : Outcome (AlibError × BinaryBuffer)}
    (hcode : ∀ e b', r = .ok (e, b') →
      e ≠ .internalMaxReached ∧ (e = .ok → b'.len = sizeAdd b.len dataLen)) :
    RefusesOverflow b dataLen r ↔ b.len + dataLen ≤ ULONG_MAX := by
  rw [RefusesOverflow]
  by_cases hfit : b.len + dataLen ≤ ULONG_MAX
  · have hadd : sizeAdd b.len dataLen = b.len + dataLen := sizeAdd_eq (lt_of_le_max hfit)
    rw [if_pos hfit]
    exact iff_of_true ⟨hadd, fun b' hr => ((hcode _ b' hr).2 rfl).trans hadd⟩ hfit
  · rw [if_neg hfit]
    exact iff_of_false (fun hr => (hcode _ b hr).1 rfl) hfit

end Lengths

end AlibC.BinaryBuffer
