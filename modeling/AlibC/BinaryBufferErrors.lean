import AlibC.BinaryBufferInvariant

/-! What a call that returns an error leaves behind. -/
namespace AlibC.BinaryBuffer

open CLang

inductive EditOp where
  | append (data : Option Block) (dataLen : Nat)
  | insert (index : Nat) (data : Option Block) (dataLen : Nat)
  | replace (index oldLen : Nat) (newData : Option Block) (newDataLen : Nat)
  | resize (newSize : Nat)
  | expand (newCap : Nat)
  | expandToTarget (target : Nat)

def edit (al : Alloc UInt8) (b : BinaryBuffer) : EditOp → Outcome (AlibError × BinaryBuffer)
  | .append data dataLen => append al b data dataLen
  | .insert index data dataLen => insert al b index data dataLen
  | .replace index oldLen newData newDataLen => replace al b index oldLen newData newDataLen
  | .resize newSize => .ok (resize al b newSize)
  | .expand newCap => .ok (expand al b newCap)
  | .expandToTarget target => expandToTarget al b target

/-- The size `hardResize` asks `realloc` for. -/
def hardResizeRequest (b : BinaryBuffer) (newSize : Nat) : Option Nat :=
  if b.capacity = newSize ∨ newSize = 0 then none else some newSize

def resizeRequest (b : BinaryBuffer) (newSize : Nat) : Option Nat :=
  hardResizeRequest b (if newSize < b.minCap then b.minCap else newSize)

def expandRequest (b : BinaryBuffer) (target : Nat) : Option Nat :=
  match expandLoop b target target b.capacity with
  | .ok newCap => resizeRequest b newCap
  | .error _ => none

/-- The size of the one `realloc` a call makes, if it makes one. -/
def request (b : BinaryBuffer) : EditOp → Option Nat
  | .append data dataLen =>
    if data = none ∨ ¬ b.capacity < sizeAdd b.len dataLen then none
    else expandRequest b (sizeAdd b.len dataLen)
  | .insert index data dataLen =>
    if data = none ∨ index > b.len ∨ ¬ b.capacity < sizeAdd b.len dataLen then none
    else expandRequest b (sizeAdd b.len dataLen)
  | .replace index oldLen _ newDataLen =>
    let newLen := sizeSub (sizeAdd b.len newDataLen) oldLen
    if index > b.len ∨ ¬ b.capacity < newLen then none else expandRequest b newLen
  | .resize newSize => resizeRequest b newSize
  | .expand newCap =>
    if b.capacity = ULONG_MAX then none else resizeRequest b (b.calculateExpansion newCap)
  | .expandToTarget target => expandRequest b target

section

variable {al : Alloc UInt8} {b b' : BinaryBuffer} {e : AlibError}

/-- A refused `realloc` puts its `NULL` into the object. -/
theorem hardResize_refused {k n : Nat} (hreq : hardResizeRequest b k = some n)
    (hno : al.block n = none) : hardResize al b k = (.memErr, { b with buff := none }) := by
  unfold hardResizeRequest at hreq
  split at hreq
  case isTrue => cases hreq
  case isFalse hne =>
    cases hreq
    rw [hardResize, if_neg (fun h => hne (Or.inl h)), if_neg (fun h => hne (Or.inr h)),
      Alloc.realloc_refused hno]

theorem hardResize_granted {k : Nat}
    (hyes : ∀ n, hardResizeRequest b k = some n → al.block n ≠ none) :
    (hardResize al b k).1 = .ok := by
  unfold hardResize
  split
  case isTrue => rfl
  case isFalse hcap =>
    split
    case isTrue => rfl
    case isFalse hz =>
      have hblk := hyes k (if_neg (fun h => h.elim hcap hz))
      cases hb : al.block k with
      | none => exact absurd hb hblk
      | some fresh =>
        obtain ⟨blk, hr, -⟩ := Alloc.realloc_granted hb b.buff
        rw [hr]

theorem resize_refused {k n : Nat} (hreq : resizeRequest b k = some n)
    (hno : al.block n = none) : resize al b k = (.memErr, { b with buff := none }) :=
  hardResize_refused hreq hno

theorem resize_granted {k : Nat} (hyes : ∀ n, resizeRequest b k = some n → al.block n ≠ none) :
    (resize al b k).1 = .ok :=
  hardResize_granted hyes

theorem expandToTarget_refused {target n : Nat} (hreq : expandRequest b target = some n)
    (hno : al.block n = none) :
    expandToTarget al b target = .ok (.memErr, { b with buff := none }) := by
  unfold expandRequest at hreq
  cases hl : expandLoop b target target b.capacity with
  | error f => simp [hl] at hreq
  | ok newCap =>
    rw [hl] at hreq
    simp [expandToTarget, hl, resize_refused hreq hno]

theorem expandToTarget_granted {target : Nat}
    (hyes : ∀ n, expandRequest b target = some n → al.block n ≠ none)
    (h : expandToTarget al b target = .ok (e, b')) : e = .ok := by
  unfold expandRequest at hyes
  cases hl : expandLoop b target target b.capacity with
  | error f => simp [expandToTarget, hl] at h
  | ok newCap =>
    rw [hl] at hyes
    have hr := resize_granted hyes
    simp only [expandToTarget, hl, ok_bind, pure_ok, Except.ok.injEq] at h
    rw [← hr, h]

theorem ensureRoom_granted {n : Nat}
    (hyes : b.capacity < n → ∀ m, expandRequest b n = some m → al.block m ≠ none)
    (h : ensureRoom al b n = .ok (e, b')) : e = .ok := by
  unfold ensureRoom at h
  split at h
  case isTrue hlt => exact expandToTarget_granted (hyes hlt) h
  case isFalse => exact (Prod.mk.inj (Except.ok.inj h)).1.symm

theorem append_granted {data : Option Block} {n : Nat}
    (hyes : ∀ m, request b (.append data n) = some m → al.block m ≠ none)
    (h : append al b data n = .ok (e, b')) : e = .ok ∨ b' = b := by
  unfold append at h
  split at h
  case isTrue => exact Or.inr (Prod.mk.inj (Except.ok.inj h)).2.symm
  case isFalse hd =>
    rw [if_neg (sizeAdd_le _ _)] at h
    obtain ⟨⟨e₁, b₁⟩, hr, h⟩ := bind_eq_ok.mp h
    have he := ensureRoom_granted (fun hlt m hm => hyes m (by simp [request, hd, hlt, hm])) hr
    simp only [he, ne_eq, not_true_eq_false, if_false] at h
    obtain ⟨p, -, h⟩ := bind_eq_ok.mp h
    exact Or.inl (Prod.mk.inj (Except.ok.inj h)).1.symm

theorem insert_granted {index n : Nat} {data : Option Block}
    (hyes : ∀ m, request b (.insert index data n) = some m → al.block m ≠ none)
    (h : insert al b index data n = .ok (e, b')) : e = .ok ∨ b' = b := by
  unfold insert at h
  split at h
  case isTrue => exact Or.inr (Prod.mk.inj (Except.ok.inj h)).2.symm
  case isFalse hd =>
    split at h
    case isTrue => exact Or.inr (Prod.mk.inj (Except.ok.inj h)).2.symm
    case isFalse hi =>
      rw [if_neg (sizeAdd_le _ _)] at h
      obtain ⟨⟨e₁, b₁⟩, hr, h⟩ := bind_eq_ok.mp h
      have he := ensureRoom_granted
        (fun hlt m hm => hyes m (by simp [request, hd, hi, hlt, hm])) hr
      simp only [he, ne_eq, not_true_eq_false, if_false] at h
      obtain ⟨p, -, h⟩ := bind_eq_ok.mp h
      obtain ⟨p', -, h⟩ := bind_eq_ok.mp h
      exact Or.inl (Prod.mk.inj (Except.ok.inj h)).1.symm

theorem replace_granted {index oldLen n : Nat} {data : Option Block}
    (hyes : ∀ m, request b (.replace index oldLen data n) = some m → al.block m ≠ none)
    (h : replace al b index oldLen data n = .ok (e, b')) : e = .ok ∨ b' = b := by
  unfold replace at h
  split at h
  case isTrue => exact Or.inr (Prod.mk.inj (Except.ok.inj h)).2.symm
  case isFalse hi =>
    dsimp only at h
    split at h
    case isTrue hlt =>
      obtain ⟨⟨e₁, b₁⟩, hr, h⟩ := bind_eq_ok.mp h
      have he := expandToTarget_granted (fun m hm => hyes m (by simp [request, hi, hlt, hm])) hr
      simp [he] at h
    case isFalse =>
      split at h
      all_goals
        obtain ⟨p, -, h⟩ := bind_eq_ok.mp h
        obtain ⟨p', -, h⟩ := bind_eq_ok.mp h
        exact Or.inl (Prod.mk.inj (Except.ok.inj h)).1.symm

theorem expand_granted {newCap : Nat}
    (hyes : ∀ m, request b (.expand newCap) = some m → al.block m ≠ none)
    (h : expand al b newCap = (e, b')) : e = .ok ∨ b' = b := by
  unfold expand at h
  split at h
  case isTrue => exact Or.inr (Prod.mk.inj h).2.symm
  case isFalse hc =>
    have hr := resize_granted (b := b) (k := b.calculateExpansion newCap)
      (fun m hm => hyes m (by simp [request, hc, hm]))
    rw [h] at hr
    exact Or.inl hr

theorem edit_granted {op : EditOp} (hyes : ∀ n, request b op = some n → al.block n ≠ none)
    (h : edit al b op = .ok (e, b')) : e = .ok ∨ b' = b := by
  cases op with
  | append data n => exact append_granted hyes h
  | insert index data n => exact insert_granted hyes h
  | replace index oldLen data n => exact replace_granted hyes h
  | resize newSize =>
    have hr := resize_granted hyes
    rw [Except.ok.inj h] at hr
    exact Or.inl hr
  | expand newCap => exact expand_granted hyes (Except.ok.inj h)
  | expandToTarget target => exact Or.inl (expandToTarget_granted hyes h)

theorem ensureRoom_refused {k n : Nat} (hlt : b.capacity < k) (hreq : expandRequest b k = some n)
    (hno : al.block n = none) :
    ensureRoom al b k = .ok (.memErr, { b with buff := none }) := by
  rw [ensureRoom, if_pos hlt, expandToTarget_refused hreq hno]

theorem edit_refused {op : EditOp} {n : Nat} (hreq : request b op = some n)
    (hno : al.block n = none) : edit al b op = .ok (.memErr, { b with buff := none }) := by
  cases op with
  | append data k =>
    simp only [request] at hreq
    split at hreq
    case isTrue => cases hreq
    case isFalse hc =>
      obtain ⟨hd, hlt⟩ := not_or.mp hc
      simp [edit, append, hd, sizeAdd_le, ensureRoom_refused (not_not.mp hlt) hreq hno]
  | insert index data k =>
    simp only [request] at hreq
    split at hreq
    case isTrue => cases hreq
    case isFalse hc =>
      obtain ⟨hd, hc⟩ := not_or.mp hc
      obtain ⟨hi, hlt⟩ := not_or.mp hc
      simp [edit, insert, hd, hi, sizeAdd_le, ensureRoom_refused (not_not.mp hlt) hreq hno]
  | replace index oldLen data k =>
    simp only [request] at hreq
    split at hreq
    case isTrue => cases hreq
    case isFalse hc =>
      obtain ⟨hi, hlt⟩ := not_or.mp hc
      simp [edit, replace, hi, not_not.mp hlt, expandToTarget_refused hreq hno]
  | resize newSize => exact congrArg Except.ok (resize_refused hreq hno)
  | expand newCap =>
    simp only [request] at hreq
    split at hreq
    case isTrue => cases hreq
    case isFalse hc => simp [edit, expand, hc, resize_refused hreq hno]
  | expandToTarget target => exact expandToTarget_refused hreq hno

end

/-- A call that returns an error has changed nothing. -/
def ErrorKeeps (al : Alloc UInt8) (b : BinaryBuffer) (op : EditOp) : Prop :=
  ∀ e b', edit al b op = .ok (e, b') → e ≠ .ok → b' = b

/-- Errors keep the object exactly when no `realloc` of existing memory is refused. -/
theorem errorKeeps_iff (al : Alloc UInt8) (b : BinaryBuffer) (op : EditOp) :
    ErrorKeeps al b op ↔ ∀ n, request b op = some n → al.block n = none → b.buff = none := by
  constructor
  · intro h n hreq hno
    have hb := h _ _ (edit_refused hreq hno) (by decide)
    rw [← hb]
  · intro h e b' hr he
    by_cases hno : ∃ n, request b op = some n ∧ al.block n = none
    · obtain ⟨n, hreq, hno⟩ := hno
      rw [edit_refused hreq hno] at hr
      rw [← (Prod.mk.inj (Except.ok.inj hr)).2, ← h n hreq hno]
    · exact (edit_granted (fun n hreq hn => hno ⟨n, hreq, hn⟩) hr).resolve_left he

/-- One byte is stored in a buffer of one byte; there is no memory for the second. -/
theorem append_refused_loses_block :
    newEx (.filled 0) (some [1]) 1 1 1 1 = .ok (some ⟨some [1], 1, 1, 1, 1⟩) ∧
      edit .refusing ⟨some [1], 1, 1, 1, 1⟩ (.append (some [2]) 1) =
        .ok (.memErr, ⟨none, 1, 1, 1, 1⟩) ∧
      ¬ ErrorKeeps .refusing ⟨some [1], 1, 1, 1, 1⟩ (.append (some [2]) 1) := by
  have hrun : edit .refusing ⟨some [1], 1, 1, 1, 1⟩ (.append (some [2]) 1) =
      .ok (.memErr, ⟨none, 1, 1, 1, 1⟩) := by decide
  refine ⟨by decide, hrun, fun h => ?_⟩
  exact absurd (h _ _ hrun (by decide)) (by decide)

end AlibC.BinaryBuffer
