import AlibC.ComDataCheckFrames

/-! `ComDataCheck` on a socket: what goes out when `send` takes only part of what it is
given, and what comes back for each way in which `recv` can end. -/
namespace AlibC.ComDataCheck

open CLang BinaryBuffer

/-- A socket that never fails and takes at least one byte of what it is given. -/
def Accepts (net : Bool → Block → Int) : Prop :=
  ∀ i bs, min 1 bs.length ≤ net i bs ∧ net i bs ≤ bs.length

theorem htonl_toInt32 (n : Int) : htonl (toInt32 n) = htonl n := by
  have h : toInt32 n % 2 ^ 32 = n % 2 ^ 32 := by
    unfold toInt32
    omega
  simp only [htonl, h]

theorem Accepts.toSize_eq {net : Bool → Block → Int} (h : Accepts net) (i : Bool) {bs : Block}
    (hbs : bs.length < 2 ^ 64) : toSize (net i bs) = (net i bs).toNat := by
  have := h i bs
  unfold toSize
  omega

/-- A frame goes out whole exactly when each of the two calls takes all it is given. -/
theorem send_frame_iff {cdc : ComDataCheck} (h : cdc.buff.WF) {sock : Int} (hs : 0 < sock)
    {net : Bool → Block → Int} (hnet : Accepts net) :
    send cdc sock net = .ok (.ok, frame cdc.buff.contents) ↔
      net false (htonl cdc.buff.len) = 4 ∧ net true cdc.buff.contents = cdc.buff.len := by
  have hlen := h.length_contents
  have hle := h.len_le
  have hcap := h.capacity_lt
  have hhead := hnet false (htonl cdc.buff.len)
  have hbody := hnet true cdc.buff.contents
  have hsize : toSize (net false (htonl cdc.buff.len)) = (net false (htonl cdc.buff.len)).toNat :=
    hnet.toSize_eq false (by simp)
  have hsize' : toSize (net true cdc.buff.contents) = (net true cdc.buff.contents).toNat :=
    hnet.toSize_eq true (by omega)
  simp only [send, if_neg (show ¬ sock ≤ 0 by omega), htonl_toInt32, h.load_contents, ok_bind,
    frame, hlen, hsize, hsize']
  rw [length_htonl] at hhead
  constructor
  · intro hr
    split at hr
    · simp at hr
    · split at hr
      · simp at hr
      · omega
  · rintro ⟨h4, hl⟩
    rw [h4, hl]
    simp

/-- An object with an empty payload, and a socket that takes everything. -/
theorem send_frame_all :
    send { fresh 0 with input := 0 } 3 (fun _ bs => bs.length) =
      .ok (.ok, frame (fresh 0).buff.contents) := by
  have hw : (fresh 0).buff.WF := (new_waits (new_filled 0)).buff
  exact (@send_frame_iff { fresh 0 with input := 0 } hw 3 (by decide) (fun _ bs => bs.length)
    (fun _ bs => ⟨by dsimp only; omega, Int.le_refl _⟩)).mpr ⟨rfl, rfl⟩

/-- A socket that takes one byte at a time gets one byte of the frame. -/
theorem send_frame_torn :
    new (.filled 0) 0 = .ok (some { fresh 0 with input := 0 }) ∧
      Accepts (fun _ bs => min 1 bs.length) ∧
      send { fresh 0 with input := 0 } 3 (fun _ bs => min 1 bs.length) =
        .ok (.fileWriteErr, [0]) ∧
      send { fresh 0 with input := 0 } 3 (fun _ bs => min 1 bs.length) ≠
        .ok (.ok, frame (fresh 0).buff.contents) := by
  have hsend : send { fresh 0 with input := 0 } 3 (fun _ bs => min 1 bs.length) =
      .ok (.fileWriteErr, [0]) := by decide
  refine ⟨rfl, fun _ bs => ⟨by dsimp only; omega, by dsimp only; omega⟩, hsend, ?_⟩
  rw [hsend]
  simp

/-- The calls that `ComDataCheck_recv` makes of `ComDataCheck_append`, each with the length
it was given and the bytes there are at the address it was given. -/
structure Recorded where
  cdc : ComDataCheck
  calls : List (Nat × Block)

def Recorded.append (s : Recorded) (al : Alloc UInt8) (data : Block) (n : Nat) :
    Outcome (RVal × Recorded) := do
  let (r, cdc) ← ComDataCheck.append al s.cdc (some data) n
  return (r, { cdc, calls := s.calls ++ [(n, data.take n)] })

def Recorded.recv (s : Recorded) (sock : Int) (buff : Block)
    (rs : List (Alloc UInt8 × Received)) : Outcome (RecvEnd × Recorded) :=
  recvWith Recorded.append s.cdc.input sock buff s rs

def Recorded.recvTimeout (s : Recorded) (opt sock : Int) (buff : Block)
    (rs : List (Alloc UInt8 × Received)) : Outcome (RecvEnd × Recorded) :=
  recvTimeoutWith Recorded.append s.cdc.input opt sock buff s rs

section

variable {σ τ : Type}

/-- The loop only sees the object through `app`. -/
theorem recvLoop_map {app : σ → Alloc UInt8 → Block → Nat → Outcome (RVal × σ)}
    {app' : τ → Alloc UInt8 → Block → Nat → Outcome (RVal × τ)} {f : σ → τ}
    (happ : ∀ s al d n, app' (f s) al d n = (app s al d n).map fun p => (p.1, f p.2))
    (rs : List (Alloc UInt8 × Received)) : ∀ buff rval s,
      recvLoop app' buff rval (f s) rs = (recvLoop app buff rval s rs).map fun p => (p.1, f p.2) := by
  induction rs with
  | nil => intro buff rval s; rfl
  | cons i rs ih =>
    intro buff rval s
    simp only [recvLoop]
    split
    case isTrue => rfl
    case isFalse =>
      rw [happ]
      cases app s i.1 (overwrite buff 0 i.2.bytes) i.2.recvLen with
      | error e => rfl
      | ok p =>
        simp only [Except.map, ok_bind]
        split
        case isTrue => exact ih _ _ _
        case isFalse => rfl

end

/-- Recording the calls changes nothing else. -/
theorem recv_eq_recorded (s : Recorded) (sock : Int) (buff : Block)
    (rs : List (Alloc UInt8 × Received)) :
    recv s.cdc sock buff rs = (s.recv sock buff rs).map fun p => (p.1, p.2.cdc) := by
  simp only [recv, Recorded.recv, recvWith]
  split
  case isTrue => rfl
  case isFalse =>
    refine recvLoop_map (f := Recorded.cdc) ?_ rs buff none s
    intro s al d n
    cases h : ComDataCheck.append al s.cdc (some d) n <;> simp [Recorded.append, h, Except.map]

/-- What comes first: nothing more, a chunk after which the object does not wait any
longer, or something that is no data. -/
inductive Arrival where
  | blocked
  | handled (r : RVal)
  | ended (last : Received)

/-- The chunks go to the object one by one while it waits. -/
def arrive : Block → Recorded → List (Alloc UInt8 × Received) → Outcome (Arrival × Recorded)
  | _, s, [] => .ok (.blocked, s)
  | buff, s, (al, .data bs _) :: rs => do
    let (r, s) ← s.append al (overwrite buff 0 bs) bs.length
    if r = .waiting then arrive (overwrite buff 0 bs) s rs else return (.handled r, s)
  | _, s, (_, res) :: _ => .ok (.ended res, s)

/-- In a run of chunks the object was given exactly the bytes that came, in order. -/
theorem arrive_calls (rs : List (Alloc UInt8 × Received)) : ∀ buff s a s',
    arrive buff s rs = .ok (a, s') →
      ∃ k, s'.calls = s.calls ++ (rs.take k).map fun i => (i.2.bytes.length, i.2.bytes) := by
  induction rs with
  | nil =>
    intro buff s a s' h
    cases h
    exact ⟨0, by simp⟩
  | cons i rs ih =>
    intro buff s a s' h
    obtain ⟨al, res⟩ := i
    cases res with
    | data bs len =>
      obtain ⟨⟨r, s₁⟩, happ, h⟩ := bind_eq_ok.mp h
      obtain ⟨⟨r', cdc'⟩, -, hs₁⟩ := bind_eq_ok.mp happ
      obtain ⟨rfl, rfl⟩ := Prod.mk.inj (Except.ok.inj hs₁)
      have htake : (overwrite buff 0 bs).take bs.length = bs := by simp [overwrite]
      rw [htake] at h
      dsimp only at h
      split at h
      case isTrue =>
        obtain ⟨k, hk⟩ := ih _ _ _ _ h
        exact ⟨k + 1, by simp [hk, Received.bytes]⟩
      case isFalse =>
        cases h
        exact ⟨1, by simp [Received.bytes]⟩
    | closed =>
      cases h
      exact ⟨0, by simp⟩
    | failed t =>
      cases h
      exact ⟨0, by simp⟩

/-- The call returns what the object said, and a value that says otherwise when the peer
or an error ended it; nothing else was given to the object. -/
def Handles (cdc : ComDataCheck) (sock : Int) (buff : Block)
    (rs : List (Alloc UInt8 × Received)) : Prop :=
  match arrive buff ⟨cdc, []⟩ rs with
  | .error e => Recorded.recv ⟨cdc, []⟩ sock buff rs = .error e
  | .ok (.blocked, s) => Recorded.recv ⟨cdc, []⟩ sock buff rs = .ok (.blocked, s)
  | .ok (.handled r, s) => Recorded.recv ⟨cdc, []⟩ sock buff rs = .ok (.returned (some r), s)
  | .ok (.ended last, s) =>
    (∃ v, Recorded.recv ⟨cdc, []⟩ sock buff rs = .ok (.returned (some v), s) ∧
      v ≠ .complete ∧ v ≠ .dataRemaining) ∧
    (last = .failed true → Recorded.recvTimeout ⟨cdc, []⟩ 0 sock buff rs =
      .ok (.returned (some (.err .timeout)), s))

theorem append_calls {s s' : Recorded} {al : Alloc UInt8} {d : Block} {n : Nat} {r : RVal}
    (h : s.append al d n = .ok (r, s')) : s'.calls = s.calls ++ [(n, d.take n)] := by
  obtain ⟨⟨r', cdc'⟩, -, h⟩ := bind_eq_ok.mp h
  cases h
  rfl

theorem recvLoop_calls (rs : List (Alloc UInt8 × Received)) : ∀ buff rval s e s',
    recvLoop Recorded.append buff rval s rs = .ok (e, s') →
      s.calls.length ≤ s'.calls.length := by
  induction rs with
  | nil =>
    intro buff rval s e s' h
    cases h
    exact Nat.le_refl _
  | cons i rs ih =>
    intro buff rval s e s' h
    simp only [recvLoop] at h
    split at h
    case isTrue =>
      cases h
      exact Nat.le_refl _
    case isFalse =>
      obtain ⟨⟨r, s₁⟩, happ, h⟩ := bind_eq_ok.mp h
      have hcalls := append_calls happ
      have hlen : s.calls.length ≤ s₁.calls.length := by simp [hcalls]
      dsimp only at h
      split at h
      case isTrue => exact Nat.le_trans hlen (ih _ _ _ _ _ h)
      case isFalse =>
        cases h
        exact hlen

/-- -1 is kept as a very large length, which is not 0. -/
theorem recvLoop_failed (al : Alloc UInt8) (t : Bool) (rs : List (Alloc UInt8 × Received))
    {buff : Block} {rval : Option RVal} {s s' : Recorded} {e : RecvEnd}
    (h : recvLoop Recorded.append buff rval s ((al, .failed t) :: rs) = .ok (e, s')) :
    s.calls.length < s'.calls.length := by
  have hlen : (Received.failed t).recvLen ≠ 0 := show toSize (-1) ≠ 0 by decide
  rw [recvLoop, if_neg hlen] at h
  obtain ⟨⟨r, s₁⟩, happ, h⟩ := bind_eq_ok.mp h
  have hcalls := append_calls happ
  have hlt : s.calls.length < s₁.calls.length := by simp [hcalls]
  dsimp only at h
  split at h
  case isTrue => exact Nat.lt_of_lt_of_le hlt (recvLoop_calls _ _ _ _ _ _ h)
  case isFalse =>
    cases h
    exact hlt

/-- The value that is left in the local variable when the peer closes. -/
def lastValue (rval : Option RVal) : List (Alloc UInt8 × Received) → Option RVal
  | (_, .closed) :: _ => rval
  | _ => some .waiting

theorem lastValue_waiting (rs : List (Alloc UInt8 × Received)) :
    lastValue (some .waiting) rs = some .waiting := by
  unfold lastValue
  split <;> rfl

theorem lastValue_head {rval : Option RVal} {rs : List (Alloc UInt8 × Received)}
    {al : Alloc UInt8} (h : rs.head? = some (al, .closed)) : lastValue rval rs = rval := by
  obtain ⟨rs', rfl⟩ := List.head?_eq_some_iff.mp h
  rfl

theorem lastValue_none {rs : List (Alloc UInt8 × Received)}
    (h : ∀ al, rs.head? ≠ some (al, .closed)) : lastValue none rs = some .waiting := by
  unfold lastValue
  split
  case h_1 al rs' => exact absurd rfl (h al)
  case h_2 => rfl

/-- What the loop does with each kind of arrival. -/
theorem recvLoop_arrive (rs : List (Alloc UInt8 × Received)) : ∀ buff rval s,
    match arrive buff s rs with
    | .error e => recvLoop Recorded.append buff rval s rs = .error e
    | .ok (.blocked, s') => recvLoop Recorded.append buff rval s rs = .ok (.blocked, s')
    | .ok (.handled r, s') =>
      recvLoop Recorded.append buff rval s rs = .ok (.returned (some r), s')
    | .ok (.ended .closed, s') =>
      recvLoop Recorded.append buff rval s rs = .ok (.returned (lastValue rval rs), s')
    | .ok (.ended (.failed _), s') => ∀ e s'',
      recvLoop Recorded.append buff rval s rs = .ok (e, s'') →
        s'.calls.length < s''.calls.length
    | .ok (.ended (.data _ _), _) => False := by
  induction rs with
  | nil => intro buff rval s; rfl
  | cons i rs ih =>
    intro buff rval s
    obtain ⟨al, res⟩ := i
    cases res with
    | data bs len =>
      have hne : (Received.data bs len).recvLen ≠ 0 := Nat.ne_of_gt len.1
      rw [recvLoop, if_neg hne, arrive]
      cases happ : s.append al (overwrite buff 0 bs) bs.length with
      | error e => simp [Received.recvLen, Received.bytes, happ]
      | ok p =>
        simp only [Received.recvLen, Received.bytes, happ, ok_bind]
        by_cases hr : p.1 = .waiting
        · have h := ih (overwrite buff 0 bs) (some .waiting) p.2
          rw [lastValue_waiting] at h
          simp only [hr, if_true]
          exact h
        · simp only [hr, if_false, pure_ok]
    | closed => rfl
    | failed t => exact fun e s'' h => recvLoop_failed al t rs h

/-- The call handles what comes unless -1 comes while the object still waits, or the
connection is closed before anything came. -/
theorem handles_iff {cdc : ComDataCheck} (hin : cdc.input ≠ 0) {sock : Int} (hs : 0 < sock)
    (buff : Block) (rs : List (Alloc UInt8 × Received)) :
    Handles cdc sock buff rs ↔
      (∀ t s, arrive buff ⟨cdc, []⟩ rs ≠ .ok (.ended (.failed t), s)) ∧
        ∀ al, rs.head? ≠ some (al, .closed) := by
  have hrecv : Recorded.recv ⟨cdc, []⟩ sock buff rs =
      recvLoop Recorded.append buff none ⟨cdc, []⟩ rs :=
    if_neg (not_or.mpr ⟨Int.not_le.mpr hs, hin⟩)
  have hloop := recvLoop_arrive rs buff none ⟨cdc, []⟩
  have hhead : ∀ a s, arrive buff ⟨cdc, []⟩ rs = .ok (a, s) → a ≠ .ended .closed →
      ∀ al, rs.head? ≠ some (al, .closed) := by
    intro a s harr ha al h
    obtain ⟨rs', rfl⟩ := List.head?_eq_some_iff.mp h
    obtain ⟨rfl, rfl⟩ := Prod.mk.inj (Except.ok.inj harr)
    exact ha rfl
  unfold Handles
  rw [hrecv]
  cases harr : arrive buff ⟨cdc, []⟩ rs with
  | error e =>
    rw [harr] at hloop
    refine ⟨fun _ => ⟨fun t s h => (by cases h), fun al h => ?_⟩, fun _ => hloop⟩
    obtain ⟨rs', rfl⟩ := List.head?_eq_some_iff.mp h
    cases harr
  | ok p =>
    obtain ⟨a, s⟩ := p
    rw [harr] at hloop
    cases a with
    | blocked =>
      exact ⟨fun _ => ⟨fun t s h => (by cases h), hhead _ _ harr (by simp)⟩, fun _ => hloop⟩
    | handled r =>
      exact ⟨fun _ => ⟨fun t s h => (by cases h), hhead _ _ harr (by simp)⟩, fun _ => hloop⟩
    | ended last =>
      cases last with
      | data bs len => exact hloop.elim
      | failed t =>
        constructor
        · rintro ⟨⟨v, hv, -⟩, -⟩
          exact absurd (hloop _ _ hv) (Nat.lt_irrefl _)
        · exact fun h => absurd rfl (h.1 t s)
      | closed =>
        dsimp only at hloop
        rw [hloop]
        constructor
        · rintro ⟨⟨v, hv, -⟩, -⟩
          refine ⟨fun t s h => (by cases h), fun al h => ?_⟩
          rw [lastValue_head h] at hv
          cases hv
        · rintro ⟨-, hne⟩
          rw [lastValue_none hne]
          exact ⟨⟨.waiting, rfl, by decide, by decide⟩, fun h => by cases h⟩

/-- The peer closes after two bytes of a header, and the call says that it waits. -/
theorem handles_closed_in_header :
    Handles (fresh 0) 3 (List.replicate 4 0) [(.filled 0, .data [0, 0] (by decide)),
      (.filled 0, .closed)] := by
  have harr : ∃ s, arrive (List.replicate 4 0) ⟨fresh 0, []⟩
      [(.filled 0, .data [0, 0] (by decide)), (.filled 0, .closed)] = .ok (.ended .closed, s) :=
    ⟨_, rfl⟩
  obtain ⟨s₀, harr⟩ := harr
  refine (handles_iff (show (1 : UInt8) ≠ 0 by decide) (by decide) _ _).mpr
    ⟨fun t s h => ?_, fun al h => by cases h⟩
  rw [harr] at h
  cases h

/-- -1 from the first `recv` reaches `ComDataCheck_append` as a length. -/
theorem recv_failed_appended :
    new (.filled 0) 1 = .ok (some (fresh 0)) ∧
      ¬ Handles (fresh 0) 3 (List.replicate 4 0) [(.filled 0, .failed true)] := by
  refine ⟨new_filled 0, ?_⟩
  rintro ⟨⟨v, hv, -⟩, -⟩
  have hloop : recvLoop Recorded.append (List.replicate 4 0) none ⟨fresh 0, []⟩
      [(.filled 0, .failed true)] = .ok (.returned (some v), ⟨fresh 0, []⟩) := hv
  exact absurd (recvLoop_failed (.filled 0) true [] hloop) (Nat.lt_irrefl _)

/-- Nor is a value returned when the peer closes at once. -/
theorem recv_closed_unset (cdc : ComDataCheck) (hin : cdc.input ≠ 0) (buff : Block)
    (al : Alloc UInt8) :
    recv cdc 3 buff [(al, .closed)] = .ok (.returned none, cdc) :=
  if_neg (not_or.mpr ⟨by decide, hin⟩)

end AlibC.ComDataCheck
