import AlibC.AlibString
import AlibC.Error
import AlibC.Lib.CString
import AlibC.Lib.Send

/-! Sending over TCP: `TcpClient_send`, and `tcp_send_data_by_host`. Both call `send` until nothing is
left. -/
namespace AlibC

open CLang

structure TcpClient where
  sock : Int
deriving DecidableEq, Repr

/-- `while(data_len)` of `TcpClient_send`, with `data` moved on by `off`. -/
def clientLoop (net : Network) (data : Option Block) :
    Nat → Nat → Nat → Sent → Outcome (AlibError × Sent)
  | 0, _, _, _ => .error .diverges
  | fuel + 1, off, dataLen, s =>
    if dataLen = 0 then .ok (.ok, s)
    else do
      let bs ← load data off dataLen
      let (r, s) := s.send net off bs
      let sCount := toInt32 r
      if sCount ≤ 0 then return (.tcpSendErr, s)
      else clientLoop net data fuel (off + sCount.toNat) (sizeSub dataLen (toSize sCount)) s

/-- `if(data_len == 0) data_len = strlen(data);` -/
def dataLength (data : Option Block) (dataLen : Nat) : Outcome Nat :=
  if dataLen = 0 then strlen data else .ok dataLen

/-- `TcpClient_send`. `connect` is what `TcpClient_connect` makes of the socket. -/
def tcpClientSend (fuel : Nat) (net : Network) (connect : Int → Int) (client : Option TcpClient)
    (data : Option Block) (dataLen : Nat) : Outcome (AlibError × Option TcpClient × Sent) :=
  match client with
  | none => .ok (.badArg, none, .empty)
  | some client =>
    if data = none then .ok (.badArg, some client, .empty)
    else do
      let dataLen ← dataLength data dataLen
      let client := if client.sock < 0 then { client with sock := connect client.sock } else client
      let (err, s) ← clientLoop net data fuel 0 dataLen .empty
      return (err, some client, s)

/-- `while(data_len)` of `tcp_send_data_by_host`. The result of `send` is a `size_t` there. -/
def hostLoop (net : Network) (data : Option Block) : Nat → Nat → Sent → Outcome (AlibError × Sent)
  | 0, _, _ => .error .diverges
  | fuel + 1, dataLen, s =>
    if dataLen = 0 then .ok (.ok, s)
    else do
      let bs ← load data 0 dataLen
      let (r, s) := s.send net 0 bs
      let sendCount := toSize r
      if sendCount < 0 then return (.tcpSendErr, s)
      else hostLoop net data fuel (sizeSub dataLen sendCount) s

/-- `tcp_send_data_by_host`: `sock` is the new socket, and `connects` tells whether it can be connected
to the host. -/
def tcpSendDataByHost (fuel : Nat) (net : Network) (sock : Int) (connects : Bool) (data : Option Block)
    (dataLen : Nat) : Outcome (AlibError × Sent) :=
  if sock < 0 then .ok (.fdErr, .empty)
  else if !connects then .ok (.tcpConnectErr, .empty)
  else do
    let dataLen ← dataLength data dataLen
    hostLoop net data fuel dataLen .empty

/-- A data block whose length is told, or zero for that of its text. -/
structure DataBlock where
  mem : Block
  dataLen : Nat
  readable : if dataLen = 0 then 0 ∈ mem else dataLen ≤ mem.length
  /-- No object is larger. -/
  size : mem.length < 2 ^ 63

/-- The bytes that are to be sent. -/
def DataBlock.bytes (d : DataBlock) : Block := if d.dataLen = 0 then cstr d.mem else d.mem.take d.dataLen

/-- Each call fails, returns zero, or takes between one and all of the bytes, as many as an `int` holds. -/
def Takes (net : Network) : Prop :=
  ∀ i bs, net i bs = -1 ∨ net i bs = 0 ∨ 1 ≤ net i bs ∧ net i bs ≤ bs.length ∧ net i bs ≤ INT32_MAX

/-- What went out is a prefix of the data, with none of its bytes left out or repeated. It is the whole
data exactly where the call succeeds, and the call fails exactly where one of the calls of `send` took
nothing. -/
structure Transmitted (data : Block) (err : AlibError) (s : Sent) : Prop where
  ordered : s.wire <+: data.zipIdx
  ok_iff : err = .ok ↔ s.wire = data.zipIdx
  err_iff : err = .tcpSendErr ↔ ∃ r ∈ s.replies, r ≤ 0

variable {net : Network} {data : Block} {fuel : Nat}

theorem DataBlock.bytes_eq (d : DataBlock) :
    (∃ rest, d.mem = d.bytes ++ rest) ∧ dataLength (some d.mem) d.dataLen = .ok d.bytes.length := by
  have hread := d.readable
  rw [dataLength, bytes]
  by_cases hzero : d.dataLen = 0
  · rw [if_pos hzero] at hread ⊢
    rw [if_pos hzero]
    obtain ⟨rest, hmem, -⟩ := exists_text hread
    exact ⟨⟨0 :: rest, hmem⟩, by rw [strlen, deref_some, ok_bind, if_pos hread]; rfl⟩
  · rw [if_neg hzero] at hread ⊢
    rw [if_neg hzero, List.length_take_of_le hread]
    exact ⟨⟨d.mem.drop d.dataLen, (List.take_append_drop _ _).symm⟩, rfl⟩

theorem DataBlock.length_lt (d : DataBlock) : d.bytes.length < 2 ^ 63 := by
  obtain ⟨⟨rest, hmem⟩, -⟩ := d.bytes_eq
  have hlen := congrArg List.length hmem
  rw [List.length_append] at hlen
  have hsize := d.size
  omega

/-- The bytes that are left. -/
theorem load_left {rest : Block} {off n : Nat} (h : off + n = data.length) :
    load (some (data ++ rest)) off n = .ok ((data.drop off).take n) := by
  rw [load_some (by rw [List.length_append]; omega), List.drop_append_of_le_length (by omega),
    List.take_append_of_le_length (by rw [List.length_drop]; omega)]

/-- From `off` bytes that went out on. -/
theorem clientLoop_transmits {rest : Block} (hnet : Takes net) (hlong : data.length < 2 ^ 63) :
    ∀ {fuel off n : Nat} {s : Sent}, off + n = data.length → n < fuel → s.Exactly data off →
      (∀ r ∈ s.replies, 0 < r) → ∃ err s', clientLoop net (some (data ++ rest)) fuel off n s =
        .ok (err, s') ∧ Transmitted data err s' := by
  intro fuel
  induction fuel with
  | zero => intro off n s _ h; cases h
  | succ fuel ih =>
    intro off n s hoff hfuel hs hpos
    rw [clientLoop]
    by_cases hzero : n = 0
    · rw [if_pos hzero]
      refine ⟨.ok, s, rfl, hs.prefix_data, ?_, ?_⟩
      · exact iff_of_true rfl ((hs.whole_iff (by omega)).mpr (by omega))
      · refine iff_of_false (by decide) ?_
        rintro ⟨r, hr, hle⟩
        have := hpos r hr
        omega
    · rw [if_neg hzero, load_left hoff, ok_bind]
      generalize hr : net s.replies.length ((data.drop off).take n) = r
      have hlen : ((data.drop off).take n).length = n := by
        rw [List.length_take, List.length_drop]
        omega
      have hcase := hnet s.replies.length ((data.drop off).take n)
      rw [hr, hlen] at hcase
      have hmax : (INT32_MAX : Int) = 2147483647 := rfl
      have hcount : toInt32 r = r := toInt32_eq (by omega) (by omega)
      have hsent := hs.send (by omega) hr (by omega)
      have hreply : (s.send net off ((data.drop off).take n)).1 = r := hr
      have hreplies : (s.send net off ((data.drop off).take n)).2.replies = s.replies ++ [r] := by
        rw [Sent.send, hr]
      dsimp only
      rw [hreply, hcount]
      by_cases hfail : r ≤ 0
      · rw [if_pos hfail]
        refine ⟨.tcpSendErr, _, rfl, hsent.prefix_data, ?_, ?_⟩
        · refine iff_of_false (by decide) ?_
          rw [hsent.whole_iff (by omega)]
          omega
        · exact iff_of_true rfl ⟨r, by rw [hreplies]; simp, hfail⟩
      · rw [if_neg hfail]
        have hleft : sizeSub n (toSize r) = n - r.toNat := by
          have hsize : toSize r = r.toNat := by
            unfold toSize
            omega
          rw [hsize, sizeSub_eq (by omega) (by omega)]
        rw [hleft]
        refine ih (by omega) (by omega) hsent fun r' hr' => ?_
        rw [hreplies, List.mem_append, List.mem_singleton] at hr'
        rcases hr' with hold | rfl
        · exact hpos r' hold
        · omega

/-- Whatever `send` does, the loop ends, and what went out is in order and whole or the call fails. -/
theorem tcpClientSend_transmits {net : Network} (hnet : Takes net) (connect : Int → Int)
    {client : TcpClient} (hsock : 0 ≤ client.sock) (d : DataBlock) {fuel : Nat}
    (hfuel : d.bytes.length < fuel) :
    ∃ err s, tcpClientSend fuel net connect (some client) (some d.mem) d.dataLen =
      .ok (err, some client, s) ∧ Transmitted d.bytes err s := by
  obtain ⟨⟨rest, hmem⟩, hlen⟩ := d.bytes_eq
  obtain ⟨err, s, hrun, hs⟩ := @clientLoop_transmits net d.bytes rest hnet d.length_lt fuel 0 _ .empty
    (Nat.zero_add _) hfuel (Sent.empty_exactly _) (by simp [Sent.empty])
  refine ⟨err, s, ?_, hs⟩
  rw [tcpClientSend]
  dsimp only
  rw [if_neg nofun, hlen, ok_bind, if_neg (by omega), hmem, hrun]
  rfl

/-- A network that takes one byte at a time, and fails after the second one. -/
def slowNetwork : Network := fun i bs => if i < 2 then min 1 bs.length else -1

theorem slowNetwork_takes : Takes slowNetwork := by
  intro i bs
  rw [slowNetwork]
  split
  · have hmax : (INT32_MAX : Int) = 2147483647 := rfl
    omega
  · exact .inl rfl

theorem tcpClientSend_transmits_slow : ∃ err s,
    tcpClientSend 4 slowNetwork id (some ⟨3⟩) (some [97, 98, 99, 0]) 0 = .ok (err, some ⟨3⟩, s) ∧
      Transmitted [97, 98, 99] err s :=
  @tcpClientSend_transmits slowNetwork slowNetwork_takes id ⟨3⟩ (by decide)
    ⟨[97, 98, 99, 0], 0, by decide, by decide⟩ 4 (by decide)

/-- Each call fails, or takes between one and all of the bytes. -/
def TakesSome (net : Network) : Prop :=
  ∀ i bs, bs ≠ [] → net i bs = -1 ∨ 1 ≤ net i bs ∧ net i bs ≤ bs.length

/-- The loop ends. What went out is a prefix of the data, whole exactly where the call succeeds, and a
call of `send` that fails is the last one. -/
def HostTransmits (net : Network) (sock : Int) (d : DataBlock) : Prop :=
  ∃ fuel err s, tcpSendDataByHost fuel net sock true (some d.mem) d.dataLen = .ok (err, s) ∧
    s.wire <+: d.bytes.zipIdx ∧ (err = .ok ↔ s.wire = d.bytes.zipIdx) ∧
      ∀ i r, s.replies[i]? = some r → r < 0 → i + 1 = s.replies.length ∧ err = .tcpSendErr

/-- The loop never fails, and only adds to what went out. -/
theorem hostLoop_adds {data : Option Block} : ∀ {fuel n : Nat} {s s' : Sent} {err : AlibError},
    hostLoop net data fuel n s = .ok (err, s') → err = .ok ∧ s.wire <+: s'.wire ∧ s.replies <+: s'.replies := by
  intro fuel
  induction fuel with
  | zero => intro n s s' err h; cases h
  | succ fuel ih =>
    intro n s s' err h
    rw [hostLoop] at h
    by_cases hzero : n = 0
    · rw [if_pos hzero] at h
      cases h
      exact ⟨rfl, List.prefix_refl _, List.prefix_refl _⟩
    · rw [if_neg hzero] at h
      obtain ⟨bs, -, h⟩ := bind_eq_ok.mp h
      dsimp only at h
      rw [if_neg (Nat.not_lt_zero _)] at h
      obtain ⟨hok, hwire, hreplies⟩ := ih h
      exact ⟨hok, (List.prefix_append _ _).trans hwire, (List.prefix_append _ _).trans hreplies⟩

/-- One call of `send` in the loop. -/
theorem hostLoop_call {rest : Block} {n : Nat} {s : Sent} (hpos : n ≠ 0) (hle : n ≤ data.length) :
    hostLoop net (some (data ++ rest)) (fuel + 1) n s =
      hostLoop net (some (data ++ rest)) fuel
        (sizeSub n (toSize (net s.replies.length (data.take n)))) (s.send net 0 (data.take n)).2 := by
  rw [hostLoop, if_neg hpos, load_some (by rw [List.length_append]; omega), ok_bind, List.drop_zero,
    List.take_append_of_le_length hle]
  dsimp only
  rw [if_neg (Nat.not_lt_zero _)]
  rfl

theorem sizeSub_self {n : Nat} (h : n < 2 ^ 64) : sizeSub n n = 0 := by
  rw [sizeSub_eq h (Nat.le_refl n), Nat.sub_self]

section Host

variable {sock : Int} {d : DataBlock}

/-- What is left to do once the socket is connected. -/
theorem tcpSendDataByHost_eq (hsock : 0 ≤ sock) : ∃ rest, d.mem = d.bytes ++ rest ∧
    tcpSendDataByHost fuel net sock true (some d.mem) d.dataLen =
      hostLoop net (some (d.bytes ++ rest)) fuel d.bytes.length .empty := by
  obtain ⟨⟨rest, hmem⟩, hlen⟩ := d.bytes_eq
  refine ⟨rest, hmem, ?_⟩
  rw [tcpSendDataByHost, if_neg (by omega), if_neg (by decide), hlen, ok_bind, hmem]

/-- A first call that takes everything. -/
theorem hostTransmits_of_all (hsock : 0 ≤ sock)
    (h : d.bytes = [] ∨ net 0 d.bytes = d.bytes.length) : HostTransmits net sock d := by
  have hlong := d.length_lt
  obtain ⟨rest, -, hrun⟩ := @tcpSendDataByHost_eq net 2 sock d hsock
  by_cases hnil : d.bytes = []
  · refine ⟨2, .ok, .empty, ?_, List.nil_prefix, ?_, fun i r hr => by cases hr⟩
    · rw [hrun, hnil]
      rfl
    · exact iff_of_true rfl (by rw [hnil]; rfl)
  · have hall := h.resolve_left hnil
    have hreply : net Sent.empty.replies.length ((d.bytes.drop 0).take d.bytes.length) =
        d.bytes.length := by
      rw [List.drop_zero, List.take_length]
      exact hall
    have hsent := (Sent.empty_exactly d.bytes).send (Nat.zero_le _) hreply (Int.le_refl _)
    rw [Nat.zero_add, Int.toNat_natCast] at hsent
    rw [List.drop_zero] at hreply hsent
    refine ⟨2, .ok, _, ?_, hsent.prefix_data, ?_, fun i r hr hneg => ?_⟩
    · rw [hrun, hostLoop_call (fun hzero => hnil (List.eq_nil_of_length_eq_zero hzero)) (Nat.le_refl _),
        hreply, toSize_nat (by omega), sizeSub_self (by omega)]
      rfl
    · exact iff_of_true rfl ((hsent.whole_iff (Nat.le_refl _)).mpr rfl)
    · have hmem := List.mem_of_getElem? hr
      rw [Sent.send, hreply] at hmem
      obtain rfl := List.mem_singleton.mp hmem
      omega

/-- The reply of a failed call is never the last one, since the loop goes on. -/
theorem failed_reply {err : AlibError} {s s' : Sent} {r : Int} (hok : err = .ok)
    (hreplies : s.replies ++ [r] <+: s'.replies)
    (hlast : ∀ i r, s'.replies[i]? = some r → r < 0 → i + 1 = s'.replies.length ∧ err = .tcpSendErr) :
    0 ≤ r := by
  by_contra hneg
  have hat : s'.replies[s.replies.length]? = some r := by
    obtain ⟨more, hmore⟩ := hreplies
    rw [← hmore]
    simp
  have herr := (hlast _ _ hat (by omega)).2
  rw [hok] at herr
  cases herr

/-- After a first call that takes only a part, the second one sends the first byte again. -/
theorem all_of_hostTransmits (hnet : TakesSome net) (hsock : 0 ≤ sock) (h : HostTransmits net sock d) :
    d.bytes = [] ∨ net 0 d.bytes = d.bytes.length := by
  by_contra hpart
  obtain ⟨hne, hpart⟩ := not_or.mp hpart
  have hlong := d.length_lt
  have hpos : 0 < d.bytes.length := List.length_pos_of_ne_nil hne
  obtain ⟨fuel, err, s, hrun, hwire, -, hlast⟩ := h
  obtain ⟨rest, -, hhost⟩ := @tcpSendDataByHost_eq net fuel sock d hsock
  rw [hhost] at hrun
  generalize d.bytes = data at *
  -- The first call.
  cases fuel with
  | zero => cases hrun
  | succ fuel =>
    rw [hostLoop_call (by omega) (Nat.le_refl _), List.take_length] at hrun
    obtain ⟨hok, -, hreplies⟩ := hostLoop_adds hrun
    have hfirst : 0 ≤ net 0 data := failed_reply (s := .empty) hok hreplies hlast
    have hcase := hnet 0 data hne
    obtain ⟨k, hk⟩ : ∃ k : Nat, net 0 data = k := ⟨(net 0 data).toNat, by omega⟩
    have hempty : Sent.empty.replies.length = 0 := rfl
    rw [hempty, hk, toSize_nat (by omega), sizeSub_eq (by omega) (by omega)] at hrun
    -- The second call.
    cases fuel with
    | zero => cases hrun
    | succ fuel =>
      rw [hostLoop_call (by omega) (by omega)] at hrun
      obtain ⟨-, hwires, hreplies⟩ := hostLoop_adds hrun
      have hsecond := failed_reply hok hreplies hlast
      have hwire₁ : (Sent.empty.send net 0 data).2.wire.length = k := by
        rw [Sent.send, hempty, hk]
        simp [Sent.empty]
        omega
      have hne₁ : data.take (data.length - k) ≠ [] := by
        intro hnil
        have hlen := congrArg List.length hnil
        rw [List.length_take, List.length_nil] at hlen
        omega
      have hcase₁ := hnet (Sent.empty.send net 0 data).2.replies.length _ hne₁
      generalize (Sent.empty.send net 0 data).2 = s₁ at *
      obtain ⟨b, hb⟩ := @Sent.send_first s₁ net 0 _ hne₁ (by omega)
      rw [hwire₁] at hb
      have hplace := Sent.in_order (hwires.trans hwire) hb
      omega

/-- Everything goes out once and in order exactly where the first call takes all of it. -/
theorem hostTransmits_iff {net : Network} (hnet : TakesSome net) {sock : Int} (hsock : 0 ≤ sock)
    (d : DataBlock) : HostTransmits net sock d ↔ d.bytes = [] ∨ net 0 d.bytes = d.bytes.length :=
  ⟨all_of_hostTransmits hnet hsock, hostTransmits_of_all hsock⟩

/-- A network that takes everything. -/
theorem hostTransmits_iff_all : HostTransmits (fun _ bs => bs.length) 3 ⟨[97, 98, 0], 0, by decide, by decide⟩ :=
  (hostTransmits_iff (fun _ bs hbs => .inr ⟨Int.ofNat_le.mpr (List.length_pos_of_ne_nil hbs),
    Int.le_refl _⟩) (by decide) _).mpr (.inr rfl)

end Host

/-- Two bytes go out one by one, and a failed call makes the loop ask for one byte more. -/
theorem tcpSendDataByHost_repeats :
    tcpSendDataByHost 9 (fun _ bs => min 1 bs.length) 3 true (some [97, 98, 0]) 2 =
        .ok (.ok, ⟨[(97, 0), (97, 0)], [1, 1]⟩) ∧
      tcpSendDataByHost 9 (fun i bs => if i = 0 then -1 else bs.length) 3 true (some [97, 98, 0]) 2 =
        .ok (.ok, ⟨[(97, 0), (98, 1), (0, 2)], [-1, 3]⟩) ∧
      ¬HostTransmits (fun _ bs => min 1 bs.length) 3 ⟨[97, 98, 0], 2, by decide, by decide⟩ := by
  refine ⟨by decide, by decide, ?_⟩
  rintro ⟨fuel, err, s, hrun, hwire, -⟩
  match fuel, hrun with
  | 0, hrun => cases hrun
  | 1, hrun => cases hrun
  | 2, hrun => cases hrun
  | fuel + 3, hrun =>
    cases hrun
    exact absurd hwire (by decide)

end AlibC
