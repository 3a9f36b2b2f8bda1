import AlibC.BinaryBuffer

/-! `ComDataCheck`: framed messages on a byte stream. On the wire a message is a four
byte length in network byte order and then the message itself. -/
namespace AlibC

open CLang

/-- `ntohl` of four received bytes, kept in an `int32_t`. -/
def ntohl (bs : Block) : Int := toInt32 (bs.foldl (fun n b => 256 * n + b.toNat) 0 : Nat)

/-- `htonl` of an `int32_t`, as the four bytes that are sent. -/
def htonl (n : Int) : Block :=
  let u := (n % 2 ^ 32).toNat
  [.ofNat (u / 2 ^ 24), .ofNat (u / 2 ^ 16), .ofNat (u / 2 ^ 8), .ofNat u]

structure ComDataCheck where
  dataLen : Int
  buff : BinaryBuffer
  unreadBuff : BinaryBuffer
  input : UInt8
deriving DecidableEq, Repr

namespace ComDataCheck

/-- `ComDataCheck_RVal`, or the error of a buffer that is handed on. -/
inductive RVal where
  | complete
  | waiting
  | dataRemaining
  | err (e : AlibError)
deriving DecidableEq, Repr

/-- The results of the two buffer calls are ignored. -/
def check (al : Alloc UInt8) (cdc : ComDataCheck) : Outcome (RVal × ComDataCheck) :=
  if cdc.input = 0 then .ok (.complete, cdc)
  else
    let buffLen := cdc.buff.len
    let dataLen := toSize cdc.dataLen
    if buffLen < dataLen then .ok (.waiting, cdc)
    else if buffLen = dataLen then .ok (.complete, cdc)
    else do
      let (_, unread) ←
        cdc.unreadBuff.append al (advance cdc.buff.buff dataLen) (sizeSub buffLen dataLen)
      let (_, buff) ← cdc.buff.remove dataLen buffLen
      return (.dataRemaining, { cdc with unreadBuff := unread, buff := buff })

/-- Message bytes go into the buffer, and the object is checked. -/
def appendBody (al : Alloc UInt8) (cdc : ComDataCheck) (data : Option Block) (dataLen : Nat) :
    Outcome (RVal × ComDataCheck) := do
  let (err, buff) ← cdc.buff.append al data dataLen
  if err ≠ .ok then return (.err err, { cdc with buff := buff })
  check al { cdc with buff := buff }

/-- The input branch of `ComDataCheck_append`, where `sizeof(cdc->data_len)` is 4. While
the header is incomplete its bytes are kept in the buffer that is otherwise used for
the message. -/
def appendInput (al : Alloc UInt8) (cdc : ComDataCheck) (data : Option Block) (dataLen : Nat) :
    Outcome (RVal × ComDataCheck) :=
  if cdc.dataLen ≠ 0 then appendBody al cdc data dataLen
  else if 4 < sizeAdd dataLen cdc.buff.len then
    if cdc.buff.len ≠ 0 then do
      let diff := toSize (toInt8 (sizeSub 4 cdc.buff.len))
      let (err, buff) ← cdc.buff.append al data diff
      if err ≠ .ok then return (.err err, { cdc with buff := buff })
      let header ← load buff.buff 0 4
      appendBody al { cdc with dataLen := ntohl header, buff := buff.clearNoResize }
        (advance data diff) (sizeSub dataLen diff)
    else do
      let header ← load data 0 4
      appendBody al { cdc with dataLen := ntohl header } (advance data 4)
        (sizeSub dataLen 4)
  else do
    let (err, buff) ← cdc.buff.append al data dataLen
    return (if err = .ok then .waiting else .err err, { cdc with buff := buff })

/-- `ComDataCheck_append` once nothing is left in the unread buffer. -/
def appendRead (al : Alloc UInt8) (cdc : ComDataCheck) (data : Option Block) (dataLen : Nat) :
    Outcome (RVal × ComDataCheck) :=
  if data = none ∨ dataLen = 0 then check al cdc
  else if cdc.input ≠ 0 then appendInput al cdc data dataLen
  else do
    let (err, buff) ← cdc.buff.append al data dataLen
    let cdc := { cdc with buff := buff }
    if err ≠ .ok then return (.err err, cdc)
    if buff.len > INT32_MAX then return (.err .internalMaxReached, cdc)
    return (.complete, { cdc with dataLen := toInt32 buff.len })

/-- The source calls `ComDataCheck_append` here. The unread buffer has just been
extracted, so that the call cannot come back. -/
def processBufferedData (al : Alloc UInt8) (cdc : ComDataCheck) :
    Outcome (RVal × ComDataCheck) :=
  let (data, unread) := cdc.unreadBuff.extractBuffer
  appendRead al { cdc with unreadBuff := unread } data cdc.unreadBuff.len

def append (al : Alloc UInt8) (cdc : ComDataCheck) (data : Option Block) (dataLen : Nat) :
    Outcome (RVal × ComDataCheck) :=
  if cdc.unreadBuff.len ≠ 0 then do
    let (err, cdc) ← processBufferedData al cdc
    if err = .complete ∨ err = .dataRemaining then do
      let (_, unread) ← cdc.unreadBuff.append al data dataLen
      return (if dataLen ≠ 0 then .dataRemaining else err, { cdc with unreadBuff := unread })
    else appendRead al cdc data dataLen
  else appendRead al cdc data dataLen

theorem processBufferedData_eq_append (al : Alloc UInt8) (cdc : ComDataCheck) :
    processBufferedData al cdc =
      append al { cdc with unreadBuff := cdc.unreadBuff.extractBuffer.2 }
        cdc.unreadBuff.extractBuffer.1 cdc.unreadBuff.len := rfl

def clear (al : Alloc UInt8) (cdc : ComDataCheck) : ComDataCheck :=
  { cdc with dataLen := 0, buff := cdc.buff.clear al }

/-- `net` is the socket: for the first and the second call of `send` what it returns
when the given bytes are offered to it. The result comes with the bytes it took. -/
def send (cdc : ComDataCheck) (sock : Int) (net : Bool → Block → Int) :
    Outcome (AlibError × Block) :=
  if sock ≤ 0 then .ok (.badArg, [])
  else do
    let header := htonl (toInt32 cdc.buff.len)
    let sent := net false header
    if toSize sent ≠ 4 then return (.fileWriteErr, header.take sent.toNat)
    let body ← load cdc.buff.buff 0 cdc.buff.len
    let sent := net true body
    if toSize sent ≠ cdc.buff.len then
      return (.fileWriteErr, header ++ body.take sent.toNat)
    return (.ok, header ++ body)

def setMode (cdc : ComDataCheck) (input : UInt8) : ComDataCheck :=
  if cdc.input = input then cdc
  else if input ≠ 0 then { cdc with input := input, dataLen := 0 }
  else { cdc with input := input, dataLen := toInt32 cdc.buff.len }

def new (al : Alloc UInt8) (input : UInt8) : Outcome (Option ComDataCheck) := do
  let buff ← BinaryBuffer.new al
  let unread ← BinaryBuffer.new al
  match buff, unread with
  | some buff, some unread => return some { dataLen := 0, buff, unreadBuff := unread, input }
  | _, _ => return none

/-- The documented way to receive, after a result `r`: a message is taken out of the
buffer, the buffer is cleared, and the rest is processed while data remains. -/
def drain (al : Alloc UInt8) : Nat → RVal → ComDataCheck → Outcome (List Block × ComDataCheck)
  | _, .complete, cdc => do
    let msg ← load cdc.buff.buff 0 cdc.buff.len
    return ([msg], cdc.clear al)
  | 0, .dataRemaining, _ => .error .diverges
  | fuel + 1, .dataRemaining, cdc => do
    let msg ← load cdc.buff.buff 0 cdc.buff.len
    let (r, cdc) ← processBufferedData al (cdc.clear al)
    let (msgs, cdc) ← drain al fuel r cdc
    return (msg :: msgs, cdc)
  | _, _, cdc => .ok ([], cdc)

/-- One chunk from the stream. The fuel is enough: each round of the loop uses up some
of the unread bytes. -/
def receive (cdc : ComDataCheck) (chunk : Alloc UInt8 × Block) :
    Outcome (List Block × ComDataCheck) := do
  let (r, cdc) ← cdc.append chunk.1 (some chunk.2) chunk.2.length
  drain chunk.1 cdc.unreadBuff.len r cdc

/-- `DEFAULT_INPUT_BUFF_SIZE`. -/
abbrev defaultInputBuffSize : Nat := 64 * 1024

/-- What one call of `recv` brings: some bytes, the end of the connection (0), or -1, for
an error or because the timeout of the socket ran out. -/
inductive Received where
  | data (bs : Block) (len : 0 < bs.length ∧ bs.length ≤ defaultInputBuffSize)
  | closed
  | failed (timeout : Bool)

/-- The result as it is kept, in a `size_t`. -/
def Received.recvLen : Received → Nat
  | .data bs _ => bs.length
  | .closed => 0
  | .failed _ => toSize (-1)

def Received.bytes : Received → Block
  | .data bs _ => bs
  | _ => []

/-- `recv` may still block when the run ends. A returned value is `none` when the
variable it comes from was never set. -/
inductive RecvEnd where
  | blocked
  | returned (rval : Option RVal)
deriving DecidableEq, Repr

section

variable {σ : Type}

/-- The loop of `ComDataCheck_recv`. `app` is `ComDataCheck_append` on its object, each
time with the allocator it meets; `buff` is the array on the stack. -/
def recvLoop (app : σ → Alloc UInt8 → Block → Nat → Outcome (RVal × σ)) :
    Block → Option RVal → σ → List (Alloc UInt8 × Received) → Outcome (RecvEnd × σ)
  | _, _, s, [] => .ok (.blocked, s)
  | buff, rval, s, (al, res) :: rs =>
    if res.recvLen = 0 then .ok (.returned rval, s)
    else do
      let buff := overwrite buff 0 res.bytes
      let (r, s) ← app s al buff res.recvLen
      if r = .waiting then recvLoop app buff (some r) s rs
      else return (.returned (some r), s)

def recvWith (app : σ → Alloc UInt8 → Block → Nat → Outcome (RVal × σ)) (input : UInt8)
    (sock : Int) (buff : Block) (s : σ) (rs : List (Alloc UInt8 × Received)) :
    Outcome (RecvEnd × σ) :=
  if sock ≤ 0 ∨ input = 0 then .ok (.returned (some (.err .badArg)), s)
  else recvLoop app buff none s rs

/-- `ComDataCheck_recv_timeout`; `opt` is what `setsockopt` returned. -/
def recvTimeoutWith (app : σ → Alloc UInt8 → Block → Nat → Outcome (RVal × σ)) (input : UInt8)
    (opt sock : Int) (buff : Block) (s : σ) (rs : List (Alloc UInt8 × Received)) :
    Outcome (RecvEnd × σ) :=
  if opt ≠ 0 then .ok (.returned (some (.err .fileErr)), s)
  else do
    let (r, s) ← recvWith app input sock buff s rs
    return (if r = .returned (some .waiting) then .returned (some (.err .timeout)) else r, s)

end

def recv (cdc : ComDataCheck) (sock : Int) (buff : Block)
    (rs : List (Alloc UInt8 × Received)) : Outcome (RecvEnd × ComDataCheck) :=
  recvWith (fun cdc al data n => append al cdc (some data) n) cdc.input sock buff cdc rs

def recvTimeout (cdc : ComDataCheck) (opt sock : Int) (buff : Block)
    (rs : List (Alloc UInt8 × Received)) : Outcome (RecvEnd × ComDataCheck) :=
  recvTimeoutWith (fun cdc al data n => append al cdc (some data) n) cdc.input opt sock buff cdc rs

end ComDataCheck

end AlibC
