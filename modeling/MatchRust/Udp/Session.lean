import MatchRust.Lib.Bytes

/-!
# The order entry sessions

A trading client and the matching gateway talk over UDP.  A datagram is one frame:
nine bytes of header, then the payload.  Each direction counts its own messages.

The client numbers its orders and keeps each one until it is acknowledged
(`pending`), so that it can send it again after a timeout.  The server takes orders
in the order of their numbers only.  It answers every order with an acknowledgement
that says whether the order was taken (or had been taken before), or came too early.

The server numbers its reports and keeps the last ones (`store`).  A client that
misses some asks for them, and gets those that are still kept, in one datagram.

Sequence numbers are 32-bit numbers in the source.  They are natural numbers here,
and the additions that wrap are taken modulo `2 ^ 32`.  Instants are natural numbers
too, since the code only asks how long ago one was.
-/

namespace MatchUdpOrder

/-- Payloads and datagrams are bytes. -/
abbrev Payload := List UInt8

/-! ## Frames -/

/-- The session number in every frame. -/
def sessionMagic : Nat := 0x4D4F4F52

/-- The length of the header. -/
def headerLen : Nat := 9

/-- The header of a frame. -/
structure Header where
  session : Nat
  seq : Nat
  mtype : UInt8
deriving DecidableEq

namespace t

/-! ### Message types -/

def hello : UInt8 := 0x30
def order : UInt8 := 0x01
def cancel : UInt8 := 0x02
def replace : UInt8 := 0x03
def nakRequest : UInt8 := 0x20
def heartbeat : UInt8 := 0x40
def helloAck : UInt8 := 0x31
def orderAck : UInt8 := 0x12
def report : UInt8 := 0x10
def nakResponse : UInt8 := 0x21

end t

/-- The reports a reconnecting client needs are gone. -/
def helloAckGapTooOld : UInt8 := 0x01

/-- The order was taken. -/
def ackOk : UInt8 := 0x00

/-- The order was rejected. -/
def ackReject : UInt8 := 0x01

/-- The order came too early and has to be sent again. -/
def ackRetry : UInt8 := 0x02

/-- Put a frame together. -/
def encode (session seq : Nat) (mtype : UInt8) (payload : Payload) : List UInt8 :=
  Bytes.be 4 session ++ Bytes.be 4 seq ++ [mtype] ++ payload

/-- Take a frame apart.  A short datagram or one of another session is no frame. -/
def decode (dg : List UInt8) : Option (Header × Payload) :=
  if dg.length < headerLen then none
  else
    let session := Bytes.beValue (dg.take 4)
    if session ≠ sessionMagic then none
    else
      some (⟨session, Bytes.beValue ((dg.drop 4).take 4), dg.getD 8 0⟩, dg.drop headerLen)

/-- The number in the first four bytes. -/
def u32Be (b : List UInt8) : Nat := Bytes.beValue (b.take 4)

/-- The number after a sequence number. -/
def nextSeq (seq : Nat) : Nat := (seq + 1) % 2 ^ 32

/-! ## The server -/

/-- What the server tells its caller. -/
inductive ServerEvent where
  | order (seq : Nat) (payload : Payload)
  | cancel (seq : Nat) (payload : Payload)
  | replace (seq : Nat) (payload : Payload)
  | nakRequest (start count : Nat)
  | hello (clientId lastReportSeq : Nat)
  | heartbeat
deriving DecidableEq

/-- The server's side of a session. -/
structure ServerSession where
  nextReportSeq : Nat
  expectedClientSeq : Nat
  /-- The reports that can be sent again. -/
  store : List (Nat × Payload)
  storeStart : Nat
  storeCap : Nat
  /-- The gap that was asked for last. -/
  lastNakStart : Option Nat
deriving DecidableEq

namespace ServerSession

/-- A new session. -/
def new (storeCap : Nat) : ServerSession where
  nextReportSeq := 1
  expectedClientSeq := 1
  store := []
  storeStart := 1
  storeCap := max storeCap 1
  lastNakStart := none

/-- The number of the last report. -/
def reportHighWater (s : ServerSession) : Nat := s.nextReportSeq - 1

/-- A stored report inside a response. -/
def nakFrame (r : Nat × Payload) : List UInt8 :=
  Bytes.be 4 r.1 ++ Bytes.be 2 r.2.length ++ r.2

/-- The stored reports from `start` on, at most `count` of them. -/
def nakResponse (s : ServerSession) (start count : Nat) : List UInt8 :=
  let fromSeq := max start s.storeStart
  let toSeq := min (min (fromSeq + count) (2 ^ 32 - 1)) ((s.reportHighWater + 1) % 2 ^ 32)
  encode sessionMagic 0 t.nakResponse
    (Bytes.be 4 fromSeq ++ Bytes.be 4 (toSeq - fromSeq) ++
      (s.store.filter fun r => fromSeq ≤ r.1 ∧ r.1 < toSeq).flatMap nakFrame)

/-- An acknowledgement of an order. -/
def orderAck (seq : Nat) (ack : UInt8) : List UInt8 :=
  encode sessionMagic seq t.orderAck (Bytes.be 4 seq ++ [ack])

/-- The event of an order, a cancel or a replace. -/
def orderEvent (h : Header) (payload : Payload) : ServerEvent :=
  if h.mtype = t.order then .order h.seq payload
  else if h.mtype = t.cancel then .cancel h.seq payload
  else .replace h.seq payload

/-- An order, a cancel or a replace. -/
def onOrder (s : ServerSession) (h : Header) (payload : Payload) :
    List ServerEvent × List (List UInt8) × ServerSession :=
  if h.seq = s.expectedClientSeq then
    ([orderEvent h payload], [orderAck h.seq ackOk],
      { s with expectedClientSeq := nextSeq s.expectedClientSeq })
  else if h.seq < s.expectedClientSeq then ([], [orderAck h.seq ackOk], s)
  else if s.lastNakStart ≠ some s.expectedClientSeq then
    -- the same gap is asked for once only
    ([],
      [encode sessionMagic 0 t.nakRequest
        (Bytes.be 4 s.expectedClientSeq ++ Bytes.be 4 (h.seq - s.expectedClientSeq)),
        orderAck h.seq ackRetry],
      { s with lastNakStart := some s.expectedClientSeq })
  else ([], [orderAck h.seq ackRetry], s)

/-- A client asks for reports. -/
def onNakRequest (s : ServerSession) (payload : Payload) :
    List ServerEvent × List (List UInt8) × ServerSession :=
  if 8 ≤ payload.length then
    let start := u32Be (payload.take 4)
    let count := u32Be ((payload.drop 4).take 4)
    ([.nakRequest start count], [s.nakResponse start count], s)
  else ([], [], s)

/-- A client connects again. -/
def onHello (s : ServerSession) (payload : Payload) :
    List ServerEvent × List (List UInt8) × ServerSession :=
  if 8 ≤ payload.length then
    let clientId := u32Be (payload.take 4)
    let last := u32Be ((payload.drop 4).take 4)
    let flags := if nextSeq last < s.storeStart then helloAckGapTooOld else 0
    ([.hello clientId last],
      [encode sessionMagic 0 t.helloAck
        (Bytes.be 4 s.reportHighWater ++ Bytes.be 4 s.storeStart ++ [flags] ++
          List.replicate 4 0)], s)
  else ([], [], s)

/-- Process a datagram: the events, the datagrams to send, and the session after it. -/
def onDatagram (s : ServerSession) (dg : List UInt8) :
    List ServerEvent × List (List UInt8) × ServerSession :=
  match decode dg with
  | none => ([], [], s)
  | some (h, payload) =>
      if h.mtype = t.order ∨ h.mtype = t.cancel ∨ h.mtype = t.replace then s.onOrder h payload
      else if h.mtype = t.nakRequest then s.onNakRequest payload
      else if h.mtype = t.hello then s.onHello payload
      else if h.mtype = t.heartbeat then
        ([.heartbeat], [encode sessionMagic 0 t.heartbeat []], s)
      else ([], [], s)

/-- Acknowledge an order and register its report. -/
def ackAndReport (s : ServerSession) (clientSeq : Nat) (reportPayload : Payload) :
    List (List UInt8) × ServerSession :=
  let seq := s.nextReportSeq
  let store := s.store ++ [(seq, reportPayload)]
  let s := { s with nextReportSeq := nextSeq s.nextReportSeq }
  let s :=
    if s.storeCap < store.length then
      { s with
        store := store.tail
        storeStart := nextSeq ((store.head?.map Prod.fst).getD 0) }
    else { s with store := store }
  ([orderAck clientSeq ackOk, encode sessionMagic seq t.report reportPayload], s)

/-- Reject an order. -/
def rejectOrder (_ : ServerSession) (clientSeq : Nat) : List (List UInt8) :=
  [orderAck clientSeq ackReject]

end ServerSession

/-! ## The client -/

/-- What the client tells its caller. -/
inductive ClientEvent where
  | report (seq : Nat) (payload : Payload)
  | orderAck (clientSeq : Nat) (result : UInt8)
  | helloAck (serverLast storeStart : Nat) (flags : UInt8)
  | heartbeat
deriving DecidableEq

/-- The client's side of a session. -/
structure ClientSession where
  nextOrderSeq : Nat
  expectedReportSeq : Nat
  /-- The orders that are not acknowledged. -/
  pending : Std.TreeMap Nat Payload
  /-- When they were sent. -/
  pendingTs : Std.TreeMap Nat Nat

namespace ClientSession

/-- A new session. -/
def new : ClientSession := ⟨1, 1, ∅, ∅⟩

/-- The frame of an order. -/
def orderFrame (seq : Nat) (payload : Payload) : List UInt8 :=
  encode sessionMagic seq t.order payload

/-- Send an order. -/
def sendOrder (c : ClientSession) (payload : Payload) (now : Nat) : List UInt8 × ClientSession :=
  let seq := c.nextOrderSeq
  (orderFrame seq payload,
    { c with
      nextOrderSeq := nextSeq c.nextOrderSeq
      pending := c.pending.insert seq payload
      pendingTs := c.pendingTs.insert seq now })

/-- Send the orders with these numbers again. -/
def resend (now : Nat) : List Nat → ClientSession → List (List UInt8) × ClientSession
  | [], c => ([], c)
  | seq :: due, c =>
      match c.pending[seq]? with
      | none => resend now due c
      | some p =>
          let r := resend now due { c with pendingTs := c.pendingTs.insert seq now }
          (orderFrame seq p :: r.1, r.2)

/-- Send the orders again that have waited too long. -/
def retransmitDue (c : ClientSession) (timeout now : Nat) : List (List UInt8) × ClientSession :=
  let due := (c.pendingTs.toList.filter fun e => timeout ≤ now - e.2).map Prod.fst
  resend now due c

/-- Ask for reports. -/
def nakRequest (_ : ClientSession) (start count : Nat) : List UInt8 :=
  encode sessionMagic 0 t.nakRequest (Bytes.be 4 start ++ Bytes.be 4 count)

/-- Connect again. -/
def sendHello (_ : ClientSession) (clientId lastReportSeq : Nat) : List UInt8 :=
  encode sessionMagic 0 t.hello (Bytes.be 4 clientId ++ Bytes.be 4 lastReportSeq)

/-- A report. -/
def onReport (c : ClientSession) (seq : Nat) (payload : Payload) :
    List ClientEvent × List (List UInt8) × ClientSession :=
  if seq = c.expectedReportSeq then
    ([.report seq payload], [], { c with expectedReportSeq := nextSeq c.expectedReportSeq })
  else if c.expectedReportSeq < seq then
    ([], [c.nakRequest c.expectedReportSeq (seq - c.expectedReportSeq)], c)
  else ([], [], c)

/-- A report inside a response. -/
def onNakFrame (c : ClientSession) (seq : Nat) (body : Payload) :
    List ClientEvent × ClientSession :=
  if seq = c.expectedReportSeq then
    ([.report seq body], { c with expectedReportSeq := nextSeq c.expectedReportSeq })
  else if c.expectedReportSeq < seq then
    ([.report seq body], { c with expectedReportSeq := nextSeq seq })
  else ([], c)

/-- The reports inside a response, given the bytes that are left. -/
def nakLoop (c : ClientSession) : Nat → List UInt8 → List ClientEvent × ClientSession
  | 0, _ => ([], c)
  | count + 1, rest =>
      if rest.length < 6 then ([], c)
      else
        let seq := u32Be (rest.take 4)
        let len := Bytes.beValue ((rest.drop 4).take 2)
        let rest := rest.drop 6
        if rest.length < len then ([], c)
        else
          let r := c.onNakFrame seq (rest.take len)
          let more := nakLoop r.2 count (rest.drop len)
          (r.1 ++ more.1, more.2)

/-- A response with reports. -/
def onNakResponse (c : ClientSession) (payload : Payload) :
    List ClientEvent × List (List UInt8) × ClientSession :=
  if payload.length < 8 then ([], [], c)
  else
    let count := u32Be ((payload.drop 4).take 4)
    let r := c.nakLoop count (payload.drop 8)
    (r.1, [], r.2)

/-- An acknowledgement.  Whatever its result, the order is not pending any more. -/
def onOrderAck (c : ClientSession) (payload : Payload) :
    List ClientEvent × List (List UInt8) × ClientSession :=
  if 5 ≤ payload.length then
    let clientSeq := u32Be (payload.take 4)
    ([.orderAck clientSeq (payload.getD 4 0)], [],
      { c with
        pending := c.pending.erase clientSeq
        pendingTs := c.pendingTs.erase clientSeq })
  else ([], [], c)

/-- The answer to a reconnection. -/
def onHelloAck (c : ClientSession) (payload : Payload) :
    List ClientEvent × List (List UInt8) × ClientSession :=
  if 9 ≤ payload.length then
    ([.helloAck (u32Be (payload.take 4)) (u32Be ((payload.drop 4).take 4)) (payload.getD 8 0)],
      [], c)
  else ([], [], c)

/-- Process a datagram: the events, the datagrams to send, and the session after it. -/
def onDatagram (c : ClientSession) (dg : List UInt8) :
    List ClientEvent × List (List UInt8) × ClientSession :=
  match decode dg with
  | none => ([], [], c)
  | some (h, payload) =>
      if h.mtype = t.report then c.onReport h.seq payload
      else if h.mtype = t.nakResponse then c.onNakResponse payload
      else if h.mtype = t.orderAck then c.onOrderAck payload
      else if h.mtype = t.helloAck then c.onHelloAck payload
      else if h.mtype = t.heartbeat then ([.heartbeat], [], c)
      else ([], [], c)

end ClientSession

/-! ## Frames are read back -/

@[simp] theorem decode_encode (seq : Nat) (mtype : UInt8) (payload : Payload) :
    decode (encode sessionMagic seq mtype payload) =
      some (⟨sessionMagic, seq % 2 ^ 32, mtype⟩, payload) := by
  have hlen : ¬ (encode sessionMagic seq mtype payload).length < headerLen := by
    simp only [encode, headerLen, List.length_append, Bytes.length_be, List.length_singleton]
    omega
  have hsession :
      Bytes.beValue ((encode sessionMagic seq mtype payload).take 4) = sessionMagic := by
    rw [encode, List.append_assoc, List.append_assoc, List.take_left' (Bytes.length_be 4 _),
      Bytes.beValue_be_of_lt (by decide)]
  have hseq : Bytes.beValue (((encode sessionMagic seq mtype payload).drop 4).take 4) =
      seq % 2 ^ 32 := by
    rw [encode, List.append_assoc, List.append_assoc, List.drop_left' (Bytes.length_be 4 _),
      List.take_left' (Bytes.length_be 4 _), Bytes.beValue_be]
    rfl
  have htype : (encode sessionMagic seq mtype payload).getD 8 0 = mtype := rfl
  have hpayload : (encode sessionMagic seq mtype payload).drop headerLen = payload :=
    List.drop_left' (by simp [headerLen])
  simp only [decode, if_neg hlen, hsession, hseq, htype, hpayload, ne_eq, not_true_eq_false,
    if_false]

/-- The number that a payload starts with is read back. -/
theorem u32Be_front {a : Nat} (ha : a < 2 ^ 32) (rest : List UInt8) :
    u32Be ((Bytes.be 4 a ++ rest).take 4) = a := by
  rw [u32Be, List.take_left' (Bytes.length_be 4 _),
    List.take_of_length_le (Bytes.length_be 4 _).le, Bytes.beValue_be_of_lt ha]

end MatchUdpOrder
