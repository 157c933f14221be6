import MatchRust.Mold.Ring

/-!
# Publisher, subscriber and retransmission server

The publisher numbers the messages, keeps them in the ring and sends them, one in a
packet or several.  The subscriber reads packets, remembers the highest number it has
seen and reports a gap when a packet starts beyond the next one.  It may ask the
retransmission server for the missing messages, which answers from the ring.

Sockets are left out.  A call that sends a datagram returns it.  The calls of the
publisher are split where the source takes and releases a lock, so that they can be
interleaved (`MatchRust.Mold.Threads`).  A datagram too short for a header never gets
to `parse_packet`, which would panic on it.  The check of the session in
`parse_packet` is for debug builds only and is left out.
-/

namespace MatchMoldUdp64

open Numbered

/-! ## The publisher -/

/-- The publisher: the next number and the ring, each behind a lock of its own. -/
structure MoldPublisher where
  sessionId : SessionId
  nextSeq : Nat
  cache : MessageRingBuf

namespace MoldPublisher

/-- A publisher that has published nothing. -/
def new (session : List UInt8) (cacheCapacity : Nat) : MoldPublisher :=
  ⟨packSession session, 1, MessageRingBuf.new cacheCapacity⟩

/-- Take the next number. -/
def allocSeq (p : MoldPublisher) : Nat × MoldPublisher :=
  (p.nextSeq, { p with nextSeq := (p.nextSeq + 1) % 2 ^ 64 })

/-- Take several numbers under one lock. -/
def allocSeqs (p : MoldPublisher) : Nat → List Nat × MoldPublisher
  | 0 => ([], p)
  | n + 1 =>
      let r := p.allocSeq
      let rest := allocSeqs r.2 n
      (r.1 :: rest.1, rest.2)

/-- Put messages into the ring under one lock. -/
def pushAll (p : MoldPublisher) (msgs : List (Nat × Payload)) : MoldPublisher :=
  { p with cache := msgs.foldl (fun ring m => ring.push m.1 m.2) p.cache }

/-- The messages that fit into one datagram, given those chosen so far. -/
def fitLoop (max : Nat) (blocks : List Payload) : List Payload → Nat → List Payload
  | [], _ => blocks
  | payload :: msgs, totalLen =>
      let blockTotal := moldBlockHeaderLen + payload.length
      if blocks ≠ [] ∧ max < totalLen + blockTotal then blocks
      else if blocks = [] ∧ max < blockTotal + moldHeaderLen then blocks
      else fitLoop max (blocks ++ [payload]) msgs (totalLen + blockTotal)

/-- The messages of a batch that fit. -/
def fitBlocks (msgs : List Payload) (maxDatagramBytes : Nat) : List Payload :=
  fitLoop (if maxDatagramBytes = 0 then moldMaxDatagram else maxDatagramBytes) [] msgs
    moldHeaderLen

/-- Publish a message. -/
def publish (p : MoldPublisher) (payload : Payload) : List UInt8 × MoldPublisher :=
  let r := p.allocSeq
  (packet p.sessionId r.1 [payload], r.2.pushAll [(r.1, payload)])

/-- Publish the first messages of a batch, as many as fit: their number and the packet. -/
def publishBatch (p : MoldPublisher) (msgs : List Payload) (maxDatagramBytes : Nat) :
    (Nat × Option (List UInt8)) × MoldPublisher :=
  if msgs = [] then ((0, none), p)
  else
    let firstSeq := p.nextSeq
    let blocks := fitBlocks msgs maxDatagramBytes
    if blocks = [] then ((0, none), p)
    else
      let r := p.allocSeqs blocks.length
      ((blocks.length, some (packet p.sessionId firstSeq blocks)), r.2.pushAll (r.1.zip msgs))

/-- Announce the next number. -/
def sendHeartbeat (p : MoldPublisher) : List UInt8 := heartbeat p.sessionId p.nextSeq

theorem allocSeqs_eq {p : MoldPublisher} {n : Nat} (h : p.nextSeq + n < 2 ^ 64) :
    p.allocSeqs n = (List.range' p.nextSeq n, { p with nextSeq := p.nextSeq + n }) := by
  induction n generalizing p with
  | zero => rfl
  | succ n ih =>
      have hstep : (p.nextSeq + 1) % 2 ^ 64 = p.nextSeq + 1 := Nat.mod_eq_of_lt (by omega)
      have hrest : p.allocSeq.2.nextSeq = p.nextSeq + 1 := hstep
      rw [allocSeqs, ih (by omega), hrest, List.range'_succ, Nat.add_right_comm]
      rfl

theorem fitLoop_prefix (max : Nat) (blocks msgs : List Payload) (totalLen : Nat) :
    fitLoop max blocks msgs totalLen <+: blocks ++ msgs := by
  induction msgs generalizing blocks totalLen with
  | nil => simp [fitLoop]
  | cons payload msgs ih =>
      simp only [fitLoop]
      split
      next => exact List.prefix_append _ _
      next =>
        split
        next => exact List.prefix_append _ _
        next =>
          have h := ih (blocks ++ [payload]) (totalLen + (moldBlockHeaderLen + payload.length))
          rwa [List.append_assoc] at h

/-- The messages that fit are the first ones. -/
theorem fitBlocks_prefix (msgs : List Payload) (maxDatagramBytes : Nat) :
    fitBlocks msgs maxDatagramBytes <+: msgs :=
  fitLoop_prefix _ [] msgs _

end MoldPublisher

/-! ## The subscriber -/

/-- A gap in the numbers. -/
structure GapInfo where
  expected : Nat
  firstSeq : Nat
  lost : Nat
deriving DecidableEq

/-- What a packet said. -/
structure ParseOutcome where
  firstSeq : Nat
  msgCount : Nat
  isHeartbeat : Bool
  gap : Option GapInfo
  messages : List (Nat × Payload)
deriving DecidableEq

/-- Errors of the sockets. -/
inductive IoError where
  | notConnected (text : String)
deriving DecidableEq

/-- The subscriber.  It has no last number before the first packet. -/
structure MoldSubscriber (Addr : Type) where
  sessionId : SessionId
  lastSeq : Option Nat
  retransmitAddr : Option Addr

namespace MoldSubscriber

variable {Addr : Type}

/-- The outcome of a heartbeat. -/
def heartbeatOutcome (seq : Nat) : ParseOutcome := ⟨seq, 0, true, none, []⟩

/-- The messages of a packet with their numbers, and whether the packet was cut. -/
def parseBlocks : Nat → List UInt8 → Nat → List (Nat × Payload) × Bool
  | 0, _, _ => ([], false)
  | count + 1, ptr, seq =>
      if ptr.length < moldBlockHeaderLen then ([], true)
      else
        let len := Bytes.beValue (ptr.take 2)
        let ptr := ptr.drop moldBlockHeaderLen
        if ptr.length < len then ([], true)
        else
          let r := parseBlocks count (ptr.drop len) (seq + 1)
          ((seq, ptr.take len) :: r.1, r.2)

/-- The last number after a heartbeat. -/
def syncSeq (lastSeq : Option Nat) (seq : Nat) : Option Nat :=
  match lastSeq with
  | some last => some (max last (seq - 1))
  | none => if 1 < seq then some (seq - 1) else none

/-- The gap before a packet. -/
def gapBefore (lastSeq : Option Nat) (firstSeq : Nat) : Option GapInfo :=
  let expected := (lastSeq.map fun last => last + 1).getD firstSeq
  if expected < firstSeq then some ⟨expected, firstSeq, firstSeq - expected⟩ else none

/-- The last number after a packet that was not cut. -/
def advanceSeq (lastSeq : Option Nat) (firstSeq count : Nat) : Option Nat :=
  let last := firstSeq + count - 1
  some ((lastSeq.map fun l => max l last).getD last)

/-- Read a packet. -/
def parsePacket (sub : MoldSubscriber Addr) (buf : List UInt8) :
    Option (ParseOutcome × MoldSubscriber Addr) :=
  (DownstreamHeader.decode buf).map fun header =>
    if header.msgCount = 0 then
      (heartbeatOutcome header.seq, { sub with lastSeq := syncSeq sub.lastSeq header.seq })
    else
      let r := parseBlocks header.msgCount (buf.drop moldHeaderLen) header.seq
      (⟨header.seq, header.msgCount, false, gapBefore sub.lastSeq header.seq, r.1⟩,
        if r.2 = false ∧ r.1 ≠ [] then
          { sub with lastSeq := advanceSeq sub.lastSeq header.seq r.1.length }
        else sub)

/-- Ask the retransmission server for messages. -/
def sendNak (sub : MoldSubscriber Addr) (startSeq count : Nat) :
    Except IoError (Addr × List UInt8) :=
  match sub.retransmitAddr with
  | none => .error (.notConnected "retransmit server not configured")
  | some addr => .ok (addr, (RequestHeader.mk sub.sessionId startSeq count).encode)

/-- Ask for the messages of a gap, at most `maxRequest` of them: the gap, and the request. -/
def autoNak (sub : MoldSubscriber Addr) (outcome : ParseOutcome) (maxRequest : Nat) :
    Except IoError (Option (GapInfo × Addr × List UInt8)) :=
  match outcome.gap with
  | none => .ok none
  | some gap =>
      (sub.sendNak gap.expected (min gap.lost maxRequest)).map fun sent => some (gap, sent)

end MoldSubscriber

/-! ## The retransmission server -/

/-- Answer a request for messages from the ring. -/
def replyRange (session : SessionId) (cache : MessageRingBuf) (startSeq count : Nat) :
    Option (List UInt8) :=
  let msgs := cache.getRange startSeq count
  if msgs = [] then none
  else some (packet session startSeq (msgs.map CachedMessage.payload))

/-- Answer one datagram.  Short ones and those of another session are ignored. -/
def serveOnce (session : SessionId) (cache : MessageRingBuf) (buf : List UInt8) :
    Option (List UInt8) :=
  match RequestHeader.decode buf with
  | none => none
  | some req =>
      if req.sessionId ≠ session then none
      else replyRange session cache req.startSeq req.msgCount

/-! ## What is read of a packet -/

namespace MoldSubscriber

variable {Addr : Type}

/-- The messages of a packet are read back. -/
theorem parseBlocks_blocks {msgs : List Payload} (h : ∀ p ∈ msgs, p.length < 2 ^ 16) (seq : Nat) :
    parseBlocks msgs.length (msgs.flatMap block) seq = (numbered seq msgs, false) := by
  induction msgs generalizing seq with
  | nil => rfl
  | cons p msgs ih =>
      have hbytes : (p :: msgs).flatMap block =
          Bytes.be 2 p.length ++ (p ++ msgs.flatMap block) := by
        simp [block, List.append_assoc]
      have hlong : ¬ ((p :: msgs).flatMap block).length < moldBlockHeaderLen := by
        rw [hbytes, List.length_append, Bytes.length_be]
        unfold moldBlockHeaderLen
        omega
      have hlen : Bytes.beValue (((p :: msgs).flatMap block).take 2) = p.length := by
        rw [hbytes, List.take_left' (Bytes.length_be 2 _),
          Bytes.beValue_be_of_lt (h p List.mem_cons_self)]
      have hrest : ((p :: msgs).flatMap block).drop moldBlockHeaderLen =
          p ++ msgs.flatMap block := by
        rw [hbytes]
        exact List.drop_left' (Bytes.length_be 2 _)
      rw [List.length_cons, parseBlocks, if_neg hlong]
      simp only [hlen, hrest, List.take_left, List.drop_left]
      rw [if_neg (by simp), ih fun q hq => h q (List.mem_cons_of_mem _ hq)]
      rfl

/-- A complete packet gives its messages with their numbers. -/
theorem parsePacket_packet (sub : MoldSubscriber Addr) (session : SessionId) {firstSeq : Nat}
    {msgs : List Payload} (hseq : firstSeq < 2 ^ 64) (hne : msgs ≠ [])
    (hcount : msgs.length < 2 ^ 16) (hshort : ∀ p ∈ msgs, p.length < 2 ^ 16) :
    sub.parsePacket (packet session firstSeq msgs) =
      some (⟨firstSeq, msgs.length, false, gapBefore sub.lastSeq firstSeq,
          numbered firstSeq msgs⟩,
        { sub with lastSeq := advanceSeq sub.lastSeq firstSeq msgs.length }) := by
  have hnum : numbered firstSeq msgs ≠ [] := by
    rw [← List.length_pos_iff, length_numbered]
    exact List.length_pos_iff.mpr hne
  rw [parsePacket, decode_packet session hseq, Option.map_some, Nat.mod_eq_of_lt hcount,
    drop_packet, parseBlocks_blocks hshort, if_neg (by simpa using hne)]
  simp only [true_and, hnum, ne_eq, not_false_eq_true, if_true, length_numbered]

theorem parsePacket_heartbeat (sub : MoldSubscriber Addr) (session : SessionId) {seq : Nat}
    (hseq : seq < 2 ^ 64) :
    sub.parsePacket (heartbeat session seq) =
      some (heartbeatOutcome seq, { sub with lastSeq := syncSeq sub.lastSeq seq }) := by
  rw [parsePacket, decode_heartbeat session hseq, Option.map_some, if_pos rfl]

end MoldSubscriber

end MatchMoldUdp64
