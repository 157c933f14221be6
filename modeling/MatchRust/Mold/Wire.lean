import MatchRust.Lib.Bytes
import MatchRust.Lib.Numbered

/-!
# MoldUDP64 packets

A downstream packet has the name of the session, the number of its first message and
the number of messages, and then the messages, each after its length.  A packet
without messages is a heartbeat, and carries the number of the next message to come.
A request has the same twenty bytes of header and nothing else.

Sequence numbers are 64-bit numbers in the source and natural numbers here.  The
length of a message and the number of messages are cut to sixteen bits.
-/

namespace MatchMoldUdp64

open Numbered

/-- The bytes of a message. -/
abbrev Payload := List UInt8

/-- The length of a session name. -/
def moldSessionLen : Nat := 10

/-- The length of the headers. -/
def moldHeaderLen : Nat := 20

/-- The length of the length before a message. -/
def moldBlockHeaderLen : Nat := 2

/-- What fits into a datagram by default. -/
def moldMaxDatagram : Nat := 1472

/-- The name of a session in its fixed field. -/
structure SessionId where
  bytes : List UInt8
  length_eq : bytes.length = moldSessionLen
deriving DecidableEq

/-- Pad a name to its field, or cut it. -/
def packSession (session : List UInt8) : SessionId where
  bytes := session.take moldSessionLen ++
    List.replicate (moldSessionLen - (session.take moldSessionLen).length) 0
  length_eq := by
    rw [List.length_append, List.length_replicate, List.length_take]
    omega

/-! ## Headers -/

/-- The session, a sequence number and a number of messages, as bytes. -/
def encodeFields (session : SessionId) (seq count : Nat) : List UInt8 :=
  session.bytes ++ Bytes.be 8 seq ++ Bytes.be 2 count

/-- Read the session, the sequence number and the number of messages. -/
def decodeFields (buf : List UInt8) : Option (SessionId × Nat × Nat) :=
  if h : buf.length < moldHeaderLen then none
  else
    some (⟨buf.take moldSessionLen, by
        rw [List.length_take]
        unfold moldHeaderLen at h
        unfold moldSessionLen
        omega⟩,
      Bytes.beValue ((buf.drop moldSessionLen).take 8),
      Bytes.beValue ((buf.drop (moldSessionLen + 8)).take 2))

/-- The header of a downstream packet. -/
structure DownstreamHeader where
  sessionId : SessionId
  seq : Nat
  msgCount : Nat
deriving DecidableEq

/-- The header of a request. -/
structure RequestHeader where
  sessionId : SessionId
  startSeq : Nat
  msgCount : Nat
deriving DecidableEq

/-- The bytes of a downstream header. -/
def DownstreamHeader.encode (h : DownstreamHeader) : List UInt8 :=
  encodeFields h.sessionId h.seq h.msgCount

/-- Read a downstream header. -/
def DownstreamHeader.decode (buf : List UInt8) : Option DownstreamHeader :=
  (decodeFields buf).map fun (session, seq, count) => ⟨session, seq, count⟩

/-- The bytes of a request. -/
def RequestHeader.encode (h : RequestHeader) : List UInt8 :=
  encodeFields h.sessionId h.startSeq h.msgCount

/-- Read a request. -/
def RequestHeader.decode (buf : List UInt8) : Option RequestHeader :=
  (decodeFields buf).map fun (session, seq, count) => ⟨session, seq, count⟩

theorem length_encodeFields (session : SessionId) (seq count : Nat) :
    (encodeFields session seq count).length = moldHeaderLen := by
  rw [encodeFields, List.length_append, List.length_append, session.length_eq, Bytes.length_be,
    Bytes.length_be]
  rfl

/-- A header is read back, whatever follows it. -/
theorem decodeFields_encodeFields (session : SessionId) {seq count : Nat} (hseq : seq < 2 ^ 64)
    (hcount : count < 2 ^ 16) (rest : List UInt8) :
    decodeFields (encodeFields session seq count ++ rest) = some (session, seq, count) := by
  have hlong : ¬ (encodeFields session seq count ++ rest).length < moldHeaderLen := by
    rw [List.length_append, length_encodeFields]
    omega
  have hbytes : encodeFields session seq count ++ rest =
      session.bytes ++ (Bytes.be 8 seq ++ (Bytes.be 2 count ++ rest)) := by
    simp [encodeFields, List.append_assoc]
  have hsession : (encodeFields session seq count ++ rest).take moldSessionLen =
      session.bytes := by
    rw [hbytes, List.take_left' session.length_eq]
  have hnum : Bytes.beValue (((encodeFields session seq count ++ rest).drop moldSessionLen).take 8)
      = seq := by
    rw [hbytes, List.drop_left' session.length_eq, List.take_left' (Bytes.length_be 8 _),
      Bytes.beValue_be_of_lt hseq]
  have hcnt : Bytes.beValue
      (((encodeFields session seq count ++ rest).drop (moldSessionLen + 8)).take 2) = count := by
    rw [hbytes, ← List.drop_drop, List.drop_left' session.length_eq,
      List.drop_left' (Bytes.length_be 8 _), List.take_left' (Bytes.length_be 2 _),
      Bytes.beValue_be_of_lt hcount]
  simp only [decodeFields, dif_neg hlong, hsession, hnum, hcnt]

/-! ## Packets -/

/-- A message after its length. -/
def block (payload : Payload) : List UInt8 := Bytes.be 2 payload.length ++ payload

/-- A packet with messages.  The publisher and the retransmission server build them alike. -/
def packet (session : SessionId) (firstSeq : Nat) (msgs : List Payload) : List UInt8 :=
  (DownstreamHeader.mk session firstSeq (msgs.length % 2 ^ 16)).encode ++ msgs.flatMap block

/-- A packet without messages, with the number of the next message. -/
def heartbeat (session : SessionId) (seq : Nat) : List UInt8 :=
  (DownstreamHeader.mk session seq 0).encode

theorem decode_packet (session : SessionId) {firstSeq : Nat} (hseq : firstSeq < 2 ^ 64)
    (msgs : List Payload) :
    DownstreamHeader.decode (packet session firstSeq msgs) =
      some ⟨session, firstSeq, msgs.length % 2 ^ 16⟩ := by
  rw [DownstreamHeader.decode, packet, DownstreamHeader.encode,
    decodeFields_encodeFields session hseq (Nat.mod_lt _ (by decide))]
  rfl

theorem decode_heartbeat (session : SessionId) {seq : Nat} (hseq : seq < 2 ^ 64) :
    DownstreamHeader.decode (heartbeat session seq) = some ⟨session, seq, 0⟩ := by
  have h := decodeFields_encodeFields session hseq (show 0 < 2 ^ 16 by decide) []
  rw [List.append_nil] at h
  rw [DownstreamHeader.decode, heartbeat, DownstreamHeader.encode, h]
  rfl

theorem drop_packet (session : SessionId) (firstSeq : Nat) (msgs : List Payload) :
    (packet session firstSeq msgs).drop moldHeaderLen = msgs.flatMap block :=
  List.drop_left' (length_encodeFields _ _ _)

end MatchMoldUdp64
