import MatchRust.Lib.Bytes
import MatchRust.Lib.Framing
import MatchRust.Lib.Text

/-!
# SoupBinTCP packets

A packet is its length, its type and a payload.  The length counts the type.  Login
packets have fields of fixed width, padded with spaces.  Sequence numbers are written in
decimal in a field of twenty.

A text is the list of its bytes.
-/

namespace MatchSoupBinTcp

/-- The bytes of a message. -/
abbrev Payload := List UInt8

/-! ## Types of packets -/

namespace PacketType

def loginRequest : UInt8 := 76
def loginAccepted : UInt8 := 65
def loginRejected : UInt8 := 74
def sequencedData : UInt8 := 83
def serverHeartbeat : UInt8 := 72
def endOfSession : UInt8 := 90
def unsequencedData : UInt8 := 85
def clientHeartbeat : UInt8 := 82
def logoutRequest : UInt8 := 79
def debug : UInt8 := 43

end PacketType

/-- The reason of a rejection: no such session. -/
def rejectSessionUnavailable : UInt8 := 83

def usernameLen : Nat := 6
def passwordLen : Nat := 10
def sessionLen : Nat := 10
def sequenceLen : Nat := 20

/-- A packet. -/
structure Packet where
  packetType : UInt8
  payload : Payload
deriving DecidableEq

/-- The bytes of a packet.  The length is cut to sixteen bits. -/
def Packet.toBytes (p : Packet) : List UInt8 :=
  Bytes.be 2 (min (1 + p.payload.length % 2 ^ 16) (2 ^ 16 - 1)) ++ p.packetType :: p.payload

/-- The packet at the front of a buffer, if it is complete, and what follows. -/
def nextPacket (buf : List UInt8) : Option (Packet × List UInt8) :=
  if buf.length < 3 then none
  else
    let len := Bytes.beValue (buf.take 2)
    if len < 1 then none
    else
      let total := 2 + len
      if buf.length < total then none
      else some (⟨(buf.drop 2).headD 0, (buf.take total).drop 3⟩, buf.drop total)

/-- The complete packets at the front of a buffer, the number of their bytes, and whether
something is left. -/
def parseStream (buf : List UInt8) : List Packet × Nat × Bool :=
  let r := Framing.parse nextPacket buf.length buf
  (r.1, buf.length - r.2.length, r.2 ≠ [])

/-- A packet whose length fits into its field. -/
def Packet.Fits (p : Packet) : Prop := p.payload.length ≤ 65534

theorem Packet.Fits.toBytes_eq {p : Packet} (h : p.Fits) :
    p.toBytes = Bytes.be 2 (1 + p.payload.length) ++ p.packetType :: p.payload := by
  have hlen : min (1 + p.payload.length % 2 ^ 16) (2 ^ 16 - 1) = 1 + p.payload.length := by
    unfold Packet.Fits at h
    omega
  rw [toBytes, hlen]

theorem Packet.Fits.length_toBytes {p : Packet} (h : p.Fits) :
    p.toBytes.length = 3 + p.payload.length := by
  rw [h.toBytes_eq, List.length_append, Bytes.length_be, List.length_cons]
  omega

/-- The length of a packet is read from its first two bytes. -/
theorem Packet.Fits.beValue_take {p : Packet} (h : p.Fits) {buf : List UInt8}
    (hlong : 3 ≤ buf.length) {rest : List UInt8} (hpre : buf <+: p.toBytes ++ rest) :
    Bytes.beValue (buf.take 2) = 1 + p.payload.length := by
  obtain ⟨later, hlater⟩ := hpre
  have htake : buf.take 2 = Bytes.be 2 (1 + p.payload.length) := by
    have hsame : (buf ++ later).take 2 = buf.take 2 := List.take_append_of_le_length (by omega)
    rw [← hsame, hlater, h.toBytes_eq, List.append_assoc, List.take_left' (Bytes.length_be 2 _)]
  unfold Packet.Fits at h
  rw [htake, Bytes.beValue_be_of_lt (by omega)]

/-- Packets are read as they were written. -/
theorem frames_packets : Framing.Frames nextPacket Packet.toBytes Packet.Fits where
  nonempty p h := by simp [Packet.toBytes] at h
  nothing := rfl
  complete p hp rest := by
    have hlen := hp.length_toBytes
    have hall : (p.toBytes ++ rest).length = 3 + p.payload.length + rest.length := by
      rw [List.length_append, hlen]
    have hvalue := hp.beValue_take (by omega) (List.prefix_refl (p.toBytes ++ rest))
    have htotal : 2 + (1 + p.payload.length) = p.toBytes.length := by omega
    have hdrop : (p.toBytes ++ rest).drop 2 = p.packetType :: (p.payload ++ rest) := by
      rw [hp.toBytes_eq, List.append_assoc, List.drop_left' (Bytes.length_be 2 _)]
      rfl
    have hpayload : p.toBytes.drop 3 = p.payload := by
      rw [hp.toBytes_eq, ← List.drop_drop (i := 1) (j := 2), List.drop_left' (Bytes.length_be 2 _)]
      rfl
    simp only [nextPacket, hvalue]
    rw [if_neg (by omega), if_neg (by omega), if_neg (by omega), htotal, List.take_left,
      List.drop_left, hdrop, hpayload]
    rfl
  partly p hp buf hpre hshort := by
    have hlen := hp.length_toBytes
    rw [nextPacket]
    split
    next => rfl
    next hlong =>
      have hvalue := hp.beValue_take (by omega) (hpre.trans (List.prefix_append p.toBytes []))
      simp only [hvalue]
      rw [if_neg (by omega), if_pos (by omega)]

/-! ## Fields -/

/-- A field of a login packet, without the spaces around it. -/
def asciiField (p : Payload) (off len : Nat) : List UInt8 :=
  if p.length < off + len then [] else Text.trim (Text.fromUtf8Lossy ((p.drop off).take len))

/-- A text, cut or filled with spaces after it. -/
def padLeft (s : List UInt8) (len : Nat) : List UInt8 :=
  s.take len ++ List.replicate (len - (s.take len).length) 32

/-- A text, cut or filled with spaces before it. -/
def padRight (s : List UInt8) (len : Nat) : List UInt8 :=
  List.replicate (len - (s.take len).length) 32 ++ s.take len

/-- A number, filled with spaces before it. -/
def padNumberRight (n len : Nat) : List UInt8 := padRight (Text.decimal n) len

@[simp] theorem length_padLeft (s : List UInt8) (len : Nat) : (padLeft s len).length = len := by
  rw [padLeft, List.length_append, List.length_replicate, List.length_take]
  omega

@[simp] theorem length_padRight (s : List UInt8) (len : Nat) : (padRight s len).length = len := by
  rw [padRight, List.length_append, List.length_replicate, List.length_take]
  omega

/-- A field is found behind those before it. -/
theorem asciiField_append {before field : List UInt8} {off len : Nat} (hoff : before.length = off)
    (hlen : field.length = len) (rest : List UInt8) :
    asciiField (before ++ field ++ rest) off len = Text.trim (Text.fromUtf8Lossy field) := by
  have hlong : ¬ (before ++ field ++ rest).length < off + len := by
    rw [List.length_append, List.length_append]
    omega
  rw [asciiField, if_neg hlong, List.append_assoc, List.drop_left' hoff, List.take_left' hlen]

/-! ## Login -/

/-- A request to log in. -/
structure LoginRequest where
  username : List UInt8
  password : List UInt8
  requestedSession : List UInt8
  requestedSequence : Nat
deriving DecidableEq

/-- The answer to a login. -/
structure LoginAccepted where
  session : List UInt8
  sequence : Nat
deriving DecidableEq

/-- A number in a field, and zero if there is none. -/
def numberField (p : Payload) (off len : Nat) : Nat :=
  (Text.parseU64 (Text.trim (asciiField p off len))).getD 0

/-- Read a login request. -/
def Packet.parseLoginRequest (p : Packet) : LoginRequest where
  username := asciiField p.payload 0 usernameLen
  password := asciiField p.payload usernameLen passwordLen
  requestedSession := asciiField p.payload (usernameLen + passwordLen) sessionLen
  requestedSequence := numberField p.payload (usernameLen + passwordLen + sessionLen) sequenceLen

/-- Read the answer to a login. -/
def Packet.parseLoginAccepted (p : Packet) : LoginAccepted where
  session := asciiField p.payload 0 sessionLen
  sequence := numberField p.payload sessionLen sequenceLen

/-- The reason of a rejection. -/
def Packet.parseLoginRejected (p : Packet) : UInt8 := p.payload.headD 0

/-- The packet of a login request. -/
def loginRequest (username password requestedSession : List UInt8) (seq : Nat) : Packet where
  packetType := PacketType.loginRequest
  payload := padLeft username usernameLen ++ padLeft password passwordLen ++
    padRight requestedSession sessionLen ++ padNumberRight seq sequenceLen

/-- The packet that accepts a login. -/
def loginAccepted (session : List UInt8) (seq : Nat) : Packet where
  packetType := PacketType.loginAccepted
  payload := padRight session sessionLen ++ padNumberRight seq sequenceLen

/-- The packet that rejects a login. -/
def loginRejected (reason : UInt8) : Packet := ⟨PacketType.loginRejected, [reason]⟩

/-- The name of a session as the server reads it in a login request. -/
def sessionField (session : List UInt8) : List UInt8 :=
  Text.trim (Text.fromUtf8Lossy (padRight session sessionLen))

/-- A sequence number is read back from its field. -/
theorem numberField_append {before : List UInt8} {off seq : Nat} (hoff : before.length = off)
    (hseq : seq < 2 ^ 64) :
    numberField (before ++ padNumberRight seq sequenceLen) off sequenceLen = seq := by
  have hshort : (Text.decimal seq).length ≤ sequenceLen :=
    Text.length_decimal_le (lt_trans hseq (by decide))
  have hpad : padNumberRight seq sequenceLen =
      List.replicate (sequenceLen - (Text.decimal seq).length) 32 ++ Text.decimal seq := by
    rw [padNumberRight, padRight, List.take_of_length_le hshort]
  have hfield := asciiField_append hoff (length_padRight (Text.decimal seq) sequenceLen) []
  rw [List.append_nil] at hfield
  rw [numberField, padNumberRight, hfield, ← padNumberRight, hpad, Text.trim_padded_decimal,
    Text.trim_decimal, Text.parseU64_decimal hseq, Option.getD_some]

theorem requestedSequence_loginRequest (username password session : List UInt8) {seq : Nat}
    (hseq : seq < 2 ^ 64) :
    (loginRequest username password session seq).parseLoginRequest.requestedSequence = seq := by
  have hbefore : (padLeft username usernameLen ++ padLeft password passwordLen ++
      padRight session sessionLen).length = usernameLen + passwordLen + sessionLen := by
    simp [Nat.add_assoc]
  simp only [Packet.parseLoginRequest, loginRequest, numberField_append hbefore hseq]

theorem requestedSession_loginRequest (username password session : List UInt8) (seq : Nat) :
    (loginRequest username password session seq).parseLoginRequest.requestedSession =
      sessionField session :=
  asciiField_append (by simp) (by simp) _

theorem sequence_loginAccepted (session : List UInt8) {seq : Nat} (hseq : seq < 2 ^ 64) :
    (loginAccepted session seq).parseLoginAccepted.sequence = seq := by
  simp only [Packet.parseLoginAccepted, loginAccepted,
    numberField_append (length_padRight session sessionLen) hseq]

theorem fits_loginRequest (username password session : List UInt8) (seq : Nat) :
    (loginRequest username password session seq).Fits := by
  simp [Packet.Fits, loginRequest, padNumberRight, usernameLen, passwordLen, sessionLen,
    sequenceLen]

theorem fits_loginAccepted (session : List UInt8) (seq : Nat) :
    (loginAccepted session seq).Fits := by
  simp [Packet.Fits, loginAccepted, padNumberRight, sessionLen, sequenceLen]

theorem fits_loginRejected (reason : UInt8) : (loginRejected reason).Fits := by
  simp [Packet.Fits, loginRejected]

end MatchSoupBinTcp
