import MatchRust.Soup.Packet

/-!
# Packets in a stream

A reader of a TCP connection gets bytes in chunks that have nothing to do with packets.  It
appends each chunk to what it has, parses, and keeps what was not consumed
(`feedChunks`).  Since the parser takes nothing but whole packets off the front
(`exact_packets`), the chunks do not matter, also where the bytes are no packets at all.

A payload that is longer than the length field can say is written in full, with a length
that should be the greatest one.  But the length of the payload is cut to sixteen bits
before it is clamped.  The reader sees the packet `Packet.cut`, and `first_packet_iff` says
when its payload is as long as it can be.
-/

namespace MatchSoupBinTcp

/-! ## Whole packets -/

/-- The packet behind a length and a type. -/
theorem nextPacket_cons (a b t : UInt8) (body : List UInt8) :
    nextPacket (a :: b :: t :: body) =
      if Bytes.beValue [a, b] < 1 then none
      else if body.length + 1 < Bytes.beValue [a, b] then none
      else
        some (⟨t, body.take (Bytes.beValue [a, b] - 1)⟩,
          body.drop (Bytes.beValue [a, b] - 1)) := by
  obtain ⟨len, hlen⟩ : ∃ len, len = Bytes.beValue [a, b] := ⟨_, rfl⟩
  rw [nextPacket, if_neg (by simp)]
  simp only [List.take_succ_cons, List.take_zero, ← hlen, List.length_cons]
  cases len with
  | zero => rfl
  | succ len =>
      have htotal : 2 + (len + 1) = len + 1 + 1 + 1 := by omega
      simp only [htotal, Nat.add_lt_add_iff_right, List.drop_succ_cons, List.drop_zero,
        List.take_succ_cons, List.headD_cons, Nat.add_sub_cancel]

/-- Packets are read as they were written, and nothing else is read. -/
theorem exact_packets : Framing.Exact nextPacket Packet.toBytes Packet.Fits where
  toFrames := frames_packets
  sound buf p rest h := by
    rcases buf with _ | ⟨a, _ | ⟨b, _ | ⟨t, body⟩⟩⟩
    · cases h
    · cases h
    · cases h
    · rw [nextPacket_cons] at h
      split at h
      next => cases h
      next hpos =>
        split at h
        next => cases h
        next hcomplete =>
          rw [Option.some.injEq, Prod.mk.injEq] at h
          obtain ⟨rfl, rfl⟩ := h
          have hlen : (body.take (Bytes.beValue [a, b] - 1)).length =
              Bytes.beValue [a, b] - 1 := by
            rw [List.length_take]
            omega
          have hlt : Bytes.beValue [a, b] < 256 ^ 2 := Bytes.beValue_lt [a, b]
          have hbytes : Bytes.be 2 (Bytes.beValue [a, b]) = [a, b] := Bytes.be_beValue [a, b]
          have hfits : Packet.Fits ⟨t, body.take (Bytes.beValue [a, b] - 1)⟩ := by
            rw [Packet.Fits, hlen]
            omega
          refine ⟨hfits, ?_⟩
          rw [hfits.toBytes_eq, hlen, Nat.add_sub_cancel' (Nat.not_lt.mp hpos), hbytes]
          simp

/-! ## Chunks -/

/-- Read chunks one by one, and carry over what is not consumed: the packets, and what is left. -/
def feedChunks : List UInt8 → List (List UInt8) → List Packet × List UInt8
  | acc, [] => ([], acc)
  | acc, chunk :: chunks =>
      let r := parseStream (acc ++ chunk)
      let rest := feedChunks ((acc ++ chunk).drop r.2.1) chunks
      (r.1 ++ rest.1, rest.2)

/-- What is not consumed is what the parser leaves. -/
theorem drop_parseStream (buf : List UInt8) :
    buf.drop (parseStream buf).2.1 = (Framing.parse nextPacket buf.length buf).2 := by
  obtain ⟨r, hr⟩ : ∃ r, r = Framing.parse nextPacket buf.length buf := ⟨_, rfl⟩
  have hsplit := (exact_packets.parse_sound buf.length buf).2
  simp only [parseStream]
  rw [← hr] at hsplit ⊢
  have hlen : buf.length - r.2.length = (r.1.flatMap Packet.toBytes).length := by
    have := congrArg List.length hsplit
    rw [List.length_append] at this
    omega
  rw [hlen, ← hsplit, List.drop_left]

theorem feedChunks_eq (acc : List UInt8) (chunks : List (List UInt8)) :
    feedChunks acc chunks = Framing.feed nextPacket acc chunks := by
  induction chunks generalizing acc with
  | nil => rfl
  | cons chunk chunks ih =>
      rw [feedChunks, drop_parseStream, ih]
      rfl

/-- Packets are read back from a stream, and any bytes are read alike in whatever chunks they
come. -/
theorem chunking_independent :
    (∀ packets : List Packet, (∀ p ∈ packets, p.payload.length ≤ 65534) →
      parseStream (packets.flatMap Packet.toBytes) =
        (packets, (packets.flatMap Packet.toBytes).length, false)) ∧
      ∀ chunks : List (List UInt8),
        feedChunks [] chunks =
          ((parseStream chunks.flatten).1,
            chunks.flatten.drop (parseStream chunks.flatten).2.1) := by
  constructor
  · intro packets hfits
    have hall := frames_packets.parse_all hfits le_rfl
    rw [parseStream, hall]
    rfl
  · intro chunks
    rw [feedChunks_eq, exact_packets.feed_eq rfl, drop_parseStream]
    rfl

/-- A heartbeat and data, cut in the length of the second packet. -/
theorem chunking_independent_two :
    parseStream ([⟨PacketType.clientHeartbeat, []⟩, ⟨PacketType.unsequencedData, [1, 2]⟩].flatMap
        Packet.toBytes) =
      ([⟨PacketType.clientHeartbeat, []⟩, ⟨PacketType.unsequencedData, [1, 2]⟩], 8, false) ∧
    feedChunks [] [[0, 1, 82, 0], [3, 85, 1, 2]] =
      ((parseStream [0, 1, 82, 0, 3, 85, 1, 2]).1,
        [0, 1, 82, 0, 3, 85, 1, 2].drop (parseStream [0, 1, 82, 0, 3, 85, 1, 2]).2.1) :=
  ⟨chunking_independent.1 _ (by decide), chunking_independent.2 [[0, 1, 82, 0], [3, 85, 1, 2]]⟩

/-! ## Long payloads -/

/-- The packet that is read where a packet was written: its payload is as long as the length
field says. -/
def Packet.cut (p : Packet) : Packet :=
  ⟨p.packetType, p.payload.take (min (p.payload.length % 2 ^ 16) 65534)⟩

theorem Packet.cut_fits (p : Packet) : p.cut.Fits := by
  rw [Fits, cut, List.length_take]
  omega

theorem Packet.toBytes_cut (p : Packet) :
    p.toBytes = p.cut.toBytes ++ p.payload.drop (min (p.payload.length % 2 ^ 16) 65534) := by
  have hlen : min (1 + p.payload.length % 2 ^ 16) (2 ^ 16 - 1) =
      1 + p.cut.payload.length := by
    have := Nat.mod_le p.payload.length (2 ^ 16)
    rw [cut, List.length_take]
    omega
  rw [p.cut_fits.toBytes_eq, toBytes, hlen, cut, List.append_assoc, List.cons_append,
    List.take_append_drop]

theorem parseStream_toBytes (p : Packet) : (parseStream p.toBytes).1.head? = some p.cut := by
  obtain ⟨fuel, hfuel⟩ : ∃ fuel, p.toBytes.length = fuel + 1 :=
    Nat.exists_eq_succ_of_ne_zero fun h =>
      frames_packets.nonempty p (List.length_eq_zero_iff.mp h)
  rw [parseStream, hfuel, p.toBytes_cut, frames_packets.parse_append p.cut_fits]
  rfl

/-- The first packet read has as much of the payload as it can exactly if the length of the
payload fits into sixteen bits, or is close below a multiple of `2 ^ 16`. -/
theorem first_packet_iff (packetType : UInt8) (payload : Payload) :
    (parseStream (Packet.toBytes ⟨packetType, payload⟩)).1.head? =
        some ⟨packetType, payload.take (min payload.length 65534)⟩ ↔
      payload.length < 2 ^ 16 ∨ 65534 ≤ payload.length % 2 ^ 16 := by
  rw [parseStream_toBytes, Option.some.injEq, Packet.cut, Packet.mk.injEq]
  have htake : payload.take (min (payload.length % 2 ^ 16) 65534) =
      payload.take (min payload.length 65534) ↔
        min (payload.length % 2 ^ 16) 65534 = min payload.length 65534 := by
    rw [List.take_eq_take_iff]
    have := Nat.mod_le payload.length (2 ^ 16)
    omega
  simp only [true_and, htake]
  omega

/-- A payload of `2 ^ 16` bytes is read as an empty one. -/
theorem long_payload_lost :
    let p : Packet := ⟨PacketType.sequencedData, List.replicate (2 ^ 16) 0⟩
    (parseStream p.toBytes).1.head? = some ⟨PacketType.sequencedData, []⟩ ∧
      (parseStream p.toBytes).1.head? ≠
        some ⟨PacketType.sequencedData, p.payload.take (min p.payload.length 65534)⟩ := by
  intro p
  have hread : (parseStream p.toBytes).1.head? = some ⟨PacketType.sequencedData, []⟩ := by
    rw [parseStream_toBytes, Packet.cut, List.length_replicate]
    rfl
  refine ⟨hread, fun h => ?_⟩
  rw [hread, Option.some.injEq, Packet.mk.injEq] at h
  have hlen := congrArg List.length h.2
  rw [List.length_take, List.length_replicate] at hlen
  simp at hlen

end MatchSoupBinTcp
