import MatchRust.Mold.Hostile

/-!
# Sequence numbers out of range

The header of a packet may have any 64-bit number.  The subscriber counts from it and adds
one to its last number, without a check.  A packet that counts up to the end of the range
makes it overflow: a debug build panics, and a release build wraps around, so that the last
number may go back to zero.

Nothing else does.  A heartbeat only subtracts.  As long as every packet keeps its numbers
in range, the last number stays below the greatest one, and the number after it is in range
too (`Low`).  So `no_overflow_iff` needs no condition on the state.
-/

namespace MatchMoldUdp64

open Numbered

/-- A datagram with a header of the session. -/
def OfSession (session : SessionId) (buf : List UInt8) : Prop :=
  moldHeaderLen ≤ buf.length ∧ buf.take moldSessionLen = session.bytes

instance decidableOfSession (session : SessionId) (buf : List UInt8) :
    Decidable (OfSession session buf) :=
  inferInstanceAs (Decidable (_ ∧ _))

theorem exists_decode {buf : List UInt8} (h : moldHeaderLen ≤ buf.length) :
    ∃ header, DownstreamHeader.decode buf = some header ∧
      header.sessionId.bytes = buf.take moldSessionLen := by
  rw [DownstreamHeader.decode, decodeFields, dif_neg (by omega)]
  exact ⟨_, rfl, rfl⟩

theorem OfSession.exists_header {session : SessionId} {buf : List UInt8}
    (h : OfSession session buf) :
    ∃ header, DownstreamHeader.decode buf = some header ∧ header.sessionId = session := by
  obtain ⟨header, hdec, hbytes⟩ := exists_decode h.1
  refine ⟨header, hdec, ?_⟩
  cases hs : header.sessionId with
  | mk bytes hlen =>
      cases session with
      | mk bytes' hlen' =>
          rw [hs, h.2] at hbytes
          cases hbytes
          rfl

/-- The numbers of the messages of a packet, and the next one after them, are 64-bit numbers. -/
def InRange (buf : List UInt8) : Prop :=
  ∀ header, DownstreamHeader.decode buf = some header →
    ∀ payloads : List Payload, payloads.length ≤ header.msgCount → (∀ p ∈ payloads, Short p) →
      payloads.flatMap block <+: buf.drop moldHeaderLen →
        header.seq + payloads.length < 2 ^ 64

theorem inRange_iff {buf : List UInt8} {header : DownstreamHeader}
    (hdec : DownstreamHeader.decode buf = some header) :
    InRange buf ↔
      header.seq + (blocksIn header.msgCount (buf.drop moldHeaderLen)).length < 2 ^ 64 := by
  have hrun := longestRun_blocksIn header.msgCount (buf.drop moldHeaderLen)
  constructor
  · intro h
    exact h header hdec _ hrun.atMost hrun.short hrun.front
  · intro h header' hdec' payloads hcount hshort hfront
    rw [hdec, Option.some.injEq] at hdec'
    subst hdec'
    have := (hrun.longest payloads hcount hshort hfront).length_le
    omega

namespace MoldSubscriber

variable {Addr : Type}

/-- A subscriber before the first datagram. -/
def new (session : List UInt8) (retransmitAddr : Option Addr) : MoldSubscriber Addr :=
  ⟨packSession session, none, retransmitAddr⟩

/-- Read datagrams one after the other: what each of them said, and the subscriber at the end. -/
def readAll
    (parse : MoldSubscriber Addr → List UInt8 → Option (ParseOutcome × MoldSubscriber Addr)) :
    MoldSubscriber Addr → List (List UInt8) → Option (List ParseOutcome × MoldSubscriber Addr)
  | sub, [] => some ([], sub)
  | sub, buf :: bufs =>
      (parse sub buf).bind fun r =>
        (readAll parse r.2 bufs).map fun rest => (r.1 :: rest.1, rest.2)

/-- The debug build does not panic, and the release build does not wrap around. -/
def NoOverflow (sub : MoldSubscriber Addr) (bufs : List (List UInt8)) : Prop :=
  ∃ r, readAll (parsePacketIn .debug) sub bufs = some r ∧
    readAll (parsePacketIn .release) sub bufs = some r ∧
    readAll parsePacket sub bufs = some r

/-! ## One datagram -/

/-- The number after the last one is a 64-bit number. -/
def Low (sub : MoldSubscriber Addr) : Prop := ∀ last ∈ sub.lastSeq, last + 1 < 2 ^ 64

variable {sub : MoldSubscriber Addr} {buf : List UInt8} {header : DownstreamHeader}

theorem low_new (session : List UInt8) (addr : Option Addr) : (new session addr).Low :=
  fun _ h => by cases h

theorem sessionId_parsePacket {outcome : ParseOutcome} {sub' : MoldSubscriber Addr}
    (h : sub.parsePacket buf = some (outcome, sub')) : sub'.sessionId = sub.sessionId := by
  rw [parsePacket, Option.map_eq_some_iff] at h
  obtain ⟨header, -, h⟩ := h
  split at h
  next => cases h; rfl
  next =>
    cases h
    split
    next => rfl
    next => rfl

theorem low_syncSeq (h : sub.Low) {seq : Nat} (hseq : seq < 2 ^ 64) :
    ∀ last ∈ syncSeq sub.lastSeq seq, last + 1 < 2 ^ 64 := by
  intro last hlast
  unfold Low at h
  cases hl : sub.lastSeq with
  | none =>
      simp only [hl, syncSeq, Option.mem_def, Option.ite_none_right_eq_some,
        Option.some.injEq] at hlast
      omega
  | some l =>
      have := h l hl
      simp only [hl, syncSeq, Option.mem_def, Option.some.injEq] at hlast
      omega

/-- A packet in range leaves the number after the last one in range. -/
theorem Low.parsePacket (h : sub.Low) (hdec : DownstreamHeader.decode buf = some header)
    (hrange : InRange buf) {outcome : ParseOutcome} {sub' : MoldSubscriber Addr}
    (hparse : sub.parsePacket buf = some (outcome, sub')) : sub'.Low := by
  have hfits := (inRange_iff hdec).mp hrange
  rw [MoldSubscriber.parsePacket, hdec, Option.map_some, parseBlocks_eq] at hparse
  split at hparse
  next =>
    cases hparse
    exact low_syncSeq h (seq_lt_of_decode hdec)
  next =>
    obtain ⟨-, rfl⟩ := Prod.mk.inj (Option.some.inj hparse)
    split
    next =>
      intro last hlast
      rw [Option.mem_def, advanceSeq_eq, Option.some.injEq, length_numbered] at hlast
      have hold : sub.lastSeq.getD 0 + 1 < 2 ^ 64 := by
        cases hl : sub.lastSeq with
        | none => decide
        | some l => exact h l hl
      omega
    next => exact h

/-- A datagram in range is read alike in both builds. -/
theorem Low.read (h : sub.Low) (hours : OfSession sub.sessionId buf) (hrange : InRange buf) :
    ∃ r, sub.parsePacket buf = some r ∧ (∀ build, sub.parsePacketIn build buf = some r) ∧
      r.2.Low ∧ r.2.sessionId = sub.sessionId := by
  obtain ⟨header, hdec, hsession⟩ := hours.exists_header
  obtain ⟨outcome, sub', hparse, -⟩ := sub.parsePacket_readsAs hdec
  refine ⟨(outcome, sub'), hparse, fun build => ?_, h.parsePacket hdec hrange hparse,
    sessionId_parsePacket hparse⟩
  rw [parsePacketIn_eq build hdec hsession (fun _ => h) ((inRange_iff hdec).mp hrange), hparse]

/-- Numbers that do not fit make the debug build panic. -/
theorem parseBlocksIn_debug {count : Nat} {body : List UInt8} {seq : Nat} (hseq : seq < 2 ^ 64)
    (h : 2 ^ 64 ≤ seq + (blocksIn count body).length) :
    parseBlocksIn .debug count body seq = none := by
  induction count generalizing body seq with
  | zero => exact absurd hseq (Nat.not_lt.mpr h)
  | succ count ih =>
      rw [parseBlocksIn_succ]
      rw [blocksIn_succ] at h
      cases hnext : nextBlock body with
      | none =>
          rw [hnext] at h
          exact absurd hseq (Nat.not_lt.mpr h)
      | some r =>
          obtain ⟨p, rest⟩ := r
          simp only [hnext, List.length_cons] at h
          by_cases hnext : seq + 1 < 2 ^ 64
          · simp only [Build.add_eq .debug hnext, Option.bind_some,
              ih hnext (show 2 ^ 64 ≤ seq + 1 + (blocksIn count rest).length by omega),
              Option.map_none]
          · simp only [Build.add, if_neg hnext, Option.bind_none]

/-- What the debug build reads is in range. -/
theorem inRange_of_debug {r : ParseOutcome × MoldSubscriber Addr}
    (h : sub.parsePacketIn .debug buf = some r) : InRange buf := by
  rw [parsePacketIn, Option.bind_eq_some_iff] at h
  obtain ⟨header, hdec, h⟩ := h
  rw [inRange_iff hdec]
  by_contra hfits
  have hseq := seq_lt_of_decode hdec
  split at h
  next => cases h
  next =>
    split at h
    next hzero =>
      rw [hzero] at hfits
      exact hfits hseq
    next =>
      rw [parseBlocksIn_debug hseq (Nat.not_lt.mp hfits)] at h
      cases hexp : expectedSeq .debug sub.lastSeq header.seq with
      | none => rw [hexp] at h; cases h
      | some expected => rw [hexp] at h; cases h

/-! ## Runs -/

theorem Low.noOverflow (h : sub.Low) {bufs : List (List UInt8)}
    (hours : ∀ buf ∈ bufs, OfSession sub.sessionId buf) (hrange : ∀ buf ∈ bufs, InRange buf) :
    sub.NoOverflow bufs := by
  induction bufs generalizing sub with
  | nil => exact ⟨([], sub), rfl, rfl, rfl⟩
  | cons buf bufs ih =>
      obtain ⟨r, hplain, hbuild, hlow, hsession⟩ :=
        h.read (hours buf List.mem_cons_self) (hrange buf List.mem_cons_self)
      obtain ⟨rest, hdebug, hrelease, hrest⟩ := ih hlow
        (fun b hb => hsession ▸ hours b (List.mem_cons_of_mem _ hb))
        fun b hb => hrange b (List.mem_cons_of_mem _ hb)
      refine ⟨(r.1 :: rest.1, rest.2), ?_, ?_, ?_⟩
      · rw [readAll, hbuild, Option.bind_some, hdebug, Option.map_some]
      · rw [readAll, hbuild, Option.bind_some, hrelease, Option.map_some]
      · rw [readAll, hplain, Option.bind_some, hrest, Option.map_some]

theorem inRange_of_readAll {bufs : List (List UInt8)}
    {r : List ParseOutcome × MoldSubscriber Addr}
    (h : readAll (parsePacketIn .debug) sub bufs = some r) : ∀ buf ∈ bufs, InRange buf := by
  induction bufs generalizing sub r with
  | nil => exact fun _ hb => by cases hb
  | cons buf bufs ih =>
      rw [readAll, Option.bind_eq_some_iff] at h
      obtain ⟨s, hparse, h⟩ := h
      rw [Option.map_eq_some_iff] at h
      obtain ⟨rest, hrest, -⟩ := h
      intro b hb
      rcases List.mem_cons.mp hb with rfl | hb
      · exact inRange_of_debug hparse
      · exact ih hrest b hb

/-- Reading any datagrams of its session, a new subscriber overflows exactly if one of them
counts beyond the greatest 64-bit number. -/
theorem no_overflow_iff {Addr : Type} (session : List UInt8) (addr : Option Addr)
    {bufs : List (List UInt8)} (hours : ∀ buf ∈ bufs, OfSession (packSession session) buf) :
    (new session addr).NoOverflow bufs ↔ ∀ buf ∈ bufs, InRange buf :=
  ⟨fun ⟨_, hdebug, _, _⟩ => inRange_of_readAll hdebug,
    fun hrange => (low_new session addr).noOverflow hours hrange⟩

/-- A heartbeat with the greatest number, and a message before it. -/
def highest : List (List UInt8) :=
  [heartbeat (packSession [83]) (2 ^ 64 - 1), packet (packSession [83]) (2 ^ 64 - 2) [[97]]]

theorem no_overflow_highest : (new [83] (none : Option Nat)).NoOverflow highest := by
  refine (no_overflow_iff [83] none (by decide +kernel)).mpr fun buf hbuf => ?_
  have hdec : ∃ header, DownstreamHeader.decode buf = some header ∧
      header.seq + (blocksIn header.msgCount (buf.drop moldHeaderLen)).length < 2 ^ 64 := by
    rcases List.mem_cons.mp hbuf with rfl | hbuf
    · exact ⟨⟨packSession [83], 2 ^ 64 - 1, 0⟩, by decide +kernel⟩
    · rw [List.mem_singleton.mp hbuf]
      exact ⟨⟨packSession [83], 2 ^ 64 - 2, 1⟩, by decide +kernel⟩
  obtain ⟨header, hdec, hfits⟩ := hdec
  exact (inRange_iff hdec).mpr hfits

/-- Two messages from the greatest number on.  The debug build panics, and the release build
goes back to zero. -/
theorem watermark_wraps :
    let buf := packet (packSession [83]) (2 ^ 64 - 1) [[97], [98]]
    let sub : MoldSubscriber Nat := new [83] none
    OfSession (packSession [83]) buf ∧ sub.parsePacketIn .debug buf = none ∧
      (sub.parsePacketIn .release buf).map (fun r => (r.1.messages, r.2.lastSeq)) =
        some ([(2 ^ 64 - 1, [97]), (0, [98])], some 0) ∧
      ¬ sub.NoOverflow [buf] := by
  intro buf sub
  have hpanic : sub.parsePacketIn .debug buf = none := by decide +kernel
  refine ⟨by decide +kernel, hpanic, by decide +kernel, ?_⟩
  rintro ⟨r, hdebug, -, -⟩
  rw [readAll, hpanic, Option.bind_none] at hdebug
  cases hdebug

end MoldSubscriber

end MatchMoldUdp64
