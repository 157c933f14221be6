import MatchRust.Lib.Runs
import MatchRust.Mold.Endpoints

/-!
# Repair of a gap

A publisher that is called by one thread stores its messages in the order of their
numbers.  A subscriber that reports a gap asks for the missing messages, and the
retransmission server answers with those the ring has from the first missing one on.

The subscriber gets back what it has missed, or the part of it up to the first message
that is no longer there (`gap_repaired`).  The answer changes nothing in its state, for
the numbers in a gap are below its last one.
-/

namespace MatchMoldUdp64

open Numbered

/-! ## What the ring has -/

namespace MessageRingBuf

/-- The ring has a message in one of its slots. -/
def Has (ring : MessageRingBuf) (m : Nat × Payload) : Prop := some ⟨m.1, m.2⟩ ∈ ring.slots

instance decidableHas (ring : MessageRingBuf) (m : Nat × Payload) : Decidable (ring.Has m) :=
  inferInstanceAs (Decidable (_ ∈ _))

variable {ring : MessageRingBuf} {msgs : List Payload}

/-- The ring has the last messages. -/
theorem FilledFrom.has_iff (h : ring.FilledFrom 1 msgs) {seq : Nat} {p : Payload} (hpos : 0 < seq)
    (hp : msgs[seq - 1]? = some p) : ring.Has (seq, p) ↔ msgs.length < seq + ring.capacity := by
  constructor
  · intro hhas
    obtain ⟨i, hi⟩ := List.mem_iff_getElem?.mp hhas
    obtain ⟨k, q, -, hnear, -, heq⟩ := h.only i _ hi
    simp only [CachedMessage.mk.injEq] at heq
    omega
  · intro hnear
    have hhere := h.here (seq - 1) p hp (by omega)
    rw [Nat.sub_add_cancel hpos] at hhere
    exact List.mem_of_getElem? hhere

/-- A range is answered up to the first message that is gone. -/
theorem FilledFrom.rangeLoop_eq (h : ring.FilledFrom 1 msgs) {n seq : Nat} (hpos : 0 < seq)
    (hin : seq + n ≤ msgs.length + 1) (hlt : msgs.length < 2 ^ 64) :
    ring.rangeLoop 1 n seq =
      ((numbered seq ((msgs.drop (seq - 1)).take n)).takeWhile fun m => ring.Has m).map
        fun m => ⟨m.1, m.2⟩ := by
  induction n generalizing seq with
  | zero => simp [rangeLoop]
  | succ n ih =>
      have hget : msgs[seq - 1]? = some (msgs.get ⟨seq - 1, by omega⟩) :=
        List.getElem?_eq_getElem _
      have hdrop : msgs.drop (seq - 1) = msgs.get ⟨seq - 1, by omega⟩ :: msgs.drop seq := by
        have hcons := List.drop_eq_getElem_cons (l := msgs) (i := seq - 1) (by omega)
        rwa [Nat.sub_add_cancel hpos] at hcons
      have hlook := h.lookup_eq hpos (show seq < 2 ^ 64 by omega)
      have hhas := h.has_iff hpos hget
      rw [hget, Option.map_some] at hlook
      rw [hdrop, List.take_succ_cons, numbered_cons, List.takeWhile_cons, rangeLoop, hlook]
      by_cases hnear : msgs.length + 1 ≤ seq + ring.capacity
      · have hrest := @ih (seq + 1) (Nat.succ_pos seq) (by omega)
        rw [Nat.add_sub_cancel] at hrest
        rw [if_pos hnear, if_pos (decide_eq_true (hhas.mpr hnear)), List.map_cons, ← hrest]
      · rw [if_neg hnear, if_neg (by simpa using fun hh => hnear (hhas.mp hh))]
        rfl

theorem FilledFrom.getRange_eq (h : ring.FilledFrom 1 msgs) {n seq : Nat} (hpos : 0 < seq)
    (hn : 0 < n) (hin : seq + n ≤ msgs.length + 1) (hlt : msgs.length + 1 < 2 ^ 64) :
    ring.getRange seq n =
      ((numbered seq ((msgs.drop (seq - 1)).take n)).takeWhile fun m => ring.Has m).map
        fun m => ⟨m.1, m.2⟩ := by
  have hne : msgs ≠ [] := by
    rintro rfl
    simp at hin
    omega
  have hcount : min (seq + n) (2 ^ 64 - 1) - seq = n := by omega
  rw [getRange, h.baseSeq, if_neg hne, ← h.rangeLoop_eq hpos hin (by omega)]
  simp only [hcount]

end MessageRingBuf

/-! ## One thread -/

/-- A publisher, all messages it published, and the datagrams it sent. -/
structure History where
  pub : MoldPublisher
  published : List Payload
  sent : List (List UInt8)

/-- A call of the publisher. -/
inductive Publication where
  | publish (payload : Payload)
  | publishBatch (msgs : List Payload) (maxDatagramBytes : Nat)
  | sendHeartbeat

namespace History

/-- A publisher that was not called yet. -/
def init (session : List UInt8) (capacity : Nat) : History :=
  ⟨MoldPublisher.new session capacity, [], []⟩

/-- A call. -/
def act (w : History) : Publication → History
  | .publish payload =>
      let r := w.pub.publish payload
      ⟨r.2, w.published ++ [payload], w.sent ++ [r.1]⟩
  | .publishBatch msgs maxDatagramBytes =>
      let r := w.pub.publishBatch msgs maxDatagramBytes
      ⟨r.2, w.published ++ msgs.take r.1.1, w.sent ++ r.1.2.toList⟩
  | .sendHeartbeat => { w with sent := w.sent ++ [w.pub.sendHeartbeat] }

/-- The messages have at most 65535 bytes, and the numbers do not overflow. -/
def Allowed (w : History) : Publication → Prop
  | .publish payload => payload.length < 2 ^ 16 ∧ w.pub.nextSeq + 1 < 2 ^ 64
  | .publishBatch msgs maxDatagramBytes => (∀ p ∈ msgs, p.length < 2 ^ 16) ∧
      w.pub.nextSeq + (MoldPublisher.fitBlocks msgs maxDatagramBytes).length < 2 ^ 64
  | .sendHeartbeat => True

instance decidableAllowed (w : History) : ∀ a : Publication, Decidable (w.Allowed a)
  | .publish _ | .publishBatch _ _ => inferInstanceAs (Decidable (_ ∧ _))
  | .sendHeartbeat => inferInstanceAs (Decidable True)

/-- What is known of a publisher after any calls. -/
structure Kept (w : History) : Prop where
  next : w.pub.nextSeq = w.published.length + 1
  small : w.published.length + 1 < 2 ^ 64
  short : ∀ p ∈ w.published, p.length < 2 ^ 16
  filled : w.pub.cache.FilledFrom 1 w.published
  /-- The number in a header is at most the next one. -/
  sent : ∀ dg ∈ w.sent, ∃ header, DownstreamHeader.decode dg = some header ∧
    0 < header.seq ∧ (header.msgCount ≠ 0 → header.seq ≤ w.published.length)

variable {w : History}

theorem kept_init {session : List UInt8} {capacity : Nat} (h : 0 < capacity) :
    (init session capacity).Kept where
  next := rfl
  small := show 0 + 1 < 2 ^ 64 by decide
  short p hp := by cases hp
  filled := MessageRingBuf.filledFrom_new h 1
  sent dg hdg := by cases hdg

/-- Some messages are published in one packet. -/
theorem Kept.publish (h : w.Kept) {blocks : List Payload} (hne : blocks ≠ [])
    (hshort : ∀ p ∈ blocks, p.length < 2 ^ 16)
    (hsmall : w.pub.nextSeq + blocks.length < 2 ^ 64) :
    (History.mk
      (({ w.pub with nextSeq := w.pub.nextSeq + blocks.length } : MoldPublisher).pushAll
        (numbered w.pub.nextSeq blocks))
      (w.published ++ blocks) (w.sent ++ [packet w.pub.sessionId w.pub.nextSeq blocks])).Kept := by
  have hpos : 0 < blocks.length := List.length_pos_iff.mpr hne
  have hnext := h.next
  constructor
  case next =>
    rw [List.length_append, ← Nat.add_right_comm, ← h.next]
    rfl
  case small =>
    rw [List.length_append]
    omega
  case short =>
    intro p hp
    rcases List.mem_append.mp hp with hold | hnew
    · exact h.short p hold
    · exact hshort p hnew
  case filled =>
    rw [h.next]
    exact h.filled.pushAll blocks
  case sent =>
    intro dg hdg
    rw [List.length_append]
    rcases List.mem_append.mp hdg with hold | hnew
    · obtain ⟨header, hdec, hseq, hle⟩ := h.sent dg hold
      exact ⟨header, hdec, hseq, fun hc => Nat.le_add_right_of_le (hle hc)⟩
    · rw [List.mem_singleton.mp hnew]
      have hle : w.pub.nextSeq ≤ w.published.length + blocks.length := by omega
      exact ⟨_, decode_packet _ (by omega) blocks, by simp only; omega, fun _ => hle⟩

theorem Kept.act (h : w.Kept) (a : Publication) (ha : w.Allowed a) : (w.act a).Kept := by
  cases a with
  | publish payload =>
      obtain ⟨hlen, hsmall⟩ := ha
      have hstep := h.publish (List.cons_ne_nil payload [])
        (fun p hp => by rw [List.mem_singleton.mp hp]; exact hlen) hsmall
      have hmod : (w.pub.nextSeq + 1) % 2 ^ 64 = w.pub.nextSeq + 1 := Nat.mod_eq_of_lt hsmall
      simp only [History.act, MoldPublisher.publish, MoldPublisher.allocSeq, hmod]
      exact hstep
  | publishBatch msgs maxDatagramBytes =>
      obtain ⟨hlen, hsmall⟩ := ha
      have hpre := MoldPublisher.fitBlocks_prefix msgs maxDatagramBytes
      simp only [History.act, MoldPublisher.publishBatch]
      split
      next => simpa using h
      next =>
        split
        next => simpa using h
        next hne =>
          rw [MoldPublisher.allocSeqs_eq hsmall, zip_range'_eq_numbered _ hpre,
            ← List.prefix_iff_eq_take.mp hpre]
          exact h.publish hne (fun p hp => hlen p (hpre.subset hp)) hsmall
  | sendHeartbeat =>
      refine ⟨h.next, h.small, h.short, h.filled, fun dg hdg => ?_⟩
      rcases List.mem_append.mp hdg with hold | hnew
      · exact h.sent dg hold
      · have hsmall := h.small
        have hnext := h.next
        rw [List.mem_singleton.mp hnew]
        refine ⟨_, decode_heartbeat _ (by omega), by simp only; omega, fun hc => ?_⟩
        exact absurd rfl hc

theorem kept_of_reachable {session : List UInt8} {capacity : Nat} (hcapacity : 0 < capacity)
    (h : Runs.Reachable act Allowed (init session capacity) w) : w.Kept :=
  h.invariant (kept_init hcapacity) fun _ a _ ha hs => hs.act a ha

end History

/-! ## The subscriber after a gap -/

namespace MoldSubscriber

variable {Addr : Type} {sub sub' : MoldSubscriber Addr}

/-- A subscriber that reads some datagrams. -/
def parseAll (sub : MoldSubscriber Addr) (dgs : List (List UInt8)) : MoldSubscriber Addr :=
  dgs.foldl (fun sub dg => ((sub.parsePacket dg).map Prod.snd).getD sub) sub

/-- A packet that is not cut has all its messages. -/
theorem parseBlocks_complete {count : Nat} {ptr : List UInt8} {seq : Nat}
    (h : (parseBlocks count ptr seq).1.length = count) : (parseBlocks count ptr seq).2 = false := by
  induction count generalizing ptr seq with
  | zero => rfl
  | succ count ih =>
      simp only [parseBlocks] at h ⊢
      split at h
      next => simp at h
      next hheader =>
        rw [if_neg hheader]
        split at h
        next => simp at h
        next hbody =>
          rw [if_neg hbody]
          exact ih (Nat.succ.inj h)

/-- The last number never goes down. -/
theorem lastSeq_parsePacket {dg : List UInt8} {outcome : ParseOutcome} {last : Nat}
    (h : sub.parsePacket dg = some (outcome, sub')) (hlast : sub.lastSeq = some last) :
    ∃ last', sub'.lastSeq = some last' ∧ last ≤ last' := by
  obtain ⟨header, -, heq⟩ := Option.map_eq_some_iff.mp h
  split at heq
  next =>
    cases heq
    rw [hlast]
    exact ⟨_, rfl, le_max_left _ _⟩
  next =>
    obtain ⟨-, rfl⟩ := Prod.mk.inj heq
    split
    next =>
      rw [hlast]
      exact ⟨_, rfl, le_max_left _ _⟩
    next => exact ⟨last, hlast, le_rfl⟩

theorem lastSeq_parseAll {last : Nat} (hlast : sub.lastSeq = some last)
    (dgs : List (List UInt8)) :
    ∃ last', (sub.parseAll dgs).lastSeq = some last' ∧ last ≤ last' := by
  induction dgs generalizing sub last with
  | nil => exact ⟨last, hlast, le_rfl⟩
  | cons dg dgs ih =>
      cases hparse : sub.parsePacket dg with
      | none =>
          have hsame : sub.parseAll (dg :: dgs) = sub.parseAll dgs := by simp [parseAll, hparse]
          rw [hsame]
          exact ih hlast
      | some r =>
          have hnext : sub.parseAll (dg :: dgs) = r.2.parseAll dgs := by simp [parseAll, hparse]
          obtain ⟨last', hlast', hle⟩ := lastSeq_parsePacket hparse hlast
          obtain ⟨last'', hlast'', hle'⟩ := ih hlast'
          exact ⟨last'', by rw [hnext, hlast''], hle.trans hle'⟩

/-- A gap ends below the first number of the packet, and that is at most the last number. -/
theorem gap_of_parsePacket {dg : List UInt8} {header : DownstreamHeader} {outcome : ParseOutcome}
    {gap : GapInfo} (hdec : DownstreamHeader.decode dg = some header)
    (h : sub.parsePacket dg = some (outcome, sub')) (hgap : outcome.gap = some gap)
    (hcomplete : outcome.messages.length = outcome.msgCount) :
    header.msgCount ≠ 0 ∧ 0 < gap.expected ∧ 0 < gap.lost ∧ gap.expected + gap.lost = header.seq ∧
      ∃ last, sub' = { sub with lastSeq := some last } ∧ header.seq ≤ last := by
  rw [parsePacket, hdec, Option.map_some, Option.some.injEq] at h
  split at h
  next =>
    obtain ⟨rfl, -⟩ := Prod.mk.inj h
    cases hgap
  next hcount =>
    obtain ⟨rfl, rfl⟩ := Prod.mk.inj h
    have hlen : (parseBlocks header.msgCount (dg.drop moldHeaderLen) header.seq).1.length =
        header.msgCount := hcomplete
    have hne : (parseBlocks header.msgCount (dg.drop moldHeaderLen) header.seq).1 ≠ [] := by
      rw [← List.length_pos_iff, hlen]
      exact Nat.pos_of_ne_zero hcount
    rw [if_pos ⟨parseBlocks_complete hlen, hne⟩, hlen]
    have hgap : gapBefore sub.lastSeq header.seq = some gap := hgap
    cases hlast : sub.lastSeq with
    | none => simp [gapBefore, hlast] at hgap
    | some last =>
        simp only [gapBefore, hlast, Option.map_some, Option.getD_some] at hgap
        split at hgap
        next hlt =>
          cases hgap
          refine ⟨hcount, Nat.succ_pos last, Nat.sub_pos_of_lt hlt, ?_, _, rfl, ?_⟩
          · exact Nat.add_sub_cancel' hlt.le
          · simp only [Option.map_some, Option.getD_some]
            omega
        next => cases hgap

/-- A packet whose numbers are all known changes nothing. -/
theorem parsePacket_known {last firstSeq : Nat} {msgs : List Payload} (session : SessionId)
    (hlast : sub.lastSeq = some last) (hseq : firstSeq < 2 ^ 64) (hne : msgs ≠ [])
    (hcount : msgs.length < 2 ^ 16) (hshort : ∀ p ∈ msgs, p.length < 2 ^ 16)
    (hknown : firstSeq + msgs.length ≤ last + 1) :
    sub.parsePacket (packet session firstSeq msgs) =
      some (⟨firstSeq, msgs.length, false, none, numbered firstSeq msgs⟩, sub) := by
  have hpos : 0 < msgs.length := List.length_pos_iff.mpr hne
  have hgap : gapBefore sub.lastSeq firstSeq = none := by
    rw [hlast]
    exact if_neg (by simp only [Option.map_some, Option.getD_some]; omega)
  have hsame : advanceSeq sub.lastSeq firstSeq msgs.length = sub.lastSeq := by
    simp only [advanceSeq, hlast, Option.map_some, Option.getD_some]
    exact congrArg some (max_eq_left (by omega))
  rw [parsePacket_packet sub session hseq hne hcount hshort, hgap, hsame]

end MoldSubscriber

namespace History

/-- The messages of a gap. -/
def lost (w : History) (gap : GapInfo) : List (Nat × Payload) :=
  numbered gap.expected ((w.published.drop (gap.expected - 1)).take gap.lost)

/-- The messages of a gap that the ring has, up to the first one that is gone. -/
def cached (w : History) (gap : GapInfo) : List (Nat × Payload) :=
  (w.lost gap).takeWhile fun m => w.pub.cache.Has m

variable {w : History} {gap : GapInfo}

theorem length_lost (h : gap.expected + gap.lost ≤ w.published.length + 1)
    (hpos : 0 < gap.expected) : (w.lost gap).length = gap.lost := by
  rw [lost, length_numbered, List.length_take, List.length_drop]
  omega

theorem cached_prefix (w : History) (gap : GapInfo) : w.cached gap <+: w.lost gap :=
  List.takeWhile_prefix _

/-- The answer of the retransmission server. -/
theorem Kept.serveOnce_eq (h : w.Kept) (hpos : 0 < gap.expected) (hlost : 0 < gap.lost)
    (hcount : gap.lost < 2 ^ 16) (hin : gap.expected + gap.lost ≤ w.published.length + 1) :
    serveOnce w.pub.sessionId w.pub.cache
        (RequestHeader.mk w.pub.sessionId gap.expected gap.lost).encode =
      if w.cached gap = [] then none
      else some (packet w.pub.sessionId gap.expected ((w.cached gap).map Prod.snd)) := by
  have hsmall := h.small
  have hdec := decodeFields_encodeFields w.pub.sessionId
    (show gap.expected < 2 ^ 64 by omega) hcount []
  rw [List.append_nil] at hdec
  have hrange : w.pub.cache.getRange gap.expected gap.lost =
      (w.cached gap).map fun m => CachedMessage.mk m.1 m.2 :=
    h.filled.getRange_eq hpos hlost hin hsmall
  simp only [serveOnce, RequestHeader.decode, RequestHeader.encode, hdec, Option.map_some, ne_eq,
    not_true_eq_false, if_false, replyRange, hrange, List.map_eq_nil_iff, List.map_map]
  rfl

/-- After a gap the subscriber asks for the missing messages.  The server answers with those that
the ring has from the first one on, which are all of them if none is gone, and does not
answer if the first one is gone.  The subscriber reads them, whatever of the feed it has read in the
meantime.  It reports no gap, and its state stays as it is. -/
theorem gap_repaired {Addr : Type} {session : List UInt8} {capacity : Nat}
    (hcapacity : 0 < capacity) {w : History}
    (hw : Runs.Reachable act Allowed (init session capacity) w)
    {sub sub' : MoldSubscriber Addr} {addr : Addr} {dg : List UInt8} {outcome : ParseOutcome}
    {gap : GapInfo} {maxRequest : Nat} (hsession : sub.sessionId = w.pub.sessionId)
    (haddr : sub.retransmitAddr = some addr) (hdg : dg ∈ w.sent)
    (hparse : sub.parsePacket dg = some (outcome, sub'))
    (hcomplete : outcome.messages.length = outcome.msgCount) (hgap : outcome.gap = some gap)
    (hmax : gap.lost ≤ maxRequest) (hword : maxRequest < 2 ^ 16) :
    (w.lost gap).length = gap.lost ∧
      ((∀ m ∈ w.lost gap, w.pub.cache.Has m) → w.cached gap = w.lost gap) ∧
      ∃ request, sub'.autoNak outcome maxRequest = .ok (some (gap, addr, request)) ∧
        (w.cached gap = [] → serveOnce w.pub.sessionId w.pub.cache request = none) ∧
        (w.cached gap ≠ [] →
          ∃ reply, serveOnce w.pub.sessionId w.pub.cache request = some reply ∧
            ∀ dgs, (∀ dg ∈ dgs, dg ∈ w.sent) → ∃ outcome',
              (sub'.parseAll dgs).parsePacket reply = some (outcome', sub'.parseAll dgs) ∧
              outcome'.messages = w.cached gap ∧ outcome'.gap = none) := by
  have hkept := kept_of_reachable hcapacity hw
  have hsmall := hkept.small
  obtain ⟨header, hdec, -, hle⟩ := hkept.sent dg hdg
  obtain ⟨hdata, hpos, hlost, hend, last, rfl, hlast⟩ :=
    MoldSubscriber.gap_of_parsePacket hdec hparse hgap hcomplete
  have hin : gap.expected + gap.lost ≤ w.published.length + 1 := by
    have := hle hdata
    omega
  have hlen := length_lost hin hpos
  have hpre := cached_prefix w gap
  have hserve := hkept.serveOnce_eq hpos hlost (by omega) hin
  refine ⟨hlen, fun hall => ?_, (RequestHeader.mk w.pub.sessionId gap.expected gap.lost).encode,
    ?_, fun hnone => ?_, fun hsome => ?_⟩
  · exact List.takeWhile_eq_self_iff.mpr fun m hm => decide_eq_true (hall m hm)
  · simp only [MoldSubscriber.autoNak, hgap, Nat.min_eq_left hmax, MoldSubscriber.sendNak, haddr,
      hsession, Except.map]
  · rw [hserve, if_pos hnone]
  · refine ⟨_, hserve.trans (if_neg hsome), fun dgs _ => ?_⟩
    have hset : ({ sub with lastSeq := some last } : MoldSubscriber Addr).lastSeq = some last := rfl
    obtain ⟨last', hlast', hle'⟩ := MoldSubscriber.lastSeq_parseAll hset dgs
    have hcached := hpre.length_le
    have hbytes : ∀ p ∈ (w.cached gap).map Prod.snd, p.length < 2 ^ 16 := by
      intro p hp
      obtain ⟨m, hm, rfl⟩ := List.mem_map.mp hp
      have hlostm : m.2 ∈ (w.lost gap).map Prod.snd := List.mem_map_of_mem (hpre.subset hm)
      rw [lost, map_snd_numbered] at hlostm
      exact hkept.short _ (List.mem_of_mem_drop (List.mem_of_mem_take hlostm))
    refine ⟨_, MoldSubscriber.parsePacket_known w.pub.sessionId hlast' (by omega)
      (by simpa using hsome) (by rw [List.length_map]; omega) hbytes
      (by rw [List.length_map]; omega), ?_, rfl⟩
    exact numbered_map_snd_of_prefix hpre

/-- Three messages, of which a subscriber has read the first one. -/
def threePublished : History :=
  [.publish [97], .publishBatch [[98]] 0, .publish [99]].foldl act (init [83] 4)

theorem gap_repaired_second :
    threePublished.cached ⟨2, 3, 1⟩ = [(2, [98])] ∧
      ∃ (sub' : MoldSubscriber Nat) (request reply : List UInt8) (outcome' : ParseOutcome),
        serveOnce threePublished.pub.sessionId threePublished.pub.cache request = some reply ∧
        sub'.parsePacket reply = some (outcome', sub') ∧ outcome'.messages = [(2, [98])] := by
  have hreach : Runs.Reachable act Allowed (init [83] 4) threePublished :=
    Runs.Reachable.start.foldl (by decide +kernel)
  have hcached : threePublished.cached ⟨2, 3, 1⟩ = [(2, [98])] := by decide +kernel
  have hparse := MoldSubscriber.parsePacket_packet
    (⟨threePublished.pub.sessionId, some 1, some 0⟩ : MoldSubscriber Nat)
    threePublished.pub.sessionId (show 3 < 2 ^ 64 by decide) (List.cons_ne_nil [99] [])
    (by decide) (by decide)
  obtain ⟨-, -, request, -, -, hsome⟩ := gap_repaired (by decide) hreach rfl rfl
    (by decide +kernel) hparse rfl (show _ = some ⟨2, 3, 1⟩ from rfl) (show 1 ≤ 10 by decide)
    (by decide)
  obtain ⟨reply, hreply, hread⟩ := hsome (by rw [hcached]; exact List.cons_ne_nil _ _)
  obtain ⟨outcome', hparse', hmsgs, -⟩ := hread [] (by simp)
  exact ⟨hcached, _, request, reply, outcome', hreply, hparse', hmsgs.trans hcached⟩

end History

end MatchMoldUdp64
