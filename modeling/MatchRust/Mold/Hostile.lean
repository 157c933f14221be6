import MatchRust.Lib.Framing
import MatchRust.Mold.Endpoints

/-!
# Any packets

The subscriber reads whatever comes to its port.  A packet may promise messages that it
does not have, and its numbers may be close to the end of the 64-bit range.  A debug build
panics when a number overflows, and on a packet of another session.  A release build wraps
around and does not look at the session.  `parsePacketIn` is `parse_packet` in either build.

The messages that are read are the longest run of complete blocks (`LongestRun`).  As long
as no number overflows, both builds do what `parsePacket` does (`parsePacketIn_eq`).
-/

namespace MatchMoldUdp64

open Numbered

/-! ## Blocks -/

/-- The message at the front of a body, if it is complete, and what follows. -/
def nextBlock (ptr : List UInt8) : Option (Payload × List UInt8) :=
  if ptr.length < moldBlockHeaderLen then none
  else
    let len := Bytes.beValue (ptr.take 2)
    let ptr := ptr.drop moldBlockHeaderLen
    if ptr.length < len then none else some (ptr.take len, ptr.drop len)

/-- The length of a message fits into its field. -/
def Short (p : Payload) : Prop := p.length < 2 ^ 16

theorem nextBlock_block {p : Payload} (hp : Short p) (rest : List UInt8) :
    nextBlock (block p ++ rest) = some (p, rest) := by
  have hlong : ¬ (block p ++ rest).length < moldBlockHeaderLen := by
    rw [block, List.length_append, List.length_append, Bytes.length_be]
    unfold moldBlockHeaderLen
    omega
  have hlen : Bytes.beValue ((block p ++ rest).take 2) = p.length := by
    rw [block, List.append_assoc, List.take_left' (Bytes.length_be 2 _),
      Bytes.beValue_be_of_lt hp]
  have hrest : (block p ++ rest).drop moldBlockHeaderLen = p ++ rest := by
    rw [block, List.append_assoc]
    exact List.drop_left' (Bytes.length_be 2 _)
  rw [nextBlock, if_neg hlong]
  simp only [hlen, hrest, List.take_left, List.drop_left]
  rw [if_neg (by simp)]

theorem nextBlock_sound {ptr rest : List UInt8} {p : Payload}
    (h : nextBlock ptr = some (p, rest)) : Short p ∧ ptr = block p ++ rest := by
  rw [nextBlock] at h
  split at h
  next => cases h
  next hlong =>
    simp only at h
    split at h
    next => cases h
    next hcomplete =>
      rw [Option.some.injEq, Prod.mk.injEq] at h
      obtain ⟨rfl, rfl⟩ := h
      have htwo : (ptr.take 2).length = 2 := by
        unfold moldBlockHeaderLen at hlong
        rw [List.length_take]
        omega
      have hlen : ((ptr.drop moldBlockHeaderLen).take (Bytes.beValue (ptr.take 2))).length =
          Bytes.beValue (ptr.take 2) := by
        rw [List.length_take]
        omega
      have hlt := Bytes.beValue_lt (ptr.take 2)
      have hbytes := Bytes.be_beValue (ptr.take 2)
      rw [htwo] at hlt hbytes
      refine ⟨by rw [Short, hlen]; exact hlt, ?_⟩
      rw [block, hlen, hbytes, List.append_assoc, List.take_append_drop]
      exact (List.take_append_drop 2 ptr).symm

/-- Blocks are read as they were written. -/
theorem exact_blocks : Framing.Exact nextBlock block Short where
  nonempty p h := by simp [block, Bytes.be, Bytes.le] at h
  nothing := rfl
  complete p hp rest := nextBlock_block hp rest
  partly p hp buf hpre hshort := by
    cases hnext : nextBlock buf with
    | none => rfl
    | some r =>
        -- a message read here would be the one of the whole block
        obtain ⟨later, hlater⟩ := hpre
        obtain ⟨q, rest⟩ := r
        obtain ⟨hq, rfl⟩ := nextBlock_sound hnext
        have hwhole := nextBlock_block hp []
        rw [List.append_nil, ← hlater, List.append_assoc, nextBlock_block hq,
          Option.some.injEq, Prod.mk.injEq] at hwhole
        rw [hwhole.1, List.length_append] at hshort
        omega
  sound buf p rest h := nextBlock_sound h

/-- The messages of a body, at most `count` of them. -/
def blocksIn (count : Nat) (body : List UInt8) : List Payload :=
  (Framing.parse nextBlock count body).1

/-- These messages are the longest run of complete blocks at the front of a body, at most
`count` of them. -/
structure LongestRun (count : Nat) (body : List UInt8) (payloads : List Payload) : Prop where
  atMost : payloads.length ≤ count
  short : ∀ p ∈ payloads, Short p
  front : payloads.flatMap block <+: body
  longest : ∀ others : List Payload, others.length ≤ count → (∀ p ∈ others, Short p) →
    others.flatMap block <+: body → others <+: payloads

theorem longestRun_blocksIn (count : Nat) (body : List UInt8) :
    LongestRun count body (blocksIn count body) where
  atMost := Framing.length_parse_le count body
  short := (exact_blocks.parse_sound count body).1
  front := ⟨_, (exact_blocks.parse_sound count body).2⟩
  longest _ hcount hshort hfront := exact_blocks.prefix_parse hshort hcount hfront

/-- Each message is a slice of the body, behind the blocks before it and its length. -/
theorem LongestRun.slice {count : Nat} {body : List UInt8} {payloads : List Payload}
    (h : LongestRun count body payloads) {i : Nat} {p : Payload} (hp : payloads[i]? = some p) :
    (body.drop (((payloads.take i).flatMap block).length + moldBlockHeaderLen)).take p.length =
      p := by
  obtain ⟨rest, rfl⟩ := h.front
  have hsplit : payloads = payloads.take i ++ p :: payloads.drop (i + 1) := by
    obtain ⟨hi, rfl⟩ := List.getElem?_eq_some_iff.mp hp
    rw [List.cons_getElem_drop_succ, List.take_append_drop]
  have hbytes : payloads.flatMap block ++ rest = ((payloads.take i).flatMap block ++
      Bytes.be 2 p.length) ++ (p ++ ((payloads.drop (i + 1)).flatMap block ++ rest)) := by
    conv_lhs => rw [hsplit]
    simp [block, List.append_assoc]
  have hlen : ((payloads.take i).flatMap block ++ Bytes.be 2 p.length).length =
      ((payloads.take i).flatMap block).length + moldBlockHeaderLen := by
    rw [List.length_append, Bytes.length_be]
    rfl
  rw [hbytes, List.drop_left' hlen, List.take_left]

/-- The number in a header is a 64-bit number. -/
theorem seq_lt_of_decode {buf : List UInt8} {header : DownstreamHeader}
    (hdec : DownstreamHeader.decode buf = some header) : header.seq < 2 ^ 64 := by
  rw [DownstreamHeader.decode, decodeFields] at hdec
  split at hdec
  next => cases hdec
  next hlong =>
    obtain rfl := Option.some.inj hdec
    have hlt := Bytes.beValue_lt ((buf.drop moldSessionLen).take 8)
    have hlen : ((buf.drop moldSessionLen).take 8).length = 8 := by
      unfold moldHeaderLen at hlong
      unfold moldSessionLen
      rw [List.length_take, List.length_drop]
      omega
    rw [hlen] at hlt
    exact hlt

/-! ## Builds -/

/-- The builds of the program. -/
inductive Build where
  /-- Overflow panics, and debug assertions are checked. -/
  | debug
  /-- Overflow wraps around, and there are no debug assertions. -/
  | release
deriving DecidableEq

namespace Build

/-- The sum of two 64-bit numbers. -/
def add : Build → Nat → Nat → Option Nat
  | debug, a, b => if a + b < 2 ^ 64 then some (a + b) else none
  | release, a, b => some ((a + b) % 2 ^ 64)

/-- The difference of two 64-bit numbers. -/
def sub : Build → Nat → Nat → Option Nat
  | debug, a, b => if b ≤ a then some (a - b) else none
  | release, a, b => some ((a + 2 ^ 64 - b) % 2 ^ 64)

theorem add_eq (build : Build) {a b : Nat} (h : a + b < 2 ^ 64) : build.add a b = some (a + b) := by
  cases build with
  | debug => exact if_pos h
  | release => exact congrArg some (Nat.mod_eq_of_lt h)

theorem sub_eq (build : Build) {a b : Nat} (h : b ≤ a) (ha : a < 2 ^ 64) :
    build.sub a b = some (a - b) := by
  cases build with
  | debug => exact if_pos h
  | release => exact congrArg some (by omega)

end Build

namespace MoldSubscriber

variable {Addr : Type}

/-- The messages of a packet with their numbers, and whether the packet was cut. -/
def parseBlocksIn (build : Build) : Nat → List UInt8 → Nat → Option (List (Nat × Payload) × Bool)
  | 0, _, _ => some ([], false)
  | count + 1, ptr, seq =>
      if ptr.length < moldBlockHeaderLen then some ([], true)
      else
        let len := Bytes.beValue (ptr.take 2)
        let ptr := ptr.drop moldBlockHeaderLen
        if ptr.length < len then some ([], true)
        else
          (build.add seq 1).bind fun next =>
            (parseBlocksIn build count (ptr.drop len) next).map fun r =>
              ((seq, ptr.take len) :: r.1, r.2)

/-- The number a packet should start with. -/
def expectedSeq (build : Build) (lastSeq : Option Nat) (firstSeq : Nat) : Option Nat :=
  match lastSeq with
  | some last => build.add last 1
  | none => some firstSeq

/-- The gap before a packet that does not start with the expected number. -/
def gapFrom (expected firstSeq : Nat) : Option GapInfo :=
  if expected < firstSeq then some ⟨expected, firstSeq, firstSeq - expected⟩ else none

/-- The number of the last message of a packet. -/
def endSeq (build : Build) (firstSeq count : Nat) : Option Nat :=
  (build.add firstSeq count).bind fun next => build.sub next 1

/-- Read a packet.  There is no result if the program panics. -/
def parsePacketIn (build : Build) (sub : MoldSubscriber Addr) (buf : List UInt8) :
    Option (ParseOutcome × MoldSubscriber Addr) :=
  (DownstreamHeader.decode buf).bind fun header =>
    if build = .debug ∧ header.sessionId ≠ sub.sessionId then none
    else if header.msgCount = 0 then
      some (heartbeatOutcome header.seq, { sub with lastSeq := syncSeq sub.lastSeq header.seq })
    else
      (expectedSeq build sub.lastSeq header.seq).bind fun expected =>
        (parseBlocksIn build header.msgCount (buf.drop moldHeaderLen) header.seq).bind fun r =>
          let outcome : ParseOutcome :=
            ⟨header.seq, header.msgCount, false, gapFrom expected header.seq, r.1⟩
          if r.2 = false ∧ r.1 ≠ [] then
            (endSeq build header.seq r.1.length).map fun last =>
              (outcome, { sub with
                lastSeq := some ((sub.lastSeq.map fun l => max l last).getD last) })
          else some (outcome, sub)

/-! ## Without overflow -/

/-- The blocks of a body, one at a time. -/
theorem parseBlocksIn_succ (build : Build) (count : Nat) (ptr : List UInt8) (seq : Nat) :
    parseBlocksIn build (count + 1) ptr seq =
      match nextBlock ptr with
      | none => some ([], true)
      | some (p, rest) =>
          (build.add seq 1).bind fun next =>
            (parseBlocksIn build count rest next).map fun r => ((seq, p) :: r.1, r.2) := by
  rw [parseBlocksIn, nextBlock]
  split
  next => rfl
  next =>
    simp only
    split
    next => rfl
    next => rfl

theorem blocksIn_succ (count : Nat) (body : List UInt8) :
    blocksIn (count + 1) body =
      match nextBlock body with
      | none => []
      | some (p, rest) => p :: blocksIn count rest := by
  rw [blocksIn, Framing.parse]
  cases nextBlock body with
  | none => rfl
  | some r => rfl

/-- Whether a packet with this body is cut. -/
def isCut (count : Nat) (body : List UInt8) : Bool := (blocksIn count body).length < count

/-- As long as the numbers fit, both builds read the blocks with their numbers. -/
theorem parseBlocksIn_eq (build : Build) {count : Nat} {body : List UInt8} {seq : Nat}
    (h : seq + (blocksIn count body).length < 2 ^ 64) :
    parseBlocksIn build count body seq =
      some (numbered seq (blocksIn count body), isCut count body) := by
  induction count generalizing body seq with
  | zero => rfl
  | succ count ih =>
      rw [parseBlocksIn_succ, isCut]
      rw [blocksIn_succ] at h ⊢
      cases hnext : nextBlock body with
      | none => simp
      | some r =>
          obtain ⟨p, rest⟩ := r
          simp only [hnext, List.length_cons] at h
          simp only [build.add_eq (show seq + 1 < 2 ^ 64 by omega), Option.bind_some,
            ih (show seq + 1 + (blocksIn count rest).length < 2 ^ 64 by omega), Option.map_some,
            List.length_cons, numbered_cons, isCut, Nat.add_lt_add_iff_right]

theorem parseBlocks_eq (count : Nat) (body : List UInt8) (seq : Nat) :
    parseBlocks count body seq = (numbered seq (blocksIn count body), isCut count body) := by
  induction count generalizing body seq with
  | zero => rfl
  | succ count ih =>
      rw [parseBlocks, isCut, blocksIn_succ, nextBlock]
      split
      next => simp
      next =>
        simp only
        split
        next => simp
        next => simp [ih, isCut]

/-- Messages with consecutive 64-bit numbers, which wrap around. -/
def wrapped (seq : Nat) (payloads : List Payload) : List (Nat × Payload) :=
  (numbered seq payloads).map fun m => (m.1 % 2 ^ 64, m.2)

@[simp] theorem wrapped_cons (seq : Nat) (p : Payload) (payloads : List Payload) :
    wrapped seq (p :: payloads) = (seq % 2 ^ 64, p) :: wrapped (seq + 1) payloads := rfl

@[simp] theorem length_wrapped (seq : Nat) (payloads : List Payload) :
    (wrapped seq payloads).length = payloads.length := by
  rw [wrapped, List.length_map, length_numbered]

theorem wrapped_mod (seq : Nat) (payloads : List Payload) :
    wrapped (seq % 2 ^ 64) payloads = wrapped seq payloads := by
  induction payloads generalizing seq with
  | nil => rfl
  | cons p payloads ih =>
      have hnext : wrapped (seq % 2 ^ 64 + 1) payloads = wrapped (seq + 1) payloads := by
        rw [← ih, Nat.mod_add_mod, ih]
      rw [wrapped_cons, wrapped_cons, Nat.mod_mod, hnext]

theorem wrapped_eq {seq : Nat} {payloads : List Payload} (h : seq + payloads.length ≤ 2 ^ 64) :
    wrapped seq payloads = numbered seq payloads := by
  induction payloads generalizing seq with
  | nil => rfl
  | cons p payloads ih =>
      rw [List.length_cons] at h
      rw [wrapped_cons, numbered_cons, Nat.mod_eq_of_lt (by omega), ih (by omega)]

/-- The release build reads the blocks in any case. -/
theorem parseBlocksIn_release (count : Nat) (body : List UInt8) {seq : Nat} (h : seq < 2 ^ 64) :
    parseBlocksIn .release count body seq =
      some (wrapped seq (blocksIn count body), isCut count body) := by
  induction count generalizing body seq with
  | zero => rfl
  | succ count ih =>
      rw [parseBlocksIn_succ, isCut, blocksIn_succ]
      cases hnext : nextBlock body with
      | none => simp [wrapped]
      | some r =>
          obtain ⟨p, rest⟩ := r
          simp only [Build.add, Option.bind_some, ih rest (Nat.mod_lt (seq + 1) (by decide)),
            Option.map_some, List.length_cons, wrapped_cons, wrapped_mod, Nat.mod_eq_of_lt h, isCut,
            Nat.add_lt_add_iff_right]

variable {sub : MoldSubscriber Addr} {buf : List UInt8} {header : DownstreamHeader}

theorem isCut_eq_false {count : Nat} {body : List UInt8} :
    isCut count body = false ↔ (blocksIn count body).length = count := by
  have := (longestRun_blocksIn count body).atMost
  rw [isCut, decide_eq_false_iff_not]
  omega

theorem numbered_ne_nil {seq : Nat} {payloads : List Payload} :
    numbered seq payloads ≠ [] ↔ payloads.length ≠ 0 := by
  rw [ne_eq, ← List.length_eq_zero_iff, length_numbered]

theorem expectedSeq_eq (build : Build) {lastSeq : Option Nat} {firstSeq : Nat}
    (h : ∀ last ∈ lastSeq, last + 1 < 2 ^ 64) :
    expectedSeq build lastSeq firstSeq =
      some ((lastSeq.map fun last => last + 1).getD firstSeq) := by
  cases lastSeq with
  | none => rfl
  | some last => exact build.add_eq (h last rfl)

theorem endSeq_eq (build : Build) {firstSeq count : Nat} (hpos : 0 < count)
    (h : firstSeq + count < 2 ^ 64) :
    endSeq build firstSeq count = some (firstSeq + count - 1) := by
  rw [endSeq, build.add_eq h, Option.bind_some, build.sub_eq (by omega) h]

/-- As long as the numbers fit, both builds read a packet of the session as with unbounded
numbers. -/
theorem parsePacketIn_eq (build : Build) (hdec : DownstreamHeader.decode buf = some header)
    (hours : header.sessionId = sub.sessionId)
    (hlast : header.msgCount ≠ 0 → ∀ last ∈ sub.lastSeq, last + 1 < 2 ^ 64)
    (hfits : header.seq + (blocksIn header.msgCount (buf.drop moldHeaderLen)).length < 2 ^ 64) :
    sub.parsePacketIn build buf = sub.parsePacket buf := by
  rw [parsePacketIn, parsePacket, hdec, Option.bind_some, Option.map_some,
    if_neg fun h => h.2 hours]
  split
  next => rfl
  next hcount =>
    rw [expectedSeq_eq build (hlast hcount), parseBlocksIn_eq build hfits, parseBlocks_eq]
    simp only [Option.bind_some]
    split
    next hall =>
      have hpos := Nat.pos_of_ne_zero (numbered_ne_nil.mp hall.2)
      rw [length_numbered, endSeq_eq build hpos hfits]
      rfl
    next => rfl

/-- The release build reads every packet with a header. -/
theorem release_reads (sub : MoldSubscriber Addr)
    (hdec : DownstreamHeader.decode buf = some header) :
    ∃ outcome sub', sub.parsePacketIn .release buf = some (outcome, sub') ∧
      sub' = { sub with lastSeq := sub'.lastSeq } ∧
      outcome.messages =
        wrapped header.seq (blocksIn header.msgCount (buf.drop moldHeaderLen)) ∧
      (header.msgCount = 0 → sub'.lastSeq = syncSeq sub.lastSeq header.seq) ∧
      (header.msgCount ≠ 0 → outcome.messages = [] → sub' = sub) := by
  rw [parsePacketIn, hdec, Option.bind_some, if_neg (by simp)]
  split
  next hzero =>
    refine ⟨_, _, rfl, rfl, ?_, fun _ => rfl, fun h => absurd hzero h⟩
    rw [hzero]
    rfl
  next hcount =>
    obtain ⟨expected, hexp⟩ : ∃ expected,
        expectedSeq .release sub.lastSeq header.seq = some expected := by
      cases sub.lastSeq with
      | none => exact ⟨_, rfl⟩
      | some last => exact ⟨_, rfl⟩
    rw [hexp, Option.bind_some, parseBlocksIn_release _ _ (seq_lt_of_decode hdec),
      Option.bind_some]
    simp only
    split
    next hall =>
      obtain ⟨last, hlast⟩ : ∃ last, endSeq .release header.seq (wrapped header.seq
        (blocksIn header.msgCount (buf.drop moldHeaderLen))).length = some last := ⟨_, rfl⟩
      rw [hlast, Option.map_some]
      exact ⟨_, _, rfl, rfl, rfl, fun h => absurd h hcount, fun _ h => absurd h hall.2⟩
    next => exact ⟨_, _, rfl, rfl, rfl, fun h => absurd h hcount, fun _ _ => rfl⟩

/-- A packet as the subscriber reads it: the messages `payloads`, and the state after it. -/
structure ReadsAs (sub sub' : MoldSubscriber Addr) (buf : List UInt8) (header : DownstreamHeader)
    (outcome : ParseOutcome) (payloads : List Payload) : Prop where
  run : LongestRun header.msgCount (buf.drop moldHeaderLen) payloads
  messages : outcome.messages = numbered header.seq payloads
  slices : ∀ i p, payloads[i]? = some p →
    (buf.drop (moldHeaderLen + ((payloads.take i).flatMap block).length + moldBlockHeaderLen)).take
      p.length = p
  /-- The last number does not decrease. -/
  mono : ∀ last ∈ sub.lastSeq, ∃ last' ∈ sub'.lastSeq, last ≤ last'
  /-- A packet with messages moves it only if it has all of them. -/
  watermark : header.msgCount ≠ 0 → sub'.lastSeq =
    if payloads.length = header.msgCount then
      some (max (sub.lastSeq.getD 0) (header.seq + header.msgCount - 1))
    else sub.lastSeq
  gap : header.msgCount ≠ 0 → ∀ gap, outcome.gap = some gap ↔
    ∃ last, sub.lastSeq = some last ∧ last + 1 < header.seq ∧
      gap = ⟨last + 1, header.seq, header.seq - (last + 1)⟩

theorem gapBefore_eq_some {lastSeq : Option Nat} {firstSeq : Nat} {gap : GapInfo} :
    gapBefore lastSeq firstSeq = some gap ↔
      ∃ last, lastSeq = some last ∧ last + 1 < firstSeq ∧
        gap = ⟨last + 1, firstSeq, firstSeq - (last + 1)⟩ := by
  cases lastSeq with
  | none => simp [gapBefore]
  | some last =>
      simp only [gapBefore, Option.map_some, Option.getD_some, Option.some.injEq, exists_eq_left']
      split
      next hlt => simp [hlt, eq_comm]
      next hge => simp [hge]

theorem advanceSeq_eq (lastSeq : Option Nat) (firstSeq count : Nat) :
    advanceSeq lastSeq firstSeq count = some (max (lastSeq.getD 0) (firstSeq + count - 1)) := by
  cases lastSeq with
  | none => simp [advanceSeq]
  | some last => simp [advanceSeq]

theorem syncSeq_mono {lastSeq : Option Nat} {last : Nat} (h : last ∈ lastSeq) (seq : Nat) :
    ∃ last' ∈ syncSeq lastSeq seq, last ≤ last' := by
  obtain rfl := h
  exact ⟨_, rfl, Nat.le_max_left _ _⟩

/-- What `parsePacket` makes of any packet. -/
theorem parsePacket_readsAs (sub : MoldSubscriber Addr)
    (hdec : DownstreamHeader.decode buf = some header) :
    ∃ outcome sub', sub.parsePacket buf = some (outcome, sub') ∧
      ReadsAs sub sub' buf header outcome (blocksIn header.msgCount (buf.drop moldHeaderLen)) := by
  have hrun := longestRun_blocksIn header.msgCount (buf.drop moldHeaderLen)
  have hslices : ∀ i p, (blocksIn header.msgCount (buf.drop moldHeaderLen))[i]? = some p → _ :=
    fun i p hp => hrun.slice hp
  simp only [List.drop_drop, ← Nat.add_assoc] at hslices
  rw [parsePacket, hdec, Option.map_some, parseBlocks_eq]
  split
  next hzero =>
    refine ⟨_, _, rfl, hrun, ?_, hslices, fun last hlast => syncSeq_mono hlast _, ?_, ?_⟩
    · rw [hzero]
      rfl
    · exact fun h => absurd hzero h
    · exact fun h => absurd hzero h
  next hcount =>
    refine ⟨_, _, rfl, hrun, rfl, hslices, ?_, fun _ => ?_, fun _ gap => gapBefore_eq_some⟩
    · intro last hlast
      split
      next =>
        refine ⟨_, advanceSeq_eq _ _ _, ?_⟩
        rw [Option.mem_def] at hlast
        rw [hlast]
        exact Nat.le_max_left _ _
      next => exact ⟨last, hlast, le_rfl⟩
    · simp only [isCut_eq_false, numbered_ne_nil, length_numbered, advanceSeq_eq]
      split
      next hall => rw [if_pos hall.1, hall.1]
      next hcut => rw [if_neg fun hall => hcut ⟨hall, by rw [hall]; exact hcount⟩]

/-- Packets of the session whose numbers stay in range are read as far as they are well formed,
in both builds. -/
theorem parse_hostile {Addr : Type} (build : Build) {sub : MoldSubscriber Addr}
    {buf : List UInt8} {header : DownstreamHeader}
    (hdec : DownstreamHeader.decode buf = some header)
    (hours : header.sessionId = sub.sessionId)
    (hlast : ∀ last ∈ sub.lastSeq, last < 2 ^ 64 - 1)
    (hfits : header.seq + header.msgCount ≤ 2 ^ 64 - 1) :
    ∃ outcome sub' payloads, sub.parsePacketIn build buf = some (outcome, sub') ∧
      ReadsAs sub sub' buf header outcome payloads := by
  have hcount := (longestRun_blocksIn header.msgCount (buf.drop moldHeaderLen)).atMost
  obtain ⟨outcome, sub', hparse, hreads⟩ := sub.parsePacket_readsAs hdec
  refine ⟨outcome, sub', _, ?_, hreads⟩
  rw [parsePacketIn_eq build hdec hours (fun _ last hl => ?_) (by omega), hparse]
  have := hlast last hl
  omega

/-- A packet that promises two messages after a gap, and has one and a half. -/
def cutPacket : List UInt8 :=
  (DownstreamHeader.mk (packSession [83]) 7 2).encode ++ block [97] ++ [0, 3, 98]

theorem parse_hostile_cut :
    let sub : MoldSubscriber Nat := ⟨packSession [83], some 4, none⟩
    ∃ outcome sub' payloads, sub.parsePacketIn .debug cutPacket = some (outcome, sub') ∧
      ReadsAs sub sub' cutPacket ⟨packSession [83], 7, 2⟩ outcome payloads :=
  parse_hostile .debug (by decide +kernel) rfl (by decide) (by decide)

end MoldSubscriber

end MatchMoldUdp64
