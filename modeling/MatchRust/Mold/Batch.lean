import MatchRust.Mold.Hostile

/-!
# Batches

`publish_batch` fills one datagram with messages from the front of a list and leaves the
rest to the caller.  It takes the longest part that fits (`LongestFit`).  The tests for the
first message and for the later ones differ in the source, but say the same
(`fitLoop_cons`).

Numbers are 64-bit numbers and wrap around in the end, for the publisher and for the
subscriber alike.
-/

namespace MatchMoldUdp64

open Numbered

/-- The length of a datagram with these messages. -/
def datagramLen (blocks : List Payload) : Nat :=
  moldHeaderLen + (blocks.map fun p => moldBlockHeaderLen + p.length).sum

/-- The limit in force, given that of the caller. -/
def effectiveLimit (maxDatagramBytes : Nat) : Nat :=
  if maxDatagramBytes = 0 then moldMaxDatagram else maxDatagramBytes

/-- The longest part of a list, from its front, whose datagram fits.  It is empty if not even
the first message fits. -/
structure LongestFit (limit : Nat) (msgs blocks : List Payload) : Prop where
  front : blocks <+: msgs
  fits : blocks ≠ [] → datagramLen blocks ≤ limit
  longest : ∀ others, others <+: msgs → datagramLen others ≤ limit → others <+: blocks

/-! ## What fits -/

theorem datagramLen_concat (blocks : List Payload) (p : Payload) :
    datagramLen (blocks ++ [p]) = datagramLen blocks + (moldBlockHeaderLen + p.length) := by
  simp [datagramLen, Nat.add_assoc]

theorem datagramLen_le_of_prefix {blocks others : List Payload} (h : blocks <+: others) :
    datagramLen blocks ≤ datagramLen others := by
  obtain ⟨rest, rfl⟩ := h
  simp [datagramLen]

theorem length_packet (session : SessionId) (firstSeq : Nat) (msgs : List Payload) :
    (packet session firstSeq msgs).length = datagramLen msgs := by
  rw [packet, List.length_append, DownstreamHeader.encode, length_encodeFields, datagramLen,
    List.length_flatMap]
  simp [block, moldBlockHeaderLen]

/-- A datagram has room for fewer messages than bytes, and for no message as long as itself. -/
theorem short_of_datagramLen {blocks : List Payload} (h : datagramLen blocks ≤ 65507) :
    blocks.length < 2 ^ 16 ∧ ∀ p ∈ blocks, Short p := by
  constructor
  · have hle : (blocks.map fun _ => moldBlockHeaderLen).sum ≤
        (blocks.map fun p => moldBlockHeaderLen + p.length).sum :=
      List.sum_le_sum fun p _ => Nat.le_add_right _ _
    rw [List.map_const', List.sum_replicate, smul_eq_mul] at hle
    unfold datagramLen at h
    unfold moldBlockHeaderLen at hle h
    omega
  · intro p hp
    have hle : moldBlockHeaderLen + p.length ≤
        (blocks.map fun p => moldBlockHeaderLen + p.length).sum :=
      List.single_le_sum (fun _ _ => Nat.zero_le _) _
        (List.mem_map_of_mem (f := fun p => moldBlockHeaderLen + p.length) hp)
    unfold datagramLen at h
    unfold Short
    omega

namespace MoldPublisher

/-- Both tests ask whether the datagram with one more message would be too long. -/
theorem fitLoop_cons (max : Nat) (blocks : List Payload) (p : Payload) (msgs : List Payload) :
    fitLoop max blocks (p :: msgs) (datagramLen blocks) =
      if max < datagramLen (blocks ++ [p]) then blocks
      else fitLoop max (blocks ++ [p]) msgs (datagramLen (blocks ++ [p])) := by
  rw [datagramLen_concat, fitLoop]
  cases blocks with
  | nil => simp [datagramLen, Nat.add_comm]
  | cons b blocks => simp

theorem fitLoop_longest {max : Nat} {blocks : List Payload} (msgs : List Payload)
    (hfits : blocks ≠ [] → datagramLen blocks ≤ max) :
    LongestFit max (blocks ++ msgs) (fitLoop max blocks msgs (datagramLen blocks)) := by
  induction msgs generalizing blocks with
  | nil =>
      rw [List.append_nil, fitLoop]
      exact ⟨List.prefix_rfl, hfits, fun _ hothers _ => hothers⟩
  | cons p msgs ih =>
      rw [fitLoop_cons]
      split
      next hover =>
        refine ⟨List.prefix_append _ _, hfits, fun others hothers hlen => ?_⟩
        -- anything longer has the message that does not fit
        rcases List.prefix_or_prefix_of_prefix hothers (List.prefix_append blocks (p :: msgs))
          with hle | ⟨rest, rfl⟩
        · exact hle
        · cases rest with
          | nil => rw [List.append_nil]
          | cons q rest =>
              rw [List.prefix_append_right_inj, List.cons_prefix_cons] at hothers
              obtain ⟨rfl, -⟩ := hothers
              have hle : blocks ++ [q] <+: blocks ++ q :: rest :=
                (List.prefix_append_right_inj blocks).mpr ⟨rest, rfl⟩
              have := datagramLen_le_of_prefix hle
              omega
      next hfit =>
        have h : LongestFit max (blocks ++ [p] ++ msgs) _ := ih fun _ => Nat.not_lt.mp hfit
        rwa [List.append_assoc] at h

theorem fitBlocks_longest (msgs : List Payload) (maxDatagramBytes : Nat) :
    LongestFit (effectiveLimit maxDatagramBytes) msgs (fitBlocks msgs maxDatagramBytes) :=
  fitLoop_longest msgs fun h => absurd rfl h

/-! ## What is published -/

/-- The numbers of a batch, given to its messages. -/
theorem allocSeqs_zip {p : MoldPublisher} (h : p.nextSeq < 2 ^ 64) (blocks rest : List Payload) :
    (p.allocSeqs blocks.length).1.zip (blocks ++ rest) =
      MoldSubscriber.wrapped p.nextSeq blocks := by
  induction blocks generalizing p with
  | nil => rfl
  | cons b blocks ih =>
      have hnext : p.allocSeq.2.nextSeq < 2 ^ 64 := Nat.mod_lt _ (by decide)
      rw [List.length_cons, allocSeqs, List.cons_append]
      simp only [List.zip_cons_cons, ih hnext, MoldSubscriber.wrapped_cons]
      rw [Nat.mod_eq_of_lt h, ← MoldSubscriber.wrapped_mod (p.nextSeq + 1)]
      rfl

theorem allocSeqs_snd {p : MoldPublisher} (h : p.nextSeq < 2 ^ 64) (n : Nat) :
    (p.allocSeqs n).2 = { p with nextSeq := (p.nextSeq + n) % 2 ^ 64 } := by
  induction n generalizing p with
  | zero =>
      rw [allocSeqs, Nat.add_zero, Nat.mod_eq_of_lt h]
  | succ n ih =>
      have hnext : p.allocSeq.2.nextSeq < 2 ^ 64 := Nat.mod_lt _ (by decide)
      rw [allocSeqs]
      simp only [ih hnext]
      have hsum : ((p.nextSeq + 1) % 2 ^ 64 + n) % 2 ^ 64 = (p.nextSeq + (n + 1)) % 2 ^ 64 := by
        rw [Nat.mod_add_mod, Nat.add_assoc, Nat.add_comm 1 n]
      simp only [allocSeq, hsum]

/-- The messages of a packet are its blocks. -/
theorem blocksIn_packet (session : SessionId) (firstSeq : Nat) {msgs : List Payload}
    (h : ∀ p ∈ msgs, Short p) :
    blocksIn msgs.length ((packet session firstSeq msgs).drop moldHeaderLen) = msgs := by
  rw [drop_packet]
  have hread := exact_blocks.prefix_parse h le_rfl (List.prefix_refl (msgs.flatMap block))
  have hle : (blocksIn msgs.length (msgs.flatMap block)).length ≤ msgs.length :=
    Framing.length_parse_le _ _
  exact (hread.eq_of_length_le hle).symm

/-- The subscribers of the session get the messages of a packet, as long as a debug build can
count them. -/
theorem messages_of_packet {Addr : Type} (build : Build) (sub : MoldSubscriber Addr)
    {firstSeq : Nat} (hseq : firstSeq < 2 ^ 64) {msgs : List Payload}
    (hcount : msgs.length < 2 ^ 16) (hshort : ∀ p ∈ msgs, Short p)
    (hbuild : build = .debug → firstSeq + msgs.length < 2 ^ 64 ∧
      ∀ last ∈ sub.lastSeq, last + 1 < 2 ^ 64) :
    ∃ outcome sub',
      sub.parsePacketIn build (packet sub.sessionId firstSeq msgs) = some (outcome, sub') ∧
        outcome.messages = MoldSubscriber.wrapped firstSeq msgs := by
  have hdec := decode_packet sub.sessionId hseq msgs
  rw [Nat.mod_eq_of_lt hcount] at hdec
  have hblocks := blocksIn_packet sub.sessionId firstSeq hshort
  cases build with
  | release =>
      obtain ⟨outcome, sub', hparse, -, hmessages, -⟩ := sub.release_reads hdec
      rw [hblocks] at hmessages
      exact ⟨outcome, sub', hparse, hmessages⟩
  | debug =>
      obtain ⟨hfits, hlast⟩ := hbuild rfl
      obtain ⟨outcome, sub', hparse, hreads⟩ := sub.parsePacket_readsAs hdec
      refine ⟨outcome, sub', ?_, ?_⟩
      · rw [MoldSubscriber.parsePacketIn_eq .debug hdec rfl (fun _ => hlast)
          (by rw [hblocks]; exact hfits), hparse]
      · rw [hreads.messages, hblocks, MoldSubscriber.wrapped_eq hfits.le]

/-- A batch is published up to the longest part that fits into a datagram. -/
theorem publish_batch_packs {p : MoldPublisher} (hseq : p.nextSeq < 2 ^ 64) (msgs : List Payload)
    {maxDatagramBytes : Nat} (hmax : effectiveLimit maxDatagramBytes ≤ 65507) :
    ∃ blocks, LongestFit (effectiveLimit maxDatagramBytes) msgs blocks ∧
      (blocks = [] → p.publishBatch msgs maxDatagramBytes = ((0, none), p)) ∧
      (blocks ≠ [] → ∃ datagram,
        p.publishBatch msgs maxDatagramBytes = ((blocks.length, some datagram),
          { p with
            nextSeq := (p.nextSeq + blocks.length) % 2 ^ 64
            cache := (MoldSubscriber.wrapped p.nextSeq blocks).foldl
              (fun ring m => ring.push m.1 m.2) p.cache }) ∧
        datagram.length = datagramLen blocks ∧
        ∀ (Addr : Type) (build : Build) (sub : MoldSubscriber Addr), sub.sessionId = p.sessionId →
          (build = .debug → p.nextSeq + blocks.length < 2 ^ 64 ∧
            ∀ last ∈ sub.lastSeq, last + 1 < 2 ^ 64) →
          ∃ outcome sub', sub.parsePacketIn build datagram = some (outcome, sub') ∧
            outcome.messages = MoldSubscriber.wrapped p.nextSeq blocks) := by
  have hlongest := fitBlocks_longest msgs maxDatagramBytes
  obtain ⟨blocks, hblocks⟩ : ∃ blocks, blocks = fitBlocks msgs maxDatagramBytes := ⟨_, rfl⟩
  rw [← hblocks] at hlongest
  refine ⟨blocks, hlongest, ?_, ?_⟩
  · intro hnil
    rw [publishBatch]
    split
    next => rfl
    next => simp only [← hblocks, if_pos hnil]
  · intro hne
    have hmsgs : msgs ≠ [] := by
      rintro rfl
      exact hne (List.prefix_nil.mp hlongest.front)
    obtain ⟨hcount, hshort⟩ := short_of_datagramLen ((hlongest.fits hne).trans hmax)
    refine ⟨packet p.sessionId p.nextSeq blocks, ?_, length_packet _ _ _, ?_⟩
    · obtain ⟨rest, hrest⟩ := hlongest.front
      simp only [publishBatch, if_neg hmsgs, ← hblocks, if_neg hne]
      rw [← hrest, allocSeqs_zip hseq, allocSeqs_snd hseq]
      rfl
    · intro Addr build sub hsession hbuild
      rw [← hsession]
      exact messages_of_packet build sub hseq hcount hshort hbuild

/-- Two of three messages fit into a datagram of 27 bytes. -/
theorem publish_batch_packs_two :
    let p := MoldPublisher.new [83] 4
    ∃ blocks, LongestFit 27 [[97], [98, 99], [100]] blocks ∧
      (blocks ≠ [] → ∃ datagram, (p.publishBatch [[97], [98, 99], [100]] 27).1 =
        (blocks.length, some datagram) ∧ datagram.length = datagramLen blocks) := by
  intro p
  obtain ⟨blocks, hlongest, -, hsome⟩ := publish_batch_packs (p := p) (by decide)
    [[97], [98, 99], [100]] (show effectiveLimit 27 ≤ 65507 by decide)
  refine ⟨blocks, hlongest, fun hne => ?_⟩
  obtain ⟨datagram, hpublish, hlen, -⟩ := hsome hne
  exact ⟨datagram, by rw [hpublish], hlen⟩

end MoldPublisher

end MatchMoldUdp64
