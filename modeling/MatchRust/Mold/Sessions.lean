import MatchRust.Mold.Overflow

/-!
# Packets of other sessions

Several feeds may share a port.  The retransmission server drops a request of another
session.  The subscriber has only a debug assertion for it, so a release build takes the
packet for one of its own: it delivers the messages and moves the last number, and with it
the gaps that are reported later.

A packet of another session does no harm only if it is `Quiet`: a heartbeat that announces
no number beyond the next one, or a packet without a complete message.  The subscriber is
`Undisturbed` through a run if and only if all of them are.
-/

namespace MatchMoldUdp64

open Numbered

/-- The packet moves nothing: a heartbeat up to the next number, or a packet that is cut in its
first message. -/
def Quiet (lastSeq : Option Nat) (buf : List UInt8) : Prop :=
  ∀ header, DownstreamHeader.decode buf = some header →
    if header.msgCount = 0 then header.seq ≤ lastSeq.getD 0 + 1
    else ∀ p, Short p → ¬ block p <+: buf.drop moldHeaderLen

theorem nextBlock_eq_none {body : List UInt8} :
    nextBlock body = none ↔ ∀ p, Short p → ¬ block p <+: body := by
  constructor
  · rintro hnone p hp ⟨rest, rfl⟩
    rw [nextBlock_block hp] at hnone
    cases hnone
  · intro h
    cases hnext : nextBlock body with
    | none => rfl
    | some r =>
        obtain ⟨p, rest⟩ := r
        obtain ⟨hp, rfl⟩ := nextBlock_sound hnext
        exact absurd (List.prefix_append _ _) (h p hp)

theorem blocksIn_eq_nil {count : Nat} (hcount : count ≠ 0) {body : List UInt8} :
    blocksIn count body = [] ↔ nextBlock body = none := by
  obtain ⟨n, rfl⟩ := Nat.exists_eq_succ_of_ne_zero hcount
  rw [Nat.succ_eq_add_one, MoldSubscriber.blocksIn_succ]
  cases nextBlock body with
  | none => simp
  | some r => simp

/-- The datagrams of the session. -/
def ours (session : SessionId) (bufs : List (List UInt8)) : List (List UInt8) :=
  bufs.filter fun buf => OfSession session buf

/-- The outcomes of the datagrams of the session. -/
def ourOutcomes (session : SessionId) (bufs : List (List UInt8)) (outcomes : List ParseOutcome) :
    List ParseOutcome :=
  ((bufs.zip outcomes).filter fun x => OfSession session x.1).map Prod.snd

section Ours

variable {session : SessionId} {buf : List UInt8} (bufs : List (List UInt8))
  (outcome : ParseOutcome) (outcomes : List ParseOutcome)

theorem ours_cons_own (h : OfSession session buf) :
    ours session (buf :: bufs) = buf :: ours session bufs :=
  List.filter_cons_of_pos (by simpa using h)

theorem ours_cons_foreign (h : ¬ OfSession session buf) :
    ours session (buf :: bufs) = ours session bufs :=
  List.filter_cons_of_neg (by simpa using h)

theorem ourOutcomes_cons_own (h : OfSession session buf) :
    ourOutcomes session (buf :: bufs) (outcome :: outcomes) =
      outcome :: ourOutcomes session bufs outcomes := by
  rw [ourOutcomes, List.zip_cons_cons, List.filter_cons_of_pos (by simpa using h)]
  rfl

theorem ourOutcomes_cons_foreign (h : ¬ OfSession session buf) :
    ourOutcomes session (buf :: bufs) (outcome :: outcomes) =
      ourOutcomes session bufs outcomes := by
  rw [ourOutcomes, List.zip_cons_cons, List.filter_cons_of_neg (by simpa using h)]
  rfl

end Ours

namespace MoldSubscriber

variable {Addr : Type}

/-- What the release build reads. -/
def readRelease (sub : MoldSubscriber Addr) (bufs : List (List UInt8)) :
    Option (List ParseOutcome × MoldSubscriber Addr) :=
  readAll (parsePacketIn .release) sub bufs

/-- The last number and the outcomes of the session's packets are as without the packets of other
sessions, and these deliver nothing. -/
def Undisturbed (sub : MoldSubscriber Addr) (bufs : List (List UInt8)) : Prop :=
  ∃ all own, sub.readRelease bufs = some all ∧
    sub.readRelease (ours sub.sessionId bufs) = some own ∧
    all.2.lastSeq = own.2.lastSeq ∧
    ourOutcomes sub.sessionId bufs all.1 = own.1 ∧
    ∀ x ∈ bufs.zip all.1, ¬ OfSession sub.sessionId x.1 → x.2.messages = []

/-- Every packet of another session is quiet when it comes. -/
def ForeignQuiet : MoldSubscriber Addr → List (List UInt8) → Prop
  | _, [] => True
  | sub, buf :: bufs =>
      (OfSession sub.sessionId buf ∨ Quiet sub.lastSeq buf) ∧
        ∀ r, sub.parsePacketIn .release buf = some r → ForeignQuiet r.2 bufs

/-! ## One packet -/

variable {sub : MoldSubscriber Addr} {buf : List UInt8} {header : DownstreamHeader}

theorem syncSeq_eq_self {lastSeq : Option Nat} {seq : Nat} :
    syncSeq lastSeq seq = lastSeq ↔ seq ≤ lastSeq.getD 0 + 1 := by
  cases lastSeq with
  | none =>
      simp only [syncSeq, Option.getD_none, ite_eq_right_iff, reduceCtorEq, imp_false]
      omega
  | some last =>
      simp only [syncSeq, Option.getD_some, Option.some.injEq]
      omega

/-- A packet delivers nothing and leaves the subscriber as it was exactly if it is quiet. -/
theorem quiet_iff (hdec : DownstreamHeader.decode buf = some header) {outcome : ParseOutcome}
    {sub' : MoldSubscriber Addr}
    (hparse : sub.parsePacketIn .release buf = some (outcome, sub')) :
    Quiet sub.lastSeq buf ↔ outcome.messages = [] ∧ sub' = sub := by
  obtain ⟨outcome', sub'', hparse', hframe, hmessages, hzero, hnone⟩ := sub.release_reads hdec
  rw [hparse, Option.some.injEq, Prod.mk.injEq] at hparse'
  obtain ⟨rfl, rfl⟩ := hparse'
  have hquiet : Quiet sub.lastSeq buf ↔ if header.msgCount = 0 then
      header.seq ≤ sub.lastSeq.getD 0 + 1
      else ∀ p, Short p → ¬ block p <+: buf.drop moldHeaderLen := by
    constructor
    · intro h
      exact h header hdec
    · intro h header' hdec'
      rw [hdec, Option.some.injEq] at hdec'
      exact hdec' ▸ h
  have hnil : outcome.messages = [] ↔
      blocksIn header.msgCount (buf.drop moldHeaderLen) = [] := by
    rw [hmessages, ← List.length_eq_zero_iff, length_wrapped, List.length_eq_zero_iff]
  rw [hquiet]
  by_cases hcount : header.msgCount = 0
  · rw [if_pos hcount, ← syncSeq_eq_self, ← hzero hcount]
    constructor
    · intro h
      rw [hnil, hcount]
      exact ⟨rfl, by rw [hframe, h]⟩
    · rintro ⟨-, rfl⟩
      rfl
  · rw [if_neg hcount, ← nextBlock_eq_none, ← blocksIn_eq_nil hcount, ← hnil]
    exact ⟨fun h => ⟨h, hnone hcount h⟩, fun h => h.1⟩

/-! ## Runs -/

theorem readRelease_cons {outcome : ParseOutcome} {sub' : MoldSubscriber Addr}
    (hparse : sub.parsePacketIn .release buf = some (outcome, sub')) (bufs : List (List UInt8)) :
    sub.readRelease (buf :: bufs) =
      (sub'.readRelease bufs).map fun rest => (outcome :: rest.1, rest.2) := by
  rw [readRelease, readAll, hparse, Option.bind_some]
  rfl

/-- A packet of the session is read alike in both runs. -/
theorem undisturbed_cons_own {outcome : ParseOutcome} {sub' : MoldSubscriber Addr}
    {bufs : List (List UInt8)} (hown : OfSession sub.sessionId buf)
    (hparse : sub.parsePacketIn .release buf = some (outcome, sub'))
    (hsession : sub'.sessionId = sub.sessionId) :
    sub.Undisturbed (buf :: bufs) ↔ sub'.Undisturbed bufs := by
  simp only [Undisturbed, hsession, ours_cons_own _ hown, readRelease_cons hparse,
    Option.map_eq_some_iff]
  constructor
  · rintro ⟨_, _, ⟨all, hall, rfl⟩, ⟨own, hownRun, rfl⟩, hlast, houtcomes, hnothing⟩
    rw [ourOutcomes_cons_own _ _ _ hown, List.cons.injEq] at houtcomes
    exact ⟨all, own, hall, hownRun, hlast, houtcomes.2,
      fun x hx => hnothing x (List.mem_cons_of_mem _ hx)⟩
  · rintro ⟨all, own, hall, hownRun, hlast, houtcomes, hnothing⟩
    refine ⟨_, _, ⟨all, hall, rfl⟩, ⟨own, hownRun, rfl⟩, hlast, ?_, ?_⟩
    · rw [ourOutcomes_cons_own _ _ _ hown, houtcomes]
    · intro x hx hforeign
      rcases List.mem_cons.mp hx with rfl | hx
      · exact absurd hown hforeign
      · exact hnothing x hx hforeign

/-- A packet of another session that leaves the subscriber as it was must deliver nothing. -/
theorem undisturbed_cons_foreign {outcome : ParseOutcome} {bufs : List (List UInt8)}
    (hforeign : ¬ OfSession sub.sessionId buf)
    (hparse : sub.parsePacketIn .release buf = some (outcome, sub)) :
    sub.Undisturbed (buf :: bufs) ↔ outcome.messages = [] ∧ sub.Undisturbed bufs := by
  simp only [Undisturbed, ours_cons_foreign _ hforeign, readRelease_cons hparse,
    Option.map_eq_some_iff]
  constructor
  · rintro ⟨_, own, ⟨all, hall, rfl⟩, hownRun, hlast, houtcomes, hnothing⟩
    rw [ourOutcomes_cons_foreign _ _ _ hforeign] at houtcomes
    exact ⟨hnothing _ List.mem_cons_self hforeign, all, own, hall, hownRun, hlast, houtcomes,
      fun x hx => hnothing x (List.mem_cons_of_mem _ hx)⟩
  · rintro ⟨hempty, all, own, hall, hownRun, hlast, houtcomes, hnothing⟩
    refine ⟨_, own, ⟨all, hall, rfl⟩, hownRun, hlast, ?_, ?_⟩
    · rw [ourOutcomes_cons_foreign _ _ _ hforeign, houtcomes]
    · intro x hx hx'
      rcases List.mem_cons.mp hx with rfl | hx
      · exact hempty
      · exact hnothing x hx hx'

theorem undisturbed_nil (sub : MoldSubscriber Addr) : sub.Undisturbed [] :=
  ⟨([], sub), ([], sub), rfl, rfl, rfl, rfl, fun x hx => by cases hx⟩

theorem foreignQuiet_cons {r : ParseOutcome × MoldSubscriber Addr} {bufs : List (List UInt8)}
    (hparse : sub.parsePacketIn .release buf = some r) :
    sub.ForeignQuiet (buf :: bufs) ↔
      (OfSession sub.sessionId buf ∨ Quiet sub.lastSeq buf) ∧ r.2.ForeignQuiet bufs := by
  simp [ForeignQuiet, hparse]

/-- A single packet of another session must be quiet. -/
theorem quiet_of_undisturbed (hlong : moldHeaderLen ≤ buf.length)
    (hforeign : ¬ OfSession sub.sessionId buf) (h : sub.Undisturbed [buf]) :
    Quiet sub.lastSeq buf := by
  obtain ⟨header, hdec, -⟩ := exists_decode hlong
  obtain ⟨outcome, sub', hparse, hframe, -⟩ := sub.release_reads hdec
  obtain ⟨all, own, hall, hown, hlast, -, hnothing⟩ := h
  rw [ours_cons_foreign _ hforeign] at hown
  rw [readRelease_cons hparse] at hall
  obtain rfl := Option.some.inj hall
  obtain rfl := Option.some.inj hown
  refine (quiet_iff hdec hparse).mpr ⟨hnothing (buf, outcome) List.mem_cons_self hforeign, ?_⟩
  rw [hframe, show sub'.lastSeq = sub.lastSeq from hlast]

/-- A subscriber of the release build is undisturbed by the packets of other sessions, at every
point of a run, exactly if each of them is quiet when it comes. -/
theorem undisturbed_iff {Addr : Type} {sub : MoldSubscriber Addr} {bufs : List (List UInt8)}
    (hlong : ∀ buf ∈ bufs, moldHeaderLen ≤ buf.length) :
    (∀ part, part <+: bufs → sub.Undisturbed part) ↔ sub.ForeignQuiet bufs := by
  induction bufs generalizing sub with
  | nil =>
      refine ⟨fun _ => trivial, fun _ part hpart => ?_⟩
      rw [List.prefix_nil.mp hpart]
      exact sub.undisturbed_nil
  | cons buf bufs ih =>
      obtain ⟨header, hdec, -⟩ := exists_decode (hlong buf List.mem_cons_self)
      obtain ⟨outcome, sub', hparse, hframe, -⟩ := sub.release_reads hdec
      have hquiet := quiet_iff hdec hparse
      have ih : (∀ part, part <+: bufs → sub'.Undisturbed part) ↔ sub'.ForeignQuiet bufs :=
        ih fun b hb => hlong b (List.mem_cons_of_mem _ hb)
      rw [foreignQuiet_cons hparse, ← ih]
      have hsession : sub'.sessionId = sub.sessionId := by rw [hframe]
      by_cases hown : OfSession sub.sessionId buf
      · constructor
        · intro h
          refine ⟨Or.inl hown, fun part hpart => ?_⟩
          exact (undisturbed_cons_own hown hparse hsession).mp
            (h (buf :: part) (List.prefix_cons_inj buf |>.mpr hpart))
        · rintro ⟨-, h⟩ part hpart
          cases part with
          | nil => exact sub.undisturbed_nil
          | cons b part =>
              obtain ⟨rfl, hrest⟩ := List.cons_prefix_cons.mp hpart
              exact (undisturbed_cons_own hown hparse hsession).mpr (h part hrest)
      · -- a quiet packet leaves the subscriber, so both runs go on from the same state
        constructor
        · intro h
          have hq := quiet_of_undisturbed (hlong buf List.mem_cons_self) hown
            (h [buf] (List.prefix_cons_inj buf |>.mpr List.nil_prefix))
          have hsub := (hquiet.mp hq).2
          subst hsub
          refine ⟨Or.inr hq, fun part hpart => ?_⟩
          exact ((undisturbed_cons_foreign hown hparse).mp
            (h (buf :: part) (List.prefix_cons_inj buf |>.mpr hpart))).2
        · rintro ⟨hq, h⟩ part hpart
          have hq := hq.resolve_left hown
          have hsub := (hquiet.mp hq).2
          subst hsub
          cases part with
          | nil => exact undisturbed_nil _
          | cons b part =>
              obtain ⟨rfl, hrest⟩ := List.cons_prefix_cons.mp hpart
              exact (undisturbed_cons_foreign hown hparse).mpr ⟨(hquiet.mp hq).1, h part hrest⟩

/-- A message of another feed between two of the session. -/
def mixedFeed (foreign : List UInt8) : List (List UInt8) :=
  [packet (packSession [83]) 1 [[97]], foreign, packet (packSession [83]) 3 [[99]]]

/-- A heartbeat of another feed that is not ahead disturbs nobody. -/
theorem undisturbed_by_heartbeat :
    (new [83] (none : Option Nat)).Undisturbed (mixedFeed (heartbeat (packSession [84]) 2)) := by
  refine (undisturbed_iff (by decide +kernel)).mpr ?_ _ List.prefix_rfl
  have hquiet : Quiet (some 1) (heartbeat (packSession [84]) 2) := by
    intro header hdec
    rw [decode_heartbeat _ (by decide)] at hdec
    cases hdec
    exact le_rfl
  have hfirst : (new [83] (none : Option Nat)).parsePacketIn .release
      (packet (packSession [83]) 1 [[97]]) =
        some (⟨1, 1, false, none, [(1, [97])]⟩, ⟨packSession [83], some 1, none⟩) := by rfl
  have hheartbeat : (⟨packSession [83], some 1, none⟩ : MoldSubscriber Nat).parsePacketIn .release
      (heartbeat (packSession [84]) 2) =
        some (heartbeatOutcome 2, ⟨packSession [83], some 1, none⟩) := by rfl
  rw [mixedFeed, foreignQuiet_cons hfirst, foreignQuiet_cons hheartbeat]
  exact ⟨Or.inl (by decide +kernel), Or.inr hquiet, Or.inl (by decide +kernel), fun _ _ => trivial⟩

/-- A message of another feed is delivered, and hides the gap before the next packet. -/
theorem foreign_message_delivered :
    let sub : MoldSubscriber Nat := new [83] none
    let foreign := packet (packSession [84]) 2 [[98]]
    ¬ OfSession sub.sessionId foreign ∧
      (sub.readRelease (mixedFeed foreign)).map Prod.fst =
        some [⟨1, 1, false, none, [(1, [97])]⟩, ⟨2, 1, false, none, [(2, [98])]⟩,
          ⟨3, 1, false, none, [(3, [99])]⟩] ∧
      ¬ sub.Undisturbed (mixedFeed foreign) := by
  intro sub foreign
  have hforeign : ¬ OfSession sub.sessionId foreign := by decide +kernel
  have houtcomes : (sub.readRelease (mixedFeed foreign)).map Prod.fst =
      some [⟨1, 1, false, none, [(1, [97])]⟩, ⟨2, 1, false, none, [(2, [98])]⟩,
        ⟨3, 1, false, none, [(3, [99])]⟩] := by decide +kernel
  refine ⟨hforeign, houtcomes, ?_⟩
  rintro ⟨all, own, hall, -, -, -, hnothing⟩
  rw [hall, Option.map_some, Option.some.injEq] at houtcomes
  rw [houtcomes] at hnothing
  exact absurd (hnothing (foreign, _) (List.mem_cons_of_mem _ List.mem_cons_self) hforeign)
    (by simp)

end MoldSubscriber

end MatchMoldUdp64
