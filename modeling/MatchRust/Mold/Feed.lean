import MatchRust.Lib.Runs
import MatchRust.Mold.Endpoints

/-!
# Lost messages of a feed

A subscriber reads packets and heartbeats in any order, some of them twice and some
never.  From the first packet with messages on, every number up to its last one should
have been delivered or reported as missing.

Packets with messages do their part.  A packet that starts beyond the next number
reports the gap in between.  A heartbeat does not.  It carries the number of the next
message, and the subscriber takes the number before it for its last one without a
report.  The messages it passes over so are lost in silence, and a later packet does not
report them either.  `no_silent_loss_iff` says that this is all that can go wrong, and
`heartbeat_hides_loss` is a feed in which it does.
-/

namespace MatchMoldUdp64

open Numbered

/-- A subscriber, with everything it was told so far. -/
structure Reader (Addr : Type) where
  sub : MoldSubscriber Addr
  outcomes : List ParseOutcome
  /-- The first number of the first packet with messages. -/
  start : Option Nat

/-- A datagram of a feed that arrives complete. -/
inductive Datagram where
  /-- A packet with these messages, the first one of this number. -/
  | data (firstSeq : Nat) (msgs : List Payload)
  /-- A heartbeat with the number of the next message. -/
  | heartbeat (seq : Nat)

namespace Datagram

/-- The bytes of a datagram. -/
def bytes (session : SessionId) : Datagram → List UInt8
  | data firstSeq msgs => packet session firstSeq msgs
  | heartbeat seq => MatchMoldUdp64.heartbeat session seq

/-- Sequence numbers stay below `2 ^ 64 - 1`, and the lengths fit into their fields. -/
def Fits : Datagram → Prop
  | data firstSeq msgs => msgs ≠ [] ∧ msgs.length < 2 ^ 16 ∧ (∀ p ∈ msgs, p.length < 2 ^ 16) ∧
      firstSeq + msgs.length < 2 ^ 64
  | heartbeat seq => seq < 2 ^ 64

instance decidableFits : ∀ dg : Datagram, Decidable dg.Fits
  | data _ _ => inferInstanceAs (Decidable (_ ∧ _ ∧ _ ∧ _))
  | heartbeat _ => inferInstanceAs (Decidable (_ < _))

end Datagram

namespace Reader

variable {Addr : Type}

/-- A subscriber before the first datagram. -/
def init (session : SessionId) (retransmitAddr : Option Addr) : Reader Addr :=
  ⟨⟨session, none, retransmitAddr⟩, [], none⟩

/-- Read a datagram. -/
def act (r : Reader Addr) (dg : Datagram) : Reader Addr :=
  match r.sub.parsePacket (dg.bytes r.sub.sessionId) with
  | none => r
  | some (outcome, sub) =>
      { sub := sub
        outcomes := r.outcomes ++ [outcome]
        start := r.start.or (if outcome.isHeartbeat then none else some outcome.firstSeq) }

/-- The number was delivered, or lies in a gap that was reported. -/
def Told (r : Reader Addr) (seq : Nat) : Prop :=
  ∃ outcome ∈ r.outcomes, (∃ p, (seq, p) ∈ outcome.messages) ∨
    ∃ gap, outcome.gap = some gap ∧ gap.expected ≤ seq ∧ seq < gap.expected + gap.lost

/-- Every number from the first packet with messages up to the last number was delivered or
reported. -/
def NoSilentLoss (r : Reader Addr) : Prop :=
  ∀ first last, r.start = some first → r.sub.lastSeq = some last →
    ∀ seq, first ≤ seq → seq ≤ last → r.Told seq

/-- A heartbeat after the first packet with messages announces no number beyond the next one.
The first packet with messages reaches at least to the number of the heartbeats before it. -/
def NotAhead (r : Reader Addr) : Datagram → Prop
  | .heartbeat seq => r.start ≠ none → ∀ last ∈ r.sub.lastSeq, seq ≤ last + 1
  | .data firstSeq msgs => r.start = none → ∀ last ∈ r.sub.lastSeq, last < firstSeq + msgs.length

instance decidableNotAhead (r : Reader Addr) : ∀ dg : Datagram, Decidable (r.NotAhead dg)
  | .heartbeat seq =>
      inferInstanceAs (Decidable (r.start ≠ none → ∀ last ∈ r.sub.lastSeq, seq ≤ last + 1))
  | .data firstSeq msgs =>
      inferInstanceAs (Decidable (r.start = none → ∀ last ∈ r.sub.lastSeq,
        last < firstSeq + msgs.length))

/-! ## One datagram -/

variable {session : SessionId} {addr : Option Addr} {r : Reader Addr}

theorem act_data (r : Reader Addr) {firstSeq : Nat} {msgs : List Payload}
    (h : (Datagram.data firstSeq msgs).Fits) :
    r.act (.data firstSeq msgs) =
      { sub := { r.sub with
          lastSeq := MoldSubscriber.advanceSeq r.sub.lastSeq firstSeq msgs.length }
        outcomes := r.outcomes ++ [⟨firstSeq, msgs.length, false,
          MoldSubscriber.gapBefore r.sub.lastSeq firstSeq, numbered firstSeq msgs⟩]
        start := r.start.or (some firstSeq) } := by
  obtain ⟨hne, hcount, hshort, hseq⟩ := h
  have hlt : firstSeq < 2 ^ 64 := by omega
  simp only [act, Datagram.bytes,
    r.sub.parsePacket_packet r.sub.sessionId hlt hne hcount hshort]
  rfl

theorem act_heartbeat (r : Reader Addr) {seq : Nat} (h : (Datagram.heartbeat seq).Fits) :
    r.act (.heartbeat seq) =
      { sub := { r.sub with lastSeq := MoldSubscriber.syncSeq r.sub.lastSeq seq }
        outcomes := r.outcomes ++ [MoldSubscriber.heartbeatOutcome seq]
        start := r.start } := by
  simp only [act, Datagram.bytes, r.sub.parsePacket_heartbeat r.sub.sessionId h]
  cases r.start with
  | none => rfl
  | some first => rfl

/-- A packet tells of its messages and of the gap before them. -/
theorem told_act_data {firstSeq : Nat} {msgs : List Payload}
    (h : (Datagram.data firstSeq msgs).Fits) {seq : Nat} :
    (r.act (.data firstSeq msgs)).Told seq ↔
      r.Told seq ∨ (firstSeq ≤ seq ∧ seq < firstSeq + msgs.length) ∨
        ∃ last, r.sub.lastSeq = some last ∧ last < seq ∧ seq < firstSeq := by
  have hmem : (∃ p, (seq, p) ∈ numbered firstSeq msgs) ↔
      firstSeq ≤ seq ∧ seq < firstSeq + msgs.length := by
    constructor
    · rintro ⟨p, hp⟩
      exact lt_of_mem_numbered hp
    · rintro ⟨hle, hlt⟩
      exact ⟨_, mem_numbered.mpr ⟨hle, List.getElem?_eq_getElem (by omega)⟩⟩
  have hgap : (∃ gap, MoldSubscriber.gapBefore r.sub.lastSeq firstSeq = some gap ∧
      gap.expected ≤ seq ∧ seq < gap.expected + gap.lost) ↔
      ∃ last, r.sub.lastSeq = some last ∧ last < seq ∧ seq < firstSeq := by
    unfold MoldSubscriber.gapBefore
    cases r.sub.lastSeq with
    | none => simp
    | some last =>
        simp only [Option.map_some, Option.getD_some, Option.some.injEq, exists_eq_left']
        split
        next hlt =>
          simp only [Option.some.injEq, exists_eq_left']
          omega
        next hge =>
          simp only [reduceCtorEq, false_and, exists_false, false_iff, not_and]
          omega
  rw [act_data r h]
  simp only [Told, List.mem_append, List.mem_singleton, or_and_right, exists_or, exists_eq_left,
    hmem, hgap]

/-- A heartbeat tells nothing. -/
theorem told_act_heartbeat {seq' : Nat} (h : (Datagram.heartbeat seq').Fits) {seq : Nat} :
    (r.act (.heartbeat seq')).Told seq ↔ r.Told seq := by
  rw [act_heartbeat r h]
  simp [Told, List.mem_append, or_and_right, exists_or, MoldSubscriber.heartbeatOutcome]

/-! ## Runs -/

/-- What is known of a subscriber after any datagrams. -/
structure Kept (r : Reader Addr) : Prop where
  /-- Nothing is told before the first packet with messages. -/
  untold : r.start = none → ∀ seq, ¬ r.Told seq
  /-- After it there is a last number, from the first one on. -/
  known : ∀ first, r.start = some first → ∃ last, r.sub.lastSeq = some last ∧ first ≤ last
  /-- Nothing beyond the last number is told. -/
  bound : ∀ last, r.sub.lastSeq = some last → ∀ seq, r.Told seq → seq ≤ last

theorem kept_init (session : SessionId) (addr : Option Addr) : (init session addr).Kept where
  untold _ seq := by simp [init, Told]
  known first h := by cases h
  bound last h := by cases h

theorem Kept.data (h : r.Kept) {firstSeq : Nat} {msgs : List Payload}
    (hfits : (Datagram.data firstSeq msgs).Fits) : (r.act (.data firstSeq msgs)).Kept := by
  have hpos : 0 < msgs.length := List.length_pos_iff.mpr hfits.1
  have hlast : (r.act (.data firstSeq msgs)).sub.lastSeq =
      MoldSubscriber.advanceSeq r.sub.lastSeq firstSeq msgs.length := by rw [act_data r hfits]
  have hstart : (r.act (.data firstSeq msgs)).start = r.start.or (some firstSeq) := by
    rw [act_data r hfits]
  constructor
  case untold =>
    intro hnone
    rw [hstart] at hnone
    cases hs : r.start with
    | none => simp [hs] at hnone
    | some first => simp [hs] at hnone
  case known =>
    intro first hfirst
    rw [hstart] at hfirst
    rw [hlast]
    cases hs : r.start with
    | none =>
        rw [hs, Option.none_or, Option.some.injEq] at hfirst
        subst hfirst
        cases r.sub.lastSeq with
        | none => exact ⟨_, rfl, by simp; omega⟩
        | some last => exact ⟨_, rfl, by simp; omega⟩
    | some first' =>
        rw [hs, Option.some_or, Option.some.injEq] at hfirst
        obtain ⟨last, hl, hle⟩ := h.known first' hs
        exact ⟨_, rfl, by simp [hl]; omega⟩
  case bound =>
    intro last' hl seq htold
    rw [hlast] at hl
    rw [told_act_data hfits] at htold
    cases hcase : r.sub.lastSeq with
    | none =>
        have hnone : r.start = none := by
          cases hs : r.start with
          | none => rfl
          | some first =>
              obtain ⟨last, hl', -⟩ := h.known first hs
              rw [hcase] at hl'
              cases hl'
        simp only [hcase, MoldSubscriber.advanceSeq, Option.map_none, Option.getD_none,
          Option.some.injEq] at hl
        rcases htold with htold | htold | ⟨last, hl', -⟩
        · exact absurd htold (h.untold hnone seq)
        · omega
        · rw [hcase] at hl'
          cases hl'
    | some last =>
        simp only [hcase, MoldSubscriber.advanceSeq, Option.map_some, Option.getD_some,
          Option.some.injEq] at hl
        rcases htold with htold | htold | ⟨l, -, -, hlt⟩
        · have := h.bound last hcase seq htold
          omega
        · omega
        · omega

theorem Kept.heartbeat (h : r.Kept) {seq : Nat} (hfits : (Datagram.heartbeat seq).Fits) :
    (r.act (.heartbeat seq)).Kept := by
  have hlast : (r.act (.heartbeat seq)).sub.lastSeq =
      MoldSubscriber.syncSeq r.sub.lastSeq seq := by rw [act_heartbeat r hfits]
  have hstart : (r.act (.heartbeat seq)).start = r.start := by rw [act_heartbeat r hfits]
  constructor
  case untold =>
    intro hnone n
    rw [told_act_heartbeat hfits]
    exact h.untold (hstart ▸ hnone) n
  case known =>
    intro first hfirst
    obtain ⟨last, hl, hle⟩ := h.known first (hstart ▸ hfirst)
    rw [hlast, hl]
    exact ⟨_, rfl, le_trans hle (Nat.le_max_left _ _)⟩
  case bound =>
    intro last' hl n htold
    rw [hlast] at hl
    rw [told_act_heartbeat hfits] at htold
    cases hcase : r.sub.lastSeq with
    | none =>
        cases hs : r.start with
        | none => exact absurd htold (h.untold hs n)
        | some first =>
            obtain ⟨last, hl', -⟩ := h.known first hs
            rw [hcase] at hl'
            cases hl'
    | some last =>
        simp only [hcase, MoldSubscriber.syncSeq, Option.some.injEq] at hl
        have := h.bound last hcase n htold
        omega

/-- The datagrams of a feed. -/
def Feeds (_ : Reader Addr) (dg : Datagram) : Prop := dg.Fits

/-- The datagrams of a feed that do not run ahead. -/
def FeedsInStep (r : Reader Addr) (dg : Datagram) : Prop := dg.Fits ∧ r.NotAhead dg

instance decidableFeedsInStep (r : Reader Addr) (dg : Datagram) : Decidable (r.FeedsInStep dg) :=
  inferInstanceAs (Decidable (_ ∧ _))

theorem Kept.step (h : r.Kept) {dg : Datagram} (hfits : dg.Fits) : (r.act dg).Kept := by
  cases dg with
  | data firstSeq msgs => exact h.data hfits
  | heartbeat seq => exact h.heartbeat hfits

theorem kept_of_reachable (h : Runs.Reachable act Feeds (init session addr) r) : r.Kept :=
  h.invariant (kept_init session addr) fun _ _ _ ha hk => hk.step ha

/-- A heartbeat keeps that nothing is lost in silence, exactly if it does not run ahead. -/
theorem Kept.noSilentLoss_heartbeat (h : r.Kept) (hloss : r.NoSilentLoss) {seq : Nat}
    (hfits : (Datagram.heartbeat seq).Fits) :
    (r.act (.heartbeat seq)).NoSilentLoss ↔ r.NotAhead (.heartbeat seq) := by
  have hstep := act_heartbeat r hfits
  constructor
  · intro hnext hstart last hlast
    rw [Option.mem_def] at hlast
    obtain ⟨first, hfirst⟩ := Option.ne_none_iff_exists'.mp hstart
    obtain ⟨last', hlast', hle⟩ := h.known first hfirst
    rw [hlast, Option.some.injEq] at hlast'
    subst hlast'
    -- were it ahead, the next number would be passed over, and nobody has told of it
    by_contra hahead
    have htold : (r.act (.heartbeat seq)).Told (last + 1) := by
      refine hnext first (max last (seq - 1)) (by rw [hstep]; exact hfirst) ?_ (last + 1)
        (by omega) (by omega)
      rw [hstep]
      simp [hlast, MoldSubscriber.syncSeq]
    rw [told_act_heartbeat hfits] at htold
    have := h.bound last hlast _ htold
    omega
  · intro hnot first last hfirst hlast n hge hle
    rw [hstep] at hfirst hlast
    rw [told_act_heartbeat hfits]
    obtain ⟨last', hlast', hle'⟩ := h.known first hfirst
    have hahead := hnot (by rw [hfirst]; simp) last' hlast'
    simp only [hlast', MoldSubscriber.syncSeq, Option.some.injEq] at hlast
    exact hloss first last' hfirst hlast' n hge (by omega)

/-- The first packet keeps it exactly if it reaches the number of the heartbeats before it. -/
theorem Kept.noSilentLoss_data (h : r.Kept) (hloss : r.NoSilentLoss) {firstSeq : Nat}
    {msgs : List Payload} (hfits : (Datagram.data firstSeq msgs).Fits) :
    (r.act (.data firstSeq msgs)).NoSilentLoss ↔ r.NotAhead (.data firstSeq msgs) := by
  have hpos : 0 < msgs.length := List.length_pos_iff.mpr hfits.1
  have hstep := act_data r hfits
  constructor
  · intro hnext hstart last hlast
    rw [Option.mem_def] at hlast
    by_contra hahead
    have htold : (r.act (.data firstSeq msgs)).Told last := by
      refine hnext firstSeq (max last (firstSeq + msgs.length - 1)) ?_ ?_ last (by omega)
        (by omega)
      · rw [hstep, hstart]
        rfl
      · rw [hstep]
        simp [hlast, MoldSubscriber.advanceSeq]
    rw [told_act_data hfits] at htold
    rcases htold with htold | htold | ⟨l, hl, hlt, -⟩
    · exact h.untold hstart _ htold
    · omega
    · rw [hlast, Option.some.injEq] at hl
      omega
  · intro hnot first last hfirst hlast n hge hle
    rw [told_act_data hfits]
    rw [hstep] at hfirst hlast
    cases hs : r.start with
    | none =>
        rw [hs, Option.none_or, Option.some.injEq] at hfirst
        subst hfirst
        cases hl : r.sub.lastSeq with
        | none =>
            simp only [hl, MoldSubscriber.advanceSeq, Option.map_none, Option.getD_none,
              Option.some.injEq] at hlast
            exact Or.inr (Or.inl (by omega))
        | some l =>
            have hbelow := hnot hs l hl
            simp only [hl, MoldSubscriber.advanceSeq, Option.map_some, Option.getD_some,
              Option.some.injEq] at hlast
            exact Or.inr (Or.inl (by omega))
    | some first' =>
        rw [hs, Option.some_or, Option.some.injEq] at hfirst
        subst hfirst
        obtain ⟨l, hl, hfl⟩ := h.known first' hs
        simp only [hl, MoldSubscriber.advanceSeq, Option.map_some, Option.getD_some,
          Option.some.injEq] at hlast
        rcases Nat.lt_or_ge l n with hnew | hold
        · rcases Nat.lt_or_ge n firstSeq with hgap | hin
          · exact Or.inr (Or.inr ⟨l, hl, hnew, hgap⟩)
          · exact Or.inr (Or.inl (by omega))
        · exact Or.inl (hloss first' l hs hl n hge hold)

/-- A datagram keeps that nothing is lost in silence, exactly if it does not run ahead. -/
theorem Kept.noSilentLoss_iff (h : r.Kept) (hloss : r.NoSilentLoss) {dg : Datagram}
    (hfits : dg.Fits) : (r.act dg).NoSilentLoss ↔ r.NotAhead dg := by
  cases dg with
  | heartbeat seq => exact h.noSilentLoss_heartbeat hloss hfits
  | data firstSeq msgs => exact h.noSilentLoss_data hloss hfits

theorem noSilentLoss_of_reachable (h : Runs.Reachable act FeedsInStep (init session addr) r) :
    r.NoSilentLoss := by
  refine h.invariant (fun first _ hfirst => by cases hfirst) fun s dg hs ha hloss => ?_
  exact ((kept_of_reachable (hs.mono fun _ _ h => h.1)).noSilentLoss_iff hloss ha.1).mpr ha.2

/-- In every feed whose heartbeats do not run ahead nothing is lost in silence.  The next
datagram keeps it so exactly if it does not run ahead. -/
theorem no_silent_loss_iff {Addr : Type} {session : SessionId} {addr : Option Addr}
    {r : Reader Addr} (h : Runs.Reachable act FeedsInStep (init session addr) r) :
    r.NoSilentLoss ∧ ∀ dg, dg.Fits → ((r.act dg).NoSilentLoss ↔ r.NotAhead dg) :=
  ⟨noSilentLoss_of_reachable h, fun _ hfits =>
    (kept_of_reachable (h.mono fun _ _ h => h.1)).noSilentLoss_iff (noSilentLoss_of_reachable h)
      hfits⟩

/-- A feed of three messages.  The second one is lost, and reported with the third. -/
def oneLost : List Datagram :=
  [.heartbeat 1, .data 1 [[97]], .heartbeat 2, .data 3 [[99]], .heartbeat 4]

theorem no_silent_loss_iff_one_lost :
    (oneLost.foldl act (init (packSession []) (none : Option Nat))).NoSilentLoss ∧
      ¬ ((oneLost.foldl act (init (packSession []) (none : Option Nat))).act
        (.heartbeat 6)).NoSilentLoss := by
  have hallowed : Runs.AllAllowed act FeedsInStep (init (packSession []) (none : Option Nat))
      oneLost := by decide +kernel
  have h := no_silent_loss_iff (Runs.Reachable.start.foldl hallowed)
  refine ⟨h.1, fun hloss => ?_⟩
  have hahead := (h.2 (.heartbeat 6) (by decide)).mp hloss
  exact absurd hahead (by decide +kernel)

/-- Two messages and a heartbeat, without the second message. -/
def secondLost : List Datagram := [.data 1 [[97]], .heartbeat 3]

theorem secondLost_untold (session : SessionId) (addr : Option Addr) :
    ¬ (secondLost.foldl act (init session addr)).Told 2 := by
  rw [secondLost, List.foldl_cons, List.foldl_cons, List.foldl_nil,
    told_act_heartbeat (by decide), told_act_data (by decide)]
  simp [init, Told]

/-- The publisher sends two messages and a heartbeat, and the second message is lost.  The
subscriber takes two for its last number, and nothing has told it of the message. -/
theorem heartbeat_hides_loss :
    let p := MoldPublisher.new [83] 4
    let p₁ := p.publish [97]
    let p₂ := p₁.2.publish [98]
    let r := secondLost.foldl act (init p.sessionId (none : Option Nat))
    secondLost.map (·.bytes p.sessionId) = [p₁.1, p₂.2.sendHeartbeat] ∧
      r.start = some 1 ∧ r.sub.lastSeq = some 2 ∧ ¬ r.Told 2 ∧ ¬ r.NoSilentLoss := by
  intro p p₁ p₂ r
  have hstart : r.start = some 1 := by decide +kernel
  have hlast : r.sub.lastSeq = some 2 := by decide +kernel
  have htold : ¬ r.Told 2 := secondLost_untold p.sessionId none
  refine ⟨by decide +kernel, hstart, hlast, htold, fun hloss => ?_⟩
  exact htold (hloss 1 2 hstart hlast 2 (by decide) (by decide))

end Reader

end MatchMoldUdp64
