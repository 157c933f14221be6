import MatchRust.Lib.Numbered
import MatchRust.Udp.World

/-!
# What the calls of the sessions do

Each lemma says what one call returns and what it leaves of the session, as far as
orders and their acknowledgements go.  A datagram that carries no order
(`CarriesNoOrder`) does not touch the counter of the server, and one that carries no
acknowledgement does not touch the pending orders of the client.
-/

namespace MatchUdpOrder

/-- The frame has an order, a cancel or a replace. -/
def Header.IsOrder (h : Header) : Prop :=
  h.mtype = t.order ∨ h.mtype = t.cancel ∨ h.mtype = t.replace

/-- The datagram is no order, cancel or replace. -/
def CarriesNoOrder (dg : List UInt8) : Prop := ∀ h p, decode dg = some (h, p) → ¬ h.IsOrder

/-- The datagram is no acknowledgement of an order. -/
def CarriesNoAck (dg : List UInt8) : Prop :=
  ∀ h p, decode dg = some (h, p) → h.mtype ≠ t.orderAck

/-- What holds of the type that is encoded holds of the type that is read. -/
theorem mtype_of_decode_encode {P : UInt8 → Prop} {mtype : UInt8} (seq : Nat) (payload : Payload)
    (h : P mtype) :
    ∀ h' p, decode (encode sessionMagic seq mtype payload) = some (h', p) → P h'.mtype := by
  intro h' p hdec
  rw [decode_encode] at hdec
  cases hdec
  exact h

theorem carriesNoOrder_encode {mtype : UInt8} (seq : Nat) (payload : Payload)
    (h : ¬ (mtype = t.order ∨ mtype = t.cancel ∨ mtype = t.replace)) :
    CarriesNoOrder (encode sessionMagic seq mtype payload) :=
  mtype_of_decode_encode (P := fun m => ¬ (m = t.order ∨ m = t.cancel ∨ m = t.replace)) seq
    payload h

theorem carriesNoAck_encode {mtype : UInt8} (seq : Nat) (payload : Payload)
    (h : mtype ≠ t.orderAck) : CarriesNoAck (encode sessionMagic seq mtype payload) :=
  mtype_of_decode_encode (P := (· ≠ t.orderAck)) seq payload h

/-- The order of an event. -/
def ServerEvent.orderOf : ServerEvent → Option (Nat × Payload)
  | .order seq payload => some (seq, payload)
  | _ => none

theorem mem_filterMap_orderOf {seq : Nat} {payload : Payload} {events : List ServerEvent} :
    (seq, payload) ∈ events.filterMap ServerEvent.orderOf ↔ .order seq payload ∈ events := by
  rw [List.mem_filterMap]
  constructor
  · rintro ⟨event, hmem, h⟩
    cases event with
    | order => cases h; exact hmem
    | _ => cases h
  · exact fun h => ⟨_, h, rfl⟩

namespace ServerSession

/-! ## The server -/

/-- The answer to a client that connects again. -/
def helloAck (s : ServerSession) (flags : UInt8) : List UInt8 :=
  encode sessionMagic 0 t.helloAck
    (Bytes.be 4 s.reportHighWater ++ Bytes.be 4 s.storeStart ++ [flags] ++ List.replicate 4 0)

/-- Everything the server can do with a datagram: the events, the answers, and the session
after it. -/
inductive Answers (s : ServerSession) (dg : List UInt8) :
    List ServerEvent × List (List UInt8) × ServerSession → Prop where
  /-- The next order. -/
  | next {h p} : decode dg = some (h, p) → h.IsOrder → h.seq = s.expectedClientSeq →
      Answers s dg ([orderEvent h p], [orderAck h.seq ackOk],
        { s with expectedClientSeq := nextSeq s.expectedClientSeq })
  /-- An order below the next one. -/
  | below {h p} : decode dg = some (h, p) → h.IsOrder → h.seq < s.expectedClientSeq →
      Answers s dg ([], [orderAck h.seq ackOk], s)
  /-- An order above the next one. -/
  | above {h p} (naks last) : decode dg = some (h, p) → h.IsOrder → s.expectedClientSeq < h.seq →
      (∀ out ∈ naks, ∃ p, out = encode sessionMagic 0 t.nakRequest p) →
      Answers s dg ([], naks ++ [orderAck h.seq ackRetry], { s with lastNakStart := last })
  | reports {h p start count} : decode dg = some (h, p) → h.mtype = t.nakRequest →
      Answers s dg ([.nakRequest start count], [s.nakResponse start count], s)
  | hello {h p clientId last flags} : decode dg = some (h, p) → h.mtype = t.hello →
      Answers s dg ([.hello clientId last], [s.helloAck flags], s)
  | heartbeat {h p} : decode dg = some (h, p) → h.mtype = t.heartbeat →
      Answers s dg ([.heartbeat], [encode sessionMagic 0 t.heartbeat []], s)
  | ignored : CarriesNoOrder dg → Answers s dg ([], [], s)

theorem onOrder_answers (s : ServerSession) {dg : List UInt8} {h : Header} {payload : Payload}
    (hdec : decode dg = some (h, payload)) (htype : h.IsOrder) :
    s.Answers dg (s.onOrder h payload) := by
  unfold onOrder
  split
  next heq => exact .next hdec htype heq
  next hne =>
    split
    next hlt => exact .below hdec htype hlt
    next hge =>
      have hlt : s.expectedClientSeq < h.seq := by omega
      split
      next => exact .above [_] _ hdec htype hlt (by simp)
      next => exact .above [] _ hdec htype hlt (by simp)

theorem onDatagram_answers (s : ServerSession) (dg : List UInt8) :
    s.Answers dg (s.onDatagram dg) := by
  unfold onDatagram
  split
  next hdec => exact .ignored fun h p hsome => by rw [hdec] at hsome; cases hsome
  next hdr payload hdec =>
    split
    next htype => exact s.onOrder_answers hdec htype
    next htype =>
      have hno : CarriesNoOrder dg := by
        intro h p hsome
        rw [hdec] at hsome
        cases hsome
        exact htype
      split
      next hnak =>
        unfold onNakRequest
        split
        next => exact .reports hdec hnak
        next => exact .ignored hno
      next =>
        split
        next hhello =>
          unfold onHello
          split
          next => exact .hello hdec hhello
          next => exact .ignored hno
        next =>
          split
          next hbeat => exact .heartbeat hdec hbeat
          next => exact .ignored hno

/-- The three things that can happen to an order. -/
theorem onDatagram_order (s : ServerSession) {seq : Nat} (hseq : seq < 2 ^ 32)
    (payload : Payload) :
    (seq = s.expectedClientSeq ∧
      s.onDatagram (ClientSession.orderFrame seq payload) =
        ([.order seq payload], [orderAck seq ackOk],
          { s with expectedClientSeq := nextSeq s.expectedClientSeq })) ∨
    (seq < s.expectedClientSeq ∧
      s.onDatagram (ClientSession.orderFrame seq payload) = ([], [orderAck seq ackOk], s)) ∨
    (s.expectedClientSeq < seq ∧ ∃ naks last,
      (∀ dg ∈ naks, CarriesNoAck dg) ∧
      s.onDatagram (ClientSession.orderFrame seq payload) =
        ([], naks ++ [orderAck seq ackRetry], { s with lastNakStart := last })) := by
  have hdec : decode (ClientSession.orderFrame seq payload) =
      some (⟨sessionMagic, seq, t.order⟩, payload) := by
    rw [ClientSession.orderFrame, decode_encode, Nat.mod_eq_of_lt hseq]
  have hans := s.onDatagram_answers (ClientSession.orderFrame seq payload)
  generalize s.onDatagram (ClientSession.orderFrame seq payload) = r at hans ⊢
  cases hans with
  | next hdec' htype heq =>
      rw [hdec] at hdec'
      cases hdec'
      exact Or.inl ⟨heq, rfl⟩
  | below hdec' htype hlt =>
      rw [hdec] at hdec'
      cases hdec'
      exact Or.inr (Or.inl ⟨hlt, rfl⟩)
  | above naks last hdec' htype hlt hnaks =>
      rw [hdec] at hdec'
      cases hdec'
      refine Or.inr (Or.inr ⟨hlt, naks, last, fun dg hdg => ?_, rfl⟩)
      obtain ⟨p, rfl⟩ := hnaks dg hdg
      exact carriesNoAck_encode _ _ (by decide)
  | reports hdec' htype | hello hdec' htype | heartbeat hdec' htype =>
      rw [hdec] at hdec'
      cases hdec'
      cases htype
  | ignored hno => exact absurd (Or.inl rfl) (hno _ _ hdec)

/-- Without an order the counter stays, and nothing is acknowledged. -/
theorem onDatagram_noOrder (s : ServerSession) {dg : List UInt8} (h : CarriesNoOrder dg) :
    (s.onDatagram dg).2.2 = s ∧ (s.onDatagram dg).1.filterMap ServerEvent.orderOf = [] ∧
      ∀ out ∈ (s.onDatagram dg).2.1, CarriesNoAck out := by
  have hans := s.onDatagram_answers dg
  generalize s.onDatagram dg = r at hans ⊢
  cases hans with
  | next hdec htype | below hdec htype | above _ _ hdec htype => exact absurd htype (h _ _ hdec)
  | reports | hello | heartbeat =>
      simp only [List.mem_singleton, forall_eq]
      exact ⟨trivial, rfl, carriesNoAck_encode _ _ (by decide)⟩
  | ignored => simp

/-- Registering a report does not touch the counter of orders. -/
theorem ackAndReport_expected (s : ServerSession) (clientSeq : Nat) (payload : Payload) :
    (s.ackAndReport clientSeq payload).2.expectedClientSeq = s.expectedClientSeq := by
  simp only [ackAndReport]
  split
  next => rfl
  next => rfl

end ServerSession

namespace ClientSession

/-! ## The client -/

theorem resend_spec (now : Nat) (due : List Nat) (c : ClientSession) :
    (resend now due c).2.pending = c.pending ∧
      (resend now due c).2.nextOrderSeq = c.nextOrderSeq ∧
      (resend now due c).2.expectedReportSeq = c.expectedReportSeq ∧
      ∀ dg ∈ (resend now due c).1, ∃ seq p, c.pending[seq]? = some p ∧ dg = orderFrame seq p := by
  induction due generalizing c with
  | nil => simp [resend]
  | cons seq due ih =>
      rw [resend]
      split
      next => exact ih c
      next p hp =>
        obtain ⟨hpend, hnext, hexp, hout⟩ := ih { c with pendingTs := c.pendingTs.insert seq now }
        refine ⟨hpend, hnext, hexp, ?_⟩
        intro dg hdg
        rcases List.mem_cons.mp hdg with rfl | hdg
        · exact ⟨seq, p, hp, rfl⟩
        · exact hout dg hdg

/-- The reports of a response change the counter of reports only. -/
theorem nakLoop_spec (c : ClientSession) (count : Nat) (rest : List UInt8) :
    (∃ e, (c.nakLoop count rest).2 = { c with expectedReportSeq := e }) ∧
      ∀ event ∈ (c.nakLoop count rest).1, ∃ seq p, event = .report seq p := by
  induction count generalizing c rest with
  | zero => exact ⟨⟨_, rfl⟩, by simp [nakLoop]⟩
  | succ count ih =>
      rw [nakLoop]
      split
      next => exact ⟨⟨_, rfl⟩, by simp⟩
      next =>
        dsimp only
        split
        next => exact ⟨⟨_, rfl⟩, by simp⟩
        next =>
          generalize u32Be (rest.take 4) = seq
          generalize (rest.drop 6).take _ = body
          have hframe : (∃ e, (c.onNakFrame seq body).2 = { c with expectedReportSeq := e }) ∧
              ∀ event ∈ (c.onNakFrame seq body).1, ∃ seq p, event = .report seq p := by
            unfold onNakFrame
            split
            next => exact ⟨⟨_, rfl⟩, by simp⟩
            next =>
              split
              next => exact ⟨⟨_, rfl⟩, by simp⟩
              next => exact ⟨⟨_, rfl⟩, by simp⟩
          obtain ⟨⟨e, he⟩, hev⟩ := hframe
          obtain ⟨⟨e', he'⟩, hev'⟩ := ih (c.onNakFrame seq body).2 ((rest.drop 6).drop _)
          refine ⟨⟨e', by rw [he', he]⟩, ?_⟩
          intro event hmem
          rcases List.mem_append.mp hmem with hmem | hmem
          · exact hev event hmem
          · exact hev' event hmem

/-- An acknowledgement ends the wait for its order. -/
theorem onDatagram_orderAck (c : ClientSession) {seq : Nat} (hseq : seq < 2 ^ 32) (ack : UInt8) :
    c.onDatagram (ServerSession.orderAck seq ack) =
      ([.orderAck seq ack], [],
        { c with
          pending := c.pending.erase seq
          pendingTs := c.pendingTs.erase seq }) := by
  have hnum : u32Be ((Bytes.be 4 seq ++ [ack]).take 4) = seq := u32Be_front hseq _
  have hack : (Bytes.be 4 seq ++ [ack]).getD 4 0 = ack := rfl
  have htypes : t.orderAck ≠ t.report ∧ t.orderAck ≠ t.nakResponse := by decide
  simp only [onDatagram, ServerSession.orderAck, decode_encode, htypes.1, htypes.2, if_false,
    if_true]
  rw [onOrderAck, if_pos (by simp), hnum, hack]

/-- Without an acknowledgement the pending orders stay, and no order is sent. -/
theorem onDatagram_noAck (c : ClientSession) {dg : List UInt8} (h : CarriesNoAck dg) :
    (∃ e, (c.onDatagram dg).2.2 = { c with expectedReportSeq := e }) ∧
      (∀ seq ack, .orderAck seq ack ∉ (c.onDatagram dg).1) ∧
      ∀ out ∈ (c.onDatagram dg).2.1, CarriesNoOrder out := by
  unfold onDatagram
  split
  next => exact ⟨⟨_, rfl⟩, by simp⟩
  next hdr payload hdec =>
    split
    next =>
      unfold onReport
      split
      next => exact ⟨⟨_, rfl⟩, by simp⟩
      next =>
        split
        next =>
          refine ⟨⟨_, rfl⟩, by simp, ?_⟩
          simp only [List.mem_singleton, forall_eq]
          exact carriesNoOrder_encode _ _ (by decide)
        next => exact ⟨⟨_, rfl⟩, by simp⟩
    next =>
      split
      next =>
        unfold onNakResponse
        split
        next => exact ⟨⟨_, rfl⟩, by simp⟩
        next =>
          obtain ⟨hc, hev⟩ := nakLoop_spec c (u32Be ((payload.drop 4).take 4)) (payload.drop 8)
          refine ⟨hc, fun seq ack hmem => ?_, by simp⟩
          obtain ⟨_, _, heq⟩ := hev _ hmem
          cases heq
      next =>
        rw [if_neg (h hdr payload hdec)]
        split
        next =>
          unfold onHelloAck
          split
          next => exact ⟨⟨_, rfl⟩, by simp⟩
          next => exact ⟨⟨_, rfl⟩, by simp⟩
        next =>
          split
          next => exact ⟨⟨_, rfl⟩, by simp⟩
          next => exact ⟨⟨_, rfl⟩, by simp⟩

/-- No datagram makes the client wait for more orders or send one. -/
theorem onDatagram_orders (c : ClientSession) (dg : List UInt8) :
    (c.onDatagram dg).2.2.nextOrderSeq = c.nextOrderSeq ∧
      (∀ (seq : Nat) (p : Payload), (c.onDatagram dg).2.2.pending[seq]? = some p →
        c.pending[seq]? = some p) ∧
      ∀ out ∈ (c.onDatagram dg).2.1, CarriesNoOrder out := by
  by_cases h : CarriesNoAck dg
  · obtain ⟨⟨e, he⟩, -, hout⟩ := c.onDatagram_noAck h
    rw [he]
    exact ⟨rfl, fun _ _ h => h, hout⟩
  · unfold CarriesNoAck at h
    push Not at h
    obtain ⟨hdr, payload, hdec, htype⟩ := h
    have htypes : t.orderAck ≠ t.report ∧ t.orderAck ≠ t.nakResponse := by decide
    simp only [onDatagram, hdec, htype, htypes.1, htypes.2, if_false, if_true]
    unfold onOrderAck
    split
    next =>
      refine ⟨rfl, fun seq p hp => ?_, by simp⟩
      rw [Std.TreeMap.getElem?_erase] at hp
      split at hp
      next => cases hp
      next => exact hp
    next => exact ⟨rfl, fun _ _ h => h, by simp⟩

end ClientSession

end MatchUdpOrder
