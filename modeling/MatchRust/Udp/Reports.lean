import MatchRust.Udp.Calls

/-!
# Reports reach the client in order

The client gets the reports with growing numbers, each as it was registered, and it
passes over a number only if the server had dropped that report
(`reports_delivered`).

A response with stored reports starts at the number the client asked for, or at the
first report that is still stored, whichever is later.  When the response arrives, the
client may have gone on.  It never goes back, so the number it asked for is not above
the one it expects now.  If the response starts above that, it starts at the first
report that was stored when the response was built, and everything before was dropped.

The number of reports stays below `2 ^ 32 - 1`, so no counter of reports wraps.
-/

namespace MatchUdpOrder

open Numbered

/-! ## Datagrams without reports -/

/-- The datagram asks for no reports. -/
def CarriesNoNak (dg : List UInt8) : Prop :=
  ∀ h p, decode dg = some (h, p) → h.mtype ≠ t.nakRequest

/-- The datagram has no report, neither by itself nor in a response. -/
def CarriesNoReport (dg : List UInt8) : Prop :=
  ∀ h p, decode dg = some (h, p) → h.mtype ≠ t.report ∧ h.mtype ≠ t.nakResponse

theorem carriesNoNak_encode {mtype : UInt8} (seq : Nat) (payload : Payload)
    (h : mtype ≠ t.nakRequest) : CarriesNoNak (encode sessionMagic seq mtype payload) :=
  mtype_of_decode_encode (P := (· ≠ t.nakRequest)) seq payload h

theorem carriesNoReport_encode {mtype : UInt8} (seq : Nat) (payload : Payload)
    (h : mtype ≠ t.report ∧ mtype ≠ t.nakResponse) :
    CarriesNoReport (encode sessionMagic seq mtype payload) :=
  mtype_of_decode_encode (P := fun m => m ≠ t.report ∧ m ≠ t.nakResponse) seq payload h

/-- The report of an event. -/
def ClientEvent.reportOf : ClientEvent → Option (Nat × Payload)
  | .report seq payload => some (seq, payload)
  | _ => none

/-- The event of a report. -/
def reportEvent (r : Nat × Payload) : ClientEvent := .report r.1 r.2

theorem filterMap_reportEvent (rs : List (Nat × Payload)) :
    (rs.map reportEvent).filterMap ClientEvent.reportOf = rs := by
  rw [List.filterMap_map]
  exact List.filterMap_some

theorem mem_filterMap_reportOf {seq : Nat} {payload : Payload} {events : List ClientEvent} :
    (seq, payload) ∈ events.filterMap ClientEvent.reportOf ↔ .report seq payload ∈ events := by
  rw [List.mem_filterMap]
  constructor
  · rintro ⟨event, hmem, h⟩
    cases event with
    | report => cases h; exact hmem
    | _ => cases h
  · exact fun h => ⟨_, h, rfl⟩

namespace ServerSession

/-! ## The store -/

/-- The server has registered these reports and keeps the last ones of them. -/
structure StoreOf (s : ServerSession) (reports : List Payload) : Prop where
  next : s.nextReportSeq = reports.length + 1
  pos : 0 < s.storeStart
  le : s.storeStart ≤ reports.length + 1
  store : s.store = numbered s.storeStart (reports.drop (s.storeStart - 1))

/-- The report was registered and is not stored any more. -/
def Evicted (s : ServerSession) (seq : Nat) : Prop :=
  seq ≤ s.reportHighWater ∧ ∀ p, (seq, p) ∉ s.store

/-- The stored reports that a request asks for. -/
def asked (s : ServerSession) (start count : Nat) : List (Nat × Payload) :=
  s.store.filter fun r => max start s.storeStart ≤ r.1 ∧ r.1 < max start s.storeStart + count

theorem storeOf_new (storeCap : Nat) : (new storeCap).StoreOf [] :=
  ⟨rfl, Nat.one_pos, Nat.le_refl 1, rfl⟩

namespace StoreOf

variable {s : ServerSession} {reports : List Payload}

/-- A number before the store is evicted. -/
theorem evicted (h : s.StoreOf reports) {seq : Nat} (hlt : seq < s.storeStart) :
    s.Evicted seq := by
  have hle := h.le
  refine ⟨?_, fun p hmem => ?_⟩
  · rw [reportHighWater, h.next]
    omega
  · rw [h.store] at hmem
    exact absurd (lt_of_mem_numbered hmem).1 (Nat.not_le.mpr hlt)

/-- Registering a report keeps the store. -/
theorem ackAndReport (h : s.StoreOf reports) (hcount : reports.length + 1 < 2 ^ 32 - 1)
    (clientSeq : Nat) (payload : Payload) :
    (s.ackAndReport clientSeq payload).2.StoreOf (reports ++ [payload]) := by
  have hpos := h.pos
  have hle := h.le
  have hnext : nextSeq s.nextReportSeq = (reports ++ [payload]).length + 1 := by
    rw [h.next, nextSeq, Nat.mod_eq_of_lt (by omega), List.length_append, List.length_singleton]
  have hstore : s.store ++ [(s.nextReportSeq, payload)] =
      numbered s.storeStart ((reports ++ [payload]).drop (s.storeStart - 1)) := by
    rw [List.drop_append_of_le_length (by omega), numbered_append, h.store, h.next]
    simp only [List.length_drop, numbered_cons, numbered_nil]
    congr 3
    omega
  obtain ⟨x, hx⟩ : ∃ x, (reports ++ [payload]).drop (s.storeStart - 1) =
      x :: (reports ++ [payload]).drop s.storeStart := by
    have hlt : s.storeStart - 1 < (reports ++ [payload]).length := by
      rw [List.length_append, List.length_singleton]
      omega
    have hcons := List.drop_eq_getElem_cons hlt
    rw [Nat.sub_add_cancel hpos] at hcons
    exact ⟨_, hcons⟩
  simp only [ServerSession.ackAndReport, hstore, hx]
  split
  next =>
    have hstart : nextSeq s.storeStart = s.storeStart + 1 := by
      rw [nextSeq, Nat.mod_eq_of_lt (by omega)]
    refine ⟨hnext, ?_, ?_, ?_⟩
    · simp [hstart]
    · simp [hstart]
      omega
    · simp [hstart]
  next =>
    refine ⟨hnext, hpos, ?_, by rw [hx]⟩
    show s.storeStart ≤ _
    rw [List.length_append, List.length_singleton]
    omega

/-- The stored reports that a request asks for are consecutive. -/
theorem asked_eq (h : s.StoreOf reports) (start count : Nat) :
    s.asked start count = numbered (max start s.storeStart)
      ((reports.drop (max start s.storeStart - 1)).take count) := by
  have hpos := h.pos
  have hdrop : (reports.drop (s.storeStart - 1)).drop (max start s.storeStart - s.storeStart) =
      reports.drop (max start s.storeStart - 1) := by
    rw [List.drop_drop]
    congr 1
    omega
  rw [asked, h.store, filter_numbered (Nat.le_max_right _ _), hdrop, Nat.add_sub_cancel_left]

/-- A response has the reports that were asked for, and says how many. -/
theorem nakResponse_asked (h : s.StoreOf reports) (hcount : reports.length < 2 ^ 32 - 1)
    (start count : Nat) :
    s.nakResponse start count = encode sessionMagic 0 t.nakResponse
      (Bytes.be 4 (max start s.storeStart) ++ Bytes.be 4 (s.asked start count).length ++
        (s.asked start count).flatMap nakFrame) := by
  have hpos : 1 ≤ max start s.storeStart := h.pos.trans_le (Nat.le_max_right ..)
  have hwater : (s.reportHighWater + 1) % 2 ^ 32 = reports.length + 1 := by
    rw [reportHighWater, h.next, Nat.add_sub_cancel, Nat.mod_eq_of_lt (by omega)]
  have hto : min (min (max start s.storeStart + count) (2 ^ 32 - 1)) (reports.length + 1) =
      min (max start s.storeStart + count) (reports.length + 1) := by
    rw [Nat.min_assoc, Nat.min_eq_right (by omega : reports.length + 1 ≤ 2 ^ 32 - 1)]
  have hlen : (s.asked start count).length =
      min (max start s.storeStart + count) (reports.length + 1) - max start s.storeStart := by
    rw [h.asked_eq, length_numbered, List.length_take, List.length_drop]
    generalize max start s.storeStart = first at hpos
    omega
  -- no stored number reaches the other bound
  have hsame : s.store.filter (fun r => max start s.storeStart ≤ r.1 ∧
      r.1 < min (max start s.storeStart + count) (reports.length + 1)) = s.asked start count := by
    refine List.filter_congr fun r hr => ?_
    rw [h.store] at hr
    have hlt := (lt_of_mem_numbered hr).2
    rw [List.length_drop] at hlt
    have hle := h.le
    have hlast : r.1 < reports.length + 1 := by
      have := h.pos
      omega
    rw [decide_eq_decide, Nat.lt_min, and_iff_left hlast]
  simp only [nakResponse, hwater, hto, hsame, hlen]

/-- A response has consecutive reports.  It starts at the number that was asked for, or at
the start of the store. -/
theorem nakResponse_eq (h : s.StoreOf reports) (hcount : reports.length < 2 ^ 32 - 1)
    (start count : Nat) :
    ∃ xs, s.nakResponse start count = encode sessionMagic 0 t.nakResponse
        (Bytes.be 4 (max start s.storeStart) ++ Bytes.be 4 xs.length ++
          (numbered (max start s.storeStart) xs).flatMap nakFrame) ∧
      (xs = [] ∨ max start s.storeStart + xs.length ≤ reports.length + 1) ∧
      ∀ r ∈ numbered (max start s.storeStart) xs, r ∈ numbered 1 reports := by
  have hpos := h.pos
  have hresponse := h.nakResponse_asked hcount start count
  rw [h.asked_eq, length_numbered] at hresponse
  refine ⟨_, hresponse, ?_, ?_⟩
  · rw [← List.length_eq_zero_iff, List.length_take, List.length_drop]
    omega
  · rintro ⟨seq, p⟩ hmem
    obtain ⟨hseq, hget⟩ := mem_numbered.mp hmem
    have hlt := (List.getElem?_eq_some_iff.mp hget).1
    rw [List.length_take] at hlt
    rw [List.getElem?_take_of_lt (by omega), List.getElem?_drop] at hget
    refine mem_numbered.mpr ⟨by omega, ?_⟩
    rw [← hget]
    congr 1
    omega

end StoreOf

/-- A datagram does not touch the reports of the server. -/
theorem onDatagram_reports (s : ServerSession) (dg : List UInt8) :
    ∃ expected last, (s.onDatagram dg).2.2 =
      { s with expectedClientSeq := expected, lastNakStart := last } := by
  have hans := s.onDatagram_answers dg
  generalize s.onDatagram dg = r at hans ⊢
  cases hans with
  | next | below | above | reports | hello | heartbeat | ignored => exact ⟨_, _, rfl⟩

/-- A request for reports is answered with the stored ones. -/
theorem onDatagram_nak (s : ServerSession) {start count : Nat} (hstart : start < 2 ^ 32)
    (hcount : count < 2 ^ 32) (seq : Nat) (extra : List UInt8) :
    s.onDatagram (encode sessionMagic seq t.nakRequest
        (Bytes.be 4 start ++ (Bytes.be 4 count ++ extra))) =
      ([.nakRequest start count], [s.nakResponse start count], s) := by
  have htypes : ¬ (t.nakRequest = t.order ∨ t.nakRequest = t.cancel ∨
      t.nakRequest = t.replace) := by decide
  simp only [onDatagram, decode_encode, htypes, if_false, if_true]
  rw [onNakRequest, if_pos (by simp [← Nat.add_assoc]), u32Be_front hstart,
    List.drop_left' (Bytes.length_be 4 _), u32Be_front hcount]

/-- The answer to a request for reports. -/
theorem onDatagram_nakRequest (s : ServerSession) {start : Nat} (hstart : start < 2 ^ 32)
    (count : Nat) (c : ClientSession) :
    (s.onDatagram (c.nakRequest start count)).2.1 = [s.nakResponse start (count % 2 ^ 32)] := by
  have hbytes : Bytes.be 4 count = Bytes.be 4 (count % 2 ^ 32) ++ [] := by
    rw [List.append_nil]
    exact (Bytes.be_mod 4 count).symm
  rw [ClientSession.nakRequest, hbytes, s.onDatagram_nak hstart (Nat.mod_lt _ (by decide))]

/-- Nothing but a request for reports is answered with reports. -/
theorem onDatagram_noNak (s : ServerSession) {dg : List UInt8} (h : CarriesNoNak dg) :
    ∀ out ∈ (s.onDatagram dg).2.1, CarriesNoReport out := by
  have hans := s.onDatagram_answers dg
  generalize s.onDatagram dg = r at hans ⊢
  cases hans with
  | next | below | hello | heartbeat =>
      simp only [List.mem_singleton, forall_eq]
      exact carriesNoReport_encode _ _ (by decide)
  | above _ _ _ _ _ hnaks =>
      intro out hout
      rcases List.mem_append.mp hout with hout | hout
      · obtain ⟨p, rfl⟩ := hnaks out hout
        exact carriesNoReport_encode _ _ (by decide)
      · rw [List.mem_singleton.mp hout]
        exact carriesNoReport_encode _ _ (by decide)
  | reports hdec htype => exact absurd htype (h _ _ hdec)
  | ignored => simp

end ServerSession

namespace ClientSession

/-! ## The client -/

/-- Take the reports of a response one after the other. -/
def takeFrames (c : ClientSession) : List (Nat × Payload) → List ClientEvent × ClientSession
  | [] => ([], c)
  | r :: rs =>
      let x := c.onNakFrame r.1 r.2
      let more := takeFrames x.2 rs
      (x.1 ++ more.1, more.2)

theorem nakLoop_frames (c : ClientSession) {rs : List (Nat × Payload)}
    (h : ∀ r ∈ rs, r.1 < 2 ^ 32 ∧ r.2.length < 65536) :
    c.nakLoop rs.length (rs.flatMap ServerSession.nakFrame) = c.takeFrames rs := by
  induction rs generalizing c with
  | nil => rfl
  | cons r rs ih =>
      obtain ⟨hseq, hlen⟩ := h r List.mem_cons_self
      have hframe : (r :: rs).flatMap ServerSession.nakFrame =
          Bytes.be 4 r.1 ++ (Bytes.be 2 r.2.length ++
            (r.2 ++ rs.flatMap ServerSession.nakFrame)) := by
        simp [ServerSession.nakFrame, List.append_assoc]
      generalize hbytes : (r :: rs).flatMap ServerSession.nakFrame = bytes at hframe
      have hnum : u32Be (bytes.take 4) = r.1 := by rw [hframe, u32Be_front hseq]
      have hsize : Bytes.beValue ((bytes.drop 4).take 2) = r.2.length := by
        rw [hframe, List.drop_left' (Bytes.length_be 4 _), List.take_left' (Bytes.length_be 2 _),
          Bytes.beValue_be_of_lt hlen]
      have hrest : bytes.drop 6 = r.2 ++ rs.flatMap ServerSession.nakFrame := by
        rw [hframe, ← List.append_assoc]
        exact List.drop_left' (by simp)
      have hlong : ¬ bytes.length < 6 := by
        rw [hframe]
        simp only [List.length_append, Bytes.length_be]
        omega
      rw [List.length_cons, nakLoop, if_neg hlong]
      simp only [hnum, hsize, hrest, List.take_left, List.drop_left]
      rw [if_neg (by simp), ih _ fun q hq => h q (List.mem_cons_of_mem _ hq)]
      rfl

/-- Of consecutive reports the client takes those from the expected number on. -/
theorem takeFrames_numbered (c : ClientSession) (n : Nat) (xs : List Payload)
    (hn : n + xs.length < 2 ^ 32) :
    c.takeFrames (numbered n xs) =
      ((numbered (max n c.expectedReportSeq) (xs.drop (c.expectedReportSeq - n))).map reportEvent,
        { c with
          expectedReportSeq :=
            if xs = [] then c.expectedReportSeq
            else max c.expectedReportSeq (n + xs.length) }) := by
  induction xs generalizing n c with
  | nil => simp [takeFrames]
  | cons x xs ih =>
      rw [List.length_cons] at hn
      have hnext : nextSeq n = n + 1 := by rw [nextSeq, Nat.mod_eq_of_lt (by omega)]
      rw [numbered_cons, takeFrames]
      rcases Nat.lt_trichotomy n c.expectedReportSeq with h | h | h
      · have hsub : c.expectedReportSeq - n = c.expectedReportSeq - (n + 1) + 1 := by omega
        have hmax : max (n + 1) c.expectedReportSeq = max n c.expectedReportSeq := by omega
        simp only [onNakFrame, h.ne, h.not_gt, if_false, List.nil_append]
        rw [ih c (n + 1) (by omega), hmax, hsub, List.drop_succ_cons, if_neg (List.cons_ne_nil _ _)]
        split
        next hnil =>
          subst hnil
          simp only [List.length_cons, List.length_nil]
          congr 2
          omega
        next =>
          simp only [List.length_cons]
          congr 2
          omega
      · rw [onNakFrame, if_pos h]
        simp only [← h, hnext]
        rw [ih _ (n + 1) (by omega)]
        simp only [Nat.max_self, Nat.sub_self, List.drop_zero, numbered_cons, List.map_cons,
          reportEvent, List.singleton_append, List.cons_ne_nil, if_false, List.length_cons]
        congr 2
        split
        next hnil => simp [hnil]
        next => omega
      · simp only [onNakFrame, h.ne', h, if_true, if_false, hnext]
        rw [ih _ (n + 1) (by omega)]
        have hmax : max n c.expectedReportSeq = n := by omega
        have hzero : c.expectedReportSeq - n = 0 := by omega
        simp only [Nat.max_self, Nat.sub_self, List.drop_zero, hmax, hzero, numbered_cons,
          List.map_cons, reportEvent, List.singleton_append, List.cons_ne_nil, if_false,
          List.length_cons]
        congr 2
        split
        next hnil => simp [hnil]; omega
        next => omega

theorem onDatagram_report (c : ClientSession) {seq : Nat} (hseq : seq < 2 ^ 32)
    (payload : Payload) :
    c.onDatagram (encode sessionMagic seq t.report payload) = c.onReport seq payload := by
  simp only [onDatagram, decode_encode, Nat.mod_eq_of_lt hseq, if_true]

theorem onDatagram_nakResponse (c : ClientSession) (fromSeq : Nat) {rs : List (Nat × Payload)}
    (hcount : rs.length < 2 ^ 32) (hrs : ∀ r ∈ rs, r.1 < 2 ^ 32 ∧ r.2.length < 65536) :
    c.onDatagram (encode sessionMagic 0 t.nakResponse
        (Bytes.be 4 fromSeq ++ Bytes.be 4 rs.length ++ rs.flatMap ServerSession.nakFrame)) =
      ((c.takeFrames rs).1, [], (c.takeFrames rs).2) := by
  generalize hpayload : Bytes.be 4 fromSeq ++ Bytes.be 4 rs.length ++
    rs.flatMap ServerSession.nakFrame = payload
  have hlong : ¬ payload.length < 8 := by
    rw [← hpayload]
    simp only [List.length_append, Bytes.length_be]
    omega
  have hnum : u32Be ((payload.drop 4).take 4) = rs.length := by
    rw [← hpayload, List.append_assoc, List.drop_left' (Bytes.length_be 4 _), u32Be_front hcount]
  have hframes : payload.drop 8 = rs.flatMap ServerSession.nakFrame := by
    rw [← hpayload]
    exact List.drop_left' (by simp)
  have htypes : t.nakResponse ≠ t.report := by decide
  simp only [onDatagram, decode_encode, htypes, if_true, if_false]
  rw [onNakResponse, if_neg hlong]
  simp only [hnum, hframes, nakLoop_frames c hrs]

/-- Without a report the counter of reports stays, and nothing is asked for. -/
theorem onDatagram_noReport (c : ClientSession) {dg : List UInt8} (h : CarriesNoReport dg) :
    (c.onDatagram dg).2.2.expectedReportSeq = c.expectedReportSeq ∧
      (c.onDatagram dg).1.filterMap ClientEvent.reportOf = [] ∧ (c.onDatagram dg).2.1 = [] := by
  unfold onDatagram
  split
  next => exact ⟨rfl, rfl, rfl⟩
  next hdr payload hdec =>
    obtain ⟨hreport, hresponse⟩ := h hdr payload hdec
    rw [if_neg hreport, if_neg hresponse]
    split
    next =>
      unfold onOrderAck
      split
      next => exact ⟨rfl, rfl, rfl⟩
      next => exact ⟨rfl, rfl, rfl⟩
    next =>
      split
      next =>
        unfold onHelloAck
        split
        next => exact ⟨rfl, rfl, rfl⟩
        next => exact ⟨rfl, rfl, rfl⟩
      next =>
        split
        next => exact ⟨rfl, rfl, rfl⟩
        next => exact ⟨rfl, rfl, rfl⟩

end ClientSession

namespace World

/-! ## Runs -/

/-- Only what was sent is delivered.  Reports are fewer than `2 ^ 32 - 1`, with payloads below
65536 bytes, and a client that asks for reports asks from the one it expects on. -/
def GenuineReports (w : World) : Action → Prop
  | .ackAndReport _ payload => w.reports.length + 1 < 2 ^ 32 - 1 ∧ payload.length < 65536
  | .nakRequest start _ => start = w.client.expectedReportSeq
  | .serverReceives dg => dg ∈ w.toServer
  | .clientReceives dg => ∃ x ∈ w.toClient, x.2 = dg
  | _ => True

/-- The datagram was built by a session that had registered some of the reports.  It has
no report, or one that was registered, or it answers a request of this client. -/
def Built (w : World) (x : ServerSession × List UInt8) : Prop :=
  (∃ old, old <+: w.reports ∧ x.1.StoreOf old) ∧
    (CarriesNoReport x.2 ∨
      (∃ r ∈ numbered 1 w.reports, x.2 = encode sessionMagic r.1 t.report r.2) ∨
      ∃ start count, start ≤ w.client.expectedReportSeq ∧ x.2 = x.1.nakResponse start count)

/-- The client passes over a number that the session which built the response had dropped. -/
def SkippedBy (x : ServerSession × List UInt8) (seq : Nat) : Prop :=
  (∃ start count, x.2 = x.1.nakResponse start count) ∧ x.1.Evicted seq

/-- What is known about the reports in every state of a run. -/
structure ReportsKept (w : World) : Prop where
  count : w.reports.length < 2 ^ 32 - 1
  short : ∀ p ∈ w.reports, p.length < 65536
  store : w.server.StoreOf w.reports
  pos : 0 < w.client.expectedReportSeq
  le : w.client.expectedReportSeq ≤ w.reports.length + 1
  asked : ∀ dg ∈ w.toServer, CarriesNoNak dg ∨
    ∃ start count, start ≤ w.client.expectedReportSeq ∧ dg = w.client.nakRequest start count
  built : ∀ x ∈ w.toClient, w.Built x
  growing : (w.clientEvents.filterMap ClientEvent.reportOf).Pairwise fun r q => r.1 < q.1
  reported : ∀ r ∈ w.clientEvents.filterMap ClientEvent.reportOf,
    r ∈ numbered 1 w.reports ∧ r.1 < w.client.expectedReportSeq

theorem reportsKept_init (storeCap : Nat) : (init storeCap).ReportsKept where
  count := by simp [init]
  short := by simp [init]
  store := ServerSession.storeOf_new storeCap
  pos := Nat.one_pos
  le := Nat.le_refl 1
  asked := by simp [init]
  built := by simp [init]
  growing := by simp [init]
  reported := by simp [init]

/-- What the client does with a datagram: it takes reports that were registered, in order,
and passes over nothing but reports that were dropped. -/
structure Takes (w : World) (x : ServerSession × List UInt8) : Prop where
  le : w.client.expectedReportSeq ≤ (w.client.onDatagram x.2).2.2.expectedReportSeq
  bound : (w.client.onDatagram x.2).2.2.expectedReportSeq ≤ w.reports.length + 1
  growing : ((w.client.onDatagram x.2).1.filterMap ClientEvent.reportOf).Pairwise
    fun r q => r.1 < q.1
  reported : ∀ r ∈ (w.client.onDatagram x.2).1.filterMap ClientEvent.reportOf,
    r ∈ numbered 1 w.reports ∧ w.client.expectedReportSeq ≤ r.1 ∧
      r.1 < (w.client.onDatagram x.2).2.2.expectedReportSeq
  skipped : ∀ seq, w.client.expectedReportSeq ≤ seq →
    seq < (w.client.onDatagram x.2).2.2.expectedReportSeq →
    (∃ p, .report seq p ∈ (w.client.onDatagram x.2).1) ∨ SkippedBy x seq
  asks : ∀ dg ∈ (w.client.onDatagram x.2).2.1,
    ∃ count, dg = w.client.nakRequest w.client.expectedReportSeq count

namespace ReportsKept

variable {w : World}

theorem takes_noReport (h : w.ReportsKept) {x : ServerSession × List UInt8}
    (hno : CarriesNoReport x.2) : w.Takes x := by
  obtain ⟨hexp, hev, hout⟩ := w.client.onDatagram_noReport hno
  constructor
  case le => exact hexp.ge
  case bound => rw [hexp]; exact h.le
  case growing => rw [hev]; exact List.Pairwise.nil
  case reported => simp [hev]
  case skipped => intro seq hle hlt; omega
  case asks => simp [hout]

theorem takes_report (h : w.ReportsKept) {x : ServerSession × List UInt8} {r : Nat × Payload}
    (hr : r ∈ numbered 1 w.reports) (hx : x.2 = encode sessionMagic r.1 t.report r.2) :
    w.Takes x := by
  have hb := lt_of_mem_numbered hr
  have hcount := h.count
  have hle := h.le
  have hcall : w.client.onDatagram x.2 = w.client.onReport r.1 r.2 := by
    rw [hx, w.client.onDatagram_report (by omega)]
  rcases Nat.lt_trichotomy r.1 w.client.expectedReportSeq with hlt | heq | hgt
  · have hret : w.client.onDatagram x.2 = ([], [], w.client) := by
      rw [hcall, ClientSession.onReport, if_neg hlt.ne, if_neg hlt.not_gt]
    constructor <;> rw [hret]
    case bound => exact hle
    case growing => exact List.Pairwise.nil
    case skipped => exact fun seq hle hlt => absurd hle (Nat.not_le.mpr hlt)
    all_goals simp
  · have hret : w.client.onDatagram x.2 = ([.report r.1 r.2], [],
        { w.client with expectedReportSeq := w.client.expectedReportSeq + 1 }) := by
      rw [hcall, ClientSession.onReport, if_pos heq, nextSeq, Nat.mod_eq_of_lt (by omega)]
    constructor <;> rw [hret]
    case le => exact Nat.le_succ _
    case bound => show w.client.expectedReportSeq + 1 ≤ _; omega
    case growing => exact List.pairwise_singleton _ _
    case reported =>
      intro q hq
      rw [List.mem_singleton.mp hq]
      exact ⟨hr, heq.ge, by show r.1 < w.client.expectedReportSeq + 1; omega⟩
    case skipped =>
      intro seq hle hlt
      have hseq : seq = r.1 := by
        have : seq < w.client.expectedReportSeq + 1 := hlt
        omega
      exact Or.inl ⟨r.2, hseq ▸ List.mem_cons_self⟩
    case asks => simp
  · have hret : w.client.onDatagram x.2 = ([], [w.client.nakRequest w.client.expectedReportSeq
        (r.1 - w.client.expectedReportSeq)], w.client) := by
      rw [hcall, ClientSession.onReport, if_neg hgt.ne', if_pos hgt]
    constructor <;> rw [hret]
    case bound => exact hle
    case growing => exact List.Pairwise.nil
    case skipped => exact fun seq hle hlt => absurd hle (Nat.not_le.mpr hlt)
    case asks => exact fun dg hdg => ⟨_, List.mem_singleton.mp hdg⟩
    all_goals simp

/-- What the client does with a response: it takes the reports from the next one on, and none
of them if the response has none. -/
theorem onDatagram_response (h : w.ReportsKept) {x : ServerSession × List UInt8}
    {old : List Payload} (hold : old <+: w.reports) (hstore : x.1.StoreOf old) {start count : Nat}
    (hstart : start ≤ w.client.expectedReportSeq) (hx : x.2 = x.1.nakResponse start count) :
    ∃ fromSeq xs, fromSeq = max start x.1.storeStart ∧
      (xs = [] ∨ fromSeq + xs.length ≤ w.reports.length + 1) ∧
      (∀ r ∈ numbered fromSeq xs, r ∈ numbered 1 w.reports) ∧
      w.client.onDatagram x.2 = (((numbered fromSeq xs).drop
        (w.client.expectedReportSeq - fromSeq)).map reportEvent, [],
        { w.client with
          expectedReportSeq := if xs = [] then w.client.expectedReportSeq
            else max w.client.expectedReportSeq (fromSeq + xs.length) }) := by
  have hcount := h.count
  have hlen := hold.length_le
  have hle := h.le
  have hss := hstore.le
  obtain ⟨xs, heq, hxs, hreports⟩ := hstore.nakResponse_eq (by omega) start count
  generalize hfrom : max start x.1.storeStart = fromSeq at heq hxs hreports
  have hmem : ∀ r ∈ numbered fromSeq xs, r ∈ numbered 1 w.reports := by
    obtain ⟨more, hmore⟩ := hold
    intro r hr
    rw [← hmore, numbered_append]
    exact List.mem_append_left _ (hreports r hr)
  have hfrom_lt : fromSeq + xs.length < 2 ^ 32 := by
    rcases hxs with rfl | hxs
    · simp only [List.length_nil]
      omega
    · omega
  have hrs : ∀ r ∈ numbered fromSeq xs, r.1 < 2 ^ 32 ∧ r.2.length < 65536 := by
    intro r hr
    refine ⟨by have := lt_of_mem_numbered hr; omega, h.short r.2 ?_⟩
    exact List.mem_of_getElem? (mem_numbered.mp (hmem r hr)).2
  refine ⟨fromSeq, xs, rfl, hxs.imp_right fun hle => by omega, hmem, ?_⟩
  have hframes := w.client.onDatagram_nakResponse fromSeq (by rw [length_numbered]; omega) hrs
  have hmax : fromSeq + (w.client.expectedReportSeq - fromSeq) =
      max fromSeq w.client.expectedReportSeq := by omega
  rw [length_numbered] at hframes
  rw [hx, heq, hframes, w.client.takeFrames_numbered fromSeq xs hfrom_lt, drop_numbered, hmax]

theorem takes_response (h : w.ReportsKept) {x : ServerSession × List UInt8} {old : List Payload}
    (hold : old <+: w.reports) (hstore : x.1.StoreOf old) {start count : Nat}
    (hstart : start ≤ w.client.expectedReportSeq) (hx : x.2 = x.1.nakResponse start count) :
    w.Takes x := by
  have hle := h.le
  obtain ⟨fromSeq, xs, hfrom, hxs, hmem, hret⟩ := h.onDatagram_response hold hstore hstart hx
  constructor <;> rw [hret]
  case le =>
    show _ ≤ ite _ _ _
    split
    next => exact Nat.le_refl _
    next => exact Nat.le_max_left _ _
  case bound =>
    show ite _ _ _ ≤ _
    split
    next => exact hle
    next hne =>
      have := hxs.resolve_left hne
      omega
  case growing =>
    rw [filterMap_reportEvent]
    exact (pairwise_numbered fromSeq xs).drop
  case reported =>
    intro r hr
    rw [filterMap_reportEvent] at hr
    have hin := List.mem_of_mem_drop hr
    refine ⟨hmem r hin, ?_, ?_⟩
    · rw [drop_numbered] at hr
      have := (lt_of_mem_numbered hr).1
      omega
    · have hne : xs ≠ [] := fun hnil => by simp [hnil] at hin
      show r.1 < ite _ _ _
      rw [if_neg hne]
      exact lt_max_of_lt_right (lt_of_mem_numbered hin).2
  case skipped =>
    intro seq hge hlt
    have hne : xs ≠ [] := by
      rintro rfl
      have : seq < w.client.expectedReportSeq := hlt
      omega
    have hlt' : seq < fromSeq + xs.length := by
      have : seq < ite _ _ _ := hlt
      rw [if_neg hne] at this
      omega
    rcases Nat.lt_or_ge seq fromSeq with hbefore | hafter
    · exact Or.inr ⟨⟨start, count, hx⟩, hstore.evicted (by omega)⟩
    · obtain ⟨p, hp⟩ : ∃ p, xs[seq - fromSeq]? = some p :=
        ⟨_, List.getElem?_eq_getElem (by omega)⟩
      refine Or.inl ⟨p, List.mem_map.mpr ⟨(seq, p), ?_, rfl⟩⟩
      rw [drop_numbered, mem_numbered, List.getElem?_drop]
      refine ⟨by omega, ?_⟩
      rw [← hp]
      congr 1
      omega
  case asks => simp

theorem takes (h : w.ReportsKept) {x : ServerSession × List UInt8} (hx : x ∈ w.toClient) :
    w.Takes x := by
  obtain ⟨⟨old, hold, hstore⟩, hno | ⟨r, hr, heq⟩ | ⟨start, count, hstart, heq⟩⟩ := h.built x hx
  · exact h.takes_noReport hno
  · exact h.takes_report hr heq
  · exact h.takes_response hold hstore hstart heq

/-- Sending datagrams from the client. -/
theorem send (h : w.ReportsKept) {c : ClientSession} {dgs : List (List UInt8)}
    (hexp : c.expectedReportSeq = w.client.expectedReportSeq)
    (hdgs : ∀ dg ∈ dgs, CarriesNoNak dg ∨
      ∃ count, dg = w.client.nakRequest w.client.expectedReportSeq count)
    (orders : List Payload) :
    { w with client := c, toServer := w.toServer ++ dgs, orders := orders }.ReportsKept where
  count := h.count
  short := h.short
  store := h.store
  pos := hexp.symm ▸ h.pos
  le := hexp.symm ▸ h.le
  asked dg hdg := by
    show CarriesNoNak dg ∨ ∃ start count, start ≤ c.expectedReportSeq ∧ _
    rw [hexp]
    rcases List.mem_append.mp hdg with hdg | hdg
    · exact h.asked dg hdg
    · exact (hdgs dg hdg).imp_right fun ⟨count, heq⟩ => ⟨_, count, Nat.le_refl _, heq⟩
  built x hx := by
    show (∃ old, _) ∧ (_ ∨ _ ∨ ∃ start count, start ≤ c.expectedReportSeq ∧ _)
    rw [hexp]
    exact h.built x hx
  growing := h.growing
  reported := by
    show ∀ r : Nat × Payload, r ∈ _ → _ ∧ r.1 < c.expectedReportSeq
    rw [hexp]
    exact h.reported

theorem ackAndReport (h : w.ReportsKept) {clientSeq : Nat} {payload : Payload}
    (hcount : w.reports.length + 1 < 2 ^ 32 - 1) (hshort : payload.length < 65536) :
    (w.act (.ackAndReport clientSeq payload)).ReportsKept := by
  have hold : ∀ {r}, r ∈ numbered 1 w.reports → r ∈ numbered 1 (w.reports ++ [payload]) := by
    intro r hr
    rw [numbered_append]
    exact List.mem_append_left _ hr
  constructor
  case count => simpa [act] using hcount
  case short =>
    intro p hp
    rcases List.mem_append.mp hp with hp | hp
    · exact h.short p hp
    · rwa [List.mem_singleton.mp hp]
  case store => exact h.store.ackAndReport hcount clientSeq payload
  case pos => exact h.pos
  case le =>
    have := h.le
    simp only [act, List.length_append, List.length_singleton]
    omega
  case asked => exact h.asked
  case built =>
    have hprefix : w.reports <+: w.reports ++ [payload] := List.prefix_append _ _
    intro x hx
    rcases List.mem_append.mp hx with hx | hx
    · obtain ⟨⟨old, hpre, hstore⟩, hcase⟩ := h.built x hx
      refine ⟨⟨old, hpre.trans hprefix, hstore⟩, ?_⟩
      exact hcase.imp_right (Or.imp_left fun ⟨r, hr, heq⟩ => ⟨r, hold hr, heq⟩)
    · obtain ⟨dg, hdg, rfl⟩ := List.mem_map.mp hx
      refine ⟨⟨w.reports, hprefix, h.store⟩, ?_⟩
      rcases List.mem_cons.mp hdg with rfl | hdg
      · exact Or.inl (carriesNoReport_encode _ _ (by decide))
      · refine Or.inr (Or.inl ⟨(w.server.nextReportSeq, payload), ?_, List.mem_singleton.mp hdg⟩)
        show _ ∈ numbered 1 (w.reports ++ [payload])
        rw [numbered_append, h.store.next, Nat.add_comm 1]
        exact List.mem_append_right _ List.mem_cons_self
  case growing => exact h.growing
  case reported => exact fun r hr => ⟨hold (h.reported r hr).1, (h.reported r hr).2⟩

/-- The server sends datagrams without reports, or the answers to requests. -/
theorem serverReceives (h : w.ReportsKept) {dg : List UInt8} (hdg : dg ∈ w.toServer) :
    (w.act (.serverReceives dg)).ReportsKept := by
  obtain ⟨expected, last, hserver⟩ := w.server.onDatagram_reports dg
  refine ⟨h.count, h.short, ?_, h.pos, h.le, h.asked, ?_, h.growing, h.reported⟩
  · show (w.server.onDatagram dg).2.2.StoreOf w.reports
    rw [hserver]
    exact ⟨h.store.next, h.store.pos, h.store.le, h.store.store⟩
  · intro x hx
    rcases List.mem_append.mp hx with hx | hx
    · exact h.built x hx
    · obtain ⟨out, hout, rfl⟩ := List.mem_map.mp hx
      refine ⟨⟨w.reports, List.prefix_refl _, h.store⟩, ?_⟩
      rcases h.asked dg hdg with hno | ⟨start, count, hstart, rfl⟩
      · exact Or.inl (w.server.onDatagram_noNak hno out hout)
      · have hlt : start < 2 ^ 32 := by
          have := h.le
          have := h.count
          omega
        rw [w.server.onDatagram_nakRequest hlt] at hout
        exact Or.inr (Or.inr ⟨start, _, hstart, List.mem_singleton.mp hout⟩)

theorem clientReceives (h : w.ReportsKept) {x : ServerSession × List UInt8}
    (hx : x ∈ w.toClient) : (w.act (.clientReceives x.2)).ReportsKept := by
  have ht := h.takes hx
  have hevents : (w.act (.clientReceives x.2)).clientEvents.filterMap ClientEvent.reportOf =
      w.clientEvents.filterMap ClientEvent.reportOf ++
        (w.client.onDatagram x.2).1.filterMap ClientEvent.reportOf := List.filterMap_append
  constructor
  case count => exact h.count
  case short => exact h.short
  case store => exact h.store
  case pos => exact lt_of_lt_of_le h.pos ht.le
  case le => exact ht.bound
  case asked =>
    intro dg hdg
    rcases List.mem_append.mp hdg with hdg | hdg
    · exact (h.asked dg hdg).imp_right fun ⟨start, count, hle, heq⟩ =>
        ⟨start, count, hle.trans ht.le, heq⟩
    · obtain ⟨count, heq⟩ := ht.asks dg hdg
      exact Or.inr ⟨_, count, ht.le, heq⟩
  case built =>
    intro y hy
    obtain ⟨hold, hcase⟩ := h.built y hy
    exact ⟨hold, hcase.imp_right (Or.imp_right fun ⟨start, count, hle, heq⟩ =>
      ⟨start, count, hle.trans ht.le, heq⟩)⟩
  case growing =>
    rw [hevents]
    exact List.pairwise_append.mpr ⟨h.growing, ht.growing, fun r hr q hq =>
      lt_of_lt_of_le (h.reported r hr).2 (ht.reported q hq).2.1⟩
  case reported =>
    intro r hr
    rw [hevents] at hr
    rcases List.mem_append.mp hr with hr | hr
    · exact ⟨(h.reported r hr).1, lt_of_lt_of_le (h.reported r hr).2 ht.le⟩
    · exact ⟨(ht.reported r hr).1, (ht.reported r hr).2.2⟩

theorem step (h : w.ReportsKept) (a : Action) (ha : w.GenuineReports a) :
    (w.act a).ReportsKept := by
  cases a with
  | sendOrder payload now =>
      exact h.send (c := (w.client.sendOrder payload now).2) rfl
        (fun dg hdg => Or.inl (List.mem_singleton.mp hdg ▸
          carriesNoNak_encode _ _ (by decide))) _
  | retransmitDue timeout now =>
      obtain ⟨-, -, hexp, hout⟩ := ClientSession.resend_spec now
        ((w.client.pendingTs.toList.filter fun e => timeout ≤ now - e.2).map Prod.fst) w.client
      refine h.send hexp (fun dg hdg => ?_) w.orders
      obtain ⟨seq, p, -, rfl⟩ := hout dg hdg
      exact Or.inl (carriesNoNak_encode _ _ (by decide))
  | nakRequest start count =>
      have hstart : start = w.client.expectedReportSeq := ha
      exact h.send rfl (fun dg hdg => Or.inr ⟨count, hstart ▸ List.mem_singleton.mp hdg⟩) w.orders
  | sendHello clientId last =>
      exact h.send rfl (fun dg hdg => Or.inl (List.mem_singleton.mp hdg ▸
        carriesNoNak_encode _ _ (by decide))) w.orders
  | ackAndReport clientSeq payload => exact h.ackAndReport ha.1 ha.2
  | rejectOrder clientSeq =>
      refine ⟨h.count, h.short, h.store, h.pos, h.le, h.asked, ?_, h.growing, h.reported⟩
      intro x hx
      rcases List.mem_append.mp hx with hx | hx
      · exact h.built x hx
      · obtain ⟨dg, hdg, rfl⟩ := List.mem_map.mp hx
        exact ⟨⟨w.reports, List.prefix_refl _, h.store⟩, Or.inl (List.mem_singleton.mp hdg ▸
          carriesNoReport_encode _ _ (by decide))⟩
  | serverReceives dg => exact h.serverReceives ha
  | clientReceives dg =>
      obtain ⟨x, hx, rfl⟩ := ha
      exact h.clientReceives hx

end ReportsKept

theorem reportsKept_of_reachable {storeCap : Nat} {w : World}
    (h : Runs.Reachable act GenuineReports (init storeCap) w) : w.ReportsKept :=
  h.invariant (reportsKept_init storeCap) fun _ a _ ha hk => hk.step a ha

/-- The reports of the client have growing numbers and the payloads that were registered.
When a datagram makes the client pass over a number, the datagram is a response, and the
session that built it had dropped the report. -/
theorem reports_delivered {storeCap : Nat} {w : World}
    (h : Runs.Reachable act GenuineReports (init storeCap) w) :
    (w.clientEvents.filterMap ClientEvent.reportOf).Pairwise (fun r q => r.1 < q.1) ∧
    (∀ seq p, .report seq p ∈ w.clientEvents → (seq, p) ∈ numbered 1 w.reports) ∧
    ∀ x ∈ w.toClient, ∀ seq, w.client.expectedReportSeq ≤ seq →
      seq < (w.client.onDatagram x.2).2.2.expectedReportSeq →
      (∀ p, .report seq p ∉ (w.client.onDatagram x.2).1) →
      (∃ start count, x.2 = x.1.nakResponse start count) ∧ x.1.Evicted seq := by
  have hk := reportsKept_of_reachable h
  refine ⟨hk.growing, fun seq p hev => (hk.reported _ (mem_filterMap_reportOf.mpr hev)).1, ?_⟩
  intro x hx seq hle hlt hnone
  rcases (hk.takes hx).skipped seq hle hlt with ⟨p, hp⟩ | hskip
  · exact absurd hp (hnone p)
  · exact hskip

/-- Two reports, of which the server keeps the second.  The client sees the second one and
asks for the first. -/
def droppedReport : List Action :=
  [.ackAndReport 1 [7], .ackAndReport 2 [8],
    .clientReceives (encode sessionMagic 2 t.report [8]),
    .serverReceives (ClientSession.new.nakRequest 1 1)]

/-- The server after two reports, of which it keeps one. -/
def keepsSecond : ServerSession := ⟨3, 1, [(2, [8])], 2, 1, none⟩

theorem reports_delivered_dropped :
    (ClientSession.new.onDatagram (keepsSecond.nakResponse 1 1)).1 = [.report 2 [8]] ∧
      keepsSecond.Evicted 1 := by
  have hallowed : Runs.AllAllowed act GenuineReports (init 1) droppedReport :=
    ⟨by unfold GenuineReports; decide, by unfold GenuineReports; decide,
      ⟨(⟨2, 1, [(1, [7])], 1, 1, none⟩, _), by decide +kernel, rfl⟩,
      by unfold GenuineReports; decide +kernel, trivial⟩
  have hsent : (keepsSecond, keepsSecond.nakResponse 1 1) ∈
      (droppedReport.foldl act (init 1)).toClient := by decide +kernel
  exact ⟨by decide +kernel, ((reports_delivered (Runs.Reachable.start.foldl hallowed)).2.2 _ hsent 1
    (by decide +kernel) (by decide +kernel) (fun p hp => by
      have hevents : ∀ event ∈ ((droppedReport.foldl act (init 1)).client.onDatagram
          (keepsSecond.nakResponse 1 1)).1, event = .report 2 [8] := by decide +kernel
      exact absurd (hevents _ hp) (by simp))).2⟩

end World

end MatchUdpOrder
