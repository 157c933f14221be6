import MatchRust.Lib.Framing
import MatchRust.Udp.Reports

/-!
# The server over whole runs

The server gets datagrams, and its caller registers reports and rejects orders.  This
module looks at the server alone, over every sequence of such calls.

Its store is a window of the reports: those from the start of the store on, at most as many
as it has room for.  A request for reports is answered with those of the window that were
asked for, and a client that connects again is told if the next report it needs has left the
window (`retransmission_window`).

Orders are numbered modulo `2 ^ 32`.  An order that was taken before is told from one that
comes too early by comparing plain numbers.  So an order that is sent again is acknowledged
only if the counter has not wrapped since it was taken (`sent_again_iff`).
-/

namespace MatchUdpOrder

open Numbered

/-! ## Calls -/

/-- A call of the server. -/
inductive ServerCall where
  | onDatagram (dg : List UInt8)
  | ackAndReport (clientSeq : Nat) (reportPayload : Payload)
  | rejectOrder (clientSeq : Nat)

/-- The report that a call registers. -/
def ServerCall.reportOf : ServerCall → Option Payload
  | .ackAndReport _ reportPayload => some reportPayload
  | _ => none

namespace ServerSession

/-- The session after a call. -/
def call (s : ServerSession) : ServerCall → ServerSession
  | .onDatagram dg => (s.onDatagram dg).2.2
  | .ackAndReport clientSeq reportPayload => (s.ackAndReport clientSeq reportPayload).2
  | .rejectOrder _ => s

/-- The session after several calls. -/
def calls (s : ServerSession) (cs : List ServerCall) : ServerSession := cs.foldl call s

/-- The reports that calls register. -/
def reportsOf (cs : List ServerCall) : List Payload := cs.filterMap ServerCall.reportOf

/-! ## The store -/

theorem StoreOf.onDatagram {s : ServerSession} {reports : List Payload} (h : s.StoreOf reports)
    (dg : List UInt8) : (s.onDatagram dg).2.2.StoreOf reports := by
  obtain ⟨expected, last, heq⟩ := s.onDatagram_reports dg
  rw [heq]
  exact ⟨h.next, h.pos, h.le, h.store⟩

/-- The stored reports are those registered, from the start of the store on. -/
theorem StoreOf.mem_store {s : ServerSession} {reports : List Payload} (h : s.StoreOf reports)
    {r : Nat × Payload} : r ∈ s.store ↔ s.storeStart ≤ r.1 ∧ reports[r.1 - 1]? = some r.2 := by
  have hpos := h.pos
  obtain ⟨seq, p⟩ := r
  rw [h.store, mem_numbered, List.getElem?_drop]
  refine and_congr_right fun hle => ?_
  rw [show s.storeStart - 1 + (seq - s.storeStart) = seq - 1 by omega]

/-- The store keeps at most as many reports as it has room for. -/
def Capped (s : ServerSession) (cap : Nat) : Prop := s.storeCap = cap ∧ s.store.length ≤ cap

theorem Capped.ackAndReport {s : ServerSession} {cap : Nat} (h : s.Capped cap) (clientSeq : Nat)
    (payload : Payload) : (s.ackAndReport clientSeq payload).2.Capped cap := by
  obtain ⟨hcap, hlen⟩ := h
  simp only [ServerSession.ackAndReport]
  split
  next =>
    refine ⟨hcap, ?_⟩
    show (s.store ++ [(s.nextReportSeq, payload)]).tail.length ≤ cap
    simpa using hlen
  next hroom => exact ⟨hcap, hcap ▸ Nat.not_lt.mp hroom⟩

theorem Capped.onDatagram {s : ServerSession} {cap : Nat} (h : s.Capped cap) (dg : List UInt8) :
    (s.onDatagram dg).2.2.Capped cap := by
  obtain ⟨expected, last, heq⟩ := s.onDatagram_reports dg
  rw [heq]
  exact h

/-- A run keeps the store, with the reports it registers. -/
theorem StoreOf.calls {s : ServerSession} {reports : List Payload} {cap : Nat}
    (h : s.StoreOf reports) (hcap : s.Capped cap) (cs : List ServerCall)
    (hcount : (reports ++ reportsOf cs).length < 2 ^ 32 - 1) :
    (s.calls cs).StoreOf (reports ++ reportsOf cs) ∧ (s.calls cs).Capped cap := by
  induction cs generalizing s reports with
  | nil =>
      rw [reportsOf, List.filterMap_nil, List.append_nil]
      exact ⟨h, hcap⟩
  | cons c cs ih =>
      cases c with
      | onDatagram dg => exact ih (h.onDatagram dg) (hcap.onDatagram dg) hcount
      | ackAndReport clientSeq payload =>
          have hcons : reportsOf (.ackAndReport clientSeq payload :: cs) =
            payload :: reportsOf cs := rfl
          rw [hcons, List.append_cons] at hcount ⊢
          refine ih (h.ackAndReport ?_ clientSeq payload) (hcap.ackAndReport clientSeq payload)
            hcount
          simp only [List.length_append, List.length_singleton] at hcount
          omega
      | rejectOrder => exact ih h hcap hcount

theorem storeOf_calls (cap : Nat) (cs : List ServerCall)
    (hcount : (reportsOf cs).length < 2 ^ 32 - 1) :
    ((new cap).calls cs).StoreOf (reportsOf cs) ∧
      ((new cap).calls cs).Capped (max cap 1) :=
  (storeOf_new cap).calls ⟨rfl, Nat.zero_le _⟩ cs hcount

/-! ## Requests for reports -/

/-- The first report in the bytes of a response, and the bytes after it. -/
def nextBlock (p : List UInt8) : Option ((Nat × Payload) × List UInt8) :=
  if p.length < 6 then none
  else
    let len := Bytes.beValue ((p.drop 4).take 2)
    if (p.drop 6).length < len then none
    else some ((u32Be (p.take 4), (p.drop 6).take len), (p.drop 6).drop len)

/-- What a response says: the number it starts at, how many reports it has, and the
reports.  Nothing may be left over. -/
def readResponse (dg : List UInt8) : Option (Nat × Nat × List (Nat × Payload)) :=
  match decode dg with
  | none => none
  | some (h, p) =>
      if h.mtype = t.nakResponse then
        match Framing.parse nextBlock p.length (p.drop 8) with
        | (blocks, []) => some (u32Be (p.take 4), u32Be ((p.drop 4).take 4), blocks)
        | _ => none
      else none

theorem length_nakFrame (r : Nat × Payload) : (nakFrame r).length = 6 + r.2.length := by
  simp only [nakFrame, List.length_append, Bytes.length_be]

theorem drop_nakFrame (r : Nat × Payload) (rest : List UInt8) :
    (nakFrame r ++ rest).drop 6 = r.2 ++ rest := by
  rw [nakFrame, List.append_assoc (Bytes.be 4 r.1 ++ Bytes.be 2 r.2.length)]
  exact List.drop_left' (by simp)

theorem size_nakFrame {r : Nat × Payload} (hlen : r.2.length < 65536) (rest : List UInt8) :
    Bytes.beValue (((nakFrame r ++ rest).drop 4).take 2) = r.2.length := by
  rw [nakFrame, List.append_assoc, List.append_assoc, List.drop_left' (Bytes.length_be 4 _),
    List.take_left' (Bytes.length_be 2 _), Bytes.beValue_be_of_lt hlen]

/-- The reports of a response are read one by one. -/
theorem frames_blocks :
    Framing.Frames nextBlock nakFrame fun r => r.1 < 2 ^ 32 ∧ r.2.length < 65536 where
  nonempty r := List.ne_nil_of_length_pos (by rw [length_nakFrame]; omega)
  nothing := rfl
  complete r hgood rest := by
    obtain ⟨hseq, hlen⟩ := hgood
    have hnum : u32Be ((nakFrame r ++ rest).take 4) = r.1 := by
      rw [nakFrame, List.append_assoc, List.append_assoc, u32Be_front hseq]
    have hlong : ¬ (nakFrame r ++ rest).length < 6 := by
      rw [List.length_append, length_nakFrame]
      omega
    rw [nextBlock, if_neg hlong]
    simp only [size_nakFrame hlen, drop_nakFrame, hnum, List.take_left, List.drop_left]
    rw [if_neg (by simp)]
  partly r hgood buf hpre hshort := by
    obtain ⟨later, hbuf⟩ := hpre
    rw [nextBlock]
    split
    next => rfl
    next hlong =>
      -- the length of the report is there, but not all of the report
      have hsize : Bytes.beValue ((buf.drop 4).take 2) = r.2.length := by
        have hwhole := size_nakFrame hgood.2 []
        rw [List.append_nil, ← hbuf, List.drop_append_of_le_length (by omega),
          List.take_append_of_le_length (by rw [List.length_drop]; omega)] at hwhole
        exact hwhole
      rw [length_nakFrame] at hshort
      simp only [hsize]
      exact if_pos (by rw [List.length_drop]; omega)

/-- A response is read as the number it starts at and the reports that were asked for. -/
theorem StoreOf.readResponse_eq {s : ServerSession} {reports : List Payload}
    (h : s.StoreOf reports) (hcount : reports.length < 2 ^ 32 - 1)
    (hsize : ∀ p ∈ reports, p.length < 65536) {start : Nat} (hstart : start < 2 ^ 32)
    (count : Nat) :
    readResponse (s.nakResponse start count) =
      some (max start s.storeStart, (s.asked start count).length, s.asked start count) := by
  have hle := h.le
  have hgood : ∀ r ∈ s.asked start count, r.1 < 2 ^ 32 ∧ r.2.length < 65536 := by
    intro r hr
    obtain ⟨-, hget⟩ := h.mem_store.mp (List.mem_filter.mp hr).1
    have hlt := (List.getElem?_eq_some_iff.mp hget).1
    exact ⟨by omega, hsize _ (List.mem_of_getElem? hget)⟩
  have hfew : (s.asked start count).length < 2 ^ 32 := by
    rw [h.asked_eq, length_numbered, List.length_take, List.length_drop]
    omega
  rw [h.nakResponse_asked hcount, readResponse, decode_encode]
  generalize hpayload : Bytes.be 4 (max start s.storeStart) ++
    Bytes.be 4 (s.asked start count).length ++ (s.asked start count).flatMap nakFrame = payload
  have hblocks : payload.drop 8 = (s.asked start count).flatMap nakFrame := by
    rw [← hpayload]
    exact List.drop_left' (by simp)
  have hparse := frames_blocks.parse_all hgood
    (show ((s.asked start count).flatMap nakFrame).length ≤ payload.length by
      rw [← hblocks, List.length_drop]
      omega)
  have hfirst : u32Be (payload.take 4) = max start s.storeStart := by
    rw [← hpayload, List.append_assoc, u32Be_front (by omega)]
  have hsecond : u32Be ((payload.drop 4).take 4) = (s.asked start count).length := by
    rw [← hpayload, List.append_assoc, List.drop_left' (Bytes.length_be 4 _), u32Be_front hfew]
  simp only [if_true, hblocks, hparse, hfirst, hsecond]

/-! ## Clients that connect again -/

theorem onDatagram_hello (s : ServerSession) {clientId last : Nat} (hid : clientId < 2 ^ 32)
    (hlast : last < 2 ^ 32) (seq : Nat) (extra : List UInt8) :
    s.onDatagram (encode sessionMagic seq t.hello
        (Bytes.be 4 clientId ++ (Bytes.be 4 last ++ extra))) =
      ([.hello clientId last],
        [s.helloAck (if nextSeq last < s.storeStart then helloAckGapTooOld else 0)], s) := by
  have htypes : ¬ (t.hello = t.order ∨ t.hello = t.cancel ∨ t.hello = t.replace) ∧
      t.hello ≠ t.nakRequest := by decide
  simp only [onDatagram, decode_encode, htypes.1, htypes.2, if_false, if_true]
  rw [onHello, if_pos (by simp [← Nat.add_assoc]), u32Be_front hid,
    List.drop_left' (Bytes.length_be 4 _), u32Be_front hlast]
  rfl

/-- A report has left the store exactly if its number is below the start. -/
theorem StoreOf.evicted_iff {s : ServerSession} {reports : List Payload} (h : s.StoreOf reports)
    {seq : Nat} (hpos : 0 < seq) : s.Evicted seq ↔ seq < s.storeStart := by
  refine ⟨fun hev => ?_, h.evicted⟩
  by_contra hge
  have hstart := h.pos
  have hhigh : seq ≤ reports.length := by
    have := hev.1
    rwa [reportHighWater, h.next, Nat.add_sub_cancel] at this
  have hget := List.getElem?_eq_getElem (show seq - 1 < reports.length by omega)
  exact hev.2 _ (h.mem_store.mpr ⟨Nat.not_lt.mp hge, hget⟩)

end ServerSession

/-- What a server keeps for clients that missed reports, after any calls.

* The store has the reports from its start to the last one, as they were registered, and not
  more than it has room for.
* A request is answered with the stored reports from the number asked for, or from the start
  of the store if that is later.  The header of the answer says which number it starts at, and
  how many reports there are.
* A client that connects again is told that a report is gone exactly if it has left the
  store. -/
theorem retransmission_window (cap : Nat) (cs : List ServerCall)
    (hcount : (ServerSession.reportsOf cs).length < 2 ^ 32 - 1)
    (hsize : ∀ p ∈ ServerSession.reportsOf cs, p.length < 65536) :
    let s := (ServerSession.new cap).calls cs
    (s.nextReportSeq = (ServerSession.reportsOf cs).length + 1 ∧
      s.store.map Prod.fst =
        List.range' s.storeStart (s.nextReportSeq - s.storeStart) ∧
      s.storeStart ≤ s.nextReportSeq ∧
      (∀ r ∈ s.store, 1 ≤ r.1 ∧ (ServerSession.reportsOf cs)[r.1 - 1]? = some r.2) ∧
      s.store.length ≤ max cap 1) ∧
    (∀ start < 2 ^ 32, ∀ count < 2 ^ 32, ∀ seq extra,
      let f := max start s.storeStart
      let blocks := s.store.filter fun r => f ≤ r.1 ∧ r.1 < f + count
      ∃ response,
        s.onDatagram (encode sessionMagic seq t.nakRequest
          (Bytes.be 4 start ++ (Bytes.be 4 count ++ extra))) =
            ([.nakRequest start count], [response], s) ∧
        ServerSession.readResponse response = some (f, blocks.length, blocks)) ∧
    (∀ clientId < 2 ^ 32, ∀ last < 2 ^ 32 - 1, ∀ seq extra, ∃ flags,
      s.onDatagram (encode sessionMagic seq t.hello
        (Bytes.be 4 clientId ++ (Bytes.be 4 last ++ extra))) =
          ([.hello clientId last], [s.helloAck flags], s) ∧
      (flags = helloAckGapTooOld ↔ s.Evicted (last + 1))) := by
  intro s
  obtain ⟨hstore, hcap⟩ := ServerSession.storeOf_calls cap cs hcount
  have hpos : 0 < s.storeStart := hstore.pos
  refine ⟨⟨hstore.next, ?_, ?_, ?_, hcap.2⟩, ?_, ?_⟩
  · have hlen : (ServerSession.reportsOf cs).length - (s.storeStart - 1) =
        s.nextReportSeq - s.storeStart := by
      rw [hstore.next]
      omega
    rw [hstore.store, map_fst_numbered, List.length_drop, hlen]
  · have hle := hstore.le
    rwa [← hstore.next] at hle
  · intro r hr
    obtain ⟨hle, hget⟩ := hstore.mem_store.mp hr
    exact ⟨Nat.le_trans hpos hle, hget⟩
  · intro start hstart count hcnt seq extra f blocks
    exact ⟨_, s.onDatagram_nak hstart hcnt seq extra,
      hstore.readResponse_eq hcount hsize hstart count⟩
  · intro clientId hid last hlast seq extra
    refine ⟨_, s.onDatagram_hello hid (by omega) seq extra, ?_⟩
    rw [hstore.evicted_iff (Nat.succ_pos last), nextSeq, Nat.mod_eq_of_lt (by omega)]
    split
    next hlt => simpa using hlt
    next hge => exact ⟨fun h => absurd h (by decide), fun h => absurd h hge⟩

/-- Two reports and room for one: the first one is gone, and the second is sent again. -/
theorem retransmission_window_two :
    let s := (ServerSession.new 1).calls [.ackAndReport 1 [97], .ackAndReport 2 [98]]
    s.store = [(2, [98])] ∧
      (∃ response,
        s.onDatagram (encode sessionMagic 0 t.nakRequest
          (Bytes.be 4 1 ++ (Bytes.be 4 5 ++ []))) = ([.nakRequest 1 5], [response], s) ∧
        ServerSession.readResponse response = some (2, 1, [(2, [98])])) ∧
      s.Evicted 1 := by
  intro s
  obtain ⟨-, hnak, hhello⟩ := retransmission_window 1 [.ackAndReport 1 [97], .ackAndReport 2 [98]]
    (by decide) (by decide)
  refine ⟨rfl, hnak 1 (by decide) 5 (by decide) 0 [], ?_⟩
  obtain ⟨flags, hanswer, hflags⟩ := hhello 7 (by decide) 0 (by decide) 0 []
  refine hflags.mp ?_
  have hack := List.cons.inj (Prod.mk.inj (Prod.mk.inj hanswer).2).1
  have hbyte := congrArg (fun dg => dg.getD 17 0) hack.1
  exact hbyte.symm.trans (by decide)

/-! ## Orders that are sent again -/

/-- The number of an order, a cancel or a replace. -/
def orderSeq (dg : List UInt8) : Option Nat :=
  match decode dg with
  | none => none
  | some (h, _) =>
      if h.mtype = t.order ∨ h.mtype = t.cancel ∨ h.mtype = t.replace then some h.seq else none

/-- The event passes on an order, a cancel or a replace. -/
def ServerEvent.isOrder : ServerEvent → Bool
  | .order .. => true
  | .cancel .. => true
  | .replace .. => true
  | _ => false

namespace ServerSession

/-- The server passes the datagram on as an order. -/
def Takes (s : ServerSession) (dg : List UInt8) : Prop :=
  (s.onDatagram dg).1.any ServerEvent.isOrder

instance (s : ServerSession) (dg : List UInt8) : Decidable (s.Takes dg) :=
  inferInstanceAs (Decidable (_ = true))

/-- The orders that calls take, in order. -/
def taken (s : ServerSession) : List ServerCall → List (List UInt8)
  | [] => []
  | .onDatagram dg :: cs =>
      if s.Takes dg then dg :: taken (s.call (.onDatagram dg)) cs
      else taken (s.call (.onDatagram dg)) cs
  | c :: cs => taken (s.call c) cs

theorem isOrder_orderEvent {h : Header} {p : Payload} : (orderEvent h p).isOrder = true := by
  unfold orderEvent
  split
  next => rfl
  next =>
    split
    next => rfl
    next => rfl

theorem orderSeq_eq {dg : List UInt8} {h : Header} {p : Payload} (hdec : decode dg = some (h, p))
    (htype : h.IsOrder) : orderSeq dg = some h.seq := by
  simp only [orderSeq, hdec]
  exact if_pos htype

theorem orderSeq_eq_none {dg : List UInt8} (hno : CarriesNoOrder dg) : orderSeq dg = none := by
  unfold orderSeq
  split
  next => rfl
  next h p hdec => exact if_neg (hno h p hdec)

theorem carriesNoOrder_of_type {dg : List UInt8} {h : Header} {p : Payload}
    (hdec : decode dg = some (h, p)) (htype : ¬ h.IsOrder) : CarriesNoOrder dg := by
  intro h' p' hdec'
  rw [hdec] at hdec'
  cases hdec'
  exact htype

/-- The server takes an order exactly if it has the next number.  It then counts it, and
otherwise the counter stays. -/
theorem takes_spec (s : ServerSession) (dg : List UInt8) :
    (s.Takes dg ∧ orderSeq dg = some s.expectedClientSeq ∧
      (s.onDatagram dg).2.2.expectedClientSeq = nextSeq s.expectedClientSeq) ∨
    (¬ s.Takes dg ∧ orderSeq dg ≠ some s.expectedClientSeq ∧
      (s.onDatagram dg).2.2.expectedClientSeq = s.expectedClientSeq) := by
  have hans := s.onDatagram_answers dg
  unfold Takes
  generalize s.onDatagram dg = r at hans ⊢
  cases hans with
  | next hdec htype heq =>
      exact Or.inl ⟨by simp [isOrder_orderEvent], (orderSeq_eq hdec htype).trans (by rw [heq]), rfl⟩
  | below hdec htype hlt =>
      refine Or.inr ⟨by simp, ?_, rfl⟩
      rw [orderSeq_eq hdec htype]
      simpa using hlt.ne
  | above _ _ hdec htype hlt =>
      refine Or.inr ⟨by simp, ?_, rfl⟩
      rw [orderSeq_eq hdec htype]
      simpa using hlt.ne'
  | reports hdec htype | hello hdec htype | heartbeat hdec htype =>
      have hno : CarriesNoOrder dg :=
        carriesNoOrder_of_type hdec (by rw [Header.IsOrder, htype]; decide)
      exact Or.inr ⟨by simp [ServerEvent.isOrder], by simp [orderSeq_eq_none hno], rfl⟩
  | ignored hno => exact Or.inr ⟨by simp, by simp [orderSeq_eq_none hno], rfl⟩

/-- Calls number the orders they take one after the other. -/
theorem calls_orders (s : ServerSession) (hs : s.expectedClientSeq < 2 ^ 32)
    (cs : List ServerCall) :
    (s.calls cs).expectedClientSeq = (s.expectedClientSeq + (s.taken cs).length) % 2 ^ 32 ∧
      ∀ (k : Nat) (dg : List UInt8), (s.taken cs)[k]? = some dg →
        orderSeq dg = some ((s.expectedClientSeq + k) % 2 ^ 32) := by
  induction cs generalizing s with
  | nil => exact ⟨(Nat.mod_eq_of_lt hs).symm, by simp [taken]⟩
  | cons c cs ih =>
      cases c with
      | onDatagram dg =>
          rw [taken]
          rcases s.takes_spec dg with ⟨htakes, hseq, hnext⟩ | ⟨hnot, -, hsame⟩
          · -- the order is counted, and the others come after it
            have hlt : (s.onDatagram dg).2.2.expectedClientSeq < 2 ^ 32 := by
              rw [hnext]
              exact Nat.mod_lt _ (by decide)
            obtain ⟨hexp, hnums⟩ := ih _ hlt
            rw [if_pos htakes]
            rw [hnext, nextSeq] at hexp hnums
            refine ⟨hexp.trans ?_, fun k dg' hk => ?_⟩
            · rw [List.length_cons, Nat.mod_add_mod]
              exact congrArg (· % 2 ^ 32) (Nat.add_right_comm _ _ _)
            · cases k with
              | zero =>
                  cases hk
                  rw [hseq, Nat.add_zero, Nat.mod_eq_of_lt hs]
              | succ k =>
                  rw [hnums k dg' hk, Nat.mod_add_mod]
                  congr 2
                  omega
          · rw [if_neg hnot]
            have hrest := ih (s.onDatagram dg).2.2 (by rwa [hsame])
            rw [hsame] at hrest
            exact hrest
      | ackAndReport clientSeq payload =>
          have hsame := s.ackAndReport_expected clientSeq payload
          have hrest := ih (s.ackAndReport clientSeq payload).2 (by rwa [hsame])
          rw [hsame] at hrest
          exact hrest
      | rejectOrder => exact ih s hs

/-- An order that is sent again is acknowledged once more, and nothing else happens.  The next
order is still taken. -/
structure AcksAgain (s : ServerSession) (dg : List UInt8) : Prop where
  events : (s.onDatagram dg).1 = []
  answer : ∃ seq, orderSeq dg = some seq ∧ (s.onDatagram dg).2.1 = [orderAck seq ackOk]
  same : (s.onDatagram dg).2.2.expectedClientSeq = s.expectedClientSeq
  next : ∀ dg', orderSeq dg' = some s.expectedClientSeq → (s.onDatagram dg).2.2.Takes dg'

theorem orderAck_retry_ne (seq seq' : Nat) : orderAck seq ackRetry ≠ orderAck seq' ackOk := by
  intro h
  have hlast := congrArg List.getLast? h
  simp only [orderAck, encode, ← List.append_assoc, List.getLast?_concat] at hlast
  exact absurd hlast (by decide)

theorem acksAgain_iff {s : ServerSession} {dg : List UInt8} {seq : Nat}
    (h : orderSeq dg = some seq) : s.AcksAgain dg ↔ seq < s.expectedClientSeq := by
  have htakes : ∀ dg', orderSeq dg' = some s.expectedClientSeq → s.Takes dg' := by
    intro dg' hseq
    rcases s.takes_spec dg' with ⟨htakes, -⟩ | ⟨-, hne, -⟩
    · exact htakes
    · exact absurd hseq hne
  have hans := s.onDatagram_answers dg
  generalize hr : s.onDatagram dg = r at hans
  cases hans with
  | next hdec htype heq =>
      rw [orderSeq_eq hdec htype] at h
      cases h
      refine iff_of_false (fun hack => ?_) (by omega)
      have hevents := hack.events
      rw [hr] at hevents
      cases hevents
  | below hdec htype hlt =>
      have hseq := orderSeq_eq hdec htype
      rw [hseq] at h
      cases h
      refine iff_of_true ⟨by rw [hr], ⟨_, hseq, by rw [hr]⟩, by rw [hr], ?_⟩ hlt
      rw [hr]
      exact htakes
  | above naks last hdec htype hlt =>
      rw [orderSeq_eq hdec htype] at h
      cases h
      refine iff_of_false (fun hack => ?_) (by omega)
      obtain ⟨seq', -, hanswer⟩ := hack.answer
      rw [hr] at hanswer
      have hlast := congrArg List.getLast? hanswer
      rw [List.getLast?_concat, List.getLast?_singleton] at hlast
      exact orderAck_retry_ne _ _ (Option.some.inj hlast)
  | reports hdec htype | hello hdec htype | heartbeat hdec htype =>
      have hno : CarriesNoOrder dg :=
        carriesNoOrder_of_type hdec (by rw [Header.IsOrder, htype]; decide)
      rw [orderSeq_eq_none hno] at h
      cases h
  | ignored hno =>
      rw [orderSeq_eq_none hno] at h
      cases h

end ServerSession

/-- One of the last `2 ^ 31` orders that a server has taken is acknowledged again exactly if the
counter has not wrapped since. -/
theorem sent_again_iff (cap : Nat) (cs : List ServerCall) (k : Nat) (dg : List UInt8)
    (hdg : ((ServerSession.new cap).taken cs)[k]? = some dg)
    (hrecent : ((ServerSession.new cap).taken cs).length ≤ k + 2 ^ 31) :
    ((ServerSession.new cap).calls cs).AcksAgain dg ↔
      (k + 1) / 2 ^ 32 = (((ServerSession.new cap).taken cs).length + 1) / 2 ^ 32 := by
  obtain ⟨hexp, hnums⟩ := (ServerSession.new cap).calls_orders (show 1 < 2 ^ 32 by decide) cs
  have hstart : (ServerSession.new cap).expectedClientSeq = 1 := rfl
  have hk := (List.getElem?_eq_some_iff.mp hdg).1
  rw [ServerSession.acksAgain_iff (hnums k dg hdg), hexp, hstart]
  omega

/-- The first of two orders is acknowledged again. -/
theorem sent_again_two :
    ((ServerSession.new 1).calls [.onDatagram (ClientSession.orderFrame 1 [97]),
      .onDatagram (ClientSession.orderFrame 2 [98])]).AcksAgain
        (ClientSession.orderFrame 1 [97]) :=
  (sent_again_iff 1 [.onDatagram (ClientSession.orderFrame 1 [97]),
    .onDatagram (ClientSession.orderFrame 2 [98])] 0 _ (by decide) (by decide)).mpr (by decide)

namespace ServerSession

/-- Orders with consecutive numbers, up to where the counter wraps. -/
def ordersFrom (seq n : Nat) : List ServerCall :=
  (List.range' seq n).map fun i => .onDatagram (ClientSession.orderFrame i [])

theorem orderSeq_orderFrame {seq : Nat} (hseq : seq < 2 ^ 32) (payload : Payload) :
    orderSeq (ClientSession.orderFrame seq payload) = some seq := by
  have hdec : decode (ClientSession.orderFrame seq payload) =
      some (⟨sessionMagic, seq, t.order⟩, payload) := by
    rw [ClientSession.orderFrame, decode_encode, Nat.mod_eq_of_lt hseq]
  exact orderSeq_eq hdec (Or.inl rfl)

/-- A server takes consecutive orders from the next number on. -/
theorem taken_ordersFrom {s : ServerSession} {seq : Nat} (hs : s.expectedClientSeq = seq) (n : Nat)
    (hn : seq + n ≤ 2 ^ 32) :
    s.taken (ordersFrom seq n) =
      (List.range' seq n).map fun i => ClientSession.orderFrame i [] := by
  induction n generalizing s seq with
  | zero => rfl
  | succ n ih =>
      have hseq := orderSeq_orderFrame (show seq < 2 ^ 32 by omega) []
      rw [ordersFrom, List.range'_succ, List.map_cons, List.map_cons, taken]
      rcases s.takes_spec (ClientSession.orderFrame seq []) with ⟨htakes, -, hnext⟩ | ⟨-, hne, -⟩
      · rw [if_pos htakes]
        refine congrArg (_ :: ·) ?_
        cases n with
        | zero => rfl
        | succ n =>
            refine ih (hnext.trans ?_) (by omega)
            rw [nextSeq, hs, Nat.mod_eq_of_lt (by omega)]
      · rw [hs] at hne
        exact absurd hseq hne

end ServerSession

/-- After `2 ^ 32 - 1` orders the counter has wrapped to zero.  The last order, sent again, is
not acknowledged but taken for one that comes too early. -/
theorem wrapped_order_refused :
    let cs := ServerSession.ordersFrom 1 (2 ^ 32 - 1)
    let last := ClientSession.orderFrame (2 ^ 32 - 1) []
    ((ServerSession.new 1).taken cs)[2 ^ 32 - 2]? = some last ∧
      ((ServerSession.new 1).taken cs).length = 2 ^ 32 - 1 ∧
      ¬ ((ServerSession.new 1).calls cs).AcksAgain last := by
  intro cs last
  have hone : (ServerSession.new 1).expectedClientSeq = 1 := rfl
  have htaken : (ServerSession.new 1).taken cs =
      (List.range' 1 (2 ^ 32 - 1)).map fun i => ClientSession.orderFrame i [] :=
    ServerSession.taken_ordersFrom hone _ (by norm_num)
  have hlen : ((ServerSession.new 1).taken cs).length = 2 ^ 32 - 1 := by
    rw [htaken, List.length_map, List.length_range']
  refine ⟨?_, hlen, ?_⟩
  · rw [htaken, List.getElem?_map, List.getElem?_range' (by norm_num)]
    rfl
  · obtain ⟨hexp, -⟩ := (ServerSession.new 1).calls_orders (show 1 < 2 ^ 32 by decide) cs
    have hseq := ServerSession.orderSeq_orderFrame (show 2 ^ 32 - 1 < 2 ^ 32 by norm_num) []
    rw [ServerSession.acksAgain_iff hseq, hexp, hlen]
    exact fun h => absurd h (by decide)

end MatchUdpOrder
