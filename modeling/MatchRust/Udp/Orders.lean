import MatchRust.Udp.Calls

/-!
# Orders reach the server in order and once

The server takes the first `k` orders of the client, for some `k`, whatever the
network does (`orders_in_order`).  The reason is that every frame with an order
carries the number and the payload of an order that was sent, so the frame with the
expected number can only be the next order.  The counter wraps to zero after the last
of `2 ^ 32 - 1` orders, and no order has the number zero.

The client does not always keep an order until the server has taken it.  The server
acknowledges an order that came too early with `ackRetry`, and the client forgets the
order on that acknowledgement like on any other.  `pending_until_taken_iff` says that
this is the only way an order gets lost, and `retry_forgets_order` is a run in which
it happens.  The server asks for the missing orders as well, but the client has no
branch for such a request.
-/

namespace MatchUdpOrder

open Numbered

namespace World

/-- Orders are fewer than `2 ^ 32`, and no stranger sends orders to the server. -/
def OnlyClientOrders (w : World) : Action → Prop
  | .sendOrder _ _ => w.orders.length + 1 < 2 ^ 32
  | .serverReceives dg => dg ∈ w.toServer ∨ CarriesNoOrder dg
  | _ => True

/-- What is known about the orders in every state of a run. -/
structure OrdersKept (w : World) : Prop where
  count : w.orders.length < 2 ^ 32
  next : w.client.nextOrderSeq = (w.orders.length + 1) % 2 ^ 32
  pending : ∀ (seq : Nat) (p : Payload), w.client.pending[seq]? = some p →
    (seq, p) ∈ numbered 1 w.orders
  frames : ∀ dg ∈ w.toServer, CarriesNoOrder dg ∨
    ∃ seq p, (seq, p) ∈ numbered 1 w.orders ∧ dg = ClientSession.orderFrame seq p
  taken : ∃ k ≤ w.orders.length, w.server.expectedClientSeq = (k + 1) % 2 ^ 32 ∧
    w.serverEvents.filterMap ServerEvent.orderOf = numbered 1 (w.orders.take k)

theorem ordersKept_init (storeCap : Nat) : (init storeCap).OrdersKept where
  count := Nat.two_pow_pos 32
  next := rfl
  pending := by simp [init, ClientSession.new]
  frames := by simp [init]
  taken := ⟨0, Nat.le_refl 0, rfl, rfl⟩

namespace OrdersKept

variable {w : World}

/-- The number of an order. -/
theorem seq_bounds {orders : List Payload} {seq : Nat} {p : Payload}
    (h : (seq, p) ∈ numbered 1 orders) : 0 < seq ∧ seq ≤ orders.length := by
  have := lt_of_mem_numbered h
  omega

theorem sendOrder (h : w.OrdersKept) {payload : Payload} {now : Nat}
    (ha : w.OnlyClientOrders (.sendOrder payload now)) :
    (w.act (.sendOrder payload now)).OrdersKept := by
  have hlen : w.orders.length + 1 < 2 ^ 32 := ha
  have hseq : w.client.nextOrderSeq = w.orders.length + 1 := by
    rw [h.next, Nat.mod_eq_of_lt hlen]
  have hold : ∀ {seq p}, (seq, p) ∈ numbered 1 w.orders →
      (seq, p) ∈ numbered 1 (w.orders ++ [payload]) := by
    intro seq p hmem
    rw [numbered_append]
    exact List.mem_append_left _ hmem
  have hnew : (w.client.nextOrderSeq, payload) ∈ numbered 1 (w.orders ++ [payload]) := by
    rw [numbered_append, hseq, Nat.add_comm 1]
    exact List.mem_append_right _ List.mem_cons_self
  constructor
  case count => simpa [act] using hlen
  case next =>
    show nextSeq w.client.nextOrderSeq = _
    rw [hseq, nextSeq]
    simp [act]
  case pending =>
    intro seq p hp
    simp only [act, ClientSession.sendOrder, Std.TreeMap.getElem?_insert] at hp
    split at hp
    next heq =>
      cases hp
      rw [← Nat.compare_eq_eq.mp heq]
      exact hnew
    next => exact hold (h.pending seq p hp)
  case frames =>
    intro dg hdg
    rcases List.mem_append.mp hdg with hdg | hdg
    · rcases h.frames dg hdg with hno | ⟨seq, p, hmem, hdg⟩
      · exact Or.inl hno
      · exact Or.inr ⟨seq, p, hold hmem, hdg⟩
    · exact Or.inr ⟨_, _, hnew, List.mem_singleton.mp hdg⟩
  case taken =>
    obtain ⟨k, hk, hexp, hev⟩ := h.taken
    refine ⟨k, ?_, hexp, ?_⟩
    · simp only [act, List.length_append]
      omega
    · simp only [act, hev, List.take_append_of_le_length hk]

/-- Sending datagrams without new orders keeps everything. -/
theorem send (h : w.OrdersKept) {c : ClientSession} {dgs : List (List UInt8)}
    (hnext : c.nextOrderSeq = w.client.nextOrderSeq)
    (hpend : ∀ (seq : Nat) (p : Payload), c.pending[seq]? = some p →
      w.client.pending[seq]? = some p)
    (hdgs : ∀ dg ∈ dgs, CarriesNoOrder dg ∨
      ∃ (seq : Nat) (p : Payload), w.client.pending[seq]? = some p ∧
        dg = ClientSession.orderFrame seq p) (events : List ClientEvent) :
    { w with client := c, toServer := w.toServer ++ dgs, clientEvents := events }.OrdersKept where
  count := h.count
  next := hnext.trans h.next
  pending seq p hp := h.pending seq p (hpend seq p hp)
  frames dg hdg := by
    rcases List.mem_append.mp hdg with hdg | hdg
    · exact h.frames dg hdg
    · rcases hdgs dg hdg with hno | ⟨seq, p, hp, heq⟩
      · exact Or.inl hno
      · exact Or.inr ⟨seq, p, h.pending seq p hp, heq⟩
  taken := h.taken

/-- A datagram reaches the server, which may take an order from it. -/
theorem received (h : w.OrdersKept) {dg : List UInt8} {k : Nat} (hk : k ≤ w.orders.length)
    {r : List ServerEvent × List (List UInt8) × ServerSession}
    (hcall : w.server.onDatagram dg = r) (hexp : r.2.2.expectedClientSeq = (k + 1) % 2 ^ 32)
    (hev : (w.serverEvents ++ r.1).filterMap ServerEvent.orderOf =
      numbered 1 (w.orders.take k)) : (w.act (.serverReceives dg)).OrdersKept := by
  subst hcall
  exact ⟨h.count, h.next, h.pending, h.frames, k, hk, hexp, hev⟩

/-- An order that reaches the server is the next one, or is not taken. -/
theorem serverReceives_order (h : w.OrdersKept) {seq : Nat} {p : Payload}
    (hmem : (seq, p) ∈ numbered 1 w.orders) :
    (w.act (.serverReceives (ClientSession.orderFrame seq p))).OrdersKept := by
  obtain ⟨hpos, hle⟩ := seq_bounds hmem
  have hcount := h.count
  have hlt : seq < 2 ^ 32 := by omega
  obtain ⟨k, hk, hexp, hev⟩ := h.taken
  rcases w.server.onDatagram_order hlt p with ⟨heq, hcall⟩ | ⟨-, hcall⟩ | ⟨-, _, _, -, hcall⟩
  · have hseq : seq = k + 1 := by
      rw [heq, hexp] at hpos ⊢
      omega
    have hget : w.orders[k]? = some p := by
      have := (mem_numbered.mp hmem).2
      rwa [hseq, Nat.add_sub_cancel] at this
    have hk' : k + 1 ≤ w.orders.length := hseq ▸ hle
    refine h.received hk' hcall ?_ ?_
    · simp only [nextSeq]
      rw [← heq, hseq]
    · simp only [List.filterMap_append, hev]
      rw [List.take_add_one, hget, numbered_append]
      simp [ServerEvent.orderOf, hseq, Nat.min_eq_left hk, Nat.add_comm]
  · exact h.received hk hcall hexp (by simpa using hev)
  · exact h.received hk hcall hexp (by simpa using hev)

theorem serverReceives_noOrder (h : w.OrdersKept) {dg : List UInt8} (hno : CarriesNoOrder dg) :
    (w.act (.serverReceives dg)).OrdersKept := by
  obtain ⟨hserver, hevents, -⟩ := w.server.onDatagram_noOrder hno
  obtain ⟨k, hk, hexp, hev⟩ := h.taken
  refine h.received hk rfl ?_ ?_
  · rw [hserver]
    exact hexp
  · rw [List.filterMap_append, hevents, List.append_nil]
    exact hev

theorem step (h : w.OrdersKept) (a : Action) (ha : w.OnlyClientOrders a) :
    (w.act a).OrdersKept := by
  cases a with
  | sendOrder payload now => exact h.sendOrder ha
  | retransmitDue timeout now =>
      obtain ⟨hpend, hnext, -, hout⟩ := ClientSession.resend_spec now
        ((w.client.pendingTs.toList.filter fun e => timeout ≤ now - e.2).map Prod.fst) w.client
      exact h.send hnext (fun seq p hp => hpend ▸ hp) (fun dg hdg => Or.inr (hout dg hdg)) _
  | nakRequest start count =>
      exact h.send rfl (fun _ _ hp => hp) (fun dg hdg => Or.inl (List.mem_singleton.mp hdg ▸
        carriesNoOrder_encode _ _ (by decide))) _
  | sendHello clientId last =>
      exact h.send rfl (fun _ _ hp => hp) (fun dg hdg => Or.inl (List.mem_singleton.mp hdg ▸
        carriesNoOrder_encode _ _ (by decide))) _
  | ackAndReport clientSeq payload =>
      obtain ⟨k, hk, hexp, hev⟩ := h.taken
      exact ⟨h.count, h.next, h.pending, h.frames, k, hk,
        (w.server.ackAndReport_expected clientSeq payload).trans hexp, hev⟩
  | rejectOrder clientSeq => exact ⟨h.count, h.next, h.pending, h.frames, h.taken⟩
  | serverReceives dg =>
      rcases ha with hmem | hno
      · rcases h.frames dg hmem with hno | ⟨seq, p, horder, rfl⟩
        · exact h.serverReceives_noOrder hno
        · exact h.serverReceives_order horder
      · exact h.serverReceives_noOrder hno
  | clientReceives dg =>
      obtain ⟨hnext, hpend, hout⟩ := w.client.onDatagram_orders dg
      exact h.send hnext hpend (fun out hmem => Or.inl (hout out hmem)) _

end OrdersKept

theorem ordersKept_of_reachable {storeCap : Nat} {w : World}
    (h : Runs.Reachable act OnlyClientOrders (init storeCap) w) : w.OrdersKept :=
  h.invariant (ordersKept_init storeCap) fun _ a _ ha hk => hk.step a ha

/-- The orders the server takes are the first ones of the client, in order and once each. -/
theorem orders_in_order {storeCap : Nat} {w : World}
    (h : Runs.Reachable act OnlyClientOrders (init storeCap) w) :
    ∃ k ≤ w.orders.length,
      w.serverEvents.filterMap ServerEvent.orderOf = numbered 1 (w.orders.take k) := by
  obtain ⟨k, hk, -, hev⟩ := (ordersKept_of_reachable h).taken
  exact ⟨k, hk, hev⟩

/-- The second order comes first, then both come, the first one twice. -/
def swappedOrders : List Action :=
  [.sendOrder [1] 0, .sendOrder [2] 0,
    .serverReceives (ClientSession.orderFrame 2 [2]),
    .serverReceives (ClientSession.orderFrame 1 [1]),
    .serverReceives (ClientSession.orderFrame 1 [1]),
    .serverReceives (ClientSession.orderFrame 2 [2])]

theorem orders_in_order_swapped :
    ∃ k ≤ 2, (swappedOrders.foldl act (init 4)).serverEvents.filterMap ServerEvent.orderOf =
      numbered 1 ([[1], [2]].take k) := by
  have hallowed : Runs.AllAllowed act OnlyClientOrders (init 4) swappedOrders :=
    ⟨by unfold OnlyClientOrders; decide, by unfold OnlyClientOrders; decide, Or.inl (by decide),
      Or.inl (by decide), Or.inl (by decide), Or.inl (by decide), trivial⟩
  exact orders_in_order (Runs.Reachable.start.foldl hallowed)

/-! ## Orders the client waits for -/

/-- The server has taken the order with this number. -/
def Emitted (w : World) (seq : Nat) : Prop :=
  ∃ p, (seq, p) ∈ numbered 1 w.orders ∧ ServerEvent.order seq p ∈ w.serverEvents

/-- Only what was sent is delivered, and the server answers orders it has taken.  Orders are
fewer than `2 ^ 32`. -/
def GenuineTraffic (w : World) : Action → Prop
  | .sendOrder _ _ => w.orders.length + 1 < 2 ^ 32
  | .serverReceives dg => dg ∈ w.toServer
  | .clientReceives dg => ∃ x ∈ w.toClient, x.2 = dg
  | .ackAndReport seq _ => w.Emitted seq
  | .rejectOrder seq => w.Emitted seq
  | _ => True

theorem onlyClientOrders_of_genuine {w : World} {a : Action} (h : w.GenuineTraffic a) :
    w.OnlyClientOrders a := by
  cases a with
  | sendOrder => exact h
  | serverReceives => exact Or.inl h
  | _ => trivial

theorem OrdersKept.emitted_of_lt {w : World} (h : w.OrdersKept) {seq : Nat} (hpos : 0 < seq)
    (hlt : seq < w.server.expectedClientSeq) : w.Emitted seq := by
  obtain ⟨k, hk, hexp, hev⟩ := h.taken
  have hseq : seq ≤ k := by
    have := Nat.mod_le (k + 1) (2 ^ 32)
    omega
  obtain ⟨p, hp⟩ : ∃ p, w.orders[seq - 1]? = some p :=
    ⟨_, List.getElem?_eq_getElem (by omega)⟩
  refine ⟨p, mem_numbered.mpr ⟨hpos, hp⟩, ?_⟩
  rw [← mem_filterMap_orderOf, hev, mem_numbered, List.getElem?_take_of_lt (by omega)]
  exact ⟨hpos, hp⟩

theorem Emitted.seq_bounds {w : World} {seq : Nat} (h : w.Emitted seq) :
    0 < seq ∧ seq ≤ w.orders.length := by
  obtain ⟨p, hp, -⟩ := h
  exact OrdersKept.seq_bounds hp

/-- An order that was taken stays taken. -/
theorem Emitted.act {w : World} {seq : Nat} (h : w.Emitted seq) (a : Action) :
    (w.act a).Emitted seq := by
  obtain ⟨p, hp, hev⟩ := h
  cases a with
  | sendOrder payload now =>
      refine ⟨p, ?_, hev⟩
      show (seq, p) ∈ numbered 1 (w.orders ++ [payload])
      rw [numbered_append]
      exact List.mem_append_left _ hp
  | serverReceives dg => exact ⟨p, hp, List.mem_append_left _ hev⟩
  | _ => exact ⟨p, hp, hev⟩

/-- What is known about the acknowledgements in every state of a run. -/
structure AcksKept (w : World) : Prop where
  /-- An acknowledgement is of an order that was taken, or asks for a retry. -/
  acks : ∀ x ∈ w.toClient, CarriesNoAck x.2 ∨ ∃ seq ack, x.2 = ServerSession.orderAck seq ack ∧
    (0 < seq ∧ seq ≤ w.orders.length) ∧ (ack = ackRetry ∨ w.Emitted seq)
  /-- The client forgets an order that was taken, or one it shall send again. -/
  forgotten : ∀ seq : Nat, 0 < seq → seq ≤ w.orders.length → w.client.pending[seq]? = none →
    w.Emitted seq ∨ .orderAck seq ackRetry ∈ w.clientEvents
  /-- It does forget the orders it shall send again. -/
  retried : ∀ seq, .orderAck seq ackRetry ∈ w.clientEvents →
    (0 < seq ∧ seq ≤ w.orders.length) ∧ w.client.pending[seq]? = none

theorem acksKept_init (storeCap : Nat) : (init storeCap).AcksKept where
  acks := by simp [init]
  forgotten seq hpos hle := absurd hpos (by simpa [init] using hle)
  retried := by simp [init]

namespace AcksKept

variable {w : World}

theorem sendOrder (h : w.AcksKept) (hk : w.OrdersKept) {payload : Payload} {now : Nat}
    (ha : w.GenuineTraffic (.sendOrder payload now)) :
    (w.act (.sendOrder payload now)).AcksKept := by
  have hlen : w.orders.length + 1 < 2 ^ 32 := ha
  have hseq : w.client.nextOrderSeq = w.orders.length + 1 := by
    rw [hk.next, Nat.mod_eq_of_lt hlen]
  have hlength : (w.act (.sendOrder payload now)).orders.length = w.orders.length + 1 := by
    simp [World.act]
  have hpending : ∀ seq : Nat, (w.act (.sendOrder payload now)).client.pending[seq]? =
      if w.orders.length + 1 = seq then some payload else w.client.pending[seq]? := by
    intro seq
    simp only [World.act, ClientSession.sendOrder, hseq, Std.TreeMap.getElem?_insert,
      Nat.compare_eq_eq]
  constructor
  case acks =>
    intro x hx
    rcases h.acks x hx with hno | ⟨seq, ack, heq, hb, hack⟩
    · exact Or.inl hno
    · exact Or.inr ⟨seq, ack, heq, by omega, hack.imp_right (·.act _)⟩
  case forgotten =>
    intro seq hpos hle hnone
    rw [hpending] at hnone
    split at hnone
    next => cases hnone
    next hne => exact (h.forgotten seq hpos (by omega) hnone).imp_left (·.act _)
  case retried =>
    intro seq hev
    obtain ⟨hb, hnone⟩ := h.retried seq hev
    exact ⟨by omega, by rw [hpending, if_neg (by omega), hnone]⟩

/-- A call that leaves the pending orders and sends acknowledgements of orders that were
taken, or requests for a retry. -/
theorem keep (h : w.AcksKept) {a : Action}
    (horders : (w.act a).orders = w.orders)
    (hpending : (w.act a).client.pending = w.client.pending)
    (hevents : ∀ seq, .orderAck seq ackRetry ∈ (w.act a).clientEvents ↔
      .orderAck seq ackRetry ∈ w.clientEvents)
    (hsent : ∀ x ∈ (w.act a).toClient, x ∈ w.toClient ∨ CarriesNoAck x.2 ∨
      ∃ seq ack, x.2 = ServerSession.orderAck seq ack ∧
        (0 < seq ∧ seq ≤ w.orders.length) ∧ (ack = ackRetry ∨ (w.act a).Emitted seq)) :
    (w.act a).AcksKept where
  acks x hx := by
    rw [horders]
    rcases hsent x hx with hx | hx
    · exact (h.acks x hx).imp_right fun ⟨seq, ack, heq, hb, hack⟩ =>
        ⟨seq, ack, heq, hb, hack.imp_right (·.act a)⟩
    · exact hx
  forgotten seq hpos hle hnone := by
    rw [horders] at hle
    rw [hpending] at hnone
    exact (h.forgotten seq hpos hle hnone).imp (·.act a) (hevents seq).mpr
  retried seq hev := by
    rw [horders, hpending]
    exact h.retried seq ((hevents seq).mp hev)

theorem serverReceives (h : w.AcksKept) (hk : w.OrdersKept) {dg : List UInt8}
    (hmem : dg ∈ w.toServer) : (w.act (.serverReceives dg)).AcksKept := by
  refine h.keep rfl rfl (fun _ => Iff.rfl) ?_
  intro x hx
  rcases List.mem_append.mp hx with hx | hx
  · exact Or.inl hx
  obtain ⟨out, hout, rfl⟩ := List.mem_map.mp hx
  refine Or.inr ?_
  rcases hk.frames dg hmem with hno | ⟨seq, p, horder, rfl⟩
  · exact Or.inl ((w.server.onDatagram_noOrder hno).2.2 out hout)
  have hb := OrdersKept.seq_bounds horder
  have hlt : seq < 2 ^ 32 := lt_of_le_of_lt hb.2 hk.count
  rcases w.server.onDatagram_order hlt p with ⟨-, hcall⟩ | ⟨hold, hcall⟩ |
    ⟨-, naks, last, hnaks, hcall⟩
  · rw [hcall] at hout
    refine Or.inr ⟨seq, ackOk, List.mem_singleton.mp hout, hb, Or.inr ⟨p, horder, ?_⟩⟩
    exact List.mem_append_right _ (by rw [hcall]; exact List.mem_cons_self)
  · rw [hcall] at hout
    exact Or.inr ⟨seq, ackOk, List.mem_singleton.mp hout, hb,
      Or.inr ((hk.emitted_of_lt hb.1 hold).act _)⟩
  · rw [hcall] at hout
    rcases List.mem_append.mp hout with hout | hout
    · exact Or.inl (hnaks out hout)
    · exact Or.inr ⟨seq, ackRetry, List.mem_singleton.mp hout, hb, Or.inl rfl⟩

theorem clientReceives (h : w.AcksKept) (hk : w.OrdersKept) {x : ServerSession × List UInt8}
    (hx : x ∈ w.toClient) : (w.act (.clientReceives x.2)).AcksKept := by
  rcases h.acks x hx with hno | ⟨seq, ack, heq, hb, hack⟩
  · obtain ⟨⟨e, he⟩, hev, -⟩ := w.client.onDatagram_noAck hno
    refine h.keep rfl (by simp only [World.act, he]) (fun seq => ?_) (fun x hx => Or.inl hx)
    show _ ∈ w.clientEvents ++ (w.client.onDatagram x.2).1 ↔ _
    rw [List.mem_append, or_iff_left (hev seq ackRetry)]
  · have hlt : seq < 2 ^ 32 := lt_of_le_of_lt hb.2 hk.count
    have hcall := w.client.onDatagram_orderAck hlt ack
    rw [heq]
    have hpending : ∀ s : Nat,
        (w.act (.clientReceives (ServerSession.orderAck seq ack))).client.pending[s]? =
          if seq = s then none else w.client.pending[s]? := by
      intro s
      simp only [World.act, hcall, Std.TreeMap.getElem?_erase, Nat.compare_eq_eq]
    have hevents : (w.act (.clientReceives (ServerSession.orderAck seq ack))).clientEvents =
        w.clientEvents ++ [.orderAck seq ack] := by
      simp only [World.act, hcall]
    constructor
    case acks => exact h.acks
    case forgotten =>
      intro s hpos hle hnone
      rw [hevents]
      rw [hpending] at hnone
      split at hnone
      next heq' =>
        subst heq'
        rcases hack with rfl | hem
        · exact Or.inr (List.mem_append_right _ List.mem_cons_self)
        · exact Or.inl (hem.act _)
      next =>
        exact (h.forgotten s hpos hle hnone).imp (·.act _) (List.mem_append_left _)
    case retried =>
      intro s hev
      rw [hevents, List.mem_append, List.mem_singleton] at hev
      rw [hpending]
      rcases hev with hev | hev
      · obtain ⟨hb', hnone⟩ := h.retried s hev
        exact ⟨hb', by rw [hnone, ite_self]⟩
      · cases hev
        exact ⟨hb, if_pos rfl⟩

/-- The answers to an order that was taken. -/
theorem answer (h : w.AcksKept) {a : Action} {dgs : List (List UInt8)}
    (horders : (w.act a).orders = w.orders) (hclient : (w.act a).client = w.client)
    (hevents : (w.act a).clientEvents = w.clientEvents)
    (hsent : (w.act a).toClient = w.toClient ++ dgs.map (fun dg => (w.server, dg)))
    {seq : Nat} (hem : w.Emitted seq)
    (hdgs : ∀ dg ∈ dgs, CarriesNoAck dg ∨ ∃ ack, dg = ServerSession.orderAck seq ack) :
    (w.act a).AcksKept := by
  refine h.keep horders (by rw [hclient]) (fun _ => by rw [hevents]) ?_
  intro x hx
  rw [hsent] at hx
  rcases List.mem_append.mp hx with hx | hx
  · exact Or.inl hx
  obtain ⟨dg, hdg, rfl⟩ := List.mem_map.mp hx
  exact Or.inr ((hdgs dg hdg).imp_right fun ⟨ack, heq⟩ =>
    ⟨seq, ack, heq, hem.seq_bounds, Or.inr (hem.act a)⟩)

theorem step (h : w.AcksKept) (hk : w.OrdersKept) (a : Action) (ha : w.GenuineTraffic a) :
    (w.act a).AcksKept := by
  cases a with
  | sendOrder payload now => exact h.sendOrder hk ha
  | retransmitDue timeout now =>
      exact h.keep rfl (ClientSession.resend_spec now _ w.client).1 (fun _ => Iff.rfl)
        (fun x hx => Or.inl hx)
  | nakRequest start count =>
      exact h.keep rfl rfl (fun _ => Iff.rfl) (fun x hx => Or.inl hx)
  | sendHello clientId last =>
      exact h.keep rfl rfl (fun _ => Iff.rfl) (fun x hx => Or.inl hx)
  | ackAndReport clientSeq payload =>
      refine h.answer rfl rfl rfl rfl ha ?_
      intro dg hdg
      rcases List.mem_cons.mp hdg with rfl | hdg
      · exact Or.inr ⟨_, rfl⟩
      · exact Or.inl (List.mem_singleton.mp hdg ▸ carriesNoAck_encode _ _ (by decide))
  | rejectOrder clientSeq =>
      refine h.answer rfl rfl rfl rfl ha ?_
      intro dg hdg
      exact Or.inr ⟨_, List.mem_singleton.mp hdg⟩
  | serverReceives dg => exact h.serverReceives hk ha
  | clientReceives dg =>
      obtain ⟨x, hx, rfl⟩ := ha
      exact h.clientReceives hk hx

end AcksKept

theorem acksKept_of_reachable {storeCap : Nat} {w : World}
    (h : Runs.Reachable act GenuineTraffic (init storeCap) w) : w.AcksKept :=
  h.invariant (acksKept_init storeCap) fun _ a hr ha hk =>
    hk.step (ordersKept_of_reachable (hr.mono fun _ _ => onlyClientOrders_of_genuine)) a ha

/-- The client keeps every order until the server has taken it. -/
def KeepsUntilTaken (w : World) : Prop :=
  ∀ seq : Nat, 0 < seq → seq ≤ w.orders.length → w.client.pending[seq]? = none → w.Emitted seq

/-- The client is told to retry only orders that the server has taken by then. -/
def RetriesTaken (w : World) : Action → Prop
  | .clientReceives dg =>
      ∀ seq, seq < 2 ^ 32 → dg = ServerSession.orderAck seq ackRetry → w.Emitted seq
  | _ => True

/-- The actions under which no order is lost. -/
def SafeTraffic (w : World) (a : Action) : Prop := w.GenuineTraffic a ∧ w.RetriesTaken a

/-- The retries the client was told of, after an action. -/
theorem retry_mem_act {w : World} (hk : w.AcksKept) (ho : w.OrdersKept) {a : Action}
    (ha : w.GenuineTraffic a) {seq : Nat} (hev : .orderAck seq ackRetry ∈ (w.act a).clientEvents) :
    .orderAck seq ackRetry ∈ w.clientEvents ∨
      seq < 2 ^ 32 ∧ a = .clientReceives (ServerSession.orderAck seq ackRetry) := by
  cases a with
  | clientReceives dg =>
      rcases List.mem_append.mp hev with hev | hev
      · exact Or.inl hev
      · obtain ⟨x, hx, rfl⟩ := ha
        rcases hk.acks x hx with hno | ⟨seq', ack, heq, hb, -⟩
        · exact absurd hev ((w.client.onDatagram_noAck hno).2.1 seq ackRetry)
        · have hlt : seq' < 2 ^ 32 := lt_of_le_of_lt hb.2 ho.count
          rw [heq, w.client.onDatagram_orderAck hlt] at hev
          cases List.mem_singleton.mp hev
          exact Or.inr ⟨hlt, by rw [heq]⟩
  | _ => exact Or.inl hev

/-- In a run in which retries are for orders that were taken, the server has taken all of them. -/
theorem retries_of_reachable {storeCap : Nat} {w : World}
    (h : Runs.Reachable act SafeTraffic (init storeCap) w) :
    ∀ seq, .orderAck seq ackRetry ∈ w.clientEvents → w.Emitted seq := by
  induction h with
  | start => simp [init]
  | @step w hr a ha ih =>
      have hgen := hr.mono fun _ _ h => h.1
      intro seq hev
      rcases retry_mem_act (acksKept_of_reachable hgen)
        (ordersKept_of_reachable (hgen.mono fun _ _ => onlyClientOrders_of_genuine)) ha.1 hev with
        hev | ⟨hlt, rfl⟩
      · exact (ih seq hev).act a
      · exact (ha.2 seq hlt rfl).act _

theorem keepsUntilTaken_of_reachable {storeCap : Nat} {w : World}
    (h : Runs.Reachable act SafeTraffic (init storeCap) w) : w.KeepsUntilTaken := by
  intro seq hpos hle hnone
  rcases (acksKept_of_reachable (h.mono fun _ _ h => h.1)).forgotten seq hpos hle hnone with
    hem | hev
  · exact hem
  · exact retries_of_reachable h seq hev

/-- In every run in which the client is told to retry only orders that were taken, it keeps
every order until the server has taken it.  The next action keeps it so exactly if it meets
the condition too. -/
theorem pending_until_taken_iff {storeCap : Nat} {w : World}
    (h : Runs.Reachable act SafeTraffic (init storeCap) w) :
    w.KeepsUntilTaken ∧
      ∀ a, w.GenuineTraffic a → ((w.act a).KeepsUntilTaken ↔ w.RetriesTaken a) := by
  refine ⟨keepsUntilTaken_of_reachable h, fun a ha => ⟨fun hkeeps => ?_, fun hretry =>
    keepsUntilTaken_of_reachable (h.step a ⟨ha, hretry⟩)⟩⟩
  have hgen := h.mono fun _ _ h => h.1
  have hnext := acksKept_of_reachable (hgen.step a ha)
  cases a with
  | clientReceives dg =>
      rintro seq hlt rfl
      have hev : .orderAck seq ackRetry ∈
          (w.act (.clientReceives (ServerSession.orderAck seq ackRetry))).clientEvents := by
        refine List.mem_append_right _ ?_
        rw [w.client.onDatagram_orderAck hlt]
        exact List.mem_cons_self
      obtain ⟨⟨hpos, hle⟩, hnone⟩ := hnext.retried seq hev
      exact hkeeps seq hpos hle hnone
  | _ => trivial

/-- The client sends an order again that the server has not answered in time, and then
gets the answer. -/
def answeredOrder : List Action :=
  [.sendOrder [1] 0, .retransmitDue 5 7,
    .serverReceives (ClientSession.orderFrame 1 [1]),
    .clientReceives (ServerSession.orderAck 1 ackOk)]

theorem pending_until_taken_iff_answered :
    (answeredOrder.foldl act (init 4)).client.pending[1]? = none ∧
      (answeredOrder.foldl act (init 4)).Emitted 1 := by
  have hnoRetry : ∀ seq, ServerSession.orderAck 1 ackOk ≠ ServerSession.orderAck seq ackRetry := by
    intro seq heq
    have hlast := congrArg List.getLast? heq
    simp [ServerSession.orderAck, encode, ackOk, ackRetry, ← List.append_assoc] at hlast
  have hallowed : Runs.AllAllowed act SafeTraffic (init 4) answeredOrder :=
    ⟨⟨by unfold GenuineTraffic; decide, trivial⟩, ⟨trivial, trivial⟩,
      ⟨by unfold GenuineTraffic; decide +kernel, trivial⟩,
      ⟨⟨(ServerSession.new 4, _), by decide +kernel, rfl⟩,
        fun seq _ heq => absurd heq (hnoRetry seq)⟩, trivial⟩
  have hnone : (answeredOrder.foldl act (init 4)).client.pending[1]? = none := by
    decide +kernel
  exact ⟨hnone, (pending_until_taken_iff (Runs.Reachable.start.foldl hallowed)).1 1
    (by decide) (by decide +kernel) hnone⟩

/-- The second of two orders comes first and is acknowledged for a retry. -/
def retriedOrder : List Action :=
  [.sendOrder [1] 0, .sendOrder [2] 0,
    .serverReceives (ClientSession.orderFrame 2 [2]),
    .clientReceives (ServerSession.orderAck 2 ackRetry)]

/-- The client forgets an order that the server has not taken. -/
theorem retry_forgets_order :
    Runs.Reachable act GenuineTraffic (init 4) (retriedOrder.foldl act (init 4)) ∧
      (retriedOrder.foldl act (init 4)).orders = [[1], [2]] ∧
      (retriedOrder.foldl act (init 4)).client.pending[2]? = none ∧
      ¬ (retriedOrder.foldl act (init 4)).Emitted 2 ∧
      ¬ (retriedOrder.foldl act (init 4)).KeepsUntilTaken := by
  have hnone : (retriedOrder.foldl act (init 4)).client.pending[2]? = none := by decide +kernel
  have hlost : ¬ (retriedOrder.foldl act (init 4)).Emitted 2 := by
    rintro ⟨p, -, hev⟩
    have hnothing : (retriedOrder.foldl act (init 4)).serverEvents = [] := by decide +kernel
    rw [hnothing] at hev
    cases hev
  refine ⟨Runs.Reachable.start.foldl ?_, rfl, hnone, hlost, fun hkeeps =>
    hlost (hkeeps 2 (by decide) (by decide +kernel) hnone)⟩
  exact ⟨by unfold GenuineTraffic; decide, by unfold GenuineTraffic; decide,
      by unfold GenuineTraffic; decide +kernel,
      ⟨(ServerSession.new 4, _), by decide +kernel, rfl⟩, trivial⟩

end World

end MatchUdpOrder
