import MatchRust.Hp.Matching

/-!
# What a command does

The queues, the events and the client index after each command, for an engine
whose book represents queues.  A limit order sweeps the other side, and what is
left of it rests.  A market order sweeps the other side, and what is left of it
is dropped.  A cancel takes orders out of the queues.
-/

namespace MatchCoreHp

open PriceTime

/-! ## Results of a command -/

/-- The sweep of an order of this side, limit and cap. -/
def takerSweep (q : Queues) (side : Side) (limitTick : Option Int) (maxFills : Option Nat)
    (qtyLot : Int) : Sweep HpOrder Int :=
  sweep makers (crosses side limitTick) maxFills qtyLot (q side.opp)

/-- The order of a sweep, if some of it is left. -/
def leftover (order : HpOrder) (sw : Sweep HpOrder Int) : List HpOrder :=
  if 0 < sw.left then [{ order with openLot := sw.left }] else []

/-- The queues after a sweep.  An order that is left over rests. -/
def Queues.settle (q : Queues) (side : Side) (sw : Sweep HpOrder Int) (left : List HpOrder) :
    Queues :=
  (q.set side.opp sw.book).set side (left.foldr (restIn side) (q side))

/-- The queues without the order of this identifier. -/
def Queues.without (q : Queues) (id : Nat) : Queues := fun s => MatchCoreHp.without id (q s)

/-- The queues without the orders of these identifiers. -/
def Queues.withoutAll (q : Queues) : List Nat → Queues
  | [] => q
  | id :: ids => (q.without id).withoutAll ids

theorem Queues.mem_without {q : Queues} {id : Nat} {s : Side} {o : HpOrder} :
    o ∈ q.without id s ↔ o ∈ q s ∧ o.id ≠ id := MatchCoreHp.mem_without

theorem Queues.mem_withoutAll {q : Queues} {ids : List Nat} {s : Side} {o : HpOrder} :
    o ∈ q.withoutAll ids s ↔ o ∈ q s ∧ o.id ∉ ids := by
  induction ids generalizing q with
  | nil => simp [withoutAll]
  | cons id ids ih =>
      rw [withoutAll, ih, mem_without, List.mem_cons, not_or]
      exact and_assoc

theorem Queues.settle_nil (q : Queues) (side : Side) (sw : Sweep HpOrder Int) :
    q.settle side sw [] = q.set side.opp sw.book :=
  Queues.set_eq_self (Queues.set_opp_self ..)

theorem Queues.settle_single (q : Queues) (side : Side) (sw : Sweep HpOrder Int) (o : HpOrder) :
    q.settle side sw [o] =
      (q.set side.opp sw.book).set side (restIn side o ((q.set side.opp sw.book) side)) := by
  rw [settle, Queues.set_opp_self]
  rfl

/-- The event of an order that comes to rest. -/
def restEvent (o : HpOrder) : HpEvent := .rest o.id o.clientId o.side o.priceTick o.openLot

/-- The event of a market order that is dropped. -/
def dropEvent (o : HpOrder) : HpEvent := .revoke o.id o.clientId 1

/-- The client index with one order more. -/
def indexRested (index : ClientIndex) (left : List HpOrder) : ClientIndex :=
  left.foldl (fun index o => index.push o.clientId o.id) index

/-- The sums of the levels are 64-bit integers. -/
def Queues.Fits (q : Queues) : Prop := ∀ s t, sumOpen (atTick t (q s)) ≤ i64Max

section Commands

variable {B A : Type} [LevelIndex B] [LevelIndex A] {exact : Prop} {q : Queues} {e : HpEngine B A}
  {o : HpOrder} {side : Side}

/-! ## Cancels -/

/-- Taking out one order leaves the other queue as it is. -/
theorem Represents.set_eq_without {book : Book B A} {working pre post : List HpOrder} {o : HpOrder}
    {side : Side} (h : Represents exact book q working) (hq : q side = pre ++ o :: post) :
    q.set side (pre ++ post) = q.without o.id := by
  have hnd := h.nodup side
  funext s
  by_cases hs : s = side
  · subst hs
    rw [hq] at hnd
    rw [Queues.set_self, Queues.without, hq, without_middle hnd]
  · rw [Queues.set_ne q hs, Queues.without, without_eq_self]
    intro x hx he
    obtain rfl : s = side.opp := (side.eq_or_opp s).resolve_left hs
    have hperm := h.holds.perm (perm_take working pre post hq)
    refine hperm.ne_head x ?_ he
    refine List.mem_append_right working (Queues.mem_orders.mpr ⟨side.opp, ?_⟩)
    rw [Queues.set_opp]
    exact hx

/-- A live order is in the queue of its side. -/
theorem Represents.mem_of_get {book : Book B A} {o : HpOrder} {id : Nat}
    (h : Represents exact book q []) (hget : book.store.get id = some o) :
    o ∈ q o.side ∧ o.id = id := by
  obtain ⟨ho, hid⟩ := (h.holds.get_iff id o).mp hget
  obtain ⟨s, hs⟩ := Queues.mem_orders.mp ho
  rw [(h.side s).side_eq o hs]
  exact ⟨hs, hid⟩

theorem Represents.cancel_dead {book : Book B A} {id : Nat} (h : Represents exact book q [])
    (hget : book.store.get id = none) :
    book.cancel id = (false, book) ∧ q.without id = q := by
  constructor
  · have hfst := book.store.remove_fst id
    rw [hget] at hfst
    unfold Book.cancel
    split
    next => rfl
    next heq => rw [heq] at hfst; cases hfst
  · funext s
    refine without_eq_self fun o ho he => ?_
    rw [← he, h.get ho] at hget
    cases hget

variable [LawfulLevelIndex .buy B] [LawfulLevelIndex .sell A]

theorem Represents.cancel_live {book : Book B A} {o : HpOrder} {id : Nat}
    (h : Represents exact book q []) (hget : book.store.get id = some o) :
    (book.cancel id).1 = true ∧ Represents exact (book.cancel id).2 (q.without id) [] := by
  obtain ⟨ho, rfl⟩ := h.mem_of_get hget
  obtain ⟨pre, post, hq⟩ := List.append_of_mem ho
  rw [← h.set_eq_without hq]
  exact h.cancel hq

namespace HpEngine

/-- Cancelling a list of orders takes them out of the queues. -/
theorem cancelAll_rep (client : Nat) (slots : List Nat) (q : Queues) (e : HpEngine B A)
    (h : Represents exact e.book q []) :
    Represents exact (cancelAll client slots e).book (q.withoutAll slots) [] ∧
      (cancelAll client slots e).clientToId = e.clientToId := by
  induction slots generalizing q e with
  | nil => exact ⟨h, rfl⟩
  | cons slot slots ih =>
      cases hget : e.book.store.get slot with
      | none =>
          obtain ⟨hc, hq⟩ := h.cancel_dead hget
          rw [cancelAll, hc, Queues.withoutAll, hq]
          exact ih q _ h
      | some o =>
          obtain ⟨hc, hrep⟩ := h.cancel_live hget
          rw [cancelAll, Queues.withoutAll, show e.book.cancel slot = (true, (e.book.cancel slot).2)
            from Prod.ext hc rfl]
          exact ih _ _ hrep

/-- Cancelling a list of live orders revokes them one by one. -/
theorem cancelAll_events (client : Nat) (slots : List Nat) (q : Queues) (e : HpEngine B A)
    (h : Represents exact e.book q []) (hnd : slots.Nodup)
    (hlive : ∀ id ∈ slots, ∃ s, ∃ o ∈ q s, o.id = id) :
    (cancelAll client slots e).events =
      e.events ++ slots.map fun id => .revoke id client 0 := by
  induction slots generalizing q e with
  | nil => simp [cancelAll]
  | cons slot slots ih =>
      obtain ⟨s, o, ho, rfl⟩ := hlive slot (List.mem_cons_self ..)
      obtain ⟨hc, hrep⟩ := h.cancel_live (h.get ho)
      rw [cancelAll, show e.book.cancel o.id = (true, (e.book.cancel o.id).2) from Prod.ext hc rfl]
      obtain ⟨hnot, hnd⟩ := List.nodup_cons.mp hnd
      have hlive' : ∀ id ∈ slots, ∃ s, ∃ x ∈ (q.without o.id) s, x.id = id := by
        intro id hid
        obtain ⟨s, x, hx, rfl⟩ := hlive id (List.mem_cons_of_mem _ hid)
        exact ⟨s, x, Queues.mem_without.mpr ⟨hx, fun he => hnot (he ▸ hid)⟩, rfl⟩
      refine (ih _ _ hrep hnd hlive').trans ?_
      simp

omit [LawfulLevelIndex .buy B] [LawfulLevelIndex .sell A] in
/-- What a command makes of an engine. -/
structure Settled (exact : Prop) (q : Queues) (events : List HpEvent) (index : ClientIndex)
    (e : HpEngine B A) : Prop where
  book : Represents exact e.book q []
  events : e.events = events
  clients : e.clientToId = index

/-- A cancel of a live slot takes out its order. -/
theorem onCancel_live (h : Represents exact e.book q []) {id : Nat}
    (hget : e.book.store.get id = some o) :
    Settled exact (q.without id) (e.events ++ [.revoke id o.clientId 0])
      (e.clientToId.drop o.clientId id) (e.onCancel id) := by
  obtain ⟨hc, hrep⟩ := h.cancel_live hget
  have heq : e.book.cancel id = (true, (e.book.cancel id).2) := Prod.ext hc rfl
  simp only [onCancel, hget]
  rw [heq]
  exact ⟨hrep, rfl, rfl⟩

/-- A cancel of an empty slot takes out the orders the index has for it. -/
theorem onCancel_client (h : Represents exact e.book q []) {id : Nat}
    (hget : e.book.store.get id = none) {list : List Nat} (hlist : e.clientToId[id]? = some list) :
    Represents exact (e.onCancel id).book (q.withoutAll list) [] ∧
      (e.onCancel id).clientToId = e.clientToId.erase id ∧
      (list.Nodup → (∀ i ∈ list, ∃ s, ∃ o ∈ q s, o.id = i) →
        (e.onCancel id).events = e.events ++ list.map fun i => .revoke i id 0) := by
  have heq : e.onCancel id = cancelAll id list { e with clientToId := e.clientToId.erase id } := by
    simp only [onCancel, hget, hlist]
  have hrep := cancelAll_rep id list q { e with clientToId := e.clientToId.erase id } h
  rw [heq]
  exact ⟨hrep.1, hrep.2, cancelAll_events id list q _ h⟩

omit [LawfulLevelIndex .buy B] [LawfulLevelIndex .sell A] in
theorem onCancel_none {id : Nat} (hget : e.book.store.get id = none)
    (hlist : e.clientToId[id]? = none) : e.onCancel id = e := by
  simp only [onCancel, hget, hlist]

/-! ## Takers -/

omit [LawfulLevelIndex .buy B] [LawfulLevelIndex .sell A] in
theorem matchSide_eq (side : Side) (takerId takerClient : Nat) (limitTick : Option Int)
    (maxFills : Option Nat) (e : HpEngine B A) :
    matchSide side takerId takerClient limitTick maxFills e =
      matchTaker side takerId takerClient limitTick maxFills e := by
  cases side with
  | buy => rfl
  | sell => rfl

/-- A stored taker sweeps the other side. -/
theorem matchSide_swept (h : Represents exact e.book q [o]) (hpos : 0 < o.openLot)
    (limitTick : Option Int) (maxFills : Option Nat) :
    Swept exact q [{ o with openLot := (takerSweep q side limitTick maxFills o.openLot).left }] side
      o.id o.clientId e (takerSweep q side limitTick maxFills o.openLot)
      ((takerSweep q side limitTick maxFills o.openLot).left,
        matchSide side o.id o.clientId limitTick maxFills e) := by
  have hget : e.book.store.get o.id = some o := h.holds.get (List.mem_cons_self ..)
  have hopen : e.book.store.remainingOpen o.id = o.openLot := by
    rw [OrderStore.remainingOpen, hget]
    rfl
  have hcap : capLeft maxFills 0 = maxFills := by
    cases maxFills with
    | none => rfl
    | some n => rfl
  have hsw : Swept exact q [o] side o.id o.clientId e
      (sweep makers (crosses side limitTick) (capLeft maxFills 0) o.openLot (q side.opp))
      (matchLoop side o.id o.clientId limitTick maxFills 0 o.openLot e) :=
    matchLoop_swept (q side.opp) q e 0 o.openLot h rfl hpos
  rw [hcap] at hsw
  rw [matchSide_eq, matchTaker, hopen]
  refine ⟨rfl, hsw.events, hsw.clients, ?_⟩
  refine hsw.book.withStore ?_
  rw [hsw.left]
  exact hsw.book.holds.modify _ rfl

omit [LawfulLevelIndex .buy B] [LawfulLevelIndex .sell A] in
/-- The order of a command, in the next slot. -/
def taker (e : HpEngine B A) (side : Side) (priceTick qtyLot : Int) (ts clientId : Nat) :
    HpOrder :=
  { id := e.book.store.nextId, side := side, priceTick := priceTick, qtyLot := qtyLot,
    openLot := qtyLot, ts := ts, clientId := clientId }

omit [LevelIndex B] [LevelIndex A] [LawfulLevelIndex .buy B] [LawfulLevelIndex .sell A] in
theorem remainingOpen_of_holds {store : OrderStore} {orders : List HpOrder}
    (h : Holds store (o :: orders)) : store.remainingOpen o.id = o.openLot := by
  rw [OrderStore.remainingOpen, h.get (List.mem_cons_self ..)]
  rfl

/-- A command's order is stored and sweeps the other side. -/
theorem admit_swept (h : Represents exact e.book q []) {priceTick qtyLot : Int}
    {ts clientId : Nat} (hpos : 0 < qtyLot) (ho : o = e.taker side priceTick qtyLot ts clientId)
    (limitTick : Option Int) (maxFills : Option Nat) :
    Swept exact q [{ o with openLot := (takerSweep q side limitTick maxFills qtyLot).left }] side
      o.id clientId e (takerSweep q side limitTick maxFills qtyLot)
      ((takerSweep q side limitTick maxFills qtyLot).left,
        matchSide side o.id clientId limitTick maxFills
          { e with book := { e.book with store :=
            (OrderStore.insert e.book.store { o with id := 0 }).2 } }) := by
  subst ho
  have hstart := h.start { e.taker side priceTick qtyLot ts clientId with id := 0 }
  have hsw := @matchSide_swept _ _ _ _ _ _ { e with book := { e.book with store :=
    (OrderStore.insert e.book.store
      { e.taker side priceTick qtyLot ts clientId with id := 0 }).2 } }
    _ side _ _ hstart hpos limitTick maxFills
  exact ⟨hsw.left, hsw.events, hsw.clients, hsw.book⟩

omit [LawfulLevelIndex .buy B] [LawfulLevelIndex .sell A] in
theorem takerSweep_left_le (h : Represents exact e.book q []) {qtyLot : Int} (hpos : 0 < qtyLot)
    (limitTick : Option Int) (maxFills : Option Nat) :
    (takerSweep q side limitTick maxFills qtyLot).left ≤ qtyLot :=
  left_le makers _ _ _ _ hpos.le fun m hm => ((h.side side.opp).live m hm).1

/-- A limit order sweeps the other side, and what is left of it rests. -/
theorem onLimit_settled (h : Represents exact e.book q []) {priceTick qtyLot : Int}
    {ts clientId : Nat} {sw : Sweep HpOrder Int} (hpos : 0 < qtyLot)
    (ho : o = e.taker side priceTick qtyLot ts clientId)
    (hsw : sw = takerSweep q side (some priceTick) none qtyLot)
    (hfit : exact → (q.settle side sw (leftover o sw)).Fits) :
    Settled exact (q.settle side sw (leftover o sw))
      (e.events ++ sw.fills.map (fillEvent o.id clientId) ++ (leftover o sw).map restEvent)
      (indexRested (dropFilled e.clientToId sw.fills) (leftover o sw))
      (e.onLimit side priceTick qtyLot ts clientId) := by
  have hswept := admit_swept h hpos ho (some priceTick) none
  have hle : sw.left ≤ qtyLot := hsw ▸ takerSweep_left_le h hpos (some priceTick) none
  rw [← hsw] at hswept
  obtain ⟨m, hm⟩ : ∃ m, m = matchSide side o.id clientId (some priceTick) none
      { e with book := { e.book with store :=
        (OrderStore.insert e.book.store { o with id := 0 }).2 } } := ⟨_, rfl⟩
  rw [← hm] at hswept
  have hopen : m.book.store.remainingOpen o.id = sw.left :=
    remainingOpen_of_holds hswept.book.holds
  have heq : e.onLimit side priceTick qtyLot ts clientId =
      if 0 < sw.left then
        { book := m.book.rest o.id
          clientToId := m.clientToId.push clientId o.id
          events := m.events ++ [.rest o.id clientId side priceTick sw.left] }
      else { m with book := { m.book with store := (m.book.store.remove o.id).2 } } := by
    rw [onLimit, if_neg (not_le.mpr hpos), ← hopen, hm, ho]
    rfl
  rw [heq]
  split
  next hl =>
    have hleft : leftover o sw = [{ o with openLot := sw.left }] := if_pos hl
    rw [hleft] at hfit ⊢
    have hfit' : exact →
        sumOpen (atTick o.priceTick (restIn side { o with openLot := sw.left }
          ((q.set side.opp sw.book) side))) ≤ i64Max := by
      intro hx
      have hf := hfit hx side o.priceTick
      rwa [Queues.settle_single, Queues.set_self] at hf
    subst ho
    rw [Queues.settle_single]
    refine ⟨hswept.book.rest rfl ⟨hl, hle⟩ hfit', ?_, ?_⟩
    · rw [hswept.events]
      rfl
    · rw [hswept.clients]
      rfl
  next hl =>
    have hleft : leftover o sw = [] := if_neg hl
    rw [hleft, Queues.settle_nil]
    exact ⟨hswept.book.finish, by rw [hswept.events]; simp, hswept.clients⟩

/-- A market order sweeps the other side, and what is left of it is dropped. -/
theorem onMarket_settled (h : Represents exact e.book q []) {qtyLot : Int} {ts clientId : Nat}
    {maxFills : Option Nat} {sw : Sweep HpOrder Int} (hpos : 0 < qtyLot)
    (ho : o = e.taker side 0 qtyLot ts clientId)
    (hsw : sw = takerSweep q side none maxFills qtyLot) :
    Settled exact (q.settle side sw [])
      (e.events ++ sw.fills.map (fillEvent o.id clientId) ++ (leftover o sw).map dropEvent)
      (dropFilled e.clientToId sw.fills)
      (e.onMarket side qtyLot ts maxFills clientId) := by
  have hswept := admit_swept h hpos ho none maxFills
  rw [← hsw] at hswept
  obtain ⟨m, hm⟩ : ∃ m, m = matchSide side o.id clientId none maxFills
      { e with book := { e.book with store :=
        (OrderStore.insert e.book.store { o with id := 0 }).2 } } := ⟨_, rfl⟩
  rw [← hm] at hswept
  have hopen : m.book.store.remainingOpen o.id = sw.left :=
    remainingOpen_of_holds hswept.book.holds
  have heq : e.onMarket side qtyLot ts maxFills clientId =
      { m with
        events := if 0 < sw.left then m.events ++ [.revoke o.id clientId 1] else m.events
        book := { m.book with store := (m.book.store.remove o.id).2 } } := by
    rw [onMarket, if_neg (not_le.mpr hpos), ← hopen, hm, ho]
    rfl
  rw [heq, Queues.settle_nil]
  refine ⟨hswept.book.finish, ?_, hswept.clients⟩
  show (if 0 < sw.left then m.events ++ [.revoke o.id clientId 1] else m.events) = _
  rw [hswept.events, leftover]
  subst ho
  split
  next => rfl
  next => simp

end HpEngine

end Commands

end MatchCoreHp
