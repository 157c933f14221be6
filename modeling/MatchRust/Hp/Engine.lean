import MatchRust.Hp.Book

/-!
# The fixed-point engine

A limit or market order is stored first, then matched with the other side, and
what is left of it rests (limit) or is dropped (market).  Matching takes the
oldest order of the best tick, again and again.  The loop ends because every
round fills at least one lot of the taker.

A cancel names a slot.  If the slot is empty, the same number is taken for a
client, and all orders of that client are cancelled.  For this the engine
keeps the resting orders of every client (`clientToId`).  The map is hashed in
the source and never iterated, so an ordered map stands for it here.

`match_buy` and `match_sell` are mirror images and are one loop here, with the
taker's side as a parameter.  The number of fills is a 32-bit counter that is
only compared with a 32-bit bound, so it is a natural number.
-/

namespace MatchCoreHp

/-- The resting orders of each client. -/
abbrev ClientIndex := Std.TreeMap Nat (List Nat)

namespace ClientIndex

/-- Add an order to a client. -/
def push (index : ClientIndex) (client id : Nat) : ClientIndex :=
  index.insert client ((index[client]?).getD [] ++ [id])

/-- Take an order from a client, and the client with its last order. -/
def drop (index : ClientIndex) (client id : Nat) : ClientIndex :=
  match index[client]? with
  | none => index
  | some list =>
      let list := list.filter fun x => x ≠ id
      if list.isEmpty then index.erase client else index.insert client list

end ClientIndex

/-- High-performance matching engine. -/
structure HpEngine (B A : Type) where
  book : Book B A
  events : List HpEvent
  clientToId : ClientIndex

/-- The engine with ordered maps as indexes. -/
abbrev BTreeEngine := HpEngine BTreeBidIndex BTreeAskIndex

namespace OrderStore

/-- The open lots of an order, none if it is missing. -/
def remainingOpen (store : OrderStore) (id : Nat) : Int :=
  ((store.get id).map HpOrder.openLot).getD 0

/-- The open lots and the client of a maker. -/
def makerOpenAndClient (store : OrderStore) (id : Nat) : Option (Int × Nat) :=
  (store.get id).bind fun order =>
    if order.openLot ≤ 0 then none else some (order.openLot, order.clientId)

/-- Record what is left of the taker. -/
def setTakerOpen (store : OrderStore) (id : Nat) (openLot : Int) : OrderStore :=
  store.modify id fun order => { order with openLot := openLot }

theorem makerOpenAndClient_pos {store : OrderStore} {id : Nat} {p : Int × Nat}
    (h : store.makerOpenAndClient id = some p) : 0 < p.1 := by
  obtain ⟨order, -, h⟩ := Option.bind_eq_some_iff.mp h
  split at h
  next => cases h
  next hpos => cases h; exact not_le.mp hpos

end OrderStore

namespace HpEngine

variable {B A : Type} [LevelIndex B] [LevelIndex A]

/-- An engine without orders. -/
def new : HpEngine B A := ⟨Book.new, [], ∅⟩

/-- An engine without orders, with pooled levels. -/
def withCapacity : HpEngine B A := ⟨Book.withCapacity, [], ∅⟩

/-! ## Cancels -/

/-- Cancel the orders of a client, one after the other. -/
def cancelAll (client : Nat) : List Nat → HpEngine B A → HpEngine B A
  | [], e => e
  | slot :: slots, e =>
      match e.book.cancel slot with
      | (false, book) => cancelAll client slots { e with book := book }
      | (true, book) =>
          cancelAll client slots
            { e with book := book, events := e.events ++ [.revoke slot client 0] }

/-- Cancel a slot or, if it is empty, the orders of a client. -/
def onCancel (e : HpEngine B A) (id : Nat) : HpEngine B A :=
  match e.book.store.get id with
  | some o =>
      match e.book.cancel id with
      | (false, book) => { e with book := book }
      | (true, book) =>
          { book := book
            clientToId := e.clientToId.drop o.clientId id
            events := e.events ++ [.revoke id o.clientId 0] }
  | none =>
      match e.clientToId[id]? with
      | none => e
      | some list => cancelAll id list { e with clientToId := e.clientToId.erase id }

/-! ## Matching -/

omit [LevelIndex B] [LevelIndex A] in
/-- The tick of a maker is beyond the limit of a taker of this side. -/
def beyond (side : Side) (tick : Int) (limitTick : Option Int) : Bool :=
  match side with
  | .buy => limitTick.any fun lim => lim < tick
  | .sell => limitTick.any fun lim => tick < lim

/-- One round of the matching loop: the taker's lots after it, or the end. -/
def matchStep (side : Side) (takerId takerClient : Nat) (limitTick : Option Int)
    (maxFills : Option Nat) (fillCount : Nat) (takerOpen : Int) (e : HpEngine B A) :
    Option (Int × HpEngine B A) :=
  if maxFills.any fun n => n ≤ fillCount then none
  else if takerOpen ≤ 0 then none
  else
    match e.book.best side.opp with
    | none => none
    | some tick =>
        if beyond side tick limitTick then none
        else
          match e.book.frontId side.opp tick with
          | none => none
          | some makerId =>
              match e.book.store.makerOpenAndClient makerId with
              | none => none
              | some (makerOpen, makerClient) =>
                  let fillQty := min makerOpen takerOpen
                  let takerOpen := takerOpen - fillQty
                  let r := e.book.fillOrder makerId fillQty
                  let makerGone := r.1.isNone
                  let makerOpenAfter := if makerGone then 0 else makerOpen - fillQty
                  some (takerOpen,
                    { book := r.2
                      events := e.events ++ [.fill makerId takerId makerClient takerClient tick
                        fillQty makerOpenAfter takerOpen]
                      clientToId :=
                        if makerGone ∧ makerClient ≠ 0 then e.clientToId.drop makerClient makerId
                        else e.clientToId })

/-- A round leaves the taker with fewer lots. -/
theorem matchStep_lt {side : Side} {takerId takerClient : Nat} {limitTick : Option Int}
    {maxFills : Option Nat} {fillCount : Nat} {takerOpen : Int} {e : HpEngine B A}
    {r : Int × HpEngine B A}
    (h : matchStep side takerId takerClient limitTick maxFills fillCount takerOpen e = some r) :
    0 < takerOpen ∧ r.1 < takerOpen := by
  unfold matchStep at h
  split at h
  next => cases h
  next =>
    split at h
    next => cases h
    next hopen =>
      rw [not_le] at hopen
      refine ⟨hopen, ?_⟩
      split at h
      next => cases h
      next =>
        split at h
        next => cases h
        next =>
          split at h
          next => cases h
          next =>
            split at h
            next => cases h
            next makerOpen makerClient hm =>
              cases h
              have hpos : 0 < makerOpen := OrderStore.makerOpenAndClient_pos hm
              show takerOpen - min makerOpen takerOpen < takerOpen
              omega

/-- The matching loop: what is left of the taker, and the engine. -/
def matchLoop (side : Side) (takerId takerClient : Nat) (limitTick : Option Int)
    (maxFills : Option Nat) (fillCount : Nat) (takerOpen : Int) (e : HpEngine B A) :
    Int × HpEngine B A :=
  match h : matchStep side takerId takerClient limitTick maxFills fillCount takerOpen e with
  | none => (takerOpen, e)
  | some r => matchLoop side takerId takerClient limitTick maxFills (fillCount + 1) r.1 r.2
termination_by takerOpen.toNat
decreasing_by
  have := matchStep_lt h
  omega

/-- Match a taker with the other side and record what is left of it. -/
def matchTaker (side : Side) (takerId takerClient : Nat) (limitTick : Option Int)
    (maxFills : Option Nat) (e : HpEngine B A) : HpEngine B A :=
  let r := matchLoop side takerId takerClient limitTick maxFills 0
    (e.book.store.remainingOpen takerId) e
  { r.2 with book := { r.2.book with store := r.2.book.store.setTakerOpen takerId r.1 } }

/-- Match a buy taker. -/
def matchBuy (takerId takerClient : Nat) (limitTick : Option Int) (maxFills : Option Nat)
    (e : HpEngine B A) : HpEngine B A :=
  matchTaker .buy takerId takerClient limitTick maxFills e

/-- Match a sell taker. -/
def matchSell (takerId takerClient : Nat) (limitTick : Option Int) (maxFills : Option Nat)
    (e : HpEngine B A) : HpEngine B A :=
  matchTaker .sell takerId takerClient limitTick maxFills e

/-- Match a taker of either side. -/
def matchSide (side : Side) (takerId takerClient : Nat) (limitTick : Option Int)
    (maxFills : Option Nat) (e : HpEngine B A) : HpEngine B A :=
  match side with
  | .buy => matchBuy takerId takerClient limitTick maxFills e
  | .sell => matchSell takerId takerClient limitTick maxFills e

/-! ## Commands -/

/-- A limit order. -/
def onLimit (e : HpEngine B A) (side : Side) (priceTick qtyLot : Int) (ts clientId : Nat) :
    HpEngine B A :=
  if qtyLot ≤ 0 then e
  else
    let r := e.book.store.insert
      { id := 0, side := side, priceTick := priceTick, qtyLot := qtyLot, openLot := qtyLot,
        ts := ts, clientId := clientId }
    let takerId := r.1
    let e := matchSide side takerId clientId (some priceTick) none
      { e with book := { e.book with store := r.2 } }
    let remaining := e.book.store.remainingOpen takerId
    if 0 < remaining then
      { book := e.book.rest takerId
        clientToId := e.clientToId.push clientId takerId
        events := e.events ++ [.rest takerId clientId side priceTick remaining] }
    else { e with book := { e.book with store := (e.book.store.remove takerId).2 } }

/-- A market order. -/
def onMarket (e : HpEngine B A) (side : Side) (qtyLot : Int) (ts : Nat) (maxFills : Option Nat)
    (clientId : Nat) : HpEngine B A :=
  if qtyLot ≤ 0 then e
  else
    let r := e.book.store.insert
      { id := 0, side := side, priceTick := 0, qtyLot := qtyLot, openLot := qtyLot,
        ts := ts, clientId := clientId }
    let takerId := r.1
    let e := matchSide side takerId clientId none maxFills
      { e with book := { e.book with store := r.2 } }
    let remaining := e.book.store.remainingOpen takerId
    { e with
      events := if 0 < remaining then e.events ++ [.revoke takerId clientId 1] else e.events
      book := { e.book with store := (e.book.store.remove takerId).2 } }

/-- Process one command.  The events of the engine are those of this call. -/
def onOrder (e : HpEngine B A) (cmd : HpCommand) : HpEngine B A :=
  let e := { e with events := [] }
  match cmd with
  | .limit side priceTick qtyLot ts clientId => e.onLimit side priceTick qtyLot ts clientId
  | .cancel id => e.onCancel id
  | .market side qtyLot ts maxFills clientId => e.onMarket side qtyLot ts maxFills clientId

end HpEngine

end MatchCoreHp
