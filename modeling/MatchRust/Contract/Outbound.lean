import MatchRust.Core.Depth
import MatchRust.Hp.Engine
import MatchRust.Hp.Format

/-!
# Outbound messages of the contract service

A symbol worker hands the events of its engine, the decimal one or the fixed-point one, to the
outbound path.  A fill or a revoke becomes a `PushOrder`, and those of one call are sent in one
batch, to the topic of orders and to that of the market.  Then the depth follows, unless the last
one was sent a short while ago.  A message that is not sent goes to a queue in Redis, for a retry.

Events of the decimal engine keep their numbers, and how a decimal is printed is a parameter.
Ticks and lots are written as decimals (`fromTick`, `fromLot`), so what is pushed denotes
exactly what the engine matched (`Reports`).  Bodies are values here, not JSON texts.
Counters and logs are left out.
-/

namespace MatchContract

open MatchProtocol
open MatchCore (MatchEvent Engine)
open MatchCoreHp (SymbolScale ScaleError HpEvent HpEngine LevelIndex FixedText fromTick fromLot
  toTick toLot formatFixed parseFixed i64Max fixedText_formatFixed parseFixed_formatFixed)

/-! ## Payloads -/

/-- The payload for a fill or a revoke. -/
structure PushOrder where
  symbolKey : String
  trustOrderNo : String
  targetTrustOrderNo : Option String := none
  trustPrice : String
  dealPrice : Option String := none
  remainingNumber : String
  targetRemainingNumber : Option String := none
  orderStatus : Nat
  targetOrderStatus : Option Nat := none
  currentDealNumber : Option String := none
  reason : Option String := none
deriving DecidableEq

/-- A level of the depth. -/
structure DepthLevel where
  trustPrice : String
  cumulativeCommissionQuantity : String

/-- The depth of a symbol. -/
structure DepthSnapshot where
  symbolKey : String
  bids : List DepthLevel
  asks : List DepthLevel

/-- The levels of a snapshot. -/
def depthLevels : Nat := 20

/-- The payload for an event of the decimal engine. -/
def pushEvent (display : BigDecimal → String) : MatchEvent → PushOrder
  | .fill ev =>
      { symbolKey := ev.symbol
        trustOrderNo := ev.takerOrderNo
        targetTrustOrderNo := some ev.makerOrderNo
        trustPrice := display ev.price
        dealPrice := some (display ev.price)
        remainingNumber := display ev.takerRemaining
        targetRemainingNumber := some (display ev.makerRemaining)
        orderStatus := ev.takerStatus.toNat
        targetOrderStatus := some ev.makerStatus.toNat
        currentDealNumber := some (display ev.qty) }
  | .revoke ev =>
      { symbolKey := ev.symbol
        trustOrderNo := ev.orderNo
        trustPrice := "0"
        remainingNumber := display ev.remaining
        orderStatus := orderStatusRevokeSuccess.toNat
        reason := some ev.reason }

/-- The batch of payloads for the events of a call. -/
def pushBatch (display : BigDecimal → String) (events : List MatchEvent) : List PushOrder :=
  events.map (pushEvent display)

/-- A level of the book, as texts.  The decimals of a level are printed with the digits they
are stored with, and `levelText` stands for that. -/
def depthLevel (levelText : BigDecimal → String) (level : BigDecimal × BigDecimal) :
    DepthLevel where
  trustPrice := levelText level.1
  cumulativeCommissionQuantity := levelText level.2

/-- The depth of the decimal engine. -/
def coreDepth (levelText : BigDecimal → String) (symbol : String) (engine : Engine) :
    DepthSnapshot where
  symbolKey := symbol
  bids := (engine.depthLevels symbol .buy depthLevels).map (depthLevel levelText)
  asks := (engine.depthLevels symbol .sell depthLevels).map (depthLevel levelText)

/-- The status of an order after a fill. -/
def fillStatus (openLot : Int) : Nat :=
  if openLot = 0 then orderStatusSuccess.toNat else orderStatusSuccessPart.toNat

/-- The payload for an event of the fixed-point engine. -/
def pushHpEvent (symbol : String) (scale : SymbolScale) : HpEvent → Option PushOrder
  | .fill _ _ makerClientId takerClientId priceTick qtyLot makerOpenLot takerOpenLot =>
      some
        { symbolKey := symbol
          trustOrderNo := toString takerClientId
          targetTrustOrderNo := some (toString makerClientId)
          trustPrice := fromTick scale priceTick
          dealPrice := some (fromTick scale priceTick)
          remainingNumber := fromLot scale takerOpenLot
          targetRemainingNumber := some (fromLot scale makerOpenLot)
          orderStatus := fillStatus takerOpenLot
          targetOrderStatus := some (fillStatus makerOpenLot)
          currentDealNumber := some (fromLot scale qtyLot) }
  | .revoke _ clientId reason =>
      some
        { symbolKey := symbol
          trustOrderNo := toString clientId
          trustPrice := "0"
          remainingNumber := "0"
          orderStatus := orderStatusRevokeSuccess.toNat
          reason := some (if reason = 1 then "market_remainder" else "cancel") }
  | .rest .. => none

/-- The batch of payloads for the events of a call. -/
def hpPushBatch (symbol : String) (scale : SymbolScale) (events : List HpEvent) :
    List PushOrder := events.filterMap (pushHpEvent symbol scale)

/-- A level of the book, as texts. -/
def hpDepthLevel (scale : SymbolScale) (level : Int × Int) : DepthLevel where
  trustPrice := fromTick scale level.1
  cumulativeCommissionQuantity := fromLot scale level.2

/-- The depth of the fixed-point engine. -/
def hpDepth {B A : Type} [LevelIndex B] [LevelIndex A] (symbol : String) (scale : SymbolScale)
    (engine : HpEngine B A) : DepthSnapshot where
  symbolKey := symbol
  bids := (engine.book.depth .buy depthLevels).map (hpDepthLevel scale)
  asks := (engine.book.depth .sell depthLevels).map (hpDepthLevel scale)

/-! ## Sending -/

/-- The topics of a symbol. -/
inductive Topic where
  | pushOrder
  | pushMarket
  | noDeal
  | deeps
deriving DecidableEq

/-- The content of a message. -/
inductive Body where
  | orders (batch : List PushOrder)
  | depth (snap : DepthSnapshot)

/-- A message to a topic. -/
structure Message where
  topic : Topic
  symbolKey : String
  body : Body

/-- What the environment answers. -/
structure Network where
  /-- Whether the sink takes a message. -/
  accepts : Message → Bool
  /-- Whether Redis stores a body. -/
  stores : Body → Bool

/-- The outbound path. -/
structure Outbound where
  redis : Bool
  depthPushIntervalMs : Nat
  lastDepthPushMs : String → Option Nat := fun _ => none
  /-- The messages given to the sink. -/
  sends : List Message := []
  /-- The queue for retries, the last one in front. -/
  errorQueue : List Body := []

namespace Outbound

variable (net : Network)

/-- Keep a body that was not sent. -/
def onSendFail (out : Outbound) (body : Body) : Outbound :=
  if out.redis && net.stores body then { out with errorQueue := body :: out.errorQueue } else out

/-- Send a message. -/
def send (out : Outbound) (topic : Topic) (symbol : String) (body : Body) : Outbound :=
  let out' := { out with sends := out.sends ++ [⟨topic, symbol, body⟩] }
  if net.accepts ⟨topic, symbol, body⟩ then out' else out'.onSendFail net body

/-- Send a batch to the topics of orders and of the market. -/
def sendPushOrders (out : Outbound) (symbol : String) (orders : List PushOrder) : Outbound :=
  (out.send net .pushOrder symbol (.orders orders)).send net .pushMarket symbol (.orders orders)

/-- Whether the last depth of a symbol was sent a short while ago. -/
def throttled (out : Outbound) (now : Nat) (symbol : String) : Bool :=
  0 < out.depthPushIntervalMs &&
    (out.lastDepthPushMs symbol).any fun prev => now - prev < out.depthPushIntervalMs

/-- Send a snapshot of the depth, if it is time. -/
def maybePushSnapshot (out : Outbound) (now : Nat) (symbol : String) (snap : DepthSnapshot) :
    Outbound :=
  if out.throttled now symbol then out
  else
    let out' : Outbound :=
      if 0 < out.depthPushIntervalMs then
        { out with lastDepthPushMs := Function.update out.lastDepthPushMs symbol (some now) }
      else out
    (out'.send net .noDeal symbol (.depth snap)).send net .deeps symbol (.depth snap)

/-- Send the depth of the decimal engine. -/
def maybePushDepth (out : Outbound) (levelText : BigDecimal → String) (now : Nat)
    (symbol : String) (engine : Engine) : Outbound :=
  out.maybePushSnapshot net now symbol (coreDepth levelText symbol engine)

/-- Send what the events of a call of the decimal engine ask for, and the depth. -/
def handleEvents (out : Outbound) (display levelText : BigDecimal → String) (now : Nat)
    (symbol : String) (events : List MatchEvent) (engine : Engine) : Outbound :=
  let batch := pushBatch display events
  let out' := if batch.isEmpty then out else out.sendPushOrders net symbol batch
  out'.maybePushDepth net levelText now symbol engine

section Handle

variable {B A : Type} [LevelIndex B] [LevelIndex A]

/-- Send the depth, if it is time. -/
def maybePushHpDepth (out : Outbound) (now : Nat) (symbol : String) (engine : HpEngine B A)
    (scale : SymbolScale) : Outbound :=
  out.maybePushSnapshot net now symbol (hpDepth symbol scale engine)

/-- Send what the events of a call ask for, and the depth. -/
def handleHpEvents (out : Outbound) (now : Nat) (symbol : String) (events : List HpEvent)
    (engine : HpEngine B A) (scale : SymbolScale) : Outbound :=
  let pushBatch := hpPushBatch symbol scale events
  let out' := if pushBatch.isEmpty then out else out.sendPushOrders net symbol pushBatch
  out'.maybePushHpDepth net now symbol engine scale

end Handle

/-! ## What is sent -/

variable {net}

@[simp] theorem sends_send (out : Outbound) (topic : Topic) (symbol : String) (body : Body) :
    (out.send net topic symbol body).sends = out.sends ++ [⟨topic, symbol, body⟩] := by
  simp only [send]
  split
  next => rfl
  next =>
    rw [onSendFail]
    split
    next => rfl
    next => rfl

/-- The messages of a batch. -/
def batchMessages (symbol : String) (batch : List PushOrder) : List Message :=
  if batch = [] then []
  else [⟨.pushOrder, symbol, .orders batch⟩, ⟨.pushMarket, symbol, .orders batch⟩]

/-- The messages of a snapshot. -/
def depthMessages (symbol : String) (snap : DepthSnapshot) : List Message :=
  [⟨.noDeal, symbol, .depth snap⟩, ⟨.deeps, symbol, .depth snap⟩]

theorem sends_maybePushSnapshot (out : Outbound) (now : Nat) (symbol : String)
    (snap : DepthSnapshot) :
    (out.maybePushSnapshot net now symbol snap).sends =
      out.sends ++ if out.throttled now symbol then [] else depthMessages symbol snap := by
  rw [maybePushSnapshot]
  split
  next => rw [List.append_nil]
  next =>
    simp only [sends_send, List.append_assoc]
    split
    next => rfl
    next => rfl

/-- A send changes no time of a depth. -/
theorem throttled_send (out : Outbound) (topic : Topic) (symbol : String) (body : Body)
    (now : Nat) (s : String) :
    (out.send net topic symbol body).throttled now s = out.throttled now s := by
  simp only [send]
  split
  next => rfl
  next =>
    rw [onSendFail]
    split
    next => rfl
    next => rfl

theorem throttled_sendPushOrders (out : Outbound) (symbol : String) (orders : List PushOrder)
    (now : Nat) (s : String) :
    (out.sendPushOrders net symbol orders).throttled now s = out.throttled now s := by
  rw [sendPushOrders, throttled_send, throttled_send]

/-- A batch, if there is one, and then a snapshot. -/
theorem sends_batch_snapshot (out : Outbound) (now : Nat) (symbol : String)
    (batch : List PushOrder) (snap : DepthSnapshot) :
    ((if batch.isEmpty then out else out.sendPushOrders net symbol batch).maybePushSnapshot net now
        symbol snap).sends =
      out.sends ++ batchMessages symbol batch ++
        if out.throttled now symbol then [] else depthMessages symbol snap := by
  simp only [sends_maybePushSnapshot, batchMessages, List.isEmpty_iff]
  by_cases hbatch : batch = []
  · rw [if_pos hbatch, if_pos hbatch, List.append_nil]
  · rw [if_neg hbatch, if_neg hbatch, throttled_sendPushOrders]
    simp only [sendPushOrders, sends_send, List.append_assoc, List.cons_append, List.nil_append]

variable {B A : Type} [LevelIndex B] [LevelIndex A]

/-- A call of the fixed-point engine sends the batch and then the depth. -/
theorem sends_handleHpEvents (out : Outbound) (now : Nat) (symbol : String)
    (events : List HpEvent) (engine : HpEngine B A) (scale : SymbolScale) :
    (out.handleHpEvents net now symbol events engine scale).sends =
      out.sends ++ batchMessages symbol (hpPushBatch symbol scale events) ++
        if out.throttled now symbol then []
        else depthMessages symbol (hpDepth symbol scale engine) :=
  sends_batch_snapshot ..

end Outbound

/-! ## What the texts denote -/

/-- A payload is about an event: it has the units of a fill as decimals, or no deal. -/
inductive Reports (scale : SymbolScale) : HpEvent → PushOrder → Prop
  | fill {makerId takerId makerClientId takerClientId : Nat}
      {priceTick qtyLot makerOpenLot takerOpenLot : Int} {push : PushOrder}
      {qty makerLeft : String}
      (hprice : FixedText push.trustPrice priceTick scale.priceScale)
      (hdeal : push.dealPrice = some push.trustPrice)
      (hqty : push.currentDealNumber = some qty) (hqtyText : FixedText qty qtyLot scale.qtyScale)
      (hleft : FixedText push.remainingNumber takerOpenLot scale.qtyScale)
      (hmaker : push.targetRemainingNumber = some makerLeft)
      (hmakerText : FixedText makerLeft makerOpenLot scale.qtyScale) :
      Reports scale (.fill makerId takerId makerClientId takerClientId priceTick qtyLot
        makerOpenLot takerOpenLot) push
  | revoke {id clientId reason : Nat} {push : PushOrder} (hdeal : push.dealPrice = none)
      (hqty : push.currentDealNumber = none) : Reports scale (.revoke id clientId reason) push

/-- Fills and revokes are pushed. -/
def isPushed : HpEvent → Bool
  | .fill .. => true
  | .revoke .. => true
  | .rest .. => false

/-- A level denotes ticks and lots. -/
def LevelDenotes (scale : SymbolScale) (units : Int × Int) (level : DepthLevel) : Prop :=
  FixedText level.trustPrice units.1 scale.priceScale ∧
    FixedText level.cumulativeCommissionQuantity units.2 scale.qtyScale

section Exact

variable {scale : SymbolScale} (hp : scale.priceScale ≤ 19) (hq : scale.qtyScale ≤ 19)

include hp in
theorem fixedText_fromTick (tick : Int) :
    FixedText (fromTick scale tick) tick scale.priceScale := fixedText_formatFixed tick hp

include hq in
theorem fixedText_fromLot (lot : Int) : FixedText (fromLot scale lot) lot scale.qtyScale :=
  fixedText_formatFixed lot hq

include hp hq

/-- The payloads are about the events, one by one. -/
theorem reports_hpPushBatch (symbol : String) (events : List HpEvent) :
    List.Forall₂ (Reports scale) (events.filter isPushed) (hpPushBatch symbol scale events) := by
  induction events with
  | nil => exact .nil
  | cons event events ih =>
      cases event with
      | fill =>
          exact .cons (.fill (fixedText_fromTick hp _) rfl rfl (fixedText_fromLot hq _)
            (fixedText_fromLot hq _) rfl (fixedText_fromLot hq _)) ih
      | rest => exact ih
      | revoke => exact .cons (.revoke rfl rfl) ih

theorem levels_denote (levels : List (Int × Int)) :
    List.Forall₂ (LevelDenotes scale) levels (levels.map (hpDepthLevel scale)) := by
  induction levels with
  | nil => exact .nil
  | cons level levels ih => exact .cons ⟨fixedText_fromTick hp _, fixedText_fromLot hq _⟩ ih

end Exact

/-- Units are written as their decimal, with `k` digits behind the point, and read back. -/
def RoundTrips (write : Int → String) (read : String → Except ScaleError Int) (k : Nat) : Prop :=
  ∀ t : Int, -2 ^ 63 < t → t < 2 ^ 63 → FixedText (write t) t k ∧ read (write t) = .ok t

/-- A snapshot has the levels of both sides of a book. -/
def SnapshotDenotes {B A : Type} [LevelIndex B] [LevelIndex A] (scale : SymbolScale)
    (engine : HpEngine B A) (snap : DepthSnapshot) : Prop :=
  List.Forall₂ (LevelDenotes scale) (engine.book.depth .buy depthLevels) snap.bids ∧
    List.Forall₂ (LevelDenotes scale) (engine.book.depth .sell depthLevels) snap.asks

theorem roundTrips_formatFixed {k : Nat} (h : k ≤ 19) :
    RoundTrips (formatFixed · k) (fun s => parseFixed s.toList k) k := by
  intro t hlow hhigh
  refine ⟨fixedText_formatFixed t h, parseFixed_formatFixed h ?_⟩
  rw [i64Max, abs_le]
  omega

/-- Ticks and lots are written exactly and read back, so what a call sends denotes the ticks
and lots of the fills, and of the depth. -/
theorem ticks_and_lots_exact (scale : SymbolScale) :
    (scale.priceScale ≤ 19 → RoundTrips (fromTick scale) (toTick scale) scale.priceScale) ∧
    (scale.qtyScale ≤ 19 → RoundTrips (fromLot scale) (toLot scale) scale.qtyScale) ∧
    (scale.priceScale ≤ 19 → scale.qtyScale ≤ 19 →
      ∀ (B A : Type) [LevelIndex B] [LevelIndex A] (net : Network) (out : Outbound) (now : Nat)
        (symbol : String) (events : List HpEvent) (engine : HpEngine B A),
        ∃ batch depth,
          (out.handleHpEvents net now symbol events engine scale).sends =
            out.sends ++ Outbound.batchMessages symbol batch ++ depth ∧
          List.Forall₂ (Reports scale) (events.filter isPushed) batch ∧
          (depth = [] ∨ ∃ snap, depth = Outbound.depthMessages symbol snap ∧
            SnapshotDenotes scale engine snap)) := by
  refine ⟨roundTrips_formatFixed, roundTrips_formatFixed, ?_⟩
  intro hp hq B A _ _ net out now symbol events engine
  refine ⟨_, _, out.sends_handleHpEvents now symbol events engine scale,
    reports_hpPushBatch hp hq symbol events, ?_⟩
  split
  next => exact Or.inl rfl
  next => exact Or.inr ⟨_, rfl, levels_denote hp hq _, levels_denote hp hq _⟩

/-- The highest scale and the smallest tick that is read back. -/
theorem ticks_and_lots_exact_highest :
    toTick ⟨19, 6⟩ (fromTick ⟨19, 6⟩ (-9223372036854775807)) = .ok (-9223372036854775807) :=
  ((ticks_and_lots_exact ⟨19, 6⟩).1 (by decide) _ (by decide) (by decide)).2

end MatchContract
