import MatchRust.Lib.Decimal

/-!
# Protocol orders

`BbOrder` is the order both matching engines receive, with the fields of
`match-protocol`.  Machine integers are unbounded here.  No function of the
engines computes with them, they only compare codes, times and counters.

An order arrives as an `MqOrder`, all fields optional, and `typeConvert` (the
contract service) or `typeConvertSpot` (the spot service) turns it into a
`BbOrder`.  Both parse decimals with the parser of the decimal package and
lower the case of symbols by Unicode; the two are parameters here.  What the
matching engines rely on is `BbOrder.Accepted`: a positive quantity of which
nothing is consumed yet.
-/

namespace MatchProtocol

/-! ## Codes -/

/-- Buy side. -/
def orderTypeBuy : Int := 1
/-- Sell side. -/
def orderTypeSell : Int := 2

/-- Fully filled. -/
def orderStatusSuccess : Int := 1
/-- Partially filled. -/
def orderStatusSuccessPart : Int := 2
/-- Revoke requested. -/
def orderStatusRevoke : Int := 3
/-- Revoke succeeded. -/
def orderStatusRevokeSuccess : Int := 4

/-- Limit / normal order form. -/
def orderFormLimit : Int := 1
/-- Market order form. -/
def orderFormMarketPrice : Int := 2
/-- Post-only order form. -/
def orderFormPostOnly : Int := 3
/-- IOC order form. -/
def orderFormIoc : Int := 4
/-- FOK order form. -/
def orderFormFok : Int := 5

/-- Market order form of the spot service. -/
def spotOrderFormMarketPrice : Int := 2

/-! ## Orders -/

/-- Match-engine order.  The default value is the one `Default` derives. -/
structure BbOrder where
  userId : Int := 0
  uid : Int := 0
  type : Int := 0
  orderType : Int := 0
  marketId : Int := 0
  coinId : Int := 0
  symbolKey : String := ""
  coinMarket : String := ""
  trustOrderNo : String := ""
  orderForm : Int := 0
  gear : Option Int := none
  closePosition : Int := 0
  startDeposit : BigDecimal := 0
  targetRate : BigDecimal := 0
  positionType : Int := 0
  leverTimes : Int := 0
  orderStatus : Int := 0
  consumerAllNumber : BigDecimal := 0
  currentDealNumber : BigDecimal := 0
  trustNumber : BigDecimal := 0
  trustPrice : BigDecimal := 0
  remainingNumber : BigDecimal := 0
  createTime : Int := 0
  faceValue : Option BigDecimal := none
  averagePrice : BigDecimal := 0
deriving DecidableEq

/-- Inbound order payload. -/
structure MqOrder where
  userId : Option Int
  uid : Option Int
  type : Option Int
  orderType : Option Int
  marketId : Option Int
  coinId : Option Int
  symbolKey : Option String
  coinMarket : Option String
  trustOrderNo : Option String
  closePosition : Option Int
  startDeposit : Option String
  positionType : Option Int
  takerRate : Option String
  orderStatus : Option Int
  orderForm : Option Int
  gear : Option Int
  leverTimes : Option Int
  trustNumber : Option String
  trustPrice : Option String
  createTime : Option Int
  faceValue : Option BigDecimal

/-- What an order owes to its conversion: a positive quantity, all of it open. -/
structure BbOrder.Accepted (o : BbOrder) : Prop where
  /-- The quantity is positive. -/
  pos : 0 < o.trustNumber
  /-- All of it remains. -/
  remaining : o.remainingNumber = o.trustNumber
  /-- None of it is consumed. -/
  consumed : o.consumerAllNumber = 0

instance (o : BbOrder) : Decidable o.Accepted :=
  decidable_of_iff (0 < o.trustNumber ∧ o.remainingNumber = o.trustNumber ∧ o.consumerAllNumber = 0)
    ⟨fun h => ⟨h.1, h.2.1, h.2.2⟩, fun h => ⟨h.pos, h.remaining, h.consumed⟩⟩

/-! ## Conversion -/

section Convert

variable (toLowercase : String → String) (parseDecimal : String → Option BigDecimal)

/-- The symbol key of a payload: no slashes, lower case. -/
def normalizeSymbol (key : String) : String := toLowercase (key.replace "/" "")

/-- Convert a validated payload of the contract service.  Fails on a missing
field, a malformed decimal, or a quantity or price that is not positive. -/
def typeConvert (mq : MqOrder) : Option BbOrder := do
  let symbolKey := normalizeSymbol toLowercase (← mq.symbolKey)
  let trustNumber ← parseDecimal (← mq.trustNumber)
  let trustPrice ← parseDecimal (← mq.trustPrice)
  if trustNumber ≤ 0 ∨ trustPrice ≤ 0 then none
  else return {
      userId := ← mq.userId
      uid := ← mq.uid
      type := ← mq.type
      orderType := ← mq.orderType
      marketId := ← mq.marketId
      coinId := ← mq.coinId
      symbolKey := symbolKey
      coinMarket := ← mq.coinMarket
      trustOrderNo := ← mq.trustOrderNo
      orderForm := ← mq.orderForm
      gear := mq.gear
      closePosition := ← mq.closePosition
      startDeposit := ← parseDecimal (← mq.startDeposit)
      targetRate := ← parseDecimal (← mq.takerRate)
      positionType := ← mq.positionType
      leverTimes := ← mq.leverTimes
      orderStatus := ← mq.orderStatus
      consumerAllNumber := 0
      currentDealNumber := 0
      trustNumber := trustNumber
      trustPrice := trustPrice
      remainingNumber := trustNumber
      createTime := ← mq.createTime
      faceValue := mq.faceValue
      averagePrice := 0 }

/-- Convert a validated payload of the spot service.  A market order may come
without a price, and several fields have defaults. -/
def typeConvertSpot (mq : MqOrder) : Option BbOrder := do
  let symbolKey := normalizeSymbol toLowercase (← mq.symbolKey)
  let trustNumber ← parseDecimal (← mq.trustNumber)
  let trustPrice ← parseDecimal (← mq.trustPrice)
  if trustNumber ≤ 0 then none
  else
    let orderForm ← mq.orderForm
    if trustPrice ≤ 0 ∧ orderForm ≠ spotOrderFormMarketPrice then none
    else return {
        userId := ← mq.userId
        uid := mq.uid.getD 0
        type := ← mq.type
        orderType := ← mq.orderType
        marketId := ← mq.marketId
        coinId := ← mq.coinId
        symbolKey := symbolKey
        coinMarket := ← mq.coinMarket
        trustOrderNo := ← mq.trustOrderNo
        orderForm := orderForm
        gear := some (mq.gear.getD 0)
        closePosition := mq.closePosition.getD 0
        startDeposit := (mq.startDeposit.bind parseDecimal).getD 0
        targetRate := (mq.takerRate.bind parseDecimal).getD 0
        positionType := mq.positionType.getD 0
        leverTimes := mq.leverTimes.getD 0
        orderStatus := ← mq.orderStatus
        consumerAllNumber := 0
        currentDealNumber := 0
        trustNumber := trustNumber
        trustPrice := trustPrice
        remainingNumber := trustNumber
        createTime := ← mq.createTime
        faceValue := mq.faceValue
        averagePrice := 0 }

/-- A property of every result of the second step holds of the result of both. -/
theorem forall_of_bind {α β : Type} {P : β → Prop} {x : Option α} {f : α → Option β}
    (h : ∀ a b, f a = some b → P b) : ∀ b, x >>= f = some b → P b := by
  intro b hb
  obtain ⟨a, -, ha⟩ := Option.bind_eq_some_iff.mp hb
  exact h a b ha

/-- Orders of the contract service are accepted ones with a positive price. -/
theorem typeConvert_accepted (mq : MqOrder) :
    ∀ o, typeConvert toLowercase parseDecimal mq = some o → o.Accepted ∧ 0 < o.trustPrice := by
  unfold typeConvert
  refine forall_of_bind fun _ => forall_of_bind fun _ => forall_of_bind fun n => forall_of_bind
    fun _ => forall_of_bind fun p => ?_
  split
  next => exact fun _ h => nomatch h
  next hpos =>
    rw [not_or, not_le, not_le] at hpos
    repeat refine forall_of_bind fun _ => ?_
    intro o ho
    cases ho
    exact ⟨⟨hpos.1, rfl, rfl⟩, hpos.2⟩

/-- Orders of the spot service are accepted ones. -/
theorem typeConvertSpot_accepted (mq : MqOrder) :
    ∀ o, typeConvertSpot toLowercase parseDecimal mq = some o → o.Accepted := by
  unfold typeConvertSpot
  refine forall_of_bind fun _ => forall_of_bind fun _ => forall_of_bind fun n => forall_of_bind
    fun _ => forall_of_bind fun p => ?_
  split
  next => exact fun _ h => nomatch h
  next hpos =>
    refine forall_of_bind fun _ => ?_
    split
    next => exact fun _ h => nomatch h
    next =>
      repeat refine forall_of_bind fun _ => ?_
      intro o ho
      cases ho
      exact ⟨not_le.mp hpos, rfl, rfl⟩

end Convert

end MatchProtocol
