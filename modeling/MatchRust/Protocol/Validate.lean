import MatchRust.Hp.Scale
import MatchRust.Protocol.Order

/-!
# Checks of inbound orders

A service checks a payload before it converts it.  `checkMqOrder` is the check of the contract
service and `checkMqOrderSpot` that of the spot service.  Both look at the same fields in the same
way.  They differ in the codes they know, in what a market order needs as its gear, and in four
fields that only the contract service asks for.

An order that passed the check of its service and was converted has codes the service knows, a
time, and a quantity (`BbOrder.Checked`).  Texts are trimmed of what Unicode calls white space.
-/

namespace MatchProtocol

/-! ## Codes -/

/-- User order. -/
def orderUser : Int := 1
/-- Robot order. -/
def orderRobot : Int := 2
/-- Fee user. -/
def feeUser : Int := 3
/-- Internal user. -/
def interUser : Int := 4
/-- Market user. -/
def marketUser : Int := 5
/-- Other user. -/
def otherUser : Int := 6
/-- Other user variant 1. -/
def other1User : Int := 7
/-- Other user variant 2. -/
def other2User : Int := 8

/-- Valid order owner types. -/
def types : List Int :=
  [orderUser, orderRobot, feeUser, interUser, marketUser, otherUser, other1User, other2User]

/-- Valid order sides. -/
def orderTypes : List Int := [orderTypeBuy, orderTypeSell]

/-- Waiting to trade. -/
def orderStatusWait : Int := 0

/-- Order statuses accepted by the match engine. -/
def orderStatuses : List Int := [orderStatusWait, orderStatusSuccessPart, orderStatusRevoke]

/-- Valid order forms. -/
def orderForms : List Int :=
  [orderFormLimit, orderFormMarketPrice, orderFormPostOnly, orderFormIoc, orderFormFok]

/-- User order of the spot service. -/
def spotOrderUser : Int := 1
/-- Robot order of the spot service. -/
def spotOrderRobot : Int := 2
/-- Market user order of the spot service. -/
def spotOrderMarketUser : Int := 3

/-- Valid order owner types of the spot service. -/
def spotTypes : List Int := [spotOrderUser, spotOrderRobot, spotOrderMarketUser]

/-- Limit order form of the spot service. -/
def spotOrderFormLimit : Int := 1

/-- Valid order forms of the spot service. -/
def spotOrderForms : List Int := [spotOrderFormLimit, spotOrderFormMarketPrice]

/-! ## Checks -/

/-- No text, or nothing but white space. -/
def isBlank (value : Option String) : Bool :=
  match value with
  | none => true
  | some s => (MatchCoreHp.trim s.toList).isEmpty

/-- The checks both services make: the types and forms they know, the form of their market
orders, and the gear these need. -/
def checkOrder (types forms : List Int) (marketForm : Int) (gearOk : Option Int → Bool)
    (mq : MqOrder) : Bool :=
  mq.userId.isSome && mq.type.any types.contains && mq.orderType.any orderTypes.contains &&
    mq.marketId.isSome && mq.coinId.isSome &&
    mq.orderForm.any (fun form => forms.contains form && (form != marketForm || gearOk mq.gear)) &&
    !isBlank mq.symbolKey && !isBlank mq.coinMarket && !isBlank mq.trustOrderNo &&
    mq.orderStatus.any orderStatuses.contains && !isBlank mq.trustNumber &&
    !isBlank mq.trustPrice && mq.createTime.any (fun time => 0 < time)

/-- A gear of one or more. -/
def gearPositive (gear : Option Int) : Bool := gear.any fun g => 1 ≤ g

/-- The check of the contract service. -/
def checkMqOrder (mq : MqOrder) : Bool :=
  checkOrder types orderForms orderFormMarketPrice gearPositive mq && mq.closePosition.isSome &&
    !isBlank mq.startDeposit && !isBlank mq.takerRate && mq.positionType.isSome

/-- The check of the spot service. -/
def checkMqOrderSpot (mq : MqOrder) : Bool :=
  checkOrder spotTypes spotOrderForms spotOrderFormMarketPrice Option.isSome mq

/-! ## What a checked order is -/

/-- An order with codes a service knows, and a market order with a gear it accepts. -/
structure BbOrder.Checked (types forms : List Int) (gearOk : Option Int → Bool) (o : BbOrder) :
    Prop where
  type : o.type ∈ types
  orderType : o.orderType ∈ orderTypes
  orderForm : o.orderForm ∈ forms
  gear : o.orderForm = orderFormMarketPrice → gearOk o.gear = true
  orderStatus : o.orderStatus ∈ orderStatuses
  createTime : 0 < o.createTime
  trustOrderNo : isBlank (some o.trustOrderNo) = false
  accepted : o.Accepted

section Convert

/-- As `forall_of_bind`, knowing the result of the first step. -/
theorem forall_of_bind_eq {α β : Type} {P : β → Prop} {x : Option α} {f : α → Option β}
    (h : ∀ a, x = some a → ∀ b, f a = some b → P b) : ∀ b, x >>= f = some b → P b := by
  intro b hb
  obtain ⟨a, ha, hab⟩ := Option.bind_eq_some_iff.mp hb
  exact h a ha b hab

variable (toLowercase : String → String) (parseDecimal : String → Option BigDecimal)
  (mq : MqOrder)

/-- The fields that a conversion copies from the payload. -/
structure Copies (mq : MqOrder) (o : BbOrder) : Prop where
  type : mq.type = some o.type
  orderType : mq.orderType = some o.orderType
  orderForm : mq.orderForm = some o.orderForm
  orderStatus : mq.orderStatus = some o.orderStatus
  createTime : mq.createTime = some o.createTime
  trustOrderNo : mq.trustOrderNo = some o.trustOrderNo
  symbolKey : mq.symbolKey.map (normalizeSymbol toLowercase) = some o.symbolKey

theorem typeConvert_copies :
    ∀ o, typeConvert toLowercase parseDecimal mq = some o →
      Copies toLowercase mq o ∧ o.gear = mq.gear := by
  unfold typeConvert
  refine forall_of_bind_eq fun key hkey => forall_of_bind fun _ => forall_of_bind fun _ =>
    forall_of_bind fun _ => forall_of_bind fun _ => ?_
  split
  next =>
    intro o h
    cases h
  next =>
    refine forall_of_bind fun _ => forall_of_bind fun _ => forall_of_bind_eq fun _ htype =>
      forall_of_bind_eq fun _ hside => forall_of_bind fun _ => forall_of_bind fun _ =>
      forall_of_bind fun _ => forall_of_bind_eq fun _ hno => forall_of_bind_eq fun _ hform =>
      forall_of_bind fun _ => forall_of_bind fun _ => forall_of_bind fun _ =>
      forall_of_bind fun _ => forall_of_bind fun _ => forall_of_bind fun _ =>
      forall_of_bind fun _ =>
      forall_of_bind_eq fun _ hstatus => forall_of_bind_eq fun _ htime => ?_
    intro o h
    cases h
    exact ⟨⟨htype, hside, hform, hstatus, htime, hno, by rw [hkey]; rfl⟩, rfl⟩

theorem typeConvertSpot_copies :
    ∀ o, typeConvertSpot toLowercase parseDecimal mq = some o →
      Copies toLowercase mq o ∧ o.gear = some (mq.gear.getD 0) := by
  unfold typeConvertSpot
  refine forall_of_bind_eq fun key hkey => forall_of_bind fun _ => forall_of_bind fun _ =>
    forall_of_bind fun _ => forall_of_bind fun _ => ?_
  split
  next =>
    intro o h
    cases h
  next =>
    refine forall_of_bind_eq fun _ hform => ?_
    split
    next =>
      intro o h
      cases h
    next =>
      refine forall_of_bind fun _ => forall_of_bind_eq fun _ htype =>
        forall_of_bind_eq fun _ hside => forall_of_bind fun _ => forall_of_bind fun _ =>
        forall_of_bind fun _ => forall_of_bind_eq fun _ hno =>
        forall_of_bind_eq fun _ hstatus => forall_of_bind_eq fun _ htime => ?_
      intro o h
      cases h
      exact ⟨⟨htype, hside, hform, hstatus, htime, hno, by rw [hkey]; rfl⟩, rfl⟩

end Convert

section Checked

variable {toLowercase : String → String} {parseDecimal : String → Option BigDecimal}
  {mq : MqOrder} {o : BbOrder}

/-- What both checks say of an order with the fields of the payload. -/
theorem Copies.checked {types forms : List Int} {gearOk : Option Int → Bool}
    (hcopies : Copies toLowercase mq o) (hacc : o.Accepted)
    (hgear : gearOk mq.gear = true → gearOk o.gear = true)
    (h : checkOrder types forms orderFormMarketPrice gearOk mq = true) :
    o.Checked types forms gearOk := by
  simp only [checkOrder, hcopies.type, hcopies.orderType, hcopies.orderForm, hcopies.orderStatus,
    hcopies.createTime, hcopies.trustOrderNo, Option.any_some, Bool.and_eq_true,
    List.contains_iff_mem, Bool.not_eq_eq_eq_not, Bool.not_true, Bool.or_eq_true, bne_iff_ne,
    decide_eq_true_eq] at h
  obtain ⟨⟨⟨⟨⟨⟨⟨⟨⟨⟨⟨⟨-, htype⟩, hside⟩, -⟩, -⟩, hform, hmarket⟩, -⟩, -⟩, hno⟩, hstatus⟩, -⟩, -⟩,
    htime⟩ := h
  refine ⟨htype, hside, hform, fun hm => hgear ?_, hstatus, htime, hno, hacc⟩
  exact hmarket.resolve_left fun hne => hne hm

/-- An order that the contract service takes in. -/
theorem checked_of_typeConvert (hcheck : checkMqOrder mq = true)
    (h : typeConvert toLowercase parseDecimal mq = some o) :
    o.Checked types orderForms gearPositive ∧ 0 < o.trustPrice := by
  obtain ⟨hcopies, hgear⟩ := typeConvert_copies toLowercase parseDecimal mq o h
  obtain ⟨hacc, hprice⟩ := typeConvert_accepted toLowercase parseDecimal mq o h
  simp only [checkMqOrder, Bool.and_eq_true] at hcheck
  exact ⟨hcopies.checked hacc (fun hg => by rwa [hgear]) hcheck.1.1.1.1, hprice⟩

/-- An order that the spot service takes in. -/
theorem checked_of_typeConvertSpot (hcheck : checkMqOrderSpot mq = true)
    (h : typeConvertSpot toLowercase parseDecimal mq = some o) :
    o.Checked spotTypes spotOrderForms Option.isSome := by
  obtain ⟨hcopies, hgear⟩ := typeConvertSpot_copies toLowercase parseDecimal mq o h
  exact hcopies.checked (typeConvertSpot_accepted toLowercase parseDecimal mq o h)
    (fun _ => by rw [hgear]; rfl) hcheck

end Checked

end MatchProtocol
