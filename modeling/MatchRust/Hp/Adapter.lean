import MatchRust.Hp.Scale
import MatchRust.Hp.Engine
import MatchRust.Protocol.Order

/-!
# Protocol orders to commands

`fromBbOrder` turns a protocol order into a command of the fixed-point engine.
A revoke request becomes a cancel of its order number, and a new order carries
its number as the client.  Prices and quantities go through the text of the
normalized decimal, which the decimal package writes.  This text is a parameter
here (`display`).

`Worker.recv` is one round of the loop of a symbol worker: an order that cannot
be converted is skipped.
-/

namespace MatchCoreHp

open MatchProtocol

/-- Why an order cannot be converted. -/
inductive AdapterError where
  | scale (e : ScaleError)
  | unsupportedSide
  | unsupportedForm
  | invalidOrderId
  | invalidTimestamp
  | invalidGear
deriving DecidableEq

/-- The largest unsigned 64-bit integer. -/
def u64Max : Nat := 2 ^ 64 - 1

/-- The number of an order. -/
def parseId (s : String) : Except AdapterError Nat :=
  match parseUnsigned u64Max s.toList with
  | none => .error .invalidOrderId
  | some id => .ok id

/-- The side of an order. -/
def parseSide (orderType : Int) : Except AdapterError Side :=
  if orderType = orderTypeBuy then .ok .buy
  else if orderType = orderTypeSell then .ok .sell
  else .error .unsupportedSide

/-- The time of an order. -/
def parseTime (createTime : Int) : Except AdapterError Nat :=
  if 0 ≤ createTime then .ok createTime.toNat else .error .invalidTimestamp

section Convert

variable (display : BigDecimal → String) (scale : SymbolScale)

/-- A price in ticks. -/
def decimalToTick (d : BigDecimal) : Except AdapterError Int :=
  (toTick scale (display d)).mapError .scale

/-- A quantity in lots. -/
def decimalToLot (d : BigDecimal) : Except AdapterError Int :=
  (toLot scale (display d)).mapError .scale

/-- Convert a protocol order into a command. -/
def fromBbOrder (o : BbOrder) : Except AdapterError HpCommand :=
  if o.orderStatus = orderStatusRevoke then do
    let id ← parseId o.trustOrderNo
    return .cancel id
  else do
    let side ← parseSide o.orderType
    let ts ← parseTime o.createTime
    let clientId ← parseId o.trustOrderNo
    let qtyLot ← decimalToLot display scale o.remainingNumber
    if o.orderForm = orderFormLimit then do
      let priceTick ← decimalToTick display scale o.trustPrice
      return .limit side priceTick qtyLot ts clientId
    else if o.orderForm = orderFormMarketPrice then
      match o.gear.filter fun g => 1 ≤ g with
      | none => throw .invalidGear
      | some gear => return .market side qtyLot ts (some gear.toNat) clientId
    else throw .unsupportedForm

/-- What a converted order is. -/
inductive Converts (o : BbOrder) : HpCommand → Prop
  | cancel {id : Nat} (hstatus : o.orderStatus = orderStatusRevoke)
      (hid : parseId o.trustOrderNo = .ok id) : Converts o (.cancel id)
  | limit {side : Side} {priceTick qtyLot : Int} {ts clientId : Nat}
      (hstatus : o.orderStatus ≠ orderStatusRevoke) (hform : o.orderForm = orderFormLimit)
      (hside : parseSide o.orderType = .ok side) (hts : parseTime o.createTime = .ok ts)
      (hid : parseId o.trustOrderNo = .ok clientId)
      (hqty : toLot scale (display o.remainingNumber) = .ok qtyLot)
      (hprice : toTick scale (display o.trustPrice) = .ok priceTick) :
      Converts o (.limit side priceTick qtyLot ts clientId)
  | market {side : Side} {qtyLot gear : Int} {ts clientId : Nat}
      (hstatus : o.orderStatus ≠ orderStatusRevoke) (hform : o.orderForm = orderFormMarketPrice)
      (hside : parseSide o.orderType = .ok side) (hts : parseTime o.createTime = .ok ts)
      (hid : parseId o.trustOrderNo = .ok clientId)
      (hqty : toLot scale (display o.remainingNumber) = .ok qtyLot)
      (hgear : o.gear = some gear) (hpos : 1 ≤ gear) :
      Converts o (.market side qtyLot ts (some gear.toNat) clientId)

variable {display scale}

theorem bind_eq_ok {ε α β : Type} {x : Except ε α} {f : α → Except ε β} {b : β}
    (h : x >>= f = .ok b) : ∃ a, x = .ok a ∧ f a = .ok b := by
  cases x with
  | error e => cases h
  | ok a => exact ⟨a, rfl, h⟩

theorem mapError_eq_ok {ε ε' α : Type} {x : Except ε α} {f : ε → ε'} {a : α}
    (h : x.mapError f = .ok a) : x = .ok a := by
  cases x with
  | error e => cases h
  | ok b => exact congrArg Except.ok (Except.ok.inj h)

/-- A conversion that succeeds, read backwards. -/
theorem converts_of_fromBbOrder {o : BbOrder} {cmd : HpCommand}
    (h : fromBbOrder display scale o = .ok cmd) : Converts display scale o cmd := by
  unfold fromBbOrder at h
  split at h
  next hstatus =>
    obtain ⟨id, hid, h⟩ := bind_eq_ok h
    cases h
    exact .cancel hstatus hid
  next hstatus =>
    obtain ⟨side, hside, h⟩ := bind_eq_ok h
    obtain ⟨ts, hts, h⟩ := bind_eq_ok h
    obtain ⟨clientId, hid, h⟩ := bind_eq_ok h
    obtain ⟨qtyLot, hqty, h⟩ := bind_eq_ok h
    split at h
    next hform =>
      obtain ⟨priceTick, hprice, h⟩ := bind_eq_ok h
      cases h
      exact .limit hstatus hform hside hts hid (mapError_eq_ok hqty) (mapError_eq_ok hprice)
    next =>
      split at h
      next hform =>
        split at h
        next => cases h
        next gear hgear =>
          cases h
          obtain ⟨hgear, hpos⟩ := Option.filter_eq_some_iff.mp hgear
          exact .market hstatus hform hside hts hid (mapError_eq_ok hqty) hgear
            (of_decide_eq_true hpos)
      next => cases h

end Convert

/-- One round of a symbol worker. -/
def Worker.recv {B A : Type} [LevelIndex B] [LevelIndex A] (display : BigDecimal → String)
    (scale : SymbolScale) (e : HpEngine B A) (o : BbOrder) : HpEngine B A :=
  match fromBbOrder display scale o with
  | .error _ => e
  | .ok cmd => e.onOrder cmd

end MatchCoreHp
