import MatchRust.Core.Height

/-!
# Market orders and the engine

A market buy is priced at the largest 32-bit integer, a market sell keeps its
own price.  Both are inserted and then matched, whatever the prices, until they
are filled, the other side is empty, or they had as many fills as their gear
allows.

The engine keeps a book per symbol and dispatches on the order's status, form
and side.  A symbol without a book reads as an empty one, as
`entry(symbol).or_default()` has it, so the books are a function of the symbol.
A form the engine does not know is a limit order.  An order number that rests
already is rejected without an event.
-/

namespace MatchCore

open MatchProtocol

section Market

variable [DecimalRounding]

/-! ## Market orders -/

omit [DecimalRounding] in
/-- The price of a market buy. -/
def marketBuyTrustPrice : BigDecimal := 2147483647

/-- Match with the buy as taker, unless the best sell is a market order too. -/
def marketBuyHandle (book : OrderBook) : Option MatchEvent × OrderBook :=
  match book.first .sell with
  | none => (none, book)
  | some sell =>
      if sell.orderForm = orderFormMarketPrice then (none, book) else ratherThanBuy book

omit [DecimalRounding] in
/-- The number of fills an order may have. -/
def gearOf (order : BbOrder) : Int :=
  match order.gear with
  | some g => if 1 ≤ g then g else 1
  | none => 1

/-- One match of a market buy: the events it adds and the number of fills. -/
def marketBuyFillDelta (book : OrderBook) : (List MatchEvent × Int) × OrderBook :=
  match marketBuyHandle book with
  | (some ev, book) => (([ev], 1), book)
  | (none, book) => (([], 0), book)

/-- One match of a market sell: the events it adds and the number of fills. -/
def marketSellFillDelta (book : OrderBook) : (List MatchEvent × Int) × OrderBook :=
  match ratherThanSell book with
  | (.fill ev, book) => (([ev], 1), book)
  | (.revoked ev, book) => (([ev], 0), book)
  | (.none, book) => (([], 0), book)

omit [DecimalRounding] in
/-- The loop of a market order. -/
def marketLoop (side : Side) (step : OrderBook → (List MatchEvent × Int) × OrderBook)
    (orderNo : String) (gear : Int) : Nat → OrderBook → List MatchEvent → Int → Outcome
  | 0, _, _, _ => none
  | n + 1, book, events, fillCount =>
      match book.first side with
      | none => some (book, events)
      | some best =>
          if book.isEmpty side.opp then
            revokeAndStop side book events orderNo "market_empty"
          else if best.orderForm ≠ orderFormMarketPrice then some (book, events)
          else if best.trustOrderNo ≠ orderNo then
            revokeAndStop side book events orderNo "market_blocked"
          else
            let r := step book
            let book := r.2
            let events := events ++ r.1.1
            let fillCount := fillCount + r.1.2
            if 0 < gear ∧ gear ≤ fillCount then
              revokeAndStop side book events orderNo "market_gear"
            else if r.1.2 = 0 then revokeAndStop side book events orderNo "market_blocked"
            else marketLoop side step orderNo gear n book events fillCount

/-- A market buy. -/
def handleMarketBuy (book : OrderBook) (order : BbOrder) : Outcome :=
  let order := { order with trustPrice := marketBuyTrustPrice }
  withInserted book order fun book =>
    marketLoop .buy marketBuyFillDelta order.trustOrderNo (gearOf order) (loopBudget book) book [] 0

/-- A market sell. -/
def handleMarketSell (book : OrderBook) (order : BbOrder) : Outcome :=
  withInserted book order fun book =>
    marketLoop .sell marketSellFillDelta order.trustOrderNo (gearOf order) (loopBudget book) book
      [] 0

end Market

/-! ## The engine -/

/-- A book per symbol. -/
structure Engine where
  /-- The book of a symbol, empty if it has none. -/
  books : String → OrderBook := fun _ => {}

namespace Engine

variable [DecimalRounding]

omit [DecimalRounding] in
/-- The forms of the height handlers. -/
def isHeightOrderForm (orderForm : Int) : Bool :=
  orderForm = orderFormPostOnly || orderForm = orderFormIoc || orderForm = orderFormFok

/-- What an order does to the book of its symbol. -/
def onBook (book : OrderBook) (order : BbOrder) : Outcome :=
  if isRevoke order then
    let r := revokeOrder book order
    some (r.2, r.1.toList)
  else if book.containsOrderNo order.trustOrderNo then some (book, [])
  else if isHeightOrderForm order.orderForm then
    match Side.fromOrderType order.orderType with
    | some .buy => handleHeightBuy book order
    | some .sell => handleHeightSell book order
    | none => some (restOnly book order, [])
  else if order.orderForm = orderFormMarketPrice then
    match Side.fromOrderType order.orderType with
    | some .buy => handleMarketBuy book order
    | some .sell => handleMarketSell book order
    | none => some (restOnly book order, [])
  else
    match Side.fromOrderType order.orderType with
    | some .buy => handleLimitBuy book order
    | some .sell => handleLimitSell book order
    | none => some (restOnly book order, [])

/-- Accept an order: revoke, market, height or limit. -/
def onOrder (engine : Engine) (order : BbOrder) : Option (Engine × List MatchEvent) :=
  match onBook (engine.books order.symbolKey) order with
  | none => none
  | some (book, events) =>
      some ({ books := Function.update engine.books order.symbolKey book }, events)

/-- Accept orders one after the other. -/
def run (engine : Engine) : List BbOrder → Option Engine
  | [] => some engine
  | o :: os =>
      match engine.onOrder o with
      | none => none
      | some (engine, _) => run engine os

end Engine

end MatchCore
