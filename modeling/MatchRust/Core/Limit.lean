import MatchRust.Core.Book

/-!
# Events and limit matching

`ratherThanBuy` and `ratherThanSell` match the best buy with the best sell.
Both orders leave the book, and what is left of the larger one goes back.  The
incoming side is the taker, and the price is the maker's.  The two differ in
more than the side.  A partly filled buy that was the maker has its average
price updated, a partly filled sell has not.  And `ratherThanSell` revokes a
fill-or-kill sell that the best buy cannot fill.

A limit order is inserted first, and then the two best orders are matched as
long as their prices cross.  The loops of the source are run with a budget of
iterations and return nothing when it runs out.  The handlers give them more
iterations than there are orders, and that is always enough
(`MatchRust.Core.Sweeps`).

Decimals are printed normalized in events, one text for each number, and an
event keeps the number here.
-/

namespace MatchCore

open MatchProtocol

/-! ## Events -/

/-- A fill. -/
structure FillEvent where
  symbol : String
  takerOrderNo : String
  makerOrderNo : String
  takerUserType : Int
  makerUserType : Int
  price : BigDecimal
  qty : BigDecimal
  takerRemaining : BigDecimal
  makerRemaining : BigDecimal
  takerStatus : Int
  makerStatus : Int
deriving DecidableEq

/-- A revoke. -/
structure RevokeEvent where
  orderNo : String
  symbol : String
  remaining : BigDecimal
  reason : String
deriving DecidableEq

/-- Outcome events of the matching engine. -/
inductive MatchEvent where
  | fill (ev : FillEvent)
  | revoke (ev : RevokeEvent)
deriving DecidableEq

/-- The book after a step and the events so far, if the budget of iterations
was enough. -/
abbrev Outcome := Option (OrderBook × List MatchEvent)

/-- The fill of a taker against a maker. -/
def fillEvent (symbol : String) (taker maker : BbOrder)
    (price qty takerRemaining makerRemaining : BigDecimal) (takerStatus makerStatus : Int) :
    MatchEvent :=
  .fill
    { symbol := symbol
      takerOrderNo := taker.trustOrderNo
      makerOrderNo := maker.trustOrderNo
      takerUserType := taker.type
      makerUserType := maker.type
      price := price
      qty := qty
      takerRemaining := takerRemaining
      makerRemaining := makerRemaining
      takerStatus := takerStatus
      makerStatus := makerStatus }

/-! ## Revokes -/

/-- Remove the order of this number from the side of the request. -/
def revokeOrderWithReason (book : OrderBook) (order : BbOrder) (reason : String) :
    Option MatchEvent × OrderBook :=
  match Side.fromOrderType order.orderType with
  | none => (none, book)
  | some side =>
      match book.removeByOrderNo side order.trustOrderNo with
      | (none, book) => (none, book)
      | (some removed, book) =>
          (some (.revoke
            { orderNo := removed.trustOrderNo
              symbol := removed.symbolKey
              remaining := remaining removed
              reason := reason }), book)

/-- A user's revoke. -/
def revokeOrder (book : OrderBook) (order : BbOrder) : Option MatchEvent × OrderBook :=
  revokeOrderWithReason book order "user"

/-- Revoke by number, through a stub request. -/
def revokeByNo (book : OrderBook) (orderNo : String) (side : Side) (reason : String) :
    Option MatchEvent × OrderBook :=
  revokeOrderWithReason book (testLimit side 0 orderNo 0 0) reason

/-- Add an event if there is one. -/
def pushIfPresent (events : List MatchEvent) : Option MatchEvent → List MatchEvent
  | some ev => events ++ [ev]
  | none => events

/-- The order is a request to revoke. -/
def isRevoke (order : BbOrder) : Bool := order.orderStatus = orderStatusRevoke

/-- Insert an order and go on, or reject it. -/
def withInserted (book : OrderBook) (order : BbOrder) (next : OrderBook → Outcome) : Outcome :=
  match book.insert order with
  | (false, book) => some (book, [])
  | (true, book) => next book

/-- Insert an order and do nothing else. -/
def restOnly (book : OrderBook) (order : BbOrder) : OrderBook := (book.insert order).2

/-- Iterations enough for any loop over a book. -/
def loopBudget (book : OrderBook) : Nat := book.buys.length + book.sells.length + 2

/-! ## One match -/

section Matching

variable [DecimalRounding]

/-- Weighted average price, to 16 digits. -/
def getAveragePrice (amount price nowAmount nowPrice : BigDecimal) : BigDecimal :=
  let totalAmount := price * amount + nowPrice * nowAmount
  let totalQuantity := amount + nowAmount
  if totalQuantity = 0 then 0
  else
    DecimalRounding.withScaleRound (DecimalRounding.div totalAmount totalQuantity) 16 .halfDown

/-- A taker after a fill of `qty` at `price` that leaves it open. -/
def takerPart (o : BbOrder) (qty price : BigDecimal) : BbOrder :=
  { o with
    averagePrice := getAveragePrice o.consumerAllNumber o.averagePrice qty price
    consumerAllNumber := o.consumerAllNumber + qty
    remainingNumber := o.trustNumber - (o.consumerAllNumber + qty)
    orderStatus := orderStatusSuccessPart
    currentDealNumber := qty }

/-- A taker after a fill of `qty` at `price` that completes it. -/
def takerFull (o : BbOrder) (qty price : BigDecimal) : BbOrder :=
  { o with
    averagePrice := getAveragePrice o.consumerAllNumber o.averagePrice qty price
    orderStatus := orderStatusSuccess
    currentDealNumber := qty
    consumerAllNumber := o.trustNumber }

omit [DecimalRounding] in
/-- A maker after a fill of `qty` that leaves it open, its average price as it
was. -/
def makerPart (o : BbOrder) (qty : BigDecimal) : BbOrder :=
  { o with
    consumerAllNumber := o.consumerAllNumber + qty
    remainingNumber := o.trustNumber - (o.consumerAllNumber + qty) }

/-- A maker after a fill of `qty` that leaves it open, with its average price. -/
def makerPartAvg (o : BbOrder) (qty : BigDecimal) : BbOrder :=
  { o with
    consumerAllNumber := o.consumerAllNumber + qty
    remainingNumber := o.trustNumber - (o.consumerAllNumber + qty)
    averagePrice := getAveragePrice o.consumerAllNumber o.averagePrice qty o.trustPrice }

/-- The buy is smaller than the sell: it is filled, the sell goes back. -/
def lessThanBuy (book : OrderBook) (buy sell : BbOrder) (lastBuy : BigDecimal) :
    Option MatchEvent × OrderBook :=
  let buy' := takerFull buy lastBuy sell.trustPrice
  let sell' := makerPart sell lastBuy
  (some (fillEvent buy.symbolKey buy' sell' sell'.trustPrice lastBuy 0 sell'.remainingNumber
    orderStatusSuccess orderStatusSuccessPart), (book.insert sell').2)

/-- The two are equal: both are filled. -/
def equalsBuy (buy sell : BbOrder) (lastBuy lastSell : BigDecimal) : Option MatchEvent :=
  let buy' := { takerFull buy lastSell sell.trustPrice with
    currentDealNumber := lastBuy, remainingNumber := 0 }
  some (fillEvent buy.symbolKey buy' sell sell.trustPrice lastBuy 0 0
    orderStatusSuccess orderStatusSuccess)

/-- Match the best buy, as the taker, with the best sell. -/
def ratherThanBuy (book : OrderBook) : Option MatchEvent × OrderBook :=
  match book.popFirst .buy with
  | (none, book) => (none, book)
  | (some buy, book) =>
      match book.popFirst .sell with
      | (none, book) => (none, (book.insert buy).2)
      | (some sell, book) =>
          let lastBuy := remaining buy
          let lastSell := remaining sell
          if lastSell < lastBuy then
            let buy' := takerPart buy lastSell sell.trustPrice
            (some (fillEvent buy.symbolKey buy' sell sell.trustPrice lastSell
              buy'.remainingNumber 0 orderStatusSuccessPart orderStatusSuccess),
              (book.insert buy').2)
          else if lastBuy < lastSell then lessThanBuy book buy sell lastBuy
          else (equalsBuy buy sell lastBuy lastSell, book)

/-- What `ratherThanSell` did. -/
inductive RatherThanSellResult where
  | fill (ev : MatchEvent)
  | revoked (ev : MatchEvent)
  | none

/-- The sell is smaller than the buy: it is filled, the buy goes back. -/
def lessThanSell (book : OrderBook) (buy sell : BbOrder) (lastSell : BigDecimal) :
    MatchEvent × OrderBook :=
  let sell' := takerFull sell lastSell buy.trustPrice
  let buy' := makerPartAvg buy lastSell
  (fillEvent sell.symbolKey sell' buy' buy'.trustPrice lastSell 0 buy'.remainingNumber
    orderStatusSuccess orderStatusSuccessPart, (book.insert buy').2)

/-- The two are equal: both are filled. -/
def equalsSell (buy sell : BbOrder) (lastSell : BigDecimal) : MatchEvent :=
  let sell' := { takerFull sell lastSell buy.trustPrice with remainingNumber := 0 }
  fillEvent sell.symbolKey sell' buy buy.trustPrice lastSell 0 0
    orderStatusSuccess orderStatusSuccess

/-- Match the best sell, as the taker, with the best buy.  A fill-or-kill sell
that the buy cannot fill is revoked and the buy goes back. -/
def ratherThanSell (book : OrderBook) : RatherThanSellResult × OrderBook :=
  match book.popFirst .sell with
  | (none, book) => (.none, book)
  | (some sell, book) =>
      match book.popFirst .buy with
      | (none, book) => (.none, (book.insert sell).2)
      | (some buy, book) =>
          let lastSell := remaining sell
          let lastBuy := remaining buy
          if lastBuy < lastSell then
            if sell.orderForm = orderFormFok then
              (.revoked (.revoke
                { orderNo := sell.trustOrderNo
                  symbol := sell.symbolKey
                  remaining := sell.remainingNumber
                  reason := "user" }), (book.insert buy).2)
            else
              let sell' := takerPart sell lastBuy buy.trustPrice
              (.fill (fillEvent sell.symbolKey sell' buy buy.trustPrice lastBuy
                sell'.remainingNumber 0 orderStatusSuccessPart orderStatusSuccess),
                (book.insert sell').2)
          else if lastSell < lastBuy then
            let r := lessThanSell book buy sell lastSell
            (.fill r.1, r.2)
          else (.fill (equalsSell buy sell lastSell), book)

/-! ## The limit loops -/

/-- One match with the buy as taker, as the events it adds. -/
def pushRatherThanBuy (book : OrderBook) : List MatchEvent × OrderBook :=
  match ratherThanBuy book with
  | (some ev, book) => ([ev], book)
  | (none, book) => ([], book)

/-- One match with the sell as taker, as the events it adds. -/
def pushRatherThanSell (book : OrderBook) : List MatchEvent × OrderBook :=
  match ratherThanSell book with
  | (.fill ev, book) => ([ev], book)
  | (.revoked ev, book) => ([ev], book)
  | (.none, book) => ([], book)

omit [DecimalRounding] in
/-- Match the best orders while the best buy pays the best sell. -/
def matchLimitLoop (step : OrderBook → List MatchEvent × OrderBook) :
    Nat → OrderBook → List MatchEvent → Outcome
  | 0, _, _ => none
  | n + 1, book, events =>
      match book.first .buy, book.first .sell with
      | none, _ => some (book, events)
      | _, none => some (book, events)
      | some buy, some sell =>
          if buy.trustPrice < sell.trustPrice then some (book, events)
          else
            let r := step book
            matchLimitLoop step n r.2 (events ++ r.1)

/-- The loop of a limit buy. -/
def matchLimitBuyLoop (budget : Nat) (book : OrderBook) : Outcome :=
  matchLimitLoop pushRatherThanBuy budget book []

/-- The loop of a limit sell. -/
def matchLimitSellLoop (budget : Nat) (book : OrderBook) : Outcome :=
  matchLimitLoop pushRatherThanSell budget book []

/-- A limit buy. -/
def handleLimitBuy (book : OrderBook) (order : BbOrder) : Outcome :=
  withInserted book order fun book => matchLimitBuyLoop (loopBudget book) book

/-- A limit sell. -/
def handleLimitSell (book : OrderBook) (order : BbOrder) : Outcome :=
  withInserted book order fun book => matchLimitSellLoop (loopBudget book) book

end Matching

end MatchCore
