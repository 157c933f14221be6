import MatchRust.Core.Limit

/-!
# PostOnly, IOC and FOK orders

The buy and the sell handlers of the source are mirror images, so each is one
definition over a side here, and the source's names are its two instances.  The
taker's side is `side`, the makers are on `side.opp`.

All three forms are inserted first.  A PostOnly order that would take is
revoked.  An IOC order is matched like a limit order as long as it is the best
of its side, and its remainder is revoked.  A FOK order that crosses and is
larger than the best maker walks down the other side: it takes maker after
maker off the book, keeps a snapshot of each, and writes its own progress back
to the book.  If the makers do not suffice the snapshots are put back and the
order is revoked.
-/

namespace MatchCore

open MatchProtocol

section Fok

variable [DecimalRounding]

/-! ## Fill or kill -/

/-- How a walk ends. -/
inductive FokWalk where
  /-- With fills, the taker gone from the book. -/
  | done (events : List MatchEvent)
  /-- Rolled back, the fills discarded and the taker revoked. -/
  | fail (revoke : MatchEvent)

/-- Revoke the taker after a rollback.  The fallback is for an order that is no
longer in the book. -/
def revokeFokOrFallback (book : OrderBook) (firstBb : BbOrder) : MatchEvent × OrderBook :=
  let r := revokeOrderWithReason book firstBb "fok_fail"
  (r.1.getD (.revoke
    { orderNo := firstBb.trustOrderNo
      symbol := firstBb.symbolKey
      remaining := firstBb.remainingNumber
      reason := "fok_fail" }), r.2)

/-- Put a snapshot back. -/
def restoreMaker (side : Side) (book : OrderBook) (maker : BbOrder) : OrderBook :=
  ((book.removeByOrderNo side.opp maker.trustOrderNo).2.insert maker).2

/-- Put the snapshots back and revoke the taker. -/
def rollbackFok (side : Side) (book : OrderBook) (firstBb : BbOrder) (makers : List BbOrder) :
    FokWalk × OrderBook :=
  let book := makers.foldl (restoreMaker side) book
  let r := revokeFokOrFallback book firstBb
  (.fail r.1, r.2)

/-- The next maker does not cross although earlier ones did. -/
def fokPriceGapAfterFills (side : Side) (book : OrderBook) (firstBb : BbOrder)
    (makers : List BbOrder) (events : List MatchEvent) (taker : BbOrder) : FokWalk × OrderBook :=
  if 0 < taker.remainingNumber then rollbackFok side book firstBb makers
  else (.done events, book)

/-- The walk.  `makers` are the snapshots so far and `firstBb` the taker as it
came. -/
def fokWalk (side : Side) :
    Nat → OrderBook → BbOrder → BbOrder → List MatchEvent → List BbOrder →
    Option (FokWalk × OrderBook)
  | 0, _, _, _, _, _ => none
  | n + 1, book, taker, firstBb, events, makers =>
      match book.first side.opp with
      | none => some (rollbackFok side book firstBb makers)
      | some maker =>
          let lastTaker := remaining taker
          let lastMaker := remaining maker
          let dealQty := if lastMaker ≤ lastTaker then lastMaker else lastTaker
          if side.crosses taker.trustPrice maker.trustPrice = false then
            if makers = [] then some (.done events, book)
            else some (fokPriceGapAfterFills side book firstBb makers events taker)
          else
            let makers := makers ++ [maker]
            if lastTaker < lastMaker then
              let book := (book.removeByOrderNo side.opp maker.trustOrderNo).2
              let book := (book.removeByOrderNo side taker.trustOrderNo).2
              let maker' := makerPartAvg maker dealQty
              let taker' := { takerFull taker dealQty maker.trustPrice with remainingNumber := 0 }
              let book := (book.insert maker').2
              some (.done (events ++ [fillEvent taker'.symbolKey taker' maker' maker'.trustPrice
                dealQty 0 maker'.remainingNumber orderStatusSuccess orderStatusSuccessPart]), book)
            else
              let book := (book.removeByOrderNo side.opp maker.trustOrderNo).2
              let book := (book.removeByOrderNo side taker.trustOrderNo).2
              let taker' := takerPart taker dealQty maker.trustPrice
              let book := (book.insert taker').2
              let events := events ++ [fillEvent taker'.symbolKey taker' maker maker.trustPrice
                dealQty taker'.remainingNumber 0 orderStatusSuccessPart orderStatusSuccess]
              if dealQty < lastTaker then
                if book.isEmpty side.opp then some (rollbackFok side book firstBb makers)
                else fokWalk side n book taker' firstBb events makers
              else some (.done events, (book.removeByOrderNo side taker'.trustOrderNo).2)

/-- A fill-or-kill order that crosses, at the front of its side.  The order of
the two removals differs between the source's two handlers, but they are on
different sides. -/
def fokHandle (side : Side) (budget : Nat) (book : OrderBook) : Outcome :=
  match book.first side, book.first side.opp with
  | none, _ => some (book, [])
  | _, none => some (book, [])
  | some taker, some maker =>
      let lastTaker := remaining taker
      let lastMaker := remaining maker
      if lastMaker < lastTaker then
        match fokWalk side budget book taker taker [] [] with
        | none => none
        | some (.done events, book) => some (book, events)
        | some (.fail revoke, book) => some (book, [revoke])
      else if lastTaker = lastMaker then
        let book := (book.removeByOrderNo side.opp maker.trustOrderNo).2
        let book := (book.removeByOrderNo side taker.trustOrderNo).2
        let taker' := { takerFull taker lastTaker maker.trustPrice with remainingNumber := 0 }
        some (book, [fillEvent taker'.symbolKey taker' maker maker.trustPrice lastTaker 0 0
          orderStatusSuccess orderStatusSuccess])
      else
        let book := (book.removeByOrderNo side taker.trustOrderNo).2
        let r := book.removeByOrderNo side.opp maker.trustOrderNo
        let maker := r.1.getD maker
        let taker' := { takerFull taker lastTaker maker.trustPrice with remainingNumber := 0 }
        let maker' := makerPartAvg maker lastTaker
        let book := (r.2.insert maker').2
        some (book, [fillEvent taker'.symbolKey taker' maker' maker'.trustPrice lastTaker 0
          maker'.remainingNumber orderStatusSuccess orderStatusSuccessPart])

/-- The walk of a FOK buy. -/
def fokBuyWalk := fokWalk .buy
/-- The walk of a FOK sell. -/
def fokSellWalk := fokWalk .sell
/-- A FOK buy that crosses. -/
def fokBuyHandle := fokHandle .buy
/-- A FOK sell that crosses. -/
def fokSellHandle := fokHandle .sell

/-! ## The three forms -/

omit [DecimalRounding] in
/-- The reason of a revoke. -/
def iocOrFokReason (orderForm : Int) : String :=
  if orderForm = orderFormIoc then "ioc_remainder" else "fok_fail"

omit [DecimalRounding] in
/-- Revoke the order of this number and stop. -/
def revokeAndStop (side : Side) (book : OrderBook) (events : List MatchEvent) (orderNo : String)
    (reason : String) : Outcome :=
  let r := revokeByNo book orderNo side reason
  some (r.2, pushIfPresent events r.1)

/-- The loop of the three forms.  `step` matches the best orders once, `fok`
handles a FOK order that crosses. -/
def heightLoop (side : Side) (step : OrderBook → List MatchEvent × OrderBook)
    (fok : Nat → OrderBook → Outcome) (orderForm : Int) (orderNo : String)
    (trustPrice : BigDecimal) : Nat → OrderBook → List MatchEvent → Outcome
  | 0, _, _ => none
  | n + 1, book, events =>
      if orderForm = orderFormPostOnly then
        let wouldTake := (book.first side.opp).any fun o => side.crosses trustPrice o.trustPrice
        if wouldTake then revokeAndStop side book events orderNo "post_only"
        else some (book, events)
      else if book.isEmpty side.opp then
        revokeAndStop side book events orderNo (iocOrFokReason orderForm)
      else if book.isEmpty side then some (book, events)
      -- An IOC order that is filled completely.
      else if orderForm = orderFormIoc ∧ book.containsOrderNo orderNo = false then
        some (book, events)
      else
        match book.first side, book.first side.opp with
        | some best, some bestOpp =>
            -- An IOC order only takes while it is the best of its side.
            if orderForm = orderFormIoc ∧ best.trustOrderNo ≠ orderNo then
              revokeAndStop side book events orderNo "ioc_remainder"
            else if side.crosses best.trustPrice bestOpp.trustPrice = false then
              revokeAndStop side book events orderNo (iocOrFokReason orderForm)
            else if orderForm = orderFormFok then
              match fok (n + 1) book with
              | none => none
              | some (book, evs) => some (book, events ++ evs)
            else
              let r := step book
              heightLoop side step fok orderForm orderNo trustPrice n r.2 (events ++ r.1)
        | _, _ => some (book, events)

/-- The loop of a buy. -/
def heightBuyLoop (budget : Nat) (book : OrderBook) (orderForm : Int) (orderNo : String)
    (trustPrice : BigDecimal) : Outcome :=
  heightLoop .buy pushRatherThanBuy fokBuyHandle orderForm orderNo trustPrice budget book []

/-- The loop of a sell. -/
def heightSellLoop (budget : Nat) (book : OrderBook) (orderForm : Int) (orderNo : String)
    (trustPrice : BigDecimal) : Outcome :=
  heightLoop .sell pushRatherThanSell fokSellHandle orderForm orderNo trustPrice budget book []

/-- A PostOnly, IOC or FOK buy. -/
def handleHeightBuy (book : OrderBook) (order : BbOrder) : Outcome :=
  withInserted book order fun book =>
    heightBuyLoop (loopBudget book) book order.orderForm order.trustOrderNo order.trustPrice

/-- A PostOnly, IOC or FOK sell. -/
def handleHeightSell (book : OrderBook) (order : BbOrder) : Outcome :=
  withInserted book order fun book =>
    heightSellLoop (loopBudget book) book order.orderForm order.trustOrderNo order.trustPrice

end Fok

end MatchCore
