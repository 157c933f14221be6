import MatchRust.Core.Reachable

/-!
# The reference matcher

A matcher that knows nothing of how the engine works.  It sees a resting order
as a quote: who, at which price, since when, and how much is open.  It keeps
quotes in no particular order and sorts them by price, time and number when it
needs to.  A taker then takes from one quote after the other as much as both
sides have, until it is filled or the next quote is beyond its price.

The engine agrees with it on limit, PostOnly and IOC orders, event by event and
quote by quote (`onOrder_eq_reference`).
-/

namespace MatchCore

open MatchProtocol PriceTime OrderBook

/-! ## Quotes -/

/-- A resting order, as the reference sees it. -/
structure Quote where
  /-- The order number. -/
  orderNo : String
  /-- The kind of user, which fills report. -/
  userType : Int
  /-- The limit. -/
  price : BigDecimal
  /-- The time of the order. -/
  time : Int
  /-- What is open. -/
  openQty : BigDecimal
deriving DecidableEq

/-- The quote of an order. -/
def quoteOf (o : BbOrder) : Quote where
  orderNo := o.trustOrderNo
  userType := o.type
  price := o.trustPrice
  time := o.createTime
  openQty := remaining o

/-- Priority on a side: price, then time, then number. -/
def Quote.priority (side : Side) (q : Quote) : BigDecimal ×ₗ Int ×ₗ String :=
  toLex (side.signed q.price, toLex (q.time, q.orderNo))

/-- Quotes in order of priority. -/
def prioritize (side : Side) (quotes : List Quote) : List Quote :=
  quotes.insertionSort fun a b => a.priority side ≤ b.priority side

/-- The quotes of a book. -/
structure QuoteBook where
  buys : List Quote
  sells : List Quote
deriving DecidableEq

namespace QuoteBook

/-- The quotes of a side. -/
def quotes (book : QuoteBook) : Side → List Quote
  | .buy => book.buys
  | .sell => book.sells

/-- A book of these quotes on a side and those on the other. -/
def ofSides : Side → List Quote → List Quote → QuoteBook
  | .buy, own, opp => { buys := own, sells := opp }
  | .sell, own, opp => { buys := opp, sells := own }

end QuoteBook

/-- The book of the engine, as the reference sees it. -/
def quoteBook (book : OrderBook) : QuoteBook where
  buys := book.buys.map quoteOf
  sells := book.sells.map quoteOf

/-! ## Matching -/

/-- A trade of `qty` between the taker and a quote. -/
def trade (taker : BbOrder) (quote : Quote) (qty takerLeft makerLeft : BigDecimal) : MatchEvent :=
  .fill
    { symbol := taker.symbolKey
      takerOrderNo := taker.trustOrderNo
      makerOrderNo := quote.orderNo
      takerUserType := taker.type
      makerUserType := quote.userType
      price := quote.price
      qty := qty
      takerRemaining := takerLeft
      makerRemaining := makerLeft
      takerStatus := if takerLeft = 0 then orderStatusSuccess else orderStatusSuccessPart
      makerStatus := if makerLeft = 0 then orderStatusSuccess else orderStatusSuccessPart }

/-- A quote is within the taker's price. -/
def within (side : Side) (taker : BbOrder) (quote : Quote) : Bool :=
  side.crosses taker.trustPrice quote.price

/-- Take from the quotes, in their order, while they are within the taker's
price.  Returns the trades, the quotes that remain and what is left of the
taker. -/
def takeQuotes (side : Side) (taker : BbOrder) :
    BigDecimal → List Quote → List MatchEvent × List Quote × BigDecimal
  | left, [] => ([], [], left)
  | left, quote :: quotes =>
      if left = 0 ∨ within side taker quote = false then
        ([], quote :: quotes, left)
      else
        let qty := min left quote.openQty
        let ev := trade taker quote qty (left - qty) (quote.openQty - qty)
        if qty < quote.openQty then
          ([ev], { quote with openQty := quote.openQty - qty } :: quotes, left - qty)
        else
          let r := takeQuotes side taker (left - qty) quotes
          (ev :: r.1, r.2)

/-- What a limit, PostOnly or IOC order should do. -/
def reference (book : QuoteBook) (o : BbOrder) : QuoteBook × List MatchEvent :=
  match Side.fromOrderType o.orderType with
  | none => (book, [])
  | some side =>
      let own := prioritize side (book.quotes side)
      let opp := prioritize side.opp (book.quotes side.opp)
      if o.orderForm = orderFormPostOnly then
        if opp.any (within side o) then
          (.ofSides side own opp, [revokeOf o o.trustNumber "post_only"])
        else (.ofSides side (prioritize side (quoteOf o :: own)) opp, [])
      else
        let r := takeQuotes side o o.trustNumber opp
        let left := r.2.2
        if left = 0 then (.ofSides side own r.2.1, r.1)
        else if o.orderForm = orderFormIoc then
          (.ofSides side own r.2.1, r.1 ++ [revokeOf o left "ioc_remainder"])
        else
          (.ofSides side (prioritize side ({ quoteOf o with openQty := left } :: own)) r.2.1, r.1)

/-! ## Agreement -/

/-- A sorted side is in order of priority. -/
theorem prioritize_map {side : Side} {l : List BbOrder} (h : SideSorted side l) :
    prioritize side (l.map quoteOf) = l.map quoteOf := by
  refine List.Pairwise.insertionSort_eq (List.pairwise_map.mpr (h.sorted.imp ?_))
  exact fun hab => le_of_lt hab

/-- Placing an order is sorting its quote in. -/
theorem prioritize_cons {side : Side} {o : BbOrder} {l : List BbOrder} (h : SideSorted side l) :
    prioritize side (quoteOf o :: l.map quoteOf) = (place side o l).map quoteOf := by
  have hl := prioritize_map h
  rw [prioritize] at hl
  rw [prioritize, List.insertionSort_cons, hl]
  exact (List.map_orderedInsert (fun a b => rank side a ≤ rank side b)
    (fun a b : Quote => a.priority side ≤ b.priority side) quoteOf l o
    (fun _ _ => Iff.rfl) (fun _ _ => Iff.rfl)).symm

/-- Quotes as makers of a sweep. -/
def quoteMakers : MakerOps Quote BigDecimal where
  openOf := Quote.openQty
  reduce q m := { m with openQty := m.openQty - q }
  openOf_reduce _ _ := rfl

/-- The trade of a fill. -/
def tradeOf (taker : BbOrder) (f : PriceTime.Fill Quote BigDecimal) : MatchEvent :=
  trade taker f.maker f.qty f.takerLeft f.makerLeft

theorem takeQuotes_zero (side : Side) (taker : BbOrder) (quotes : List Quote) :
    takeQuotes side taker 0 quotes = ([], quotes, 0) := by
  cases quotes with
  | nil => rfl
  | cons quote quotes => rw [takeQuotes, if_pos (Or.inl rfl)]

/-- The reference takes what a sweep takes. -/
theorem takeQuotes_eq_sweep (side : Side) (taker : BbOrder) (quotes : List Quote) :
    ∀ {q : BigDecimal}, 0 < q →
      takeQuotes side taker q quotes =
        let r := sweep quoteMakers (within side taker) none q quotes
        (r.fills.map (tradeOf taker), r.book, r.left) := by
  induction quotes with
  | nil => intro q _; rfl
  | cons m ms ih =>
      intro q hq
      rw [takeQuotes]
      by_cases hc : within side taker m = true
      case neg =>
        rw [Bool.not_eq_true] at hc
        rw [if_pos (Or.inr hc), sweep_stop _ (Or.inr hc)]
        rfl
      rw [if_neg (by simp [hc, hq.ne'])]
      rcases lt_trichotomy m.openQty q with hlt | heq | hgt
      · rw [sweep_more _ (by simp) hc hlt]
        simp only [min_eq_right hlt.le, lt_irrefl, if_false, ih (sub_pos.mpr hlt), sub_self]
        rfl
      · rw [sweep_exact _ (by simp) hc heq]
        simp only [heq, min_self, lt_irrefl, if_false, sub_self, takeQuotes_zero]
        rfl
      · rw [sweep_part _ (by simp) hc hgt]
        simp only [min_eq_left hgt.le, if_pos hgt, sub_self]
        rfl

@[simp] theorem quoteBook_ofSides (side : Side) (own opp : List BbOrder) :
    quoteBook (ofSides side own opp) = .ofSides side (own.map quoteOf) (opp.map quoteOf) := by
  cases side <;> rfl

@[simp] theorem QuoteBook.quotes_ofSides (side : Side) (own opp : List Quote) :
    (QuoteBook.ofSides side own opp).quotes side = own := by
  cases side <;> rfl

@[simp] theorem QuoteBook.quotes_ofSides_opp (side : Side) (own opp : List Quote) :
    (QuoteBook.ofSides side own opp).quotes side.opp = opp := by
  cases side <;> rfl

section Agreement

variable [DecimalRounding] {side : Side} {o : BbOrder} {own ms : List BbOrder}

theorem quoteOf_reduce (side : Side) (x : BigDecimal) (m : BbOrder) :
    quoteOf ((makersOf side).reduce x m) = quoteMakers.reduce x (quoteOf m) := by
  have hopen := (makersOf side).openOf_reduce x m
  simp only [openOf_makersOf] at hopen
  cases side <;> simp only [quoteOf, quoteMakers, ← hopen] <;> rfl

/-- On the quotes of the makers it takes what the engine takes. -/
theorem takeQuotes_map (side : Side) (hl : Live o) (ms : List BbOrder) :
    takeQuotes side o (remaining o) (ms.map quoteOf) =
      let r := limitSweep side o ms
      (r.fills.map (fillOf o), r.book.map quoteOf, r.left) := by
  have hmap : sweep quoteMakers (within side o) none (remaining o) (ms.map quoteOf) =
      (limitSweep side o ms).map quoteOf id :=
    sweep_map (makersOf side) quoteMakers quoteOf (AddMonoidHom.id BigDecimal) strictMono_id
      (fun m => (openOf_makersOf side m).symm) (fun x m => (quoteOf_reduce side x m).symm)
      (crossing side o) (within side o) none (remaining o) ms fun _ _ => rfl
  rw [takeQuotes_eq_sweep side o _ hl.pos, hmap]
  simp only [Sweep.map, List.map_map, id]
  rfl

/-- The quote of the rest of an order. -/
theorem quoteOf_taken :
    quoteOf (takeFills o (limitSweep side o ms).fills) =
      { quoteOf o with openQty := (limitSweep side o ms).left } := by
  have ht := terms_takeFills o (limitSweep side o ms).fills
  have hty : (takeFills o (limitSweep side o ms).fills).type = o.type :=
    (congrArg BbOrder.type ht :)
  have htime : (takeFills o (limitSweep side o ms).fills).createTime = o.createTime :=
    (congrArg BbOrder.createTime ht :)
  simp only [quoteOf, trustOrderNo_of_terms ht, trustPrice_of_terms ht, hty, htime]
  rw [limitSweep, remaining_taken]

omit [DecimalRounding] in
/-- A PostOnly order would take if it crosses the best maker. -/
theorem any_within (hs : Sides side own ms) :
    (ms.map quoteOf).any (within side o) = ms.head?.any (crossing side o) := by
  rw [Bool.eq_iff_iff]
  constructor
  · intro h
    by_contra hhead
    have hap := hs.apart_of_head (o := o) fun m hm => by
      rw [Option.mem_def] at hm
      simpa [hm, crossing] using hhead
    obtain ⟨q, hq, hw⟩ := List.any_eq_true.mp h
    obtain ⟨m, hm, rfl⟩ := List.mem_map.mp hq
    rw [show within side o (quoteOf m) = false from hap m hm] at hw
    cases hw
  · cases ms with
    | nil => intro h; cases h
    | cons m ms => intro h; exact List.any_eq_true.mpr ⟨quoteOf m, by simp, h⟩

/-- A settled order does what the reference does. -/
theorem settle_eq_reference (hs : Sides side own ms) (hi : Incoming side o own ms)
    (hq : remaining o = o.trustNumber) (hm : o.orderForm ≠ orderFormMarketPrice)
    (hfok : o.orderForm ≠ orderFormFok) :
    (quoteBook (settle side o own ms).1, (settle side o own ms).2) =
      reference (quoteBook (ofSides side own ms)) o := by
  have hown := prioritize_map hs.sorted
  have hopp := prioritize_map hs.oppSorted
  have htake := takeQuotes_map side hi.live ms
  rw [hq] at htake
  simp only [reference, hi.code, quoteBook_ofSides, QuoteBook.quotes_ofSides,
    QuoteBook.quotes_ofSides_opp, hown, hopp, any_within hs, htake, settle, if_neg hm, if_neg hfok,
    hq]
  by_cases hpo : o.orderForm = orderFormPostOnly
  · simp only [if_pos hpo]
    split
    · rw [quoteBook_ofSides]
    · rw [quoteBook_ofSides, prioritize_cons hs.sorted]
  by_cases hioc : o.orderForm = orderFormIoc
  · simp only [if_neg hpo, if_pos hioc, quoteBook_ofSides, takenEvents]
    split
    · rw [List.append_nil]
    · rfl
  · simp only [if_neg hpo, if_neg hioc, quoteBook_ofSides, rested]
    split
    · rfl
    · rw [← prioritize_cons hs.sorted, quoteOf_taken]

omit [DecimalRounding] in
/-- A maker no fill names stays as it is. -/
theorem mem_of_unnamed {S : MakerOps BbOrder BigDecimal} (hS : BookMakers S)
    {crosses : BbOrder → Bool} {cap : Option Nat} {q : BigDecimal} (hq : 0 < q) {x : BbOrder}
    (hx : x ∈ (sweep S crosses cap q ms).book) {evs : List MatchEvent}
    (hevs : ∀ f ∈ (sweep S crosses cap q ms).fills, fillOf o f ∈ evs)
    (hno : ∀ f, .fill f ∈ evs → f.makerOrderNo ≠ x.trustOrderNo) : x ∈ ms := by
  rcases mem_book S crosses cap q ms hq x hx with hx | ⟨f, hf, -, -, -, rfl⟩
  · exact hx
  · exact absurd (trustOrderNo_of_terms (hS.terms f.qty f.maker)).symm (hno _ (hevs f hf))

/-- Orders that are neither the taker nor the maker of a fill stay as they
are. -/
theorem settle_frame (hi : Incoming side o own ms) (hm : o.orderForm ≠ orderFormMarketPrice)
    (hfok : o.orderForm ≠ orderFormFok) :
    ∀ s, ∀ x ∈ (settle side o own ms).1.entries s, x.trustOrderNo ≠ o.trustOrderNo →
      (∀ f, .fill f ∈ (settle side o own ms).2 → f.makerOrderNo ≠ x.trustOrderNo) →
      x ∈ (ofSides side own ms).entries s := by
  intro s x hx hne hno
  have hS := bookMakers_makersOf side
  have ht := trustOrderNo_of_terms (terms_takeFills o (limitSweep side o ms).fills)
  rw [settle, if_neg hfok, if_neg hm] at hx hno
  rcases Side.eq_or_eq_opp side s with rfl | rfl
  · rw [entries_ofSides]
    split_ifs at hx with hpo hcr hioc
    · simpa using hx
    · rw [entries_ofSides, mem_place] at hx
      exact hx.resolve_left fun he => hne (congrArg _ he)
    · simpa using hx
    · rw [entries_ofSides, rested] at hx
      split at hx
      · exact hx
      · exact (mem_place.mp hx).resolve_left fun he => hne ((congrArg _ he).trans ht)
  · rw [entries_ofSides_opp]
    split_ifs at hx hno with hpo hcr hioc
    · simpa using hx
    · simpa using hx
    · rw [entries_ofSides_opp] at hx
      exact mem_of_unnamed hS hi.live.pos hx
        (fun f hf => List.mem_append_left _ (List.mem_map_of_mem hf)) hno
    · rw [entries_ofSides_opp] at hx
      exact mem_of_unnamed hS hi.live.pos hx (fun f hf => List.mem_map_of_mem hf) hno

/-- On a reachable engine a limit, PostOnly or IOC order with a fresh number
does what the reference matcher does: the same events and, as quotes, the same
book.  No other symbol is touched, and an order that is neither the taker nor
the maker of a fill is the same in every field. -/
theorem onOrder_eq_reference {engine : Engine} (h : Reachable engine) (hacc : o.Accepted)
    (hrev : isRevoke o = false)
    (hfresh : (engine.books o.symbolKey).containsOrderNo o.trustOrderNo = false)
    (hm : o.orderForm ≠ orderFormMarketPrice) (hfok : o.orderForm ≠ orderFormFok) :
    ∃ engine' evs, engine.onOrder o = some (engine', evs) ∧
      (quoteBook (engine'.books o.symbolKey), evs) =
        reference (quoteBook (engine.books o.symbolKey)) o ∧
      (∀ symbol, symbol ≠ o.symbolKey → engine'.books symbol = engine.books symbol) ∧
      ∀ side, ∀ x ∈ (engine'.books o.symbolKey).entries side, x.trustOrderNo ≠ o.trustOrderNo →
        (∀ f, .fill f ∈ evs → f.makerOrderNo ≠ x.trustOrderNo) →
        x ∈ (engine.books o.symbolKey).entries side := by
  cases hside : Side.fromOrderType o.orderType with
  | none =>
      refine ⟨_, [], onOrder_eq (onBook_unsided hside hrev), ?_, ?_, ?_⟩
      · simp [reference, hside]
      · intro symbol hs
        simp [Function.update_of_ne hs]
      · intro side x hx _ _
        simpa using hx
  | some side =>
      obtain ⟨own, ms, engine', hbook, hs, hi, hon, hbook', hother⟩ :=
        h.settled hacc hside hrev hfresh
      have hq : remaining o = o.trustNumber := by rw [remaining, hacc.consumed, sub_zero]
      refine ⟨engine', _, hon, ?_, hother, ?_⟩
      · rw [hbook, hbook', settle_eq_reference hs hi hq hm hfok]
      · rw [hbook, hbook']
        exact settle_frame hi hm hfok

end Agreement

/-- A buy that takes a sell and rests with the remainder. -/
theorem onOrder_eq_reference_take :
    ∃ engine' evs, @Engine.onOrder .schoolbook
        (@Engine.after .schoolbook [testLimit .sell 100 "1" 1 5]) (testLimit .buy 101 "2" 2 7) =
          some (engine', evs) ∧
      (quoteBook (engine'.books "btcusdt"), evs) =
        reference (quoteBook ((@Engine.after .schoolbook [testLimit .sell 100 "1" 1 5]).books
          "btcusdt")) (testLimit .buy 101 "2" 2 7) := by
  obtain ⟨engine', evs, hon, hbook, -⟩ := @onOrder_eq_reference .schoolbook
    (testLimit .buy 101 "2" 2 7) _
    (@reachable_after .schoolbook [testLimit .sell 100 "1" 1 5] (by decide +kernel))
    (by decide +kernel) (by decide +kernel) (by decide +kernel) (by decide) (by decide)
  exact ⟨engine', evs, hon, hbook⟩

end MatchCore
