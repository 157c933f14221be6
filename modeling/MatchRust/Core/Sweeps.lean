import MatchRust.Core.Invariant

/-!
# The loops are sweeps

What each loop of the engine does to a book that satisfies the invariant, with
the incoming order just inserted.  A limit and an IOC order sweep the makers
they cross, a market order the makers that are not market orders themselves,
up to its gear.  They differ in what becomes of a taker that is not filled.  A
FOK order sweeps a book that is restored if the sweep does not fill it.

The budgets of the loops are large enough: every equation here is about a
result that exists.
-/

namespace MatchCore

open MatchProtocol PriceTime OrderBook

/-! ## Revokes -/

/-- The revoke of an order that has `left` open. -/
def revokeOf (o : BbOrder) (left : BigDecimal) (reason : String) : MatchEvent :=
  .revoke { orderNo := o.trustOrderNo, symbol := o.symbolKey, remaining := left, reason := reason }

theorem revokeOf_of_terms {a b : BbOrder} (h : terms a = terms b) : revokeOf a = revokeOf b := by
  have hs : a.symbolKey = b.symbolKey := (congrArg BbOrder.symbolKey h :)
  funext left reason
  rw [revokeOf, revokeOf, trustOrderNo_of_terms h, hs]

theorem revokeOrderWithReason_present {side : Side} {book book' : OrderBook} {req o : BbOrder}
    (hs : Side.fromOrderType req.orderType = some side)
    (h : book.removeByOrderNo side req.trustOrderNo = (some o, book')) (reason : String) :
    revokeOrderWithReason book req reason = (some (revokeOf o (remaining o) reason), book') := by
  simp only [revokeOrderWithReason, hs, h, revokeOf]

theorem revokeOrderWithReason_absent {side : Side} {book : OrderBook} {req : BbOrder}
    (hs : Side.fromOrderType req.orderType = some side)
    (h : ∀ x ∈ book.entries side, x.trustOrderNo ≠ req.trustOrderNo) (reason : String) :
    revokeOrderWithReason book req reason = (none, book) := by
  simp only [revokeOrderWithReason, hs, removeByOrderNo_absent h]

theorem revokeAndStop_present {side : Side} {book book' : OrderBook} {orderNo : String}
    {o : BbOrder} (h : book.removeByOrderNo side orderNo = (some o, book'))
    (evs : List MatchEvent) (reason : String) :
    revokeAndStop side book evs orderNo reason =
      some (book', evs ++ [revokeOf o (remaining o) reason]) := by
  have hs : Side.fromOrderType (testLimit side 0 orderNo 0 0).orderType = some side :=
    Side.fromOrderType_orderType side
  rw [revokeAndStop, revokeByNo, revokeOrderWithReason_present hs h]
  rfl

theorem revokeAndStop_absent {side : Side} {book : OrderBook} {orderNo : String}
    (h : ∀ x ∈ book.entries side, x.trustOrderNo ≠ orderNo) (evs : List MatchEvent)
    (reason : String) : revokeAndStop side book evs orderNo reason = some (book, evs) := by
  have hs : Side.fromOrderType (testLimit side 0 orderNo 0 0).orderType = some side :=
    Side.fromOrderType_orderType side
  rw [revokeAndStop, revokeByNo, revokeOrderWithReason_absent hs h]
  rfl

section Loops

variable [DecimalRounding] {side : Side} {o : BbOrder} {own ms : List BbOrder} {n : Nat}
  {evs : List MatchEvent}

/-! ## Limit orders -/

omit [DecimalRounding] in
theorem matchLimitLoop_stop {step : OrderBook → List MatchEvent × OrderBook}
    (h : ∀ a ∈ own.head?, ∀ m ∈ ms.head?, side.crosses a.trustPrice m.trustPrice = false) :
    matchLimitLoop step (n + 1) (ofSides side own ms) evs = some (ofSides side own ms, evs) := by
  cases own with
  | nil => cases side <;> cases ms <;> rfl
  | cons a own =>
      cases ms with
      | nil => cases side <;> rfl
      | cons m ms =>
          have hc := h a rfl m rfl
          cases side with
          | buy =>
              have hlt : a.trustPrice < m.trustPrice := not_le.mp (of_decide_eq_false hc)
              exact if_pos hlt
          | sell =>
              have hlt : m.trustPrice < a.trustPrice := not_le.mp (of_decide_eq_false hc)
              exact if_pos hlt

omit [DecimalRounding] in
theorem matchLimitLoop_go {step : OrderBook → List MatchEvent × OrderBook} {t m : BbOrder}
    (h : side.crosses t.trustPrice m.trustPrice = true) :
    matchLimitLoop step (n + 1) (ofSides side (t :: own) (m :: ms)) evs =
      let r := step (ofSides side (t :: own) (m :: ms))
      matchLimitLoop step n r.2 (evs ++ r.1) := by
  cases side with
  | buy =>
      have hle : m.trustPrice ≤ t.trustPrice := of_decide_eq_true h
      exact if_neg (not_lt.mpr hle)
  | sell =>
      have hle : t.trustPrice ≤ m.trustPrice := of_decide_eq_true h
      exact if_neg (not_lt.mpr hle)

omit [DecimalRounding] in
/-- The makers an order crosses. -/
def crossing (side : Side) (o m : BbOrder) : Bool := side.crosses o.trustPrice m.trustPrice

/-- The sweep of an order that takes what it crosses. -/
def limitSweep (side : Side) (o : BbOrder) (ms : List BbOrder) : Sweep BbOrder BigDecimal :=
  sweep (makersOf side) (crossing side o) none (remaining o) ms

theorem limitSweep_of_apart
    (h : ∀ m ∈ ms, side.crosses o.trustPrice m.trustPrice = false) :
    limitSweep side o ms = ⟨[], ms, remaining o⟩ :=
  sweep_blocked _ fun m hm => h m (List.mem_of_mem_head? hm)

/-- A limit loop leaves the rest of the taker in the book. -/
theorem takerLoop_limit (side : Side) (o : BbOrder) (own : List BbOrder) :
    TakerLoop side o own (crossing side o) (· = none)
      (fun _ => matchLimitLoop (pushRatherThan side))
      (fun _ => matchLimitLoop (pushRatherThan side))
      (fun _ t ms evs => some (ofSides side (t :: own) ms, evs)) where
  pred h := by rw [h]; rfl
  go {_ _ t _ _ _} _ ht _ _ hc := by
    rw [crossing, ← trustPrice_of_terms ht] at hc
    exact matchLimitLoop_go hc
  resume _ _ _ _ := rfl
  capped h := nomatch h
  stop {_ _ t _ _} _ ht _ _ hc := by
    refine matchLimitLoop_stop fun a ha m hm => ?_
    cases ha
    have := hc m hm
    rwa [crossing, ← trustPrice_of_terms ht] at this
  filled _ hap := matchLimitLoop_stop fun a ha m hm =>
    hap a (List.mem_of_mem_head? ha) m (List.mem_of_mem_head? hm)

omit [DecimalRounding] in
/-- Either the taker crosses the best maker and is first of its side, or it
crosses nothing. -/
theorem SidesApart.ahead_or_apart (hs : SidesApart side own ms) (o : BbOrder) :
    (∃ m ∈ ms.head?, crossing side o m = true) ∧ (∀ x ∈ own, rank side o < rank side x) ∧
        MatchCore.place side o own = o :: own ∨
      ∀ m ∈ ms, side.crosses o.trustPrice m.trustPrice = false := by
  by_cases hc : ∀ m ∈ ms.head?, side.crosses o.trustPrice m.trustPrice = false
  · exact Or.inr (hs.apart_of_head hc)
  · push Not at hc
    obtain ⟨m, hm, hc⟩ := hc
    have hc := Bool.eq_true_of_not_eq_false hc
    have hlt := hs.ahead (List.mem_of_mem_head? hm) hc
    exact Or.inl ⟨⟨m, hm, hc⟩, hlt, place_eq_cons hlt⟩

/-- The side a limit order leaves behind. -/
def rested (side : Side) (o : BbOrder) (own : List BbOrder) (r : Sweep BbOrder BigDecimal) :
    List BbOrder :=
  if r.left = 0 then own else place side (takeFills o r.fills) own

/-- The loop of a limit order. -/
theorem matchLimitLoop_eq (hs : Sides side own ms) (hi : Incoming side o own ms)
    (hform : o.orderForm ≠ orderFormFok) (hn : ms.length + 2 ≤ n) :
    matchLimitLoop (pushRatherThan side) n (ofSides side (place side o own) ms) [] =
      let r := limitSweep side o ms
      some (ofSides side (rested side o own r) r.book, r.fills.map (fillOf o)) := by
  rcases hs.toSidesApart.ahead_or_apart o with ⟨-, hlt, hp⟩ | hap
  · have hF := hi.front hs hlt
    rw [hp, (takerLoop_limit side o own).run hform ms [] rfl rfl hF (by simp) hn,
      limitSweep]
    simp only [TakerLoop.result, rested, List.nil_append]
    split
    · rfl
    · have hlt : ∀ fs, ∀ x ∈ own, rank side (takeFills o fs) < rank side x := fun fs x hx => by
        rw [rank_of_terms (terms_takeFills o fs)]
        exact hF.sorted.head_lt x hx
      rw [place_eq_cons (hlt _)]
  · obtain ⟨n, rfl⟩ : ∃ k, n = k + 1 := ⟨n - 1, by omega⟩
    have hs' := hs.place hi.code hi.live hi.fresh hap
    rw [matchLimitLoop_stop fun a ha m hm =>
        hs'.apart a (List.mem_of_mem_head? ha) m (List.mem_of_mem_head? hm),
      limitSweep_of_apart hap]
    simp [rested, hi.live.pos.ne']

/-! ## IOC orders and orders that do not cross -/

section Height

variable {step : OrderBook → List MatchEvent × OrderBook} {fok : Nat → OrderBook → Outcome}
  {price : BigDecimal} {book book' : OrderBook} {orderNo : String}

omit [DecimalRounding] in
theorem containsOrderNo_of_remove (h : book.removeByOrderNo side orderNo = (some o, book')) :
    book.containsOrderNo orderNo = true := by
  by_contra hc
  rw [Bool.not_eq_true, containsOrderNo_eq_false] at hc
  rw [removeByOrderNo_absent (hc side)] at h
  cases h

omit [DecimalRounding] in
/-- An IOC or FOK order is revoked where the best orders do not cross. -/
theorem heightLoop_revoke {form : Int} (hform : form = orderFormIoc ∨ form = orderFormFok)
    (hrem : book.removeByOrderNo side orderNo = (some o, book'))
    (h : ∀ a ∈ book.first side, ∀ m ∈ book.first side.opp,
      side.crosses a.trustPrice m.trustPrice = false) :
    heightLoop side step fok form orderNo price (n + 1) book evs =
      some (book', evs ++ [revokeOf o (remaining o) (iocOrFokReason form)]) := by
  have hpo : form ≠ orderFormPostOnly := by rcases hform with rfl | rfl <;> decide
  have hrev := revokeAndStop_present hrem evs
  rw [heightLoop, if_neg hpo]
  cases hopp : book.entries side.opp with
  | nil =>
      rw [if_pos ((isEmpty_eq_true ..).mpr hopp)]
      exact hrev _
  | cons m ms =>
      cases hown : book.entries side with
      | nil =>
          rw [removeByOrderNo_absent (by simp [hown])] at hrem
          cases hrem
      | cons a own =>
          have hc := h a (by simp [first, hown]) m (by simp [first, hopp])
          simp only [isEmpty, first, hopp, hown, List.isEmpty_cons, List.head?_cons,
            containsOrderNo_of_remove hrem, hc, Bool.false_eq_true, Bool.true_eq_false, and_false,
            if_false, if_true, hrev]
          split
          next hioc => rw [iocOrFokReason, if_pos hioc.1]
          next => rfl

omit [DecimalRounding] in
/-- An IOC order that crosses at the front of its side is matched. -/
theorem heightLoop_go {t m : BbOrder} (hno : t.trustOrderNo = orderNo)
    (hc : side.crosses t.trustPrice m.trustPrice = true) :
    heightLoop side step fok orderFormIoc orderNo price (n + 1)
        (ofSides side (t :: own) (m :: ms)) evs =
      let r := step (ofSides side (t :: own) (m :: ms))
      heightLoop side step fok orderFormIoc orderNo price n r.2 (evs ++ r.1) := by
  have hin : (ofSides side (t :: own) (m :: ms)).containsOrderNo orderNo = true :=
    (containsOrderNo_eq_true ..).mpr ⟨side, t, by simp, hno⟩
  have hpo : orderFormIoc ≠ orderFormPostOnly := by decide
  have hfok : orderFormIoc ≠ orderFormFok := by decide
  rw [heightLoop]
  simp [isEmpty, first, hin, hno, hc, hpo, hfok]

omit [DecimalRounding] in
/-- An IOC order that is gone is done. -/
theorem heightLoop_gone (h : ∀ x ∈ own ++ ms, x.trustOrderNo ≠ orderNo) :
    heightLoop side step fok orderFormIoc orderNo price (n + 1) (ofSides side own ms) evs =
      some (ofSides side own ms, evs) := by
  have hin := (containsOrderNo_ofSides side own ms).mpr h
  have hpo : orderFormIoc ≠ orderFormPostOnly := by decide
  have hrev : ∀ reason, revokeAndStop side (ofSides side own ms) evs orderNo reason =
      some (ofSides side own ms, evs) :=
    revokeAndStop_absent (fun x hx => h x (List.mem_append_left _ (by simpa using hx))) evs
  rw [heightLoop, if_neg hpo]
  simp [hin, hrev]

/-- An IOC loop revokes the rest of the taker. -/
theorem takerLoop_ioc (side : Side) (o : BbOrder) (own : List BbOrder)
    (fok : Nat → OrderBook → Outcome) (price : BigDecimal) :
    TakerLoop side o own (crossing side o) (· = none)
      (fun _ => heightLoop side (pushRatherThan side) fok orderFormIoc o.trustOrderNo price)
      (fun _ => heightLoop side (pushRatherThan side) fok orderFormIoc o.trustOrderNo price)
      (fun _ t ms evs => some (ofSides side own ms,
        evs ++ [revokeOf o (remaining t) "ioc_remainder"])) where
  pred h := by rw [h]; rfl
  go {_ _ t _ _ _} _ ht _ _ hc := by
    rw [crossing, ← trustPrice_of_terms ht] at hc
    exact heightLoop_go (trustOrderNo_of_terms ht) hc
  resume _ _ _ _ := rfl
  capped h := nomatch h
  stop {_ _ t ms _} _ ht hF _ hc := by
    have hrem := hF.revoke_taker
    rw [trustOrderNo_of_terms ht] at hrem
    rw [heightLoop_revoke (Or.inl rfl) hrem, revokeOf_of_terms ht]
    · rfl
    · intro a ha m hm
      rw [first, entries_ofSides] at ha
      rw [first, entries_ofSides_opp] at hm
      cases ha
      have := hc m hm
      rwa [crossing, ← trustPrice_of_terms ht] at this
  filled h _ := heightLoop_gone h

/-- The events of an order whose rest is revoked. -/
def takenEvents (o : BbOrder) (r : Sweep BbOrder BigDecimal) (reason : String) :
    List MatchEvent :=
  r.fills.map (fillOf o) ++ if r.left = 0 then [] else [revokeOf o r.left reason]

theorem remaining_taken (S : MakerOps BbOrder BigDecimal) (crosses : BbOrder → Bool)
    (cap : Option Nat) (o : BbOrder) (ms : List BbOrder) :
    remaining (takeFills o (sweep S crosses cap (remaining o) ms).fills) =
      (sweep S crosses cap (remaining o) ms).left := by
  rw [remaining_takeFills, sub_eq_iff_eq_add', sum_fills]

omit [DecimalRounding] in
/-- Where the taker crosses nothing, the best orders do not cross. -/
theorem apart_placed (hs : SidesApart side own ms) (hi : Entering side o own ms)
    (hap : ∀ m ∈ ms, side.crosses o.trustPrice m.trustPrice = false) :
    ∀ a ∈ (ofSides side (place side o own) ms).first side,
      ∀ m ∈ (ofSides side (place side o own) ms).first side.opp,
        side.crosses a.trustPrice m.trustPrice = false := by
  intro a ha m hm
  rw [first, entries_ofSides] at ha
  rw [first, entries_ofSides_opp] at hm
  exact (hs.place hi.code hi.fresh hap).apart a (List.mem_of_mem_head? ha) m
    (List.mem_of_mem_head? hm)

/-- The loop of an IOC order. -/
theorem heightLoop_ioc_eq (hs : Sides side own ms) (hi : Incoming side o own ms)
    (hform : o.orderForm ≠ orderFormFok) (hn : ms.length + 2 ≤ n) :
    heightLoop side (pushRatherThan side) fok orderFormIoc o.trustOrderNo price n
        (ofSides side (place side o own) ms) [] =
      let r := limitSweep side o ms
      some (ofSides side own r.book, takenEvents o r "ioc_remainder") := by
  rcases hs.toSidesApart.ahead_or_apart o with ⟨-, hlt, hp⟩ | hap
  · have hF := hi.front hs hlt
    rw [hp, (takerLoop_ioc side o own fok price).run hform ms [] rfl rfl hF (by simp) hn,
      limitSweep]
    simp only [TakerLoop.result, takenEvents, List.nil_append, remaining_taken]
    split
    · simp
    · rfl
  · obtain ⟨n, rfl⟩ : ∃ k, n = k + 1 := ⟨n - 1, by omega⟩
    rw [heightLoop_revoke (Or.inl rfl) (hi.toEntering.remove hs.toSidesApart)
        (apart_placed hs.toSidesApart hi.toEntering hap),
      limitSweep_of_apart hap]
    simp [takenEvents, hi.live.pos.ne', iocOrFokReason]

/-! ## PostOnly orders -/

omit [DecimalRounding] in
/-- The loop of a PostOnly order. -/
theorem heightLoop_postOnly_eq (hs : SidesApart side own ms) (hi : Entering side o own ms) :
    heightLoop side step fok orderFormPostOnly o.trustOrderNo o.trustPrice (n + 1)
        (ofSides side (place side o own) ms) [] =
      if ms.head?.any (crossing side o) then
        some (ofSides side own ms, [revokeOf o (remaining o) "post_only"])
      else some (ofSides side (place side o own) ms, []) := by
  have hrev := revokeAndStop_present (hi.remove hs) [] "post_only"
  rw [heightLoop, if_pos rfl]
  simp only [first, entries_ofSides_opp, hrev, List.nil_append]
  rfl

end Height

/-! ## Market orders -/

omit [DecimalRounding] in
/-- The makers a market order takes.  A market buy does not take market sells. -/
def marketable : Side → BbOrder → Bool
  | .buy, m => m.orderForm ≠ orderFormMarketPrice
  | .sell, _ => true

/-- One match of a market order, by side. -/
def marketFillDelta : Side → OrderBook → (List MatchEvent × Int) × OrderBook
  | .buy => marketBuyFillDelta
  | .sell => marketSellFillDelta

theorem marketFillDelta_go {t m : BbOrder} (hf : t.orderForm ≠ orderFormFok)
    (hm : marketable side m = true) :
    marketFillDelta side (ofSides side (t :: own) (m :: ms)) =
      let r := pushRatherThan side (ofSides side (t :: own) (m :: ms))
      ((r.1, 1), r.2) := by
  cases side with
  | buy =>
      have hm' : m.orderForm ≠ orderFormMarketPrice := of_decide_eq_true hm
      have hh : marketBuyHandle (ofSides .buy (t :: own) (m :: ms)) =
          ratherThanBuy (ofSides .buy (t :: own) (m :: ms)) := if_neg hm'
      simp only [marketFillDelta, marketBuyFillDelta, hh, pushRatherThan, pushRatherThanBuy,
        ratherThanBuy_front]
      split_ifs <;> rfl
  | sell =>
      simp only [marketFillDelta, marketSellFillDelta, pushRatherThan, pushRatherThanSell,
        ratherThanSell_front m own ms fun _ => hf]
      split_ifs <;> rfl

theorem marketFillDelta_blocked {t m : BbOrder} (hm : marketable side m = false) :
    marketFillDelta side (ofSides side (t :: own) (m :: ms)) =
      (([], 0), ofSides side (t :: own) (m :: ms)) := by
  cases side with
  | buy =>
      have hm' : m.orderForm = orderFormMarketPrice := not_not.mp (of_decide_eq_false hm)
      have hh : marketBuyHandle (ofSides .buy (t :: own) (m :: ms)) =
          (none, ofSides .buy (t :: own) (m :: ms)) := if_pos hm'
      rw [marketFillDelta, marketBuyFillDelta, hh]
  | sell => cases hm

/-- Why the rest of a market order is revoked. -/
def marketReason (cap : Option Nat) (ms : List BbOrder) : String :=
  if cap = some 0 then "market_gear" else if ms = [] then "market_empty" else "market_blocked"

/-- The loop of a market order with `cap` fills to go. -/
def marketLoopAt (side : Side) (o : BbOrder) (gear : Int) (cap : Option Nat) (n : Nat)
    (book : OrderBook) (evs : List MatchEvent) : Outcome :=
  marketLoop side (marketFillDelta side) o.trustOrderNo gear n book evs (gear - cap.getD 0)

/-- The end of an iteration of this loop after a fill. -/
def marketLoopNext (side : Side) (o : BbOrder) (gear : Int) (cap : Option Nat) (n : Nat)
    (book : OrderBook) (evs : List MatchEvent) : Outcome :=
  if cap = some 0 then revokeAndStop side book evs o.trustOrderNo "market_gear"
  else marketLoopAt side o gear cap n book evs

omit [DecimalRounding] in
/-- An iteration with the market order at the front of its side. -/
theorem marketLoop_front {step : OrderBook → (List MatchEvent × Int) × OrderBook}
    {orderNo : String} {t m : BbOrder} {gear k : Int} (hno : t.trustOrderNo = orderNo)
    (hf : t.orderForm = orderFormMarketPrice) :
    marketLoop side step orderNo gear (n + 1) (ofSides side (t :: own) (m :: ms)) evs k =
      let r := step (ofSides side (t :: own) (m :: ms))
      if 0 < gear ∧ gear ≤ k + r.1.2 then
        revokeAndStop side r.2 (evs ++ r.1.1) orderNo "market_gear"
      else if r.1.2 = 0 then revokeAndStop side r.2 (evs ++ r.1.1) orderNo "market_blocked"
      else marketLoop side step orderNo gear n r.2 (evs ++ r.1.1) (k + r.1.2) := by
  rw [marketLoop]
  simp [first, isEmpty, hno, hf]

omit [DecimalRounding] in
/-- A market order that is gone is done. -/
theorem marketLoop_gone {step : OrderBook → (List MatchEvent × Int) × OrderBook}
    {orderNo : String} {gear k : Int} (h : ∀ x ∈ own ++ ms, x.trustOrderNo ≠ orderNo) :
    marketLoop side step orderNo gear (n + 1) (ofSides side own ms) evs k =
      some (ofSides side own ms, evs) := by
  have hrev : ∀ reason, revokeAndStop side (ofSides side own ms) evs orderNo reason =
      some (ofSides side own ms, evs) :=
    revokeAndStop_absent (fun x hx => h x (List.mem_append_left _ (by simpa using hx))) evs
  cases own with
  | nil => simp [marketLoop, first]
  | cons a own =>
      have ha : a.trustOrderNo ≠ orderNo := h a (by simp)
      rw [marketLoop]
      simp [first, hrev, ha]

/-- A market loop has a cap and revokes the rest of the taker. -/
theorem takerLoop_market (side : Side) {o : BbOrder} (own : List BbOrder) {gear : Int}
    (hgear : 0 < gear) (hform : o.orderForm = orderFormMarketPrice) :
    TakerLoop side o own (marketable side) (· ≠ none) (marketLoopAt side o gear)
      (marketLoopNext side o gear)
      (fun cap t ms evs => some (ofSides side own ms,
        evs ++ [revokeOf o (remaining t) (marketReason cap ms)])) where
  pred {cap} h := by cases cap <;> simp_all
  go {cap n t m ms evs} hok ht hF hcap hc := by
    obtain ⟨k, rfl⟩ := Option.ne_none_iff_exists'.mp hok
    have hk : k ≠ 0 := fun h => hcap (by rw [h])
    have hf : t.orderForm = orderFormMarketPrice := by rw [orderForm_of_terms ht, hform]
    have hfok : t.orderForm ≠ orderFormFok := by rw [hf]; decide
    rw [marketLoopAt, marketLoop_front (trustOrderNo_of_terms ht) hf, marketFillDelta_go hfok hc]
    have hstop : (0 < gear ∧ gear ≤ gear - (k.pred : Int)) ↔ k.pred = 0 := by omega
    have hcount : gear - (k : Int) + 1 = gear - (k.pred : Int) := by
      rw [Nat.pred_eq_sub_one]
      omega
    simp only [Option.getD_some, hcount, hstop, marketLoopNext, marketLoopAt, Option.map_some,
      Option.some.injEq, one_ne_zero, if_false]
  resume _ _ _ hcap := if_neg hcap
  capped {n t ms evs} _ ht hF := by
    have hrem := hF.revoke_taker
    rw [trustOrderNo_of_terms ht] at hrem
    rw [marketLoopNext, if_pos rfl, revokeAndStop_present hrem, revokeOf_of_terms ht]
    rfl
  stop {cap n t ms evs} hok ht hF hcap hc := by
    obtain ⟨k, rfl⟩ := Option.ne_none_iff_exists'.mp hok
    have hk : k ≠ 0 := fun h => hcap (by rw [h])
    have hf : t.orderForm = orderFormMarketPrice := by rw [orderForm_of_terms ht, hform]
    have hrem := hF.revoke_taker
    rw [trustOrderNo_of_terms ht] at hrem
    have hrev := revokeAndStop_present hrem
    rw [revokeOf_of_terms ht] at hrev
    rw [marketLoopAt]
    cases ms with
    | nil =>
        rw [marketLoop]
        simp [first, isEmpty, hrev, marketReason, hk]
    | cons m ms =>
        rw [marketLoop_front (trustOrderNo_of_terms ht) hf, marketFillDelta_blocked (hc m rfl)]
        have hgo : ¬ (0 < gear ∧ gear ≤ gear - (k : Int) + 0) := by omega
        simp only [Option.getD_some, hgo, if_false, if_true, List.append_nil, hrev]
        simp [marketReason, hk]
  filled {cap n ms evs} h _ := by
    rw [marketLoopNext]
    split
    · exact revokeAndStop_absent
        (fun x hx => h x (List.mem_append_left _ (by simpa using hx))) evs _
    · exact marketLoop_gone h

/-- The sweep of a market order. -/
def marketSweep (side : Side) (gear : Int) (o : BbOrder) (ms : List BbOrder) :
    Sweep BbOrder BigDecimal :=
  sweep (makersOf side) (marketable side) (some gear.toNat) (remaining o) ms

/-- The loop of a market order that comes first on its side. -/
theorem marketLoop_eq {gear : Int} (hF : Front side o own ms) (hgear : 0 < gear)
    (hform : o.orderForm = orderFormMarketPrice) (hn : ms.length + 2 ≤ n) :
    marketLoop side (marketFillDelta side) o.trustOrderNo gear n (ofSides side (o :: own) ms) [] 0 =
      let r := marketSweep side gear o ms
      some (ofSides side own r.book,
        takenEvents o r (marketReason (some (gear.toNat - r.fills.length)) r.book)) := by
  have hfok : o.orderForm ≠ orderFormFok := by rw [hform]; decide
  have hcap : some gear.toNat ≠ some 0 := by simpa using hgear
  have h0 : (0 : Int) = gear - (gear.toNat : Int) := by omega
  have hrun := (takerLoop_market side own hgear hform).run hfok ms []
    (Option.some_ne_none gear.toNat) rfl hF hcap hn
  rw [marketLoopAt, Option.getD_some, ← h0] at hrun
  rw [hrun, marketSweep]
  simp only [TakerLoop.result, takenEvents, List.nil_append, remaining_taken, Option.map_some]
  split
  · simp
  · rfl

omit [DecimalRounding] in
/-- The loop of a market order behind another order of its side. -/
theorem marketLoop_behind {step : OrderBook → (List MatchEvent × Int) × OrderBook} {gear : Int}
    {a : BbOrder} (hs : SidesApart side (a :: own) ms) (hi : Entering side o (a :: own) ms)
    (hlt : rank side a < rank side o) :
    marketLoop side step o.trustOrderNo gear (n + 1)
        (ofSides side (place side o (a :: own)) ms) [] 0 =
      if ms = [] then some (ofSides side (a :: own) ms, [revokeOf o (remaining o) "market_empty"])
      else if a.orderForm = orderFormMarketPrice then
        some (ofSides side (a :: own) ms, [revokeOf o (remaining o) "market_blocked"])
      else some (ofSides side (place side o (a :: own)) ms, []) := by
  have hrev := revokeAndStop_present (hi.remove hs) []
  have ha : a.trustOrderNo ≠ o.trustOrderNo := hi.own_ne a (List.mem_cons_self ..)
  have hp : place side o (a :: own) = a :: place side o own := by
    rw [place, List.orderedInsert_cons, if_neg (not_le_of_gt hlt)]
    rfl
  have hfirst : (ofSides side (place side o (a :: own)) ms).first side = some a := by
    simp [first, hp]
  rw [marketLoop, hfirst]
  simp only [hrev, List.nil_append, isEmpty_eq_true, entries_ofSides_opp]
  by_cases hms : ms = []
  · simp [hms]
  · by_cases hf : a.orderForm = orderFormMarketPrice <;> simp [hms, hf, ha]

end Loops

end MatchCore
