import MatchRust.Core.Reachable

/-!
# Outcomes of a call

What the events of one call say, and what they leave out.  Every call that is
not a FOK order turned away accounts for its order: the fills, the revoke and
what rests add up (`Accounted`).  From there:

* a FOK order is filled completely or not at all (`fok_all_or_nothing`);
* quantities balance, except for a FOK order that is turned away after its walk
  took a maker, and for an order whose code is no side (`conserves_iff`);
* a market order has at most as many fills as its gear allows, and it is gone
  afterwards unless it came in behind an order that is no market order
  (`market_gone_iff`).
-/

namespace MatchCore

open MatchProtocol PriceTime OrderBook

/-! ## Reading events -/

/-- The fills of a call. -/
def fillsOf (evs : List MatchEvent) : List FillEvent :=
  evs.filterMap fun
    | .fill ev => some ev
    | .revoke _ => none

/-- The revokes of a call. -/
def revokesOf (evs : List MatchEvent) : List RevokeEvent :=
  evs.filterMap fun
    | .fill _ => none
    | .revoke ev => some ev

@[simp] theorem fillsOf_append (evs evs' : List MatchEvent) :
    fillsOf (evs ++ evs') = fillsOf evs ++ fillsOf evs' := List.filterMap_append

@[simp] theorem revokesOf_append (evs evs' : List MatchEvent) :
    revokesOf (evs ++ evs') = revokesOf evs ++ revokesOf evs' := List.filterMap_append

@[simp] theorem fillsOf_nil : fillsOf [] = [] := rfl

@[simp] theorem revokesOf_nil : revokesOf [] = [] := rfl

@[simp] theorem fillsOf_revokeOf (o : BbOrder) (left : BigDecimal) (reason : String) :
    fillsOf [revokeOf o left reason] = [] := rfl

@[simp] theorem revokesOf_revokeOf (o : BbOrder) (left : BigDecimal) (reason : String) :
    revokesOf [revokeOf o left reason] = [⟨o.trustOrderNo, o.symbolKey, left, reason⟩] := rfl

theorem fillsOf_revokeOrder (book : OrderBook) (o : BbOrder) :
    fillsOf (revokeOrder book o).1.toList = [] := by
  rw [revokeOrder, revokeOrderWithReason]
  split
  next => rfl
  next => split <;> rfl

/-- What a fill event says of a fill, with the status it gives the taker. -/
def report (o : BbOrder) (takerStatus : Int) (f : PriceTime.Fill BbOrder BigDecimal) :
    FillEvent where
  symbol := o.symbolKey
  takerOrderNo := o.trustOrderNo
  makerOrderNo := f.maker.trustOrderNo
  takerUserType := o.type
  makerUserType := f.maker.type
  price := f.maker.trustPrice
  qty := f.qty
  takerRemaining := f.takerLeft
  makerRemaining := f.makerLeft
  takerStatus := takerStatus
  makerStatus := statusOf f.makerLeft

/-- The events report these fills, in this order. -/
def Reports (o : BbOrder) (fills : List (PriceTime.Fill BbOrder BigDecimal))
    (evs : List MatchEvent) : Prop :=
  ∃ status : PriceTime.Fill BbOrder BigDecimal → Int,
    fillsOf evs = fills.map fun f => report o (status f) f

section Reading

variable (o : BbOrder) (fills : List (PriceTime.Fill BbOrder BigDecimal))

theorem fillsOf_map (g : PriceTime.Fill BbOrder BigDecimal → FillEvent) :
    fillsOf (fills.map fun f => .fill (g f)) = fills.map g := by
  induction fills with
  | nil => rfl
  | cons f fills ih => exact congrArg (g f :: ·) ih

theorem revokesOf_map (g : PriceTime.Fill BbOrder BigDecimal → FillEvent) :
    revokesOf (fills.map fun f => .fill (g f)) = [] := by
  induction fills with
  | nil => rfl
  | cons f fills ih => exact ih

theorem fillsOf_fillOf :
    fillsOf (fills.map (fillOf o)) = fills.map fun f => report o (statusOf f.takerLeft) f :=
  fillsOf_map fills fun f => report o (statusOf f.takerLeft) f

@[simp] theorem revokesOf_fillOf : revokesOf (fills.map (fillOf o)) = [] :=
  revokesOf_map fills fun f => report o (statusOf f.takerLeft) f

/-- A filled FOK order only has fills. -/
theorem fokEvents_eq : ∃ status : PriceTime.Fill BbOrder BigDecimal → Int,
    fokEvents o fills = fills.map fun f => .fill (report o (status f) f) := by
  by_cases h : ∃ f, fills = [f]
  · obtain ⟨f, rfl⟩ := h
    exact ⟨fun f => statusOf f.takerLeft, rfl⟩
  · refine ⟨fun f => if f.makerLeft = 0 then orderStatusSuccessPart else orderStatusSuccess, ?_⟩
    rw [fokEvents]
    · rfl
    · exact fun f hf => h ⟨f, hf⟩

theorem reports_nil : Reports o [] [] := ⟨fun _ => 0, rfl⟩

theorem reports_revoked (left : BigDecimal) (reason : String) :
    Reports o [] [revokeOf o left reason] := ⟨fun _ => 0, rfl⟩

theorem reports_taken (r : Sweep BbOrder BigDecimal) (reason : String) :
    Reports o r.fills (takenEvents o r reason) := by
  refine ⟨fun f => statusOf f.takerLeft, ?_⟩
  rw [takenEvents, fillsOf_append, fillsOf_fillOf]
  split <;> simp

variable {o fills} {evs : List MatchEvent}

/-- All fills are the taker's. -/
theorem Reports.taker (h : Reports o fills evs) :
    ∀ f ∈ fillsOf evs, f.takerOrderNo = o.trustOrderNo := by
  obtain ⟨status, h⟩ := h
  intro f hf
  rw [h] at hf
  obtain ⟨x, -, rfl⟩ := List.mem_map.mp hf
  rfl

/-- Whatever the events say but for the taker's status, the fills say. -/
theorem Reports.map {α : Type} (h : Reports o fills evs) (k : FillEvent → α)
    (hk : ∀ s f, k (report o s f) = k (report o 0 f)) :
    (fillsOf evs).map k = fills.map fun f => k (report o 0 f) := by
  obtain ⟨status, h⟩ := h
  rw [h, List.map_map]
  exact List.map_congr_left fun f _ => hk (status f) f

end Reading

/-! ## All or nothing -/

/-- What is open on the other side at prices the order crosses. -/
def crossingQty (side : Side) (o : BbOrder) (book : OrderBook) : BigDecimal :=
  (((book.entries side.opp).filter fun m => side.crosses o.trustPrice m.trustPrice).map
    (·.remainingNumber)).sum

section AllOrNothing

variable {side : Side} {o : BbOrder} {own ms : List BbOrder}

theorem crossingQty_eq_liquidity {S : MakerOps BbOrder BigDecimal} (hS : BookMakers S)
    (hs : Sides side own ms) :
    crossingQty side o (ofSides side own ms) = liquidity S (crossing side o) ms := by
  rw [crossingQty, entries_ofSides_opp, liquidity]
  refine congrArg List.sum (List.map_congr_left fun m hm => ?_)
  rw [hS.opens]
  exact (hs.oppLive m (List.mem_of_mem_filter hm)).field

/-- The makers an order crosses are the first ones. -/
theorem Sides.crossing_front (hs : Sides side own ms) (o : BbOrder) :
    ms.Pairwise fun a b => crossing side o b = true → crossing side o a = true := by
  refine hs.oppSorted.sorted.imp fun {a b} hab hb => ?_
  have hle := signed_le_of_rank_lt hab
  rw [crossing, Side.crosses_iff] at hb ⊢
  linarith

variable [DecimalRounding]

/-- What is left of a FOK order is what it lacks. -/
theorem fokSweep_left (hs : Sides side own ms) (hi : Incoming side o own ms) :
    (fokSweep side o o ms).left =
      max (remaining o - crossingQty side o (ofSides side own ms)) 0 := by
  rw [crossingQty_eq_liquidity bookMakers_averaged hs]
  exact left_eq_max averagedMakers (crossing side o) none (remaining o) ms hi.live.pos rfl
    (fun m hm => (hs.oppLive m hm).pos) (hs.crossing_front o)

theorem settle_fok (hform : o.orderForm = orderFormFok) :
    settle side o own ms = fokResult side o own ms (fokSweep side o o ms) := by
  have hpo : o.orderForm ≠ orderFormPostOnly := by rw [hform]; decide
  have hioc : o.orderForm ≠ orderFormIoc := by rw [hform]; decide
  rw [settle, if_neg hpo, if_neg hioc, if_pos hform]

/-- A FOK order is filled completely, by the best makers at their prices, or it
is revoked and the book is what it was. -/
theorem fok_all_or_nothing {engine : Engine} (h : Reachable engine) (hacc : o.Accepted)
    (hside : Side.fromOrderType o.orderType = some side) (hrev : isRevoke o = false)
    (hfresh : (engine.books o.symbolKey).containsOrderNo o.trustOrderNo = false)
    (hform : o.orderForm = orderFormFok) :
    ∃ engine' evs, engine.onOrder o = some (engine', evs) ∧
      (∀ symbol, symbol ≠ o.symbolKey → engine'.books symbol = engine.books symbol) ∧
      (o.trustNumber ≤ crossingQty side o (engine.books o.symbolKey) →
        evs = (fillsOf evs).map .fill ∧
        (∀ f ∈ fillsOf evs, f.takerOrderNo = o.trustOrderNo) ∧
        (fillsOf evs).map (fun f => (f.makerOrderNo, f.price)) <+:
          ((engine.books o.symbolKey).entries side.opp).map
            (fun m => (m.trustOrderNo, m.trustPrice)) ∧
        ((fillsOf evs).map (·.qty)).sum = o.trustNumber ∧
        (engine'.books o.symbolKey).containsOrderNo o.trustOrderNo = false) ∧
      (crossingQty side o (engine.books o.symbolKey) < o.trustNumber →
        (∃ rev, evs = [.revoke rev] ∧ rev.orderNo = o.trustOrderNo ∧ rev.reason = "fok_fail") ∧
        engine'.books o.symbolKey = engine.books o.symbolKey) := by
  obtain ⟨own, ms, engine', hbook, hs, hi, hon, hbook', hother⟩ := h.settled hacc hside hrev hfresh
  have hq : remaining o = o.trustNumber := by rw [remaining, hacc.consumed, sub_zero]
  have hleft := fokSweep_left hs hi
  rw [settle_fok hform] at hon hbook'
  refine ⟨engine', _, hon, hother, ?_, ?_⟩
  · rw [hbook, entries_ofSides_opp]
    intro hL
    have h0 : (fokSweep side o o ms).left = 0 := by
      rw [hleft, hq]
      exact max_eq_right (sub_nonpos.mpr hL)
    rw [fokResult, if_pos h0] at hbook' ⊢
    obtain ⟨status, hevs⟩ := fokEvents_eq o (fokSweep side o o ms).fills
    have hfills : fillsOf (fokEvents o (fokSweep side o o ms).fills) =
        (fokSweep side o o ms).fills.map fun f => report o (status f) f := by
      rw [hevs, fillsOf_map]
    have hrep : Reports o (fokSweep side o o ms).fills
        (fokEvents o (fokSweep side o o ms).fills) := ⟨status, hfills⟩
    refine ⟨?_, hrep.taker, ?_, ?_, ?_⟩
    · rw [hfills, hevs, List.map_map]
      rfl
    · rw [hrep.map (fun f => (f.makerOrderNo, f.price)) fun _ _ => rfl]
      have hpre := fills_initial averagedMakers (crossing side o) none (remaining o) ms
      have := hpre.map fun m => (m.trustOrderNo, m.trustPrice)
      rwa [List.map_map] at this
    · rw [hrep.map (·.qty) fun _ _ => rfl, ← hq]
      have hsum := sum_fills averagedMakers (crossing side o) none (remaining o) ms
      rw [show (sweep averagedMakers (crossing side o) none (remaining o) ms).left = 0 from h0,
        add_zero] at hsum
      exact hsum
    · rw [hbook', containsOrderNo_ofSides]
      exact hi.fresh_swept bookMakers_averaged _ _ _
  · rw [hbook]
    intro hL
    have hne : (fokSweep side o o ms).left ≠ 0 := by
      rw [hleft, hq]
      exact (lt_max_of_lt_left (sub_pos.mpr hL)).ne'
    rw [fokResult, if_neg hne] at hbook' ⊢
    exact ⟨⟨_, rfl, rfl, rfl⟩, hbook'⟩

end AllOrNothing

/-- A FOK buy over two sells, of which it takes the second in part. -/
theorem fok_all_or_nothing_two :
    ∃ engine' evs, @Engine.onOrder .schoolbook (@Engine.after .schoolbook
        [testLimit .sell 100 "1" 1 5, testLimit .sell 101 "2" 2 5])
        { testLimit .buy 101 "3" 3 7 with orderForm := 5 } = some (engine', evs) ∧
      ((fillsOf evs).map (·.qty)).sum = 7 := by
  obtain ⟨engine', evs, hon, -, hfull, -⟩ := @fok_all_or_nothing .buy
    { testLimit .buy 101 "3" 3 7 with orderForm := 5 } .schoolbook _
    (@reachable_after .schoolbook [testLimit .sell 100 "1" 1 5, testLimit .sell 101 "2" 2 5]
      (by decide +kernel))
    (by decide +kernel) (by decide) (by decide +kernel) (by decide +kernel) rfl
  exact ⟨engine', evs, hon, (hfull (by decide +kernel)).2.2.2.1⟩

/-! ## Accounts -/

section Accounts

variable [DecimalRounding] {side : Side} {o : BbOrder} {own ms : List BbOrder}

omit [DecimalRounding] in
/-- An outcome that accounts for the order.  The makers were swept, the fills
are reported, and what is left of the order is revoked or rests. -/
def Accounted (side : Side) (o : BbOrder) (own ms : List BbOrder)
    (out : OrderBook × List MatchEvent) : Prop :=
  ∃ (S : MakerOps BbOrder BigDecimal) (crosses : BbOrder → Bool) (cap : Option Nat),
    BookMakers S ∧ Reports o (sweep S crosses cap (remaining o) ms).fills out.2 ∧
    ((∃ reason, out.1 = ofSides side own (sweep S crosses cap (remaining o) ms).book ∧
        revokesOf out.2 = if (sweep S crosses cap (remaining o) ms).left = 0 then [] else
          [⟨o.trustOrderNo, o.symbolKey, (sweep S crosses cap (remaining o) ms).left, reason⟩]) ∨
      ∃ t, out.1 = ofSides side (place side t own) (sweep S crosses cap (remaining o) ms).book ∧
        revokesOf out.2 = [] ∧ t.trustOrderNo = o.trustOrderNo ∧
        t.remainingNumber = (sweep S crosses cap (remaining o) ms).left)

/-- Revoked without a fill. -/
theorem accounted_revoked (hl : Live o) (reason : String) :
    Accounted side o own ms (ofSides side own ms, [revokeOf o (remaining o) reason]) := by
  refine ⟨makersOf side, fun _ => true, some 0, bookMakers_makersOf side, ?_, Or.inl ⟨reason, ?_⟩⟩
  · rw [sweep_capped]
    exact reports_revoked o _ _
  · simp [sweep_capped, hl.pos.ne']

/-- At rest without a fill. -/
theorem accounted_placed (hl : Live o) :
    Accounted side o own ms (ofSides side (place side o own) ms, []) := by
  refine ⟨makersOf side, fun _ => true, some 0, bookMakers_makersOf side, ?_, Or.inr ⟨o, ?_⟩⟩
  · rw [sweep_capped]
    exact reports_nil o
  · simp [sweep_capped, hl.field]

/-- Swept, and the rest revoked. -/
theorem accounted_taken (side : Side) (o : BbOrder) (own ms : List BbOrder)
    (crosses : BbOrder → Bool) (cap : Option Nat) (reason : String) :
    Accounted side o own ms
      (ofSides side own (sweep (makersOf side) crosses cap (remaining o) ms).book,
        takenEvents o (sweep (makersOf side) crosses cap (remaining o) ms) reason) := by
  refine ⟨makersOf side, crosses, cap, bookMakers_makersOf side, reports_taken o _ _,
    Or.inl ⟨reason, rfl, ?_⟩⟩
  rw [takenEvents, revokesOf_append, revokesOf_fillOf]
  split <;> simp

theorem accounted_market (hi : Incoming side o own ms) :
    Accounted side o own ms (settleMarket side o own ms) := by
  have hswept : Accounted side o own ms (sweptMarket side o own ms) := accounted_taken ..
  cases own with
  | nil => exact hswept
  | cons a own =>
      rw [settleMarket]
      split_ifs
      · exact hswept
      · exact accounted_revoked hi.live _
      · exact accounted_revoked hi.live _
      · exact accounted_placed hi.live

/-- Every order is accounted for, except a FOK order that is turned away. -/
theorem settle_accounted (hi : Incoming side o own ms)
    (hfok : o.orderForm = orderFormFok → (fokSweep side o o ms).left = 0) :
    Accounted side o own ms (settle side o own ms) := by
  rw [settle]
  split_ifs with hpo hcr hioc hf hm
  · exact accounted_revoked hi.live _
  · exact accounted_placed hi.live
  · exact accounted_taken ..
  · have h0 := hfok hf
    obtain ⟨status, hevs⟩ := fokEvents_eq o (fokSweep side o o ms).fills
    rw [fokResult, if_pos h0]
    refine ⟨averagedMakers, crossing side o, none, bookMakers_averaged, ⟨status, ?_⟩,
      Or.inl ⟨"", rfl, ?_⟩⟩
    · simp only [hevs]
      exact fillsOf_map ..
    · simp only [hevs]
      rw [revokesOf_map]
      exact (if_pos h0).symm
  · have hacc := accounted_market hi.marketPriced
    cases side <;> exact hacc
  · refine ⟨makersOf side, crossing side o, none, bookMakers_makersOf side,
      ⟨fun f => statusOf f.takerLeft, fillsOf_fillOf ..⟩, ?_⟩
    simp only [rested]
    split
    next h0 => exact Or.inl ⟨"", rfl, by rw [revokesOf_fillOf]; exact (if_pos h0).symm⟩
    next h0 =>
      refine Or.inr ⟨_, rfl, revokesOf_fillOf .., trustOrderNo_of_terms (terms_takeFills ..), ?_⟩
      rw [field_takeFills hi.live.field, limitSweep, remaining_taken]

end Accounts

/-! ## Conservation -/

/-- The quantity of the fills that name an order as taker. -/
def takenBy (orderNo : String) (evs : List MatchEvent) : BigDecimal :=
  (((fillsOf evs).filter fun f => f.takerOrderNo = orderNo).map (·.qty)).sum

/-- The quantity of the fills that name an order as maker. -/
def givenBy (orderNo : String) (evs : List MatchEvent) : BigDecimal :=
  (((fillsOf evs).filter fun f => f.makerOrderNo = orderNo).map (·.qty)).sum

/-- What the orders of a number have open in a list. -/
def qtyIn (orderNo : String) (l : List BbOrder) : BigDecimal :=
  ((l.filter fun o => o.trustOrderNo = orderNo).map (·.remainingNumber)).sum

/-- What an order number has open in a book, zero if it does not rest. -/
def restingQty (book : OrderBook) (orderNo : String) : BigDecimal :=
  qtyIn orderNo (book.buys ++ book.sells)

/-- What the events and the book say is left of an order: the remainder of its
revoke, or else what rests. -/
def remainderOf (orderNo : String) (evs : List MatchEvent) (book : OrderBook) : BigDecimal :=
  match (revokesOf evs).find? fun r => r.orderNo = orderNo with
  | some r => r.remaining
  | none => restingQty book orderNo

/-- A call conserves quantities. -/
structure Conserves (o : BbOrder) (book : OrderBook) (evs : List MatchEvent) (book' : OrderBook) :
    Prop where
  /-- The order is its fills and its remainder. -/
  taker : o.trustNumber = takenBy o.trustOrderNo evs + remainderOf o.trustOrderNo evs book'
  /-- Every other order has given what its fills say. -/
  makers : ∀ orderNo, orderNo ≠ o.trustOrderNo →
    restingQty book' orderNo + givenBy orderNo evs = restingQty book orderNo

section Conservation

variable {side : Side} {o t : BbOrder} {own ms l l' : List BbOrder} {orderNo : String}

theorem qtyIn_append : qtyIn orderNo (l ++ l') = qtyIn orderNo l + qtyIn orderNo l' := by
  simp [qtyIn]

theorem restingQty_ofSides :
    restingQty (ofSides side l l') orderNo = qtyIn orderNo l + qtyIn orderNo l' := by
  cases side with
  | buy => exact qtyIn_append
  | sell => exact qtyIn_append.trans (add_comm ..)

theorem qtyIn_absent (h : ∀ x ∈ l, x.trustOrderNo ≠ orderNo) : qtyIn orderNo l = 0 := by
  have hnil : l.filter (fun o => o.trustOrderNo = orderNo) = [] := by
    simpa [List.filter_eq_nil_iff] using h
  rw [qtyIn, hnil, List.map_nil, List.sum_nil]

theorem qtyIn_place :
    qtyIn orderNo (place side t l) =
      (if t.trustOrderNo = orderNo then t.remainingNumber else 0) + qtyIn orderNo l := by
  have hperm := ((List.perm_orderedInsert (fun a b => rank side a ≤ rank side b) t l).filter
    fun o => o.trustOrderNo = orderNo).map (·.remainingNumber)
  rw [qtyIn, place, hperm.sum_eq, List.filter_cons]
  by_cases ht : t.trustOrderNo = orderNo <;> simp [ht, qtyIn]

theorem qtyIn_eq_openAt {S : MakerOps BbOrder BigDecimal} (hS : BookMakers S)
    (hl : ∀ o ∈ l, Live o) : qtyIn orderNo l = openAt S (·.trustOrderNo) orderNo l := by
  refine congrArg List.sum (List.map_congr_left fun m hm => ?_)
  rw [hS.opens]
  exact (hl m (List.mem_of_mem_filter hm)).field

variable {fills : List (PriceTime.Fill BbOrder BigDecimal)} {evs : List MatchEvent}

theorem Reports.takenBy (h : Reports o fills evs) :
    takenBy o.trustOrderNo evs = (fills.map PriceTime.Fill.qty).sum := by
  have hall : (fillsOf evs).filter (fun f => f.takerOrderNo = o.trustOrderNo) = fillsOf evs := by
    rw [List.filter_eq_self]
    exact fun f hf => decide_eq_true (h.taker f hf)
  rw [MatchCore.takenBy, hall, h.map (·.qty) fun _ _ => rfl]
  rfl

theorem Reports.givenBy (h : Reports o fills evs) :
    givenBy orderNo evs = filledAt (·.trustOrderNo) orderNo fills := by
  obtain ⟨status, h⟩ := h
  rw [MatchCore.givenBy, h, List.filter_map, List.map_map]
  rfl

/-- An outcome that accounts for the order conserves quantities. -/
theorem Accounted.conserves {out : OrderBook × List MatchEvent} (hs : Sides side own ms)
    (hi : Incoming side o own ms) (hq : remaining o = o.trustNumber)
    (h : Accounted side o own ms out) : Conserves o (ofSides side own ms) out.2 out.1 := by
  obtain ⟨S, crosses, cap, hS, hrep, hrest⟩ := h
  have hsum := sum_fills S crosses cap (remaining o) ms
  have hopp := (hs.swept hS crosses cap hi.live.pos).oppLive
  have hfresh := hi.fresh_swept hS crosses cap (remaining o)
  have hmk : ∀ no, qtyIn no (sweep S crosses cap (remaining o) ms).book + givenBy no out.2 =
      qtyIn no ms := by
    intro no
    rw [qtyIn_eq_openAt hS hopp, qtyIn_eq_openAt hS hs.oppLive, hrep.givenBy]
    exact openAt_add_filledAt S crosses _ (fun x m => trustOrderNo_of_terms (hS.terms x m)) no ..
  have hgone : qtyIn o.trustOrderNo own +
      qtyIn o.trustOrderNo (sweep S crosses cap (remaining o) ms).book = 0 := by
    rw [← qtyIn_append, qtyIn_absent hfresh]
  rcases hrest with ⟨reason, hbook, hrevs⟩ | ⟨t, hbook, hrevs, htno, htrem⟩
  · refine ⟨?_, fun no _ => ?_⟩
    · rw [hrep.takenBy, ← hq, remainderOf, hrevs, hbook, restingQty_ofSides, hgone]
      split_ifs with h0
      · rw [h0] at hsum
        exact hsum.symm
      · simpa using hsum.symm
    · rw [hbook, restingQty_ofSides, restingQty_ofSides, add_assoc, hmk]
  · refine ⟨?_, fun no hno => ?_⟩
    · rw [hrep.takenBy, ← hq, remainderOf, hrevs, hbook, restingQty_ofSides, qtyIn_place,
        if_pos htno, htrem, add_assoc, hgone, add_zero]
      exact hsum.symm
    · rw [hbook, restingQty_ofSides, restingQty_ofSides, qtyIn_place, if_neg (htno ▸ hno.symm),
        zero_add, add_assoc, hmk]

/-- A FOK order that is turned away only conserves if its walk took nothing. -/
theorem conserves_fok_fail (left : BigDecimal) :
    Conserves o (ofSides side own ms) [revokeOf o left "fok_fail"] (ofSides side own ms) ↔
      o.trustNumber = left := by
  have hrem : remainderOf o.trustOrderNo [revokeOf o left "fok_fail"] (ofSides side own ms) =
      left := by
    simp [remainderOf]
  constructor
  · intro h
    rw [h.taker, hrem]
    simp [takenBy]
  · intro h
    refine ⟨by rw [hrem]; simpa [takenBy] using h, fun no _ => ?_⟩
    simp [givenBy]

/-- An order that is dropped does not conserve. -/
theorem not_conserves_dropped {book : OrderBook} (hacc : o.Accepted)
    (hfresh : book.containsOrderNo o.trustOrderNo = false) : ¬ Conserves o book [] book := by
  intro h
  have habs : restingQty book o.trustOrderNo = 0 := by
    refine qtyIn_absent fun x hx => ?_
    rw [containsOrderNo_eq_false] at hfresh
    exact (List.mem_append.mp hx).elim (hfresh .buy x) (hfresh .sell x)
  have htaker := h.taker
  simp only [takenBy, remainderOf, fillsOf_nil, revokesOf_nil, List.filter_nil, List.map_nil,
    List.sum_nil, List.find?_nil, habs, add_zero] at htaker
  exact hacc.pos.ne' htaker

variable [DecimalRounding]

/-- A call conserves quantities exactly if the order has a side, and is not a FOK
order that the makers it crosses can fill in part but not completely. -/
theorem conserves_iff {engine : Engine} (h : Reachable engine) (hacc : o.Accepted)
    (hrev : isRevoke o = false)
    (hfresh : (engine.books o.symbolKey).containsOrderNo o.trustOrderNo = false) :
    ∃ engine' evs, engine.onOrder o = some (engine', evs) ∧
      (∀ symbol, symbol ≠ o.symbolKey → engine'.books symbol = engine.books symbol) ∧
      (Conserves o (engine.books o.symbolKey) evs (engine'.books o.symbolKey) ↔
        ∃ side, Side.fromOrderType o.orderType = some side ∧
          (o.orderForm = orderFormFok →
            ¬ (0 < crossingQty side o (engine.books o.symbolKey) ∧
              crossingQty side o (engine.books o.symbolKey) < o.trustNumber))) := by
  cases hside : Side.fromOrderType o.orderType with
  | none =>
      refine ⟨_, [], onOrder_eq (onBook_unsided hside hrev), fun _ hs => ?_, ?_⟩
      · exact Function.update_of_ne hs ..
      · simp only [Function.update_self]
        exact iff_of_false (not_conserves_dropped hacc hfresh) (by simp)
  | some side =>
      obtain ⟨own, ms, engine', hbook, hs, hi, hon, hbook', hother⟩ :=
        h.settled hacc hside hrev hfresh
      have hq : remaining o = o.trustNumber := by rw [remaining, hacc.consumed, sub_zero]
      refine ⟨engine', _, hon, hother, ?_⟩
      rw [hbook, hbook']
      simp only [Option.some.injEq, exists_eq_left']
      have hleft := fokSweep_left hs hi
      rw [hq] at hleft
      have hnonneg : 0 ≤ crossingQty side o (ofSides side own ms) := by
        rw [crossingQty_eq_liquidity bookMakers_averaged hs]
        exact liquidity_nonneg _ _ fun m hm => (hs.oppLive m hm).pos
      by_cases hfail : o.orderForm = orderFormFok ∧ (fokSweep side o o ms).left ≠ 0
      · obtain ⟨hform, hne⟩ := hfail
        rw [settle_fok hform, fokResult, if_neg hne, conserves_fok_fail]
        -- It lacks something, so what is left is the difference.
        have hlt : crossingQty side o (ofSides side own ms) < o.trustNumber := by
          by_contra hle
          exact hne (hleft.trans (max_eq_right (sub_nonpos.mpr (not_lt.mp hle))))
        rw [hleft, max_eq_left (sub_nonneg.mpr hlt.le)]
        constructor
        · intro he _ hpos
          linarith [hpos.1]
        · intro hno
          have := not_lt.mp fun hpos => hno hform ⟨hpos, hlt⟩
          linarith
      · rw [not_and_not_right] at hfail
        refine iff_of_true ((settle_accounted hi hfail).conserves hs hi hq) fun hform hpart => ?_
        have h0 := hfail hform
        rw [hleft, max_eq_left (sub_nonneg.mpr hpart.2.le)] at h0
        linarith [hpart.2]

end Conservation

/-- A limit buy against one sell. -/
theorem conserves_iff_limit :
    ∃ engine' evs, @Engine.onOrder .schoolbook (@Engine.after .schoolbook
        [testLimit .sell 100 "1" 1 1]) (testLimit .buy 100 "3" 3 3) = some (engine', evs) ∧
      Conserves (testLimit .buy 100 "3" 3 3)
        ((@Engine.after .schoolbook [testLimit .sell 100 "1" 1 1]).books "btcusdt") evs
        (engine'.books "btcusdt") := by
  obtain ⟨engine', evs, hon, -, hiff⟩ := @conserves_iff (testLimit .buy 100 "3" 3 3) .schoolbook _
    (@reachable_after .schoolbook [testLimit .sell 100 "1" 1 1] (by decide +kernel))
    (by decide +kernel) (by decide +kernel) (by decide +kernel)
  exact ⟨engine', evs, hon, hiff.mpr ⟨.buy, by decide, fun h => absurd h (by decide)⟩⟩

/-- A FOK buy of 3 against one sell of 1 is revoked with a remainder of 2, and
no fill is returned. -/
theorem fok_revoke_short :
    ∃ engine', @Engine.onOrder .schoolbook (@Engine.after .schoolbook
        [testLimit .sell 100 "1" 1 1]) { testLimit .buy 100 "3" 3 3 with orderForm := 5 } =
          some (engine', [.revoke ⟨"3", "btcusdt", 2, "fok_fail"⟩]) ∧
      ¬ Conserves { testLimit .buy 100 "3" 3 3 with orderForm := 5 }
        ((@Engine.after .schoolbook [testLimit .sell 100 "1" 1 1]).books "btcusdt")
        [.revoke ⟨"3", "btcusdt", 2, "fok_fail"⟩] (engine'.books "btcusdt") := by
  have hev : (@Engine.onOrder .schoolbook (@Engine.after .schoolbook
      [testLimit .sell 100 "1" 1 1]) { testLimit .buy 100 "3" 3 3 with orderForm := 5 }).map
        Prod.snd = some [.revoke ⟨"3", "btcusdt", 2, "fok_fail"⟩] := by decide +kernel
  obtain ⟨⟨engine', evs⟩, hon, hevs⟩ := Option.map_eq_some_iff.mp hev
  cases hevs
  refine ⟨engine', hon, fun h => ?_⟩
  have htaker : (3 : BigDecimal) = 0 + 2 := h.taker
  exact absurd htaker (by decide +kernel)

/-! ## Market orders -/

section Market

variable [DecimalRounding] {side : Side} {o : BbOrder} {own ms : List BbOrder}

omit [DecimalRounding] in
/-- The engine reaches a market order: the other side is empty, or it comes
first on its own side, or the order in front is a market order as well. -/
def ReachesMarket (side : Side) (o : BbOrder) (book : OrderBook) : Prop :=
  book.isEmpty side.opp = true ∨ ∀ a ∈ book.first side,
    compareSide side (marketPriced side o) a = .lt ∨ a.orderForm = orderFormMarketPrice

theorem settle_market (hform : o.orderForm = orderFormMarketPrice) :
    settle side o own ms = settleMarket side (marketPriced side o) own ms := by
  have hpo : o.orderForm ≠ orderFormPostOnly := by rw [hform]; decide
  have hioc : o.orderForm ≠ orderFormIoc := by rw [hform]; decide
  have hfok : o.orderForm ≠ orderFormFok := by rw [hform]; decide
  rw [settle, if_neg hpo, if_neg hioc, if_neg hfok, if_pos hform]

/-- A market order that is swept is gone, and had no more fills than its gear
allows. -/
theorem sweptMarket_spec (hi : Incoming side o own ms) {g : Int} (hgear : gearOf o = g) :
    (sweptMarket side o own ms).1.containsOrderNo o.trustOrderNo = false ∧
      (fillsOf (sweptMarket side o own ms).2).length ≤ g.toNat := by
  subst hgear
  refine ⟨(containsOrderNo_ofSides ..).mpr (hi.fresh_swept (bookMakers_makersOf side) _ _ _), ?_⟩
  have hlen : (marketSweep side (gearOf o) o ms).fills.length ≤ (gearOf o).toNat :=
    fills_length_le_cap (makersOf side) (marketable side) _ (remaining o) ms _ rfl
  rw [sweptMarket, takenEvents, fillsOf_append, fillsOf_fillOf]
  split <;> simpa using hlen

/-- A market order is gone after its call exactly if the engine reaches it. -/
theorem settleMarket_gone_iff (hi : Incoming side o own ms) {g : Int} (hgear : gearOf o = g)
    (hg : 1 ≤ g) :
    ((settleMarket side o own ms).1.containsOrderNo o.trustOrderNo = false ∧
        ((fillsOf (settleMarket side o own ms).2).length : Int) ≤ g) ↔
      (ms = [] ∨ ∀ a ∈ own.head?,
        compareSide side o a = .lt ∨ a.orderForm = orderFormMarketPrice) := by
  obtain ⟨hgone, hlen⟩ := sweptMarket_spec hi hgear
  have hswept : ((sweptMarket side o own ms).1.containsOrderNo o.trustOrderNo = false ∧
      ((fillsOf (sweptMarket side o own ms).2).length : Int) ≤ g) := ⟨hgone, by omega⟩
  have hold : (ofSides side own ms).containsOrderNo o.trustOrderNo = false :=
    (containsOrderNo_ofSides ..).mpr hi.fresh
  cases own with
  | nil => exact iff_of_true hswept (by simp)
  | cons a own =>
      have hne := hi.own_ne a (List.mem_cons_self ..)
      have hcmp : compareSide side o a = .lt ↔ rank side o < rank side a :=
        compareSide_eq_lt hne.symm
      rw [settleMarket]
      by_cases hlt : rank side o < rank side a
      · rw [if_pos hlt]
        refine iff_of_true hswept (Or.inr fun x hx => ?_)
        cases hx
        exact Or.inl (hcmp.mpr hlt)
      by_cases hms : ms = []
      · rw [if_neg hlt, if_pos hms]
        exact iff_of_true ⟨hold, by simp; omega⟩ (Or.inl hms)
      by_cases hform : a.orderForm = orderFormMarketPrice
      · rw [if_neg hlt, if_neg hms, if_pos hform]
        refine iff_of_true ⟨hold, by simp; omega⟩ (Or.inr fun x hx => ?_)
        cases hx
        exact Or.inr hform
      · rw [if_neg hlt, if_neg hms, if_neg hform]
        refine iff_of_false (fun h => ?_) fun h => ?_
        · have := (containsOrderNo_ofSides ..).mp h.1 o (List.mem_append_left _ (mem_place.mpr
            (Or.inl rfl)))
          exact this rfl
        · rcases h.resolve_left hms a rfl with hl | hf
          · exact hlt (hcmp.mp hl)
          · exact hform hf

/-- A market order with a gear is gone after its call, with at most as many
fills, exactly if the engine reaches it. -/
theorem market_gone_iff {engine : Engine} (h : Reachable engine) (hacc : o.Accepted)
    (hside : Side.fromOrderType o.orderType = some side) (hrev : isRevoke o = false)
    (hfresh : (engine.books o.symbolKey).containsOrderNo o.trustOrderNo = false)
    (hform : o.orderForm = orderFormMarketPrice) {g : Int} (hgear : o.gear = some g)
    (hg : 1 ≤ g) :
    ∃ engine' evs, engine.onOrder o = some (engine', evs) ∧
      (((engine'.books o.symbolKey).containsOrderNo o.trustOrderNo = false ∧
          ((fillsOf evs).length : Int) ≤ g) ↔
        ReachesMarket side o (engine.books o.symbolKey)) := by
  obtain ⟨own, ms, engine', hbook, hs, hi, hon, hbook', -⟩ := h.settled hacc hside hrev hfresh
  refine ⟨engine', _, hon, ?_⟩
  have hgear' : gearOf (marketPriced side o) = g := by
    cases side <;> simp [gearOf, marketPriced, hgear, hg]
  have hno : (marketPriced side o).trustOrderNo = o.trustOrderNo := by cases side <;> rfl
  have hiff := settleMarket_gone_iff hi.marketPriced hgear' hg
  rw [hno] at hiff
  rw [hbook', settle_market hform, hiff, ReachesMarket, hbook, isEmpty_eq_true,
    entries_ofSides_opp, first, entries_ofSides]

end Market

/-- A market sell into an empty sell side. -/
theorem market_gone_iff_first :
    ∃ engine' evs, @Engine.onOrder .schoolbook (@Engine.after .schoolbook
        [testLimit .buy 90 "1" 1 1])
        { testLimit .sell 150 "3" 3 1 with orderForm := 2, gear := some 1 } =
          some (engine', evs) ∧
      (engine'.books "btcusdt").containsOrderNo "3" = false := by
  obtain ⟨engine', evs, hon, hiff⟩ := @market_gone_iff .schoolbook .sell
    { testLimit .sell 150 "3" 3 1 with orderForm := 2, gear := some 1 } _
    (@reachable_after .schoolbook [testLimit .buy 90 "1" 1 1] (by decide +kernel))
    (by decide +kernel) (by decide) (by decide +kernel) (by decide +kernel) rfl 1 rfl (by decide)
  refine ⟨engine', evs, hon, (hiff.mpr (Or.inr ?_)).1⟩
  have hempty : ((@Engine.after .schoolbook [testLimit .buy 90 "1" 1 1]).books "btcusdt").first
      .sell = none := by decide +kernel
  intro a ha
  exact absurd (hempty.symm.trans ha) (by simp)

/-- A market sell at 150 comes in behind a limit sell at 100 and rests. -/
theorem market_rests_behind :
    (@Engine.onOrder .schoolbook (@Engine.after .schoolbook
        [testLimit .sell 100 "1" 1 1, testLimit .buy 90 "2" 2 1])
        { testLimit .sell 150 "3" 3 1 with orderForm := 2, gear := some 1 }).map
      (fun r => (r.2, (r.1.books "btcusdt").containsOrderNo "3")) = some ([], true) := by
  decide +kernel

end MatchCore
