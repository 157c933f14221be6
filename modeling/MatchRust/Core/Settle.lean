import MatchRust.Core.FillOrKill

/-!
# What an order does

`settle` says in one place what an incoming order does to a book, by its form:
which sweep it makes, what becomes of the rest of it, and which events are
returned.  `onBook_eq_settle` shows that the engine computes it, on every book
that satisfies the invariant and for every order with a side and a fresh
number.  The theorems about the engine are read off `settle`.

A market order stands out.  The engine only matches it if it comes first on its
own side.  Otherwise it looks at the order in front of it, and if that is not a
market order it leaves both in the book.
-/

namespace MatchCore

open MatchProtocol PriceTime OrderBook

section Settle

variable [DecimalRounding]

omit [DecimalRounding] in
/-- A market order with the price the engine gives it. -/
def marketPriced : Side → BbOrder → BbOrder
  | .buy, o => { o with trustPrice := marketBuyTrustPrice }
  | .sell, o => o

/-- A market order that comes first on its side. -/
def sweptMarket (side : Side) (o : BbOrder) (own ms : List BbOrder) :
    OrderBook × List MatchEvent :=
  let r := marketSweep side (gearOf o) o ms
  (ofSides side own r.book,
    takenEvents o r (marketReason (some ((gearOf o).toNat - r.fills.length)) r.book))

/-- A market order. -/
def settleMarket (side : Side) (o : BbOrder) : List BbOrder → List BbOrder →
    OrderBook × List MatchEvent
  | [], ms => sweptMarket side o [] ms
  | a :: own, ms =>
      if rank side o < rank side a then sweptMarket side o (a :: own) ms
      else if ms = [] then
        (ofSides side (a :: own) ms, [revokeOf o (remaining o) "market_empty"])
      else if a.orderForm = orderFormMarketPrice then
        (ofSides side (a :: own) ms, [revokeOf o (remaining o) "market_blocked"])
      else (ofSides side (place side o (a :: own)) ms, [])

/-- An incoming order, with the orders of its side and those of the other. -/
def settle (side : Side) (o : BbOrder) (own ms : List BbOrder) : OrderBook × List MatchEvent :=
  if o.orderForm = orderFormPostOnly then
    if ms.head?.any (crossing side o) then
      (ofSides side own ms, [revokeOf o (remaining o) "post_only"])
    else (ofSides side (place side o own) ms, [])
  else if o.orderForm = orderFormIoc then
    let r := limitSweep side o ms
    (ofSides side own r.book, takenEvents o r "ioc_remainder")
  else if o.orderForm = orderFormFok then fokResult side o own ms (fokSweep side o o ms)
  else if o.orderForm = orderFormMarketPrice then settleMarket side (marketPriced side o) own ms
  else
    let r := limitSweep side o ms
    (ofSides side (rested side o own r) r.book, r.fills.map (fillOf o))

variable {side : Side} {o : BbOrder} {own ms : List BbOrder}

omit [DecimalRounding] in
theorem loopBudget_ofSides (side : Side) (own ms : List BbOrder) :
    ms.length + 2 ≤ loopBudget (ofSides side own ms) := by
  cases side <;> simp only [loopBudget, ofSides] <;> omega

omit [DecimalRounding] in
theorem withInserted_eq (hi : Entering side o own ms) (next : OrderBook → Outcome) :
    withInserted (ofSides side own ms) o next = next (ofSides side (place side o own) ms) := by
  rw [withInserted, hi.insert]

omit [DecimalRounding] in
theorem Incoming.marketPriced (hi : Incoming side o own ms) :
    Incoming side (marketPriced side o) own ms := by
  cases side with
  | buy => exact ⟨⟨hi.code, hi.fresh⟩, hi.live.pos, hi.live.field, hi.live.le⟩
  | sell => exact hi

omit [DecimalRounding] in
theorem gearOf_pos (o : BbOrder) : 0 < gearOf o := by
  rw [gearOf]
  split
  next g => split <;> omega
  next => decide

/-- The loop of a market order, from its insertion on. -/
theorem marketLoop_settle (hs : Sides side own ms) (hi : Incoming side o own ms)
    (hform : o.orderForm = orderFormMarketPrice) {n : Nat} (hn : ms.length + 2 ≤ n) :
    marketLoop side (marketFillDelta side) o.trustOrderNo (gearOf o) n
        (ofSides side (place side o own) ms) [] 0 = some (settleMarket side o own ms) := by
  -- The order comes first, or there is one in front of it.
  have hfirst : (∀ x ∈ own, rank side o < rank side x) →
      marketLoop side (marketFillDelta side) o.trustOrderNo (gearOf o) n
        (ofSides side (place side o own) ms) [] 0 = some (sweptMarket side o own ms) := by
    intro hlt
    rw [place_eq_cons hlt, marketLoop_eq (hi.front hs hlt) (gearOf_pos o) hform hn, sweptMarket]
  cases own with
  | nil => exact hfirst (by simp)
  | cons a own =>
      rw [settleMarket]
      by_cases hlt : rank side o < rank side a
      · rw [if_pos hlt]
        refine hfirst fun x hx => ?_
        rcases List.mem_cons.mp hx with rfl | hx
        · exact hlt
        · exact hlt.trans (hs.sorted.head_lt x hx)
      · have hne := rank_ne side (hi.own_ne a (List.mem_cons_self ..))
        obtain ⟨n, rfl⟩ : ∃ k, n = k + 1 := ⟨n - 1, by omega⟩
        rw [if_neg hlt, marketLoop_behind hs.toSidesApart hi.toEntering
          (lt_of_le_of_ne (not_lt.mp hlt) hne)]
        split_ifs <;> rfl

/-- The handlers of both sides, by form. -/
theorem onBook_dispatch {book : OrderBook} (hside : Side.fromOrderType o.orderType = some side)
    (hrev : isRevoke o = false) (hfresh : book.containsOrderNo o.trustOrderNo = false) :
    Engine.onBook book o =
      if Engine.isHeightOrderForm o.orderForm then
        withInserted book o fun book =>
          heightLoop side (pushRatherThan side) (fokHandle side) o.orderForm o.trustOrderNo
            o.trustPrice (loopBudget book) book []
      else if o.orderForm = orderFormMarketPrice then
        withInserted book (marketPriced side o) fun book =>
          marketLoop side (marketFillDelta side) o.trustOrderNo (gearOf o) (loopBudget book) book
            [] 0
      else withInserted book o fun book =>
        matchLimitLoop (pushRatherThan side) (loopBudget book) book [] := by
  rw [Engine.onBook, hrev, hfresh, hside]
  cases side <;> rfl

/-- The engine computes `settle`. -/
theorem onBook_eq_settle {book : OrderBook} (hinv : BookInv book) (hl : Live o)
    (hside : Side.fromOrderType o.orderType = some side) (hrev : isRevoke o = false)
    (hfresh : book.containsOrderNo o.trustOrderNo = false) :
    Engine.onBook book o = some (settle side o (book.entries side) (book.entries side.opp)) := by
  have hs := hinv.sides side
  have hi : Incoming side o (book.entries side) (book.entries side.opp) := by
    refine ⟨⟨hside, ?_⟩, hl⟩
    rwa [← containsOrderNo_ofSides side, ofSides_entries]
  rw [onBook_dispatch hside hrev hfresh]
  obtain ⟨own, ms, rfl⟩ : ∃ own ms, book = ofSides side own ms :=
    ⟨_, _, (ofSides_entries book side).symm⟩
  simp only [entries_ofSides, entries_ofSides_opp] at hs hi ⊢
  have hn := loopBudget_ofSides side (place side o own) ms
  rw [withInserted_eq hi.toEntering, withInserted_eq hi.marketPriced.toEntering,
    withInserted_eq hi.toEntering, settle]
  by_cases hpo : o.orderForm = orderFormPostOnly
  · obtain ⟨n, hn'⟩ : ∃ k, loopBudget (ofSides side (place side o own) ms) = k + 1 := ⟨_, rfl⟩
    rw [hpo, if_pos (by decide), if_pos rfl, hn',
      heightLoop_postOnly_eq hs.toSidesApart hi.toEntering]
    split <;> rfl
  by_cases hioc : o.orderForm = orderFormIoc
  · rw [hioc, if_pos (by decide), if_neg (by decide), if_pos rfl,
      heightLoop_ioc_eq hs hi (by rw [hioc]; decide) hn]
  by_cases hfok : o.orderForm = orderFormFok
  · rw [hfok, if_pos (by decide), if_neg (by decide), if_neg (by decide), if_pos rfl,
      heightLoop_fok_eq hs hi hn]
  have hheight : Engine.isHeightOrderForm o.orderForm = false := by
    simp [Engine.isHeightOrderForm, hpo, hioc, hfok]
  rw [hheight, if_neg (by decide), if_neg hpo, if_neg hioc, if_neg hfok]
  by_cases hm : o.orderForm = orderFormMarketPrice
  · have hform : (marketPriced side o).orderForm = orderFormMarketPrice := by
      cases side <;> exact hm
    have hn := loopBudget_ofSides side (place side (marketPriced side o) own) ms
    rw [if_pos hm, if_pos hm, ← marketLoop_settle hs hi.marketPriced hform hn]
    cases side <;> rfl
  · rw [if_neg hm, if_neg hm, matchLimitLoop_eq hs hi hfok hn]

end Settle

/-! ## The invariant is kept -/

section Invariant

variable [DecimalRounding] {side : Side} {o : BbOrder} {own ms : List BbOrder}

omit [DecimalRounding] in
/-- Makers of the engine: only quantities change, and consistently. -/
structure BookMakers (S : MakerOps BbOrder BigDecimal) : Prop where
  /-- The open quantity is what is left. -/
  opens : ∀ m, S.openOf m = remaining m
  /-- The terms stay. -/
  terms : ∀ q m, terms (S.reduce q m) = terms m
  /-- The field follows. -/
  field : ∀ q m, (S.reduce q m).remainingNumber = remaining (S.reduce q m)

theorem bookMakers_averaged : BookMakers averagedMakers :=
  ⟨fun _ => rfl, fun _ _ => rfl, fun _ _ => rfl⟩

theorem bookMakers_makersOf (side : Side) : BookMakers (makersOf side) := by
  cases side with
  | buy => exact ⟨fun _ => rfl, fun _ _ => rfl, fun _ _ => rfl⟩
  | sell => exact bookMakers_averaged

omit [DecimalRounding] in
/-- A partly filled maker is live. -/
theorem Live.reduce {S : MakerOps BbOrder BigDecimal} (hS : BookMakers S) {m : BbOrder}
    {x : BigDecimal} (h : Live m) (h0 : 0 < x) (hlt : x < remaining m) : Live (S.reduce x m) := by
  have hr : remaining (S.reduce x m) = remaining m - x := by
    rw [← hS.opens, S.openOf_reduce, hS.opens]
  refine ⟨hr ▸ sub_pos.mpr hlt, hS.field x m, ?_⟩
  rw [hr, trustNumber_of_terms (hS.terms x m)]
  linarith [h.le]

omit [DecimalRounding] in
/-- The makers after a sweep. -/
theorem Sides.swept {S : MakerOps BbOrder BigDecimal} (hS : BookMakers S) (h : Sides side own ms)
    (crosses : BbOrder → Bool) (cap : Option Nat) {q : BigDecimal} (hq : 0 < q) :
    Sides side own (sweep S crosses cap q ms).book := by
  refine h.shrink (List.Sublist.refl _) (book_keys S crosses terms hS.terms cap q ms).sublist
    h.live fun m hm => ?_
  rcases mem_book S crosses cap q ms hq m hm with hm | ⟨f, -, hf, h0, hlt, rfl⟩
  · exact h.oppLive m hm
  · exact (h.oppLive f.maker hf).reduce hS h0 (hS.opens f.maker ▸ hlt)

theorem field_takeFills (h : o.remainingNumber = remaining o)
    (fs : List (PriceTime.Fill BbOrder BigDecimal)) :
    (takeFills o fs).remainingNumber = remaining (takeFills o fs) := by
  induction fs generalizing o with
  | nil => exact h
  | cons f fs ih => exact ih rfl

/-- The rest of a limit order is live. -/
theorem live_taken (hs : Sides side own ms) (hl : Live o) (crosses : BbOrder → Bool)
    (cap : Option Nat) (h : (sweep (makersOf side) crosses cap (remaining o) ms).left ≠ 0) :
    Live (takeFills o (sweep (makersOf side) crosses cap (remaining o) ms).fills) := by
  have hpos : ∀ m ∈ ms, 0 < (makersOf side).openOf m := fun m hm => by
    rw [openOf_makersOf]
    exact (hs.oppLive m hm).pos
  refine ⟨?_, field_takeFills hl.field _, ?_⟩
  · rw [remaining_taken]
    exact lt_of_le_of_ne (left_nonneg _ _ _ _ _ hl.pos.le) h.symm
  · rw [remaining_taken, trustNumber_of_terms (terms_takeFills o _)]
    exact (left_le _ _ _ _ _ hl.pos.le hpos).trans hl.le

omit [DecimalRounding] in
/-- The number of an incoming order is also fresh after a sweep. -/
theorem Incoming.fresh_swept {S : MakerOps BbOrder BigDecimal} (hS : BookMakers S)
    (hi : Incoming side o own ms) (crosses : BbOrder → Bool) (cap : Option Nat) (q : BigDecimal) :
    ∀ x ∈ own ++ (sweep S crosses cap q ms).book, x.trustOrderNo ≠ o.trustOrderNo := by
  intro x hx
  rcases List.mem_append.mp hx with hx | hx
  · exact hi.own_ne x hx
  · have hsub := (book_keys S crosses terms hS.terms cap q ms).subset
    obtain ⟨m, hm, ht⟩ := List.mem_map.mp (hsub (List.mem_map_of_mem hx))
    rw [← trustOrderNo_of_terms ht]
    exact hi.opp_ne m hm

/-- A limit order leaves the invariant. -/
theorem sides_limit (hs : Sides side own ms) (hi : Incoming side o own ms) :
    Sides side (rested side o own (limitSweep side o ms)) (limitSweep side o ms).book := by
  have hS := bookMakers_makersOf side
  have hsw := hs.swept hS (crossing side o) none hi.live.pos
  rw [rested]
  split
  next => exact hsw
  next hleft =>
    have ht := terms_takeFills o (limitSweep side o ms).fills
    have hpos := lt_of_le_of_ne (left_nonneg (makersOf side) (crossing side o) none (remaining o)
      ms hi.live.pos.le) (Ne.symm hleft)
    obtain ⟨-, hstop⟩ := book_of_left (makersOf side) (crossing side o) none (remaining o) ms hpos
    have hhead := hstop.resolve_left (by simp)
    refine hsw.place ?_ (live_taken hs hi.live _ _ hleft) ?_ (hsw.apart_of_head ?_)
    · rw [orderType_of_terms ht]
      exact hi.code
    · rw [trustOrderNo_of_terms ht]
      exact hi.fresh_swept hS _ _ _
    · rw [trustPrice_of_terms ht]
      exact hhead

/-- A market order leaves the invariant. -/
theorem bookInv_settleMarket (hs : Sides side own ms) (hi : Incoming side o own ms) :
    BookInv (settleMarket side o own ms).1 := by
  have hswept : BookInv (sweptMarket side o own ms).1 :=
    bookInv_ofSides (hs.swept (bookMakers_makersOf side) _ _ hi.live.pos)
  cases own with
  | nil => exact hswept
  | cons a own =>
      rw [settleMarket]
      split_ifs with hlt hms hform
      · exact hswept
      · exact bookInv_ofSides hs
      · exact bookInv_ofSides hs
      · -- The order in front does not cross, so the order behind it does not.
        have hne := rank_ne side (hi.own_ne a (List.mem_cons_self ..))
        have hle := signed_le_of_rank_lt (lt_of_le_of_ne (not_lt.mp hlt) hne)
        refine bookInv_ofSides (hs.place hi.code hi.live hi.fresh fun b hb => ?_)
        have hab := Side.crosses_eq_false.mp (hs.apart a (List.mem_cons_self ..) b hb)
        rw [Side.crosses_eq_false]
        linarith

/-- Every order leaves the invariant. -/
theorem bookInv_settle (hs : Sides side own ms) (hi : Incoming side o own ms) :
    BookInv (settle side o own ms).1 := by
  rw [settle]
  split_ifs with hpo hcross hioc hfok hm
  · exact bookInv_ofSides hs
  · refine bookInv_ofSides (hs.place hi.code hi.live hi.fresh (hs.apart_of_head fun m hm => ?_))
    rw [Option.mem_def] at hm
    simpa [hm, crossing] using hcross
  · exact bookInv_ofSides (hs.swept (bookMakers_makersOf side) _ _ hi.live.pos)
  · rw [fokResult]
    split_ifs
    · exact bookInv_ofSides (hs.swept bookMakers_averaged _ _ hi.live.pos)
    · exact bookInv_ofSides hs
  · exact bookInv_settleMarket hs hi.marketPriced
  · exact bookInv_ofSides (sides_limit hs hi)

end Invariant

end MatchCore
