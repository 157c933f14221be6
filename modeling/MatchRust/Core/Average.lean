import MatchRust.Core.Resting

/-!
# Average prices

An order carries the average price of its fills, which every fill should bring up to date.
A ledger keeps the fills of each order since it was accepted, as the events report them, and
we compare: is the average price of a resting order that of its fills?

It is for the rest of a taker, and for a buy that a sell takes in part.  A FOK order keeps
up the average of its makers on both sides.  Only the match of another buy with a larger
sell does not: `lessThanBuy` puts the sell back with the average it had.  So the averages are
right as long as no such buy ends inside a sell (`averages_kept`), and wrong after the first
that does (`limit_buy_leaves_average`).
-/

namespace MatchCore

open MatchProtocol PriceTime OrderBook

/-! ## The fills of an order -/

/-- The fills of a call that an order takes part in, as taker or as maker: quantity and
price. -/
def partsOf (orderNo : String) (evs : List MatchEvent) : List (BigDecimal × BigDecimal) :=
  ((fillsOf evs).filter fun f => f.takerOrderNo = orderNo ∨ f.makerOrderNo = orderNo).map
    fun f => (f.qty, f.price)

/-- The fills of each order since it was accepted, by symbol and number. -/
abbrev Ledger := String → String → List (BigDecimal × BigDecimal)

/-- The ledger after a call.  An order that is accepted starts with no fill. -/
def Ledger.call (ledger : Ledger) (book : OrderBook) (o : BbOrder) (evs : List MatchEvent) :
    Ledger := fun symbol orderNo =>
  if symbol = o.symbolKey then
    (if orderNo = o.trustOrderNo ∧ isRevoke o = false ∧ book.containsOrderNo orderNo = false then []
      else ledger symbol orderNo) ++ partsOf orderNo evs
  else ledger symbol orderNo

section Average

variable [DecimalRounding]

/-- What fills consume and their average price, folded from zero. -/
def averaged (fills : List (BigDecimal × BigDecimal)) : BigDecimal × BigDecimal :=
  fills.foldl (fun s f => (s.1 + f.1, getAveragePrice s.1 s.2 f.1 f.2)) (0, 0)

/-- The engine and the ledger after a sequence of calls. -/
def Engine.record (engine : Engine) (ledger : Ledger) : List BbOrder → Option (Engine × Ledger)
  | [] => some (engine, ledger)
  | o :: os =>
      match engine.onOrder o with
      | none => none
      | some (next, evs) => record next (ledger.call (engine.books o.symbolKey) o evs) os

/-! ## Buys that end inside a sell -/

omit [DecimalRounding] in
/-- A buy takes from this sell, by its form. -/
def Takes (o m : BbOrder) : Prop :=
  if o.orderForm = orderFormMarketPrice then m.orderForm ≠ orderFormMarketPrice
  else m.trustPrice ≤ o.trustPrice

omit [DecimalRounding] in
/-- A buy, other than FOK, whose quantity ends inside a resting sell. -/
structure CutsSell (book : OrderBook) (o : BbOrder) : Prop where
  /-- It is a buy. -/
  buy : Side.fromOrderType o.orderType = some .buy
  /-- No request to revoke. -/
  new : isRevoke o = false
  /-- Its number does not rest. -/
  fresh : book.containsOrderNo o.trustOrderNo = false
  /-- It may take. -/
  notPostOnly : o.orderForm ≠ orderFormPostOnly
  /-- It is no FOK order. -/
  notFok : o.orderForm ≠ orderFormFok
  /-- A market buy comes first on its side. -/
  front : o.orderForm = orderFormMarketPrice →
    ∀ a ∈ book.buys.head?, rank .buy (marketPriced .buy o) < rank .buy a
  /-- The sells it takes are the first ones, as many as its gear allows, and all of the last
  one is more than it needs. -/
  cut : ∃ pre m post, book.sells = pre ++ m :: post ∧ (∀ x ∈ pre ++ [m], Takes o x) ∧
    (o.orderForm = orderFormMarketPrice → pre.length < (gearOf o).toNat) ∧
    (pre.map remaining).sum < o.trustNumber ∧ o.trustNumber < (pre.map remaining).sum + remaining m

/-! ## One call -/

variable {side : Side} {o x : BbOrder} {own ms : List BbOrder} {evs : List MatchEvent}
  {fills : List (PriceTime.Fill BbOrder BigDecimal)}

omit [DecimalRounding] in
/-- All fills are the taker's. -/
theorem Reports.partsOf_taker (h : Reports o fills evs) :
    partsOf o.trustOrderNo evs = fills.map fun f => (f.qty, f.maker.trustPrice) := by
  have hall : (fillsOf evs).filter (fun f => f.takerOrderNo = o.trustOrderNo ∨
      f.makerOrderNo = o.trustOrderNo) = fillsOf evs := by
    rw [List.filter_eq_self]
    exact fun f hf => decide_eq_true (Or.inl (h.taker f hf))
  rw [partsOf, hall, h.map (fun f => (f.qty, f.price)) fun _ _ => rfl]
  rfl

omit [DecimalRounding] in
/-- The fills of another order are those it makes. -/
theorem Reports.partsOf_maker (h : Reports o fills evs) {orderNo : String}
    (hne : orderNo ≠ o.trustOrderNo) :
    partsOf orderNo evs = (fills.filter fun f => f.maker.trustOrderNo = orderNo).map
      fun f => (f.qty, f.maker.trustPrice) := by
  obtain ⟨status, h⟩ := h
  rw [partsOf, h, List.filter_map, List.map_map]
  have hpred : ∀ f : PriceTime.Fill BbOrder BigDecimal,
      ((fun f : FillEvent => decide (f.takerOrderNo = orderNo ∨ f.makerOrderNo = orderNo)) ∘
        fun f => report o (status f) f) f = decide (f.maker.trustOrderNo = orderNo) := by
    intro f
    simp [report, hne.symm]
  rw [List.filter_congr fun f _ => hpred f]
  rfl

/-- The average of a taker follows its fills. -/
theorem averaged_takeFills (t : BbOrder) (hc : t.consumerAllNumber = 0) (ha : t.averagePrice = 0)
    (fills : List (PriceTime.Fill BbOrder BigDecimal)) :
    averaged (fills.map fun f => (f.qty, f.maker.trustPrice)) =
      ((takeFills t fills).consumerAllNumber, (takeFills t fills).averagePrice) := by
  have hfold : ∀ (fills : List (PriceTime.Fill BbOrder BigDecimal)) (t : BbOrder),
      (fills.map fun f => (f.qty, f.maker.trustPrice)).foldl
          (fun s f => (s.1 + f.1, getAveragePrice s.1 s.2 f.1 f.2))
          (t.consumerAllNumber, t.averagePrice) =
        ((takeFills t fills).consumerAllNumber, (takeFills t fills).averagePrice) := by
    intro fills
    induction fills with
    | nil => exact fun t => rfl
    | cons f fills ih => exact fun t => ih (takerPart t f.qty f.maker.trustPrice)
  rw [← hfold, hc, ha, averaged]

theorem averaged_append (fills : List (BigDecimal × BigDecimal)) (f : BigDecimal × BigDecimal) :
    averaged (fills ++ [f]) = ((averaged fills).1 + f.1,
      getAveragePrice (averaged fills).1 (averaged fills).2 f.1 f.2) := by
  rw [averaged, List.foldl_append]
  rfl

omit [DecimalRounding] in
/-- A buy that cuts a sell, by its sweep. -/
theorem cutsSell_of_sweep {S : MakerOps BbOrder BigDecimal} {crosses : BbOrder → Bool}
    {cap : Option Nat} (hS : BookMakers S) (hi : Incoming .buy o own ms) (hacc : o.Accepted)
    (hrev : isRevoke o = false) (hpo : o.orderForm ≠ orderFormPostOnly)
    (hfok : o.orderForm ≠ orderFormFok)
    (hfront : o.orderForm = orderFormMarketPrice →
      ∀ a ∈ own.head?, rank .buy (marketPriced .buy o) < rank .buy a)
    (htakes : ∀ m, crosses m = true → Takes o m)
    (hcap : o.orderForm = orderFormMarketPrice → cap = some (gearOf o).toNat)
    {f : PriceTime.Fill BbOrder BigDecimal} (hf : f ∈ (sweep S crosses cap (remaining o) ms).fills)
    (hleft : f.makerLeft ≠ 0) : CutsSell (ofSides .buy own ms) o := by
  obtain ⟨pre, post, hms, hcr, hlen, hlo, hhi⟩ :=
    cut_of_makerLeft S crosses cap (remaining o) ms hi.live.pos f hf hleft
  have hopen : S.openOf = remaining := funext hS.opens
  have hq : remaining o = o.trustNumber := by rw [remaining, hacc.consumed, sub_zero]
  rw [hopen, hq] at hlo hhi
  refine ⟨hi.code, hrev, containsOrderNo_ofSides _ _ _ |>.mpr hi.fresh, hpo, hfok, hfront, pre,
    f.maker, post, hms, fun x hx => htakes x (hcr x hx), fun hm => hlen _ (hcap hm), hlo, hhi⟩

/-- A call that cuts no sell keeps up the average of a maker that it fills in part. -/
theorem Sweeps.keeps_average {S : MakerOps BbOrder BigDecimal} {crosses : BbOrder → Bool}
    {cap : Option Nat} (h : Sweeps side o own S crosses cap) (hi : Incoming side o own ms)
    (hacc : o.Accepted) (hrev : isRevoke o = false) (hcut : ¬ CutsSell (ofSides side own ms) o)
    {f : PriceTime.Fill BbOrder BigDecimal} (hf : f ∈ (sweep S crosses cap (remaining o) ms).fills)
    (hleft : f.makerLeft ≠ 0) : S = averagedMakers := by
  cases h with
  | idle =>
      rw [sweep_capped] at hf
      exact absurd hf List.not_mem_nil
  | limit hpo hfok hm =>
      cases side with
      | sell => rfl
      | buy =>
          refine absurd (cutsSell_of_sweep (bookMakers_makersOf .buy) hi hacc hrev hpo hfok
            (fun h => absurd h hm) (fun m hcr => ?_) (fun h => absurd h hm) hf hleft) hcut
          rw [Takes, if_neg hm]
          exact of_decide_eq_true hcr
  | fok => rfl
  | market hm hfront =>
      cases side with
      | sell => rfl
      | buy =>
          have hpo : o.orderForm ≠ orderFormPostOnly := by rw [hm]; decide
          have hfok : o.orderForm ≠ orderFormFok := by rw [hm]; decide
          refine absurd (cutsSell_of_sweep (bookMakers_makersOf .buy) hi hacc hrev hpo hfok
            (fun _ => hfront) (fun m hcr => ?_) (fun _ => rfl) hf hleft) hcut
          rw [Takes, if_pos hm]
          exact of_decide_eq_true hcr

/-- An order has consumed its fills and has their average price. -/
def HasAverage (fills : List (BigDecimal × BigDecimal)) (y : BbOrder) : Prop :=
  averaged fills = (y.consumerAllNumber, y.averagePrice)

omit [DecimalRounding] in
/-- The fills of an order after those of a call of a new order. -/
def extended (history : String → List (BigDecimal × BigDecimal)) (o : BbOrder)
    (evs : List MatchEvent) (orderNo : String) : List (BigDecimal × BigDecimal) :=
  (if orderNo = o.trustOrderNo then [] else history orderNo) ++ partsOf orderNo evs

section Call

variable {S : MakerOps BbOrder BigDecimal} {crosses : BbOrder → Bool} {cap : Option Nat}
  {history : String → List (BigDecimal × BigDecimal)}

/-- The makers that are left have the averages of their fills. -/
theorem hasAverage_maker (hsw : Sweeps side o own S crosses cap) (hs : Sides side own ms)
    (hi : Incoming side o own ms) (hacc : o.Accepted) (hrev : isRevoke o = false)
    (hcut : ¬ CutsSell (ofSides side own ms) o)
    (hrep : Reports o (sweep S crosses cap (remaining o) ms).fills evs)
    (hold : ∀ y ∈ ms, HasAverage (history y.trustOrderNo) y) :
    ∀ y ∈ (sweep S crosses cap (remaining o) ms).book,
      HasAverage (extended history o evs y.trustOrderNo) y := by
  have hname : ∀ (q : BigDecimal) (m : BbOrder), (S.reduce q m).trustOrderNo = m.trustOrderNo :=
    fun q m => trustOrderNo_of_terms (hsw.bookMakers.terms q m)
  intro y hy
  have hne := hi.fresh_swept hsw.bookMakers crosses cap (remaining o) y (List.mem_append_right _ hy)
  rw [extended, if_neg hne, hrep.partsOf_maker hne]
  rcases book_filled_once S crosses (·.trustOrderNo) hname cap (remaining o) ms
    hs.oppSorted.nodup y hy with ⟨hmem, hnil⟩ | ⟨f, hone, hf, hleft, rfl⟩
  · rw [hnil, List.map_nil, List.append_nil]
    exact hold y hmem
  · have hfill : f ∈ (sweep S crosses cap (remaining o) ms).fills :=
      List.mem_of_mem_filter (hone ▸ List.mem_singleton_self f)
    have havg := hsw.keeps_average hi hacc hrev hcut hfill hleft
    rw [hone, hname, List.map_singleton, HasAverage, averaged_append, hold f.maker hf, havg]
    rfl

/-- So do the orders of the same side, which have no fill. -/
theorem hasAverage_own (hs : Sides side own ms) (hi : Incoming side o own ms)
    (hrep : Reports o (sweep S crosses cap (remaining o) ms).fills evs)
    (hold : ∀ y ∈ own, HasAverage (history y.trustOrderNo) y) :
    ∀ y ∈ own, HasAverage (extended history o evs y.trustOrderNo) y := by
  intro y hy
  have hne := hi.own_ne y hy
  have hnil : (sweep S crosses cap (remaining o) ms).fills.filter
      (fun f => f.maker.trustOrderNo = y.trustOrderNo) = [] := by
    refine List.filter_eq_nil_iff.mpr fun f hf => ?_
    have hmem := (fills_initial S crosses cap (remaining o) ms).subset (List.mem_map_of_mem hf)
    simpa using (hs.distinct y hy f.maker hmem).symm
  rw [extended, if_neg hne, hrep.partsOf_maker hne, hnil, List.map_nil, List.append_nil]
  exact hold y hy

/-- And the rest of the order itself. -/
theorem hasAverage_rest {t : BbOrder} (hno : t.trustOrderNo = o.trustOrderNo)
    (hc : t.consumerAllNumber = 0) (hzero : t.averagePrice = 0) (hrep : Reports o fills evs) :
    HasAverage (extended history o evs (takeFills t fills).trustOrderNo) (takeFills t fills) := by
  rw [trustOrderNo_of_terms (terms_takeFills t fills), hno, extended, if_pos rfl, List.nil_append,
    hrep.partsOf_taker]
  exact averaged_takeFills t hc hzero fills

/-- After a call that cuts no sell, the orders have the averages of their fills. -/
theorem averages_settle (hs : Sides side own ms) (hi : Incoming side o own ms) (hacc : o.Accepted)
    (hzero : o.averagePrice = 0) (hrev : isRevoke o = false)
    (hcut : ¬ CutsSell (ofSides side own ms) o)
    (hold : ∀ y ∈ own, HasAverage (history y.trustOrderNo) y)
    (hold' : ∀ y ∈ ms, HasAverage (history y.trustOrderNo) y) :
    ∀ s, ∀ y ∈ (settle side o own ms).1.entries s,
      HasAverage (extended history o (settle side o own ms).2 y.trustOrderNo) y := by
  obtain ⟨S, crosses, cap, hsw, hrep, hbook⟩ := settle_sweeps side o own ms
  have hmakers := hasAverage_maker hsw hs hi hacc hrev hcut hrep hold'
  have hown := hasAverage_own hs hi hrep hold
  intro s y hy
  rcases Side.eq_or_eq_opp side s with rfl | rfl
  · rcases hbook with hbook | ⟨t, ht, hbook⟩
    · rw [hbook, entries_ofSides] at hy
      exact hown y hy
    · rw [hbook, entries_ofSides, mem_place] at hy
      rcases hy with rfl | hy
      · rcases ht with rfl | rfl
        · exact hasAverage_rest rfl hacc.consumed hzero hrep
        · cases s <;> exact hasAverage_rest rfl hacc.consumed hzero hrep
      · exact hown y hy
  · rcases hbook with hbook | ⟨t, -, hbook⟩
    · rw [hbook, entries_ofSides_opp] at hy
      exact hmakers y hy
    · rw [hbook, entries_ofSides_opp] at hy
      exact hmakers y hy

end Call

/-! ## Runs -/

/-- All resting orders have the averages of their fills. -/
def Averages (ledger : Ledger) (engine : Engine) : Prop :=
  ∀ symbol s, ∀ x ∈ (engine.books symbol).entries s, HasAverage (ledger symbol x.trustOrderNo) x

/-- A call that cuts no sell leaves the averages right. -/
theorem Averages.call {engine next : Engine} {ledger : Ledger} (h : Averages ledger engine)
    (hinv : EngineInv engine) (hacc : o.Accepted) (hzero : o.averagePrice = 0)
    (hcut : ¬ CutsSell (engine.books o.symbolKey) o) (hon : engine.onOrder o = some (next, evs)) :
    Averages (ledger.call (engine.books o.symbolKey) o evs) next := by
  obtain ⟨hbook, hframe⟩ := onOrder_some hon
  have hl := Live.of_accepted hacc
  intro symbol s x hx
  by_cases hs : symbol = o.symbolKey
  case neg =>
    rw [hframe symbol hs] at hx
    rw [Ledger.call, if_neg hs]
    exact h symbol s x hx
  subst hs
  rw [Ledger.call, if_pos rfl]
  rcases onBook_cases (hinv _) hl hbook with ⟨hnil, hsub⟩ | ⟨side, hrev, hfresh, hi, hset, hevs⟩
  · -- The order rested before, so its fills are not forgotten.
    have hx' := (hsub s).subset hx
    have hrests : (engine.books o.symbolKey).containsOrderNo x.trustOrderNo = true :=
      (containsOrderNo_eq_true _).mpr ⟨s, x, hx', rfl⟩
    rw [if_neg (by simp [hrests]), partsOf, hnil, List.filter_nil, List.map_nil, List.append_nil]
    exact h _ s x hx'
  · rw [← ofSides_entries (engine.books o.symbolKey) side] at hcut
    have hnew := averages_settle ((hinv o.symbolKey).sides side) hi hacc hzero hrev hcut
      (h o.symbolKey side) (h o.symbolKey side.opp)
    rw [hset] at hx
    have hiff : (x.trustOrderNo = o.trustOrderNo ∧ isRevoke o = false ∧
        (engine.books o.symbolKey).containsOrderNo x.trustOrderNo = false) ↔
          x.trustOrderNo = o.trustOrderNo :=
      ⟨fun h => h.1, fun h => ⟨h, hrev, h ▸ hfresh⟩⟩
    simp only [hiff, hevs]
    exact hnew s x hx

/-- The averages along a run, from any engine where they are right. -/
theorem averages_record (os : List BbOrder) : ∀ {engine : Engine} {ledger : Ledger},
    EngineInv engine → Averages ledger engine →
    (∀ o ∈ os, o.Accepted ∧ o.averagePrice = 0) →
    (∀ pre o post before, os = pre ++ o :: post → engine.run pre = some before →
      ¬ CutsSell (before.books o.symbolKey) o) →
    ∃ next ledger', engine.record ledger os = some (next, ledger') ∧ Averages ledger' next := by
  induction os with
  | nil => exact fun _ h _ _ => ⟨_, _, rfl, h⟩
  | cons o os ih =>
      intro engine ledger hinv h hacc hcut
      obtain ⟨ho, hzero⟩ := hacc o (List.mem_cons_self ..)
      obtain ⟨next, evs, hon, hinv'⟩ := engineInv_onOrder hinv (Live.of_accepted ho)
      have hcall := h.call hinv ho hzero (hcut [] o os engine rfl rfl) hon
      obtain ⟨last, ledger', hrec, hlast⟩ := ih hinv' hcall
        (fun x hx => hacc x (List.mem_cons_of_mem _ hx)) fun pre x post before hos hrun => by
          refine hcut (o :: pre) x post before (congrArg (o :: ·) hos) ?_
          rw [Engine.run, hon]
          exact hrun
      refine ⟨last, ledger', ?_, hlast⟩
      rw [Engine.record, hon]
      exact hrec

/-- In a run in which no buy other than FOK ends inside a resting sell, every resting order
has the average price of its fills. -/
theorem averages_kept (os : List BbOrder) (hacc : ∀ o ∈ os, o.Accepted ∧ o.averagePrice = 0)
    (hcut : ∀ pre o post before, os = pre ++ o :: post → Engine.run {} pre = some before →
      ¬ CutsSell (before.books o.symbolKey) o) :
    ∃ engine ledger, Engine.record {} (fun _ _ => []) os = some (engine, ledger) ∧
      ∀ symbol s, ∀ x ∈ (engine.books symbol).entries s,
        x.averagePrice = (averaged (ledger symbol x.trustOrderNo)).2 := by
  have hnew : Averages (fun _ _ => []) {} := by
    intro symbol s x hx
    cases s <;> exact absurd hx List.not_mem_nil
  obtain ⟨engine, ledger, hrec, hav⟩ := averages_record os engineInv_new hnew hacc hcut
  refine ⟨engine, ledger, hrec, fun symbol s x hx => ?_⟩
  rw [hav symbol s x hx]

end Average

/-- A sell that takes a part of a buy. -/
theorem averages_kept_sell :
    ∃ engine ledger, @Engine.record .schoolbook {} (fun _ _ => [])
        [testLimit .buy 100 "1" 1 5, testLimit .sell 100 "2" 2 2] = some (engine, ledger) ∧
      ∀ symbol s, ∀ x ∈ (engine.books symbol).entries s,
        x.averagePrice = (@averaged .schoolbook (ledger symbol x.trustOrderNo)).2 := by
  refine @averages_kept .schoolbook [testLimit .buy 100 "1" 1 5, testLimit .sell 100 "2" 2 2]
    (by decide +kernel) fun pre o post before hos hrun hc => ?_
  rcases pre with _ | ⟨a, _ | ⟨b, pre⟩⟩
  · cases hrun
    obtain ⟨pre, m, post, hsells, -⟩ := hc.cut
    exact absurd hsells (by simp)
  · cases hos
    exact absurd hc.buy (by decide)
  · simp at hos

/-- A buy of 2 at 100 takes a part of a sell.  The average price of the sell stays zero, and
that of its one fill is 100. -/
theorem limit_buy_leaves_average :
    (@Engine.record .schoolbook {} (fun _ _ => [])
        [testLimit .sell 100 "1" 1 5, testLimit .buy 100 "2" 2 2]).map
      (fun r => (r.1.books "btcusdt").sells.map fun x =>
        (x.averagePrice, (@averaged .schoolbook (r.2 "btcusdt" x.trustOrderNo)).2)) =
      some [(0, 100)] := by
  decide +kernel

end MatchCore
