import MatchRust.Core.Outcomes
import MatchRust.Lib.Paired

/-!
# Engines in lock-step

Two engines take orders call by call.  Their resting orders are related in pairs, in the
same places, possibly on the other side and at other prices.  `Alike` says what such a
relation has to respect: the rank of an order, what is open, and the changes a fill makes.
Then a call of related orders gives the same events, up to the prices, and leaves related
books (`Alike.onBook`).

Everything the engine does is a sweep or a placement (`settle`), so only those have to be
followed.  Market orders read a form and a price of their own, and are followed where
neither sides nor prices change.
-/

namespace MatchCore

open MatchProtocol PriceTime OrderBook

/-! ## Calls of an engine -/

section Trace

variable [DecimalRounding]

/-- The engine after a sequence of calls, and the events of each call. -/
def Engine.trace (engine : Engine) : List BbOrder → Option (Engine × List (List MatchEvent))
  | [] => some (engine, [])
  | o :: os =>
      match engine.onOrder o with
      | none => none
      | some (engine, evs) =>
          match trace engine os with
          | none => none
          | some (engine, rest) => some (engine, evs :: rest)

theorem Engine.trace_cons {engine engine₁ engine₂ : Engine} {o : BbOrder} {os : List BbOrder}
    {evs : List MatchEvent} {rest : List (List MatchEvent)}
    (h₁ : engine.onOrder o = some (engine₁, evs)) (h₂ : engine₁.trace os = some (engine₂, rest)) :
    engine.trace (o :: os) = some (engine₂, evs :: rest) := by
  simp only [trace, h₁, h₂]

end Trace

/-- An event at another price. -/
def MatchEvent.atPrice (price : BigDecimal → BigDecimal) : MatchEvent → MatchEvent
  | .fill ev => .fill { ev with price := price ev.price }
  | .revoke ev => .revoke ev

/-- Books with related orders in the same places, on sides that are turned. -/
def OrderBook.Rel (turn : Side → Side) (R : BbOrder → BbOrder → Prop) (book book' : OrderBook) :
    Prop :=
  ∀ side, List.Forall₂ R (book.entries side) (book'.entries (turn side))

/-! ## Relations that calls respect -/

section Simulation

variable [DecimalRounding]

/-- Related orders match alike: `turn` is what becomes of sides and `price` what becomes of
prices. -/
structure Alike (turn : Side → Side) (price : BigDecimal → BigDecimal)
    (R : BbOrder → BbOrder → Prop) : Prop where
  /-- Sides stay opposite. -/
  turn_opp : ∀ side : Side, turn side.opp = (turn side).opp
  /-- A price is as good on the turned side. -/
  signed : ∀ (side : Side) (p : BigDecimal), (turn side).signed (price p) = side.signed p
  /-- The number is kept, -/
  orderNo : ∀ {a b}, R a b → b.trustOrderNo = a.trustOrderNo
  /-- the symbol, -/
  symbol : ∀ {a b}, R a b → b.symbolKey = a.symbolKey
  /-- the user's type, -/
  userType : ∀ {a b}, R a b → b.type = a.type
  /-- the time, -/
  time : ∀ {a b}, R a b → b.createTime = a.createTime
  /-- and what is open. -/
  opens : ∀ {a b}, R a b → remaining b = remaining a
  /-- The price is the other one, -/
  trustPrice : ∀ {a b}, R a b → b.trustPrice = price a.trustPrice
  /-- and the side is turned. -/
  code : ∀ {a b}, R a b →
    Side.fromOrderType b.orderType = (Side.fromOrderType a.orderType).map turn
  /-- Market orders are related to market orders. -/
  market : ∀ {a b}, R a b →
    (b.orderForm = orderFormMarketPrice ↔ a.orderForm = orderFormMarketPrice)
  /-- A fill of two makers, whatever it does to their average prices. -/
  maker : ∀ {a b} (s s' : Side) (q : BigDecimal), R a b →
    R ((makersOf s).reduce q a) ((makersOf s').reduce q b)
  /-- A fill of two takers. -/
  taker : ∀ {a b} (q p p' : BigDecimal), R a b → R (takerPart a q p) (takerPart b q p')

namespace Alike

variable {turn : Side → Side} {price : BigDecimal → BigDecimal} {R : BbOrder → BbOrder → Prop}
  {side : Side} {a b o o' m m' : BbOrder} {own own' ms ms' : List BbOrder}

theorem rank (A : Alike turn price R) (h : R a b) :
    MatchCore.rank (turn side) b = MatchCore.rank side a := by
  rw [MatchCore.rank, MatchCore.rank, A.trustPrice h, A.signed, A.time h, A.orderNo h]

theorem crossing (A : Alike turn price R) (ho : R o o') (hm : R m m') :
    MatchCore.crossing (turn side) o' m' = MatchCore.crossing side o m := by
  rw [Bool.eq_iff_iff, MatchCore.crossing, MatchCore.crossing, Side.crosses_iff, Side.crosses_iff,
    A.trustPrice ho, A.trustPrice hm, ← A.turn_opp, A.signed, A.signed]

theorem fillOf (A : Alike turn price R) (ho : R o o')
    {f f' : PriceTime.Fill BbOrder BigDecimal} (hf : f.Rel R f') :
    MatchCore.fillOf o' f' = (MatchCore.fillOf o f).atPrice price := by
  simp only [MatchCore.fillOf, fillEvent, MatchEvent.atPrice, A.symbol ho, A.orderNo ho,
    A.userType ho, A.orderNo hf.maker, A.userType hf.maker, A.trustPrice hf.maker, hf.qty,
    hf.takerLeft, hf.makerLeft]

theorem walkFillOf (A : Alike turn price R) (ho : R o o')
    {f f' : PriceTime.Fill BbOrder BigDecimal} (hf : f.Rel R f') :
    MatchCore.walkFillOf o' f' = (MatchCore.walkFillOf o f).atPrice price := by
  simp only [MatchCore.walkFillOf, fillEvent, MatchEvent.atPrice, A.symbol ho, A.orderNo ho,
    A.userType ho, A.orderNo hf.maker, A.userType hf.maker, A.trustPrice hf.maker, hf.qty,
    hf.takerLeft, hf.makerLeft]

theorem revokeOf (A : Alike turn price R) (ho : R o o') (left : BigDecimal) (reason : String) :
    MatchCore.revokeOf o' left reason = (MatchCore.revokeOf o left reason).atPrice price := by
  rw [MatchCore.revokeOf, MatchCore.revokeOf, A.orderNo ho, A.symbol ho]
  rfl

/-- Orders are placed alike. -/
theorem place (A : Alike turn price R) (ho : R o o') (h : List.Forall₂ R own own') :
    List.Forall₂ R (MatchCore.place side o own) (MatchCore.place (turn side) o' own') := by
  induction h with
  | nil => exact .cons ho .nil
  | @cons a b l l' hab h ih =>
      simp only [MatchCore.place, List.orderedInsert_cons, A.rank ho, A.rank hab]
      split
      · exact .cons ho (.cons hab h)
      · exact .cons hab ih

theorem takeFills (A : Alike turn price R) {fs fs' : List (PriceTime.Fill BbOrder BigDecimal)}
    (h : List.Forall₂ (Fill.Rel R) fs fs') : ∀ {o o'}, R o o' →
      R (MatchCore.takeFills o fs) (MatchCore.takeFills o' fs') := by
  induction h with
  | nil => exact fun ho => ho
  | cons hf _ ih =>
      intro o o' ho
      rw [takeFills_cons, takeFills_cons, hf.qty]
      exact ih (A.taker _ _ _ ho)

omit [DecimalRounding] in
/-- Events of related fills. -/
theorem map_events {g g' : PriceTime.Fill BbOrder BigDecimal → MatchEvent}
    (hg : ∀ {f f'}, Fill.Rel R f f' → g' f' = (g f).atPrice price)
    {fs fs' : List (PriceTime.Fill BbOrder BigDecimal)}
    (h : List.Forall₂ (Fill.Rel R) fs fs') :
    fs'.map g' = (fs.map g).map (MatchEvent.atPrice price) := by
  induction h with
  | nil => rfl
  | cons hf _ ih => rw [List.map_cons, List.map_cons, List.map_cons, hg hf, ih]

theorem rel_ofSides (A : Alike turn price R) (hown : List.Forall₂ R own own')
    (hms : List.Forall₂ R ms ms') :
    (ofSides side own ms).Rel turn R (ofSides (turn side) own' ms') := by
  intro s
  rcases Side.eq_or_eq_opp side s with rfl | rfl
  · rwa [entries_ofSides, entries_ofSides]
  · rwa [entries_ofSides_opp, A.turn_opp, entries_ofSides_opp]

/-! ## Sweeps -/

theorem limitSweep (A : Alike turn price R) (side : Side) (ho : R o o')
    (h : List.Forall₂ R ms ms') :
    (MatchCore.limitSweep side o ms).Rel R (MatchCore.limitSweep (turn side) o' ms') := by
  rw [MatchCore.limitSweep, MatchCore.limitSweep, A.opens ho]
  refine sweep_rel _ _ (fun a b hab => ?_) (fun q a b hab => A.maker side (turn side) q hab)
    (fun a b hab => A.crossing ho hab) h none _
  rw [openOf_makersOf, openOf_makersOf, A.opens hab]

theorem fokSweep (A : Alike turn price R) (side : Side) (ho : R o o') (h : List.Forall₂ R ms ms') :
    (MatchCore.fokSweep side o o ms).Rel R (MatchCore.fokSweep (turn side) o' o' ms') := by
  rw [MatchCore.fokSweep, MatchCore.fokSweep, A.opens ho]
  exact sweep_rel averagedMakers averagedMakers (fun a b hab => A.opens hab)
    (fun q a b hab => A.maker .sell .sell q hab) (fun a b hab => A.crossing ho hab) h none _

theorem rested (A : Alike turn price R) (ho : R o o') (hown : List.Forall₂ R own own')
    {r r' : Sweep BbOrder BigDecimal} (hr : r.Rel R r') :
    List.Forall₂ R (MatchCore.rested side o own r) (MatchCore.rested (turn side) o' own' r') := by
  rw [MatchCore.rested, MatchCore.rested, hr.left]
  split
  · exact hown
  · exact A.place (A.takeFills hr.fills ho) hown

theorem takenEvents (A : Alike turn price R) (ho : R o o') {r r' : Sweep BbOrder BigDecimal}
    (hr : r.Rel R r') (reason : String) :
    MatchCore.takenEvents o' r' reason =
      (MatchCore.takenEvents o r reason).map (MatchEvent.atPrice price) := by
  rw [MatchCore.takenEvents, MatchCore.takenEvents, map_events (A.fillOf ho) hr.fills, hr.left,
    A.revokeOf ho, List.map_append]
  split <;> rfl

theorem fokEvents (A : Alike turn price R) (ho : R o o')
    {fs fs' : List (PriceTime.Fill BbOrder BigDecimal)}
    (h : List.Forall₂ (Fill.Rel R) fs fs') :
    MatchCore.fokEvents o' fs' = (MatchCore.fokEvents o fs).map (MatchEvent.atPrice price) := by
  cases h with
  | nil => rfl
  | cons hf h =>
      cases h with
      | nil => exact congrArg (fun ev => [ev]) (A.fillOf ho hf)
      | cons hf' h => exact map_events (A.walkFillOf ho) (.cons hf (.cons hf' h))

/-- The head of the other side crosses alike. -/
theorem any_crossing (A : Alike turn price R) (ho : R o o') (h : List.Forall₂ R ms ms') :
    ms'.head?.any (MatchCore.crossing (turn side) o') =
      ms.head?.any (MatchCore.crossing side o) := by
  cases h with
  | nil => rfl
  | cons hm _ => exact A.crossing ho hm

/-- Related outcomes of a call. -/
def Outcomes (turn : Side → Side) (price : BigDecimal → BigDecimal)
    (R : BbOrder → BbOrder → Prop) (x x' : OrderBook × List MatchEvent) : Prop :=
  x.1.Rel turn R x'.1 ∧ x'.2 = x.2.map (MatchEvent.atPrice price)

/-- Orders other than market orders settle alike. -/
theorem settle (A : Alike turn price R) (ho : R o o') (hform : o'.orderForm = o.orderForm)
    (hplain : o.orderForm ≠ orderFormMarketPrice) (hown : List.Forall₂ R own own')
    (hms : List.Forall₂ R ms ms') :
    Outcomes turn price R (MatchCore.settle side o own ms)
      (MatchCore.settle (turn side) o' own' ms') := by
  have hlim := A.limitSweep side ho hms
  have hfok := A.fokSweep side ho hms
  rw [MatchCore.settle, MatchCore.settle, hform, A.any_crossing ho hms]
  split_ifs with hpo hcross hioc hfk
  · refine ⟨A.rel_ofSides hown hms, ?_⟩
    rw [A.opens ho, A.revokeOf ho]
    rfl
  · exact ⟨A.rel_ofSides (A.place ho hown) hms, rfl⟩
  · exact ⟨A.rel_ofSides hown hlim.book, A.takenEvents ho hlim _⟩
  · rw [fokResult, fokResult, hfok.left]
    split
    · exact ⟨A.rel_ofSides hown hfok.book, A.fokEvents ho hfok.fills⟩
    · refine ⟨A.rel_ofSides hown hms, ?_⟩
      rw [A.revokeOf ho]
      rfl
  · exact ⟨A.rel_ofSides (A.rested ho hown hlim) hlim.book, map_events (A.fillOf ho) hlim.fills⟩

/-- Where sides and prices stay, market orders settle alike too. -/
theorem settleMarket (A : Alike id id R) (ho : R o o') (hgear : o'.gear = o.gear)
    (hown : List.Forall₂ R own own') (hms : List.Forall₂ R ms ms') :
    Outcomes id id R (MatchCore.settleMarket side o own ms)
      (MatchCore.settleMarket side o' own' ms') := by
  have hmarketable : ∀ {m m'}, R m m' → marketable side m' = marketable side m := by
    intro m m' hm
    cases side with
    | buy => simp only [marketable, ne_eq, A.market hm]
    | sell => rfl
  have hg : gearOf o' = gearOf o := by rw [gearOf, gearOf, hgear]
  have hempty : ms' = [] ↔ ms = [] := by
    rw [← List.length_eq_zero_iff, ← List.length_eq_zero_iff, hms.length_eq]
  have hswept : ∀ {own own'}, List.Forall₂ R own own' →
      Outcomes id id R (sweptMarket side o own ms) (sweptMarket side o' own' ms') := by
    intro own own' hown
    have hr : (marketSweep side (gearOf o) o ms).Rel R (marketSweep side (gearOf o) o' ms') := by
      rw [marketSweep, marketSweep, A.opens ho]
      refine sweep_rel _ _ (fun a b hab => ?_) (fun q a b hab => A.maker side side q hab)
        (fun a b hab => hmarketable hab) hms _ _
      rw [openOf_makersOf, openOf_makersOf, A.opens hab]
    have hbook : (marketSweep side (gearOf o) o' ms').book = [] ↔
        (marketSweep side (gearOf o) o ms).book = [] := by
      rw [← List.length_eq_zero_iff, ← List.length_eq_zero_iff, hr.book.length_eq]
    rw [sweptMarket, sweptMarket, hg]
    refine ⟨A.rel_ofSides hown hr.book, ?_⟩
    simp only [A.takenEvents ho hr, marketReason, hr.fills.length_eq, hbook]
  cases hown with
  | nil => exact hswept .nil
  | @cons a b own own' hab hown =>
      have hrank : MatchCore.rank side o' < MatchCore.rank side b ↔
          MatchCore.rank side o < MatchCore.rank side a := by
        rw [show MatchCore.rank side o' = MatchCore.rank side o from A.rank ho,
          show MatchCore.rank side b = MatchCore.rank side a from A.rank hab]
      have hrevoke : ∀ reason, [MatchCore.revokeOf o' (remaining o') reason] =
          [MatchCore.revokeOf o (remaining o) reason].map (MatchEvent.atPrice id) := by
        intro reason
        rw [A.opens ho, A.revokeOf ho]
        rfl
      simp only [MatchCore.settleMarket, hrank, hempty, A.market hab]
      split_ifs
      · exact hswept (.cons hab hown)
      · exact ⟨A.rel_ofSides (.cons hab hown) hms, hrevoke _⟩
      · exact ⟨A.rel_ofSides (.cons hab hown) hms, hrevoke _⟩
      · exact ⟨A.rel_ofSides (A.place ho (.cons hab hown)) hms, rfl⟩

/-! ## Calls -/

theorem map_orderNo (A : Alike turn price R) {l l' : List BbOrder} (h : List.Forall₂ R l l') :
    l'.map (·.trustOrderNo) = l.map (·.trustOrderNo) := by
  induction h with
  | nil => rfl
  | cons hab _ ih => rw [List.map_cons, List.map_cons, A.orderNo hab, ih]

variable {book book' : OrderBook}

theorem containsOrderNo (A : Alike turn price R) (hrel : book.Rel turn R book') (no : String) :
    book'.containsOrderNo no = book.containsOrderNo no := by
  have hsell := hrel Side.buy.opp
  rw [A.turn_opp] at hsell
  have hnos : (book'.entries (turn .buy) ++ book'.entries (turn .buy).opp).map (·.trustOrderNo) =
      (book.entries .buy ++ book.entries Side.buy.opp).map (·.trustOrderNo) := by
    rw [List.map_append, List.map_append, A.map_orderNo (hrel .buy), A.map_orderNo hsell]
  have hmem : ∀ l : List BbOrder, (∀ x ∈ l, x.trustOrderNo ≠ no) ↔ no ∉ l.map (·.trustOrderNo) := by
    simp
  rw [Bool.eq_iff_iff, ← not_iff_not, Bool.not_eq_true, Bool.not_eq_true,
    ← ofSides_entries book' (turn .buy), ← ofSides_entries book .buy, containsOrderNo_ofSides,
    containsOrderNo_ofSides, hmem, hmem, hnos]

/-- A number is removed from both books, or from neither. -/
theorem removeByOrderNo (A : Alike turn price R) (hinv : BookInv book) (hinv' : BookInv book')
    (hrel : book.Rel turn R book') (side : Side) (no : String) :
    (∃ x x' b b', book.removeByOrderNo side no = (some x, b) ∧
        book'.removeByOrderNo (turn side) no = (some x', b') ∧ R x x' ∧ b.Rel turn R b') ∨
      book.removeByOrderNo side no = (none, book) ∧
        book'.removeByOrderNo (turn side) no = (none, book') := by
  rcases removeByOrderNo_cases hinv side no with ⟨l₁, x, l₂, he, rfl, hrem⟩ | ⟨habs, hrem⟩
  · have hside := hrel side
    rw [he] at hside
    obtain ⟨l₁', x', l₂', he', hx, hrest⟩ := Paired.forall₂_split hside
    have hs' := (hinv'.sides (turn side)).sorted
    rw [he'] at hs'
    have hrem' := removeByOrderNo_append he' hs'
    rw [A.orderNo hx] at hrem'
    refine Or.inl ⟨x, x', _, _, hrem, hrem', hx, ?_⟩
    rw [setEntries_eq_ofSides, setEntries_eq_ofSides, ← A.turn_opp]
    exact A.rel_ofSides hrest (hrel side.opp)
  · refine Or.inr ⟨hrem, removeByOrderNo_absent fun x' hx' => ?_⟩
    obtain ⟨x, hx, hxx⟩ := Paired.exists_of_mem_right (hrel side) hx'
    rw [A.orderNo hxx]
    exact habs x hx

/-- Requests to revoke are answered alike. -/
theorem revokeOrder (A : Alike turn price R) (hinv : BookInv book) (hinv' : BookInv book')
    (hrel : book.Rel turn R book') (ho : R o o') :
    (MatchCore.revokeOrder book o).2.Rel turn R (MatchCore.revokeOrder book' o').2 ∧
      (MatchCore.revokeOrder book' o').1.toList =
        (MatchCore.revokeOrder book o).1.toList.map (MatchEvent.atPrice price) := by
  have hcode := A.code ho
  cases hside : Side.fromOrderType o.orderType with
  | none =>
      rw [hside, Option.map_none] at hcode
      simp only [MatchCore.revokeOrder, revokeOrderWithReason, hside, hcode]
      exact ⟨hrel, rfl⟩
  | some side =>
      rw [hside, Option.map_some] at hcode
      have hno := A.orderNo ho
      rcases A.removeByOrderNo hinv hinv' hrel side o.trustOrderNo with
        ⟨x, x', b, b', hrem, hrem', hx, hb⟩ | ⟨hrem, hrem'⟩
      · rw [← hno] at hrem'
        rw [MatchCore.revokeOrder, MatchCore.revokeOrder, revokeOrderWithReason_present hside hrem,
          revokeOrderWithReason_present hcode hrem', A.opens hx, A.revokeOf hx]
        exact ⟨hb, rfl⟩
      · rw [← hno] at hrem'
        simp only [MatchCore.revokeOrder, revokeOrderWithReason, hside, hcode, hrem, hrem']
        exact ⟨hrel, rfl⟩

/-- Two orders settle alike, on all related books. -/
def Settles (turn : Side → Side) (price : BigDecimal → BigDecimal) (R : BbOrder → BbOrder → Prop)
    (o o' : BbOrder) : Prop :=
  ∀ (side : Side) {own own' ms ms' : List BbOrder}, List.Forall₂ R own own' →
    List.Forall₂ R ms ms' →
    Outcomes turn price R (MatchCore.settle side o own ms)
      (MatchCore.settle (turn side) o' own' ms')

/-- A call of related orders on related books. -/
theorem onBook (A : Alike turn price R) (hinv : BookInv book) (hinv' : BookInv book')
    (hrel : book.Rel turn R book') (ho : R o o') (hrev : isRevoke o' = isRevoke o)
    (hset : isRevoke o = false → Settles turn price R o o') (hl : Live o) (hl' : Live o') :
    ∃ x x', Engine.onBook book o = some x ∧ Engine.onBook book' o' = some x' ∧
      Outcomes turn price R x x' := by
  cases hr : isRevoke o with
  | true =>
      rw [hr] at hrev
      rw [Engine.onBook, if_pos hr, Engine.onBook, if_pos hrev]
      exact ⟨_, _, rfl, rfl, A.revokeOrder hinv hinv' hrel ho⟩
  | false =>
      rw [hr] at hrev
      have hcon : book'.containsOrderNo o'.trustOrderNo = book.containsOrderNo o.trustOrderNo := by
        rw [A.orderNo ho, A.containsOrderNo hrel]
      cases hc : book.containsOrderNo o.trustOrderNo with
      | true =>
          rw [hc] at hcon
          refine ⟨(book, []), (book', []), ?_, ?_, hrel, rfl⟩
          · simp [Engine.onBook, hr, hc]
          · simp [Engine.onBook, hrev, hcon]
      | false =>
          rw [hc] at hcon
          have hcode := A.code ho
          cases hside : Side.fromOrderType o.orderType with
          | none =>
              rw [hside, Option.map_none] at hcode
              exact ⟨_, _, onBook_unsided hside hr, onBook_unsided hcode hrev, hrel, rfl⟩
          | some side =>
              rw [hside, Option.map_some] at hcode
              refine ⟨_, _, onBook_eq_settle hinv hl hside hr hc,
                onBook_eq_settle hinv' hl' hcode hrev hcon, ?_⟩
              rw [← A.turn_opp]
              exact hset hr side (hrel side) (hrel side.opp)

/-- A call of related orders on engines whose books of the symbol are related. -/
theorem onOrder (A : Alike turn price R) {engine engine' : Engine} (hinv : EngineInv engine)
    (hinv' : EngineInv engine')
    (hrel : (engine.books o.symbolKey).Rel turn R (engine'.books o.symbolKey)) (ho : R o o')
    (hrev : isRevoke o' = isRevoke o) (hset : isRevoke o = false → Settles turn price R o o')
    (hl : Live o) (hl' : Live o') :
    ∃ next next' evs, engine.onOrder o = some (next, evs) ∧
      engine'.onOrder o' = some (next', evs.map (MatchEvent.atPrice price)) ∧
      ∀ symbol, (engine.books symbol).Rel turn R (engine'.books symbol) →
        (next.books symbol).Rel turn R (next'.books symbol) := by
  obtain ⟨x, x', hon, hon', hbook, hevs⟩ := A.onBook (hinv _) (hinv' _) hrel ho hrev hset hl hl'
  rw [← A.symbol ho] at hon'
  have hnext := onOrder_eq hon
  have hnext' := onOrder_eq hon'
  rw [hevs] at hnext'
  refine ⟨_, _, x.2, hnext, hnext', fun symbol hsym => ?_⟩
  by_cases hs : symbol = o.symbolKey
  · rw [hs, A.symbol ho]
    simpa using hbook
  · rw [(onOrder_some hnext).2 symbol hs, (onOrder_some hnext').2 symbol (by rwa [A.symbol ho])]
    exact hsym

end Alike

end Simulation

end MatchCore
