import MatchRust.Core.Outcomes
import MatchRust.Cross.Lines
import MatchRust.Hp.Accepts

/-!
# The engines agree on limit orders

Both engines are fed the same limit orders of one symbol, in the order of their
times, and revoke requests for resting orders.  The fixed-point engine gets the
commands of the adapter, and a revoke request reaches it as a cancel of the slot
that the order was given when it came to rest.  Then every call gives the same
fills and the same depth, up to the scales of the symbol (`engines_agree`).

The invariant is that the books have the same lines (`Agree`).  The order of
the times matters: the decimal engine ranks orders of one price by their times,
and the fixed-point engine by their arrival.

Quantities come as the conversion of the protocol leaves them
(`BbOrder.Accepted`).  The text of a decimal is written by the decimal package.
`DisplayExact` asks that a plain decimal text it writes denotes the decimal.
-/

namespace MatchCross

open MatchProtocol MatchCore PriceTime
open MatchCoreHp (SymbolScale HpOrder HpEvent HpCommand HpEngine Queues Represents AdapterError
  LevelIndex LawfulLevelIndex parseId fromBbOrder plainValue trim)

/-! ## Runs of both engines -/

/-- A decimal is written as a text that denotes it, if it is a plain one. -/
def DisplayExact (display : BigDecimal → String) : Prop :=
  ∀ d q, plainValue (trim (display d).toList) = some q → d.toRat = q

/-- The default texts of the decimal package are exact. -/
theorem displayExact_of_default {display : BigDecimal → String}
    (hdisplay : BigDecimal.DefaultDisplay display) : DisplayExact display := by
  intro d q hq
  by_cases hd : d.ExponentForm
  · obtain ⟨n, hn⟩ := MatchCoreHp.exists_spells_of_plainValue hq
    exact absurd hn (MatchCoreHp.not_spells_exponent (hdisplay.exponent d hd) n)
  · obtain ⟨n, hn, hvalue, -⟩ := hdisplay.plain d hd
    rw [MatchCoreHp.trim_of_spells hn, MatchCoreHp.plainValue_of_spells hn] at hq
    rw [← hvalue]
    exact Option.some.inj hq

/-- Both engines, and the slots given to the orders that came to rest. -/
structure Engines (B A : Type) where
  core : Engine
  hp : HpEngine B A
  slots : String → Nat := fun _ => 0

/-- The slot of an order that comes to rest. -/
def restSlot : HpEvent → Option Nat
  | .rest id _ _ _ _ => some id
  | _ => none

/-- The record with the slot of an order, if it came to rest. -/
def recordSlot (slots : String → Nat) (orderNo : String) (events : List HpEvent) : String → Nat :=
  match events.findSome? restSlot with
  | some slot => Function.update slots orderNo slot
  | none => slots

section Runs

variable {B A : Type} [LevelIndex B] [LevelIndex A] [LawfulLevelIndex .buy B]
  [LawfulLevelIndex .sell A] (display : BigDecimal → String) (scale : SymbolScale)
  (symbol : String)

/-- What may come next after the orders `news`, and the command it is for the
fixed-point engine. -/
inductive Admits (news : List BbOrder) (s : Engines B A) : BbOrder → HpCommand → Prop
  /-- A limit order, later than the others and with a number of its own, that the
  adapter converts. -/
  | order {o : BbOrder} {cmd : HpCommand} (hsymbol : o.symbolKey = symbol)
      (hrev : isRevoke o = false) (hform : o.orderForm = orderFormLimit) (hacc : o.Accepted)
      (hlater : ∀ a ∈ news, a.createTime < o.createTime)
      (hnew : ∀ a ∈ news, a.trustOrderNo ≠ o.trustOrderNo)
      (hcmd : fromBbOrder display scale o = .ok cmd)
      (hfit : (s.hp.onOrder cmd).book.LevelSumsFit) : Admits news s o cmd
  /-- A revoke request for a resting order. -/
  | revoke {r x : BbOrder} {side : Side} (hsymbol : r.symbolKey = symbol)
      (hrev : isRevoke r = true) (hside : Side.fromOrderType r.orderType = some side)
      (hx : x ∈ (s.core.books symbol).entries side) (hno : x.trustOrderNo = r.trustOrderNo) :
      Admits news s r (.cancel (s.slots r.trustOrderNo))

omit [LawfulLevelIndex .buy B] [LawfulLevelIndex .sell A] in
/-- Both engines after a call. -/
def Engines.next (s : Engines B A) (o : BbOrder) (cmd : HpCommand) (core : Engine) :
    Engines B A where
  core := core
  hp := s.hp.onOrder cmd
  slots := recordSlot s.slots o.trustOrderNo (s.hp.onOrder cmd).events

/-- What the engines reach, with the orders so far. -/
inductive Flow [DecimalRounding] : List BbOrder → Engines B A → Prop
  | new : Flow [] ⟨{}, HpEngine.new, fun _ => 0⟩
  | withCapacity : Flow [] ⟨{}, HpEngine.withCapacity, fun _ => 0⟩
  | step {news : List BbOrder} {s : Engines B A} {o : BbOrder} {cmd : HpCommand} {core : Engine}
      {evs : List MatchEvent} (h : Flow news s) (hnext : Admits display scale symbol news s o cmd)
      (hcore : s.core.onOrder o = some (core, evs)) :
      Flow (if isRevoke o then news else o :: news) (s.next o cmd core)

end Runs

/-! ## Fills -/

/-- A fill, as both engines report it. -/
structure Trade where
  taker : Except AdapterError Nat
  maker : Except AdapterError Nat
  price : BigDecimal
  qty : BigDecimal
  takerLeft : BigDecimal
  makerLeft : BigDecimal

/-- The fills of the decimal engine. -/
def coreTrades (evs : List MatchEvent) : List Trade :=
  (fillsOf evs).map fun f =>
    ⟨parseId f.takerOrderNo, parseId f.makerOrderNo, f.price, f.qty, f.takerRemaining,
      f.makerRemaining⟩

/-- The fills of the fixed-point engine. -/
def hpTrades (scale : SymbolScale) (events : List HpEvent) : List Trade :=
  events.filterMap fun
    | .fill _ _ makerClient takerClient tick qty makerOpen takerOpen =>
        some ⟨.ok takerClient, .ok makerClient, priceOf scale tick, qtyOf scale qty,
          qtyOf scale takerOpen, qtyOf scale makerOpen⟩
    | _ => none

/-- The fill of a line. -/
def lineTrade (taker : Except AdapterError Nat) (f : PriceTime.Fill Line BigDecimal) : Trade :=
  ⟨taker, f.maker.number, f.maker.price, f.qty, f.takerLeft, f.makerLeft⟩

theorem coreTrades_fills (slots : String → Nat) (o : BbOrder)
    (fs : List (PriceTime.Fill BbOrder BigDecimal)) :
    coreTrades (fs.map (fillOf o)) =
      (fs.map (Fill.map (coreLine slots) id)).map (lineTrade (parseId o.trustOrderNo)) := by
  induction fs with
  | nil => rfl
  | cons f fs ih => exact congrArg (_ :: ·) ih

theorem hpTrades_append (scale : SymbolScale) (evs evs' : List HpEvent) :
    hpTrades scale (evs ++ evs') = hpTrades scale evs ++ hpTrades scale evs' :=
  List.filterMap_append

theorem hpTrades_fills (scale : SymbolScale) (takerId client : Nat)
    (fs : List (PriceTime.Fill HpOrder Int)) :
    hpTrades scale (fs.map (MatchCoreHp.fillEvent takerId client)) =
      (fs.map (Fill.map (hpLine scale) (qtyOf scale))).map (lineTrade (.ok client)) := by
  induction fs with
  | nil => rfl
  | cons f fs ih => exact congrArg (_ :: ·) ih

theorem hpTrades_rests (scale : SymbolScale) (left : List HpOrder) :
    hpTrades scale (left.map MatchCoreHp.restEvent) = [] := by
  induction left with
  | nil => rfl
  | cons x left ih => exact ih

/-! ## Slots -/

/-- The record of a limit order: its slot, if some of it is left. -/
theorem recordSlot_limit (slots : String → Nat) (orderNo : String) (takerId client : Nat)
    (x : HpOrder) (sw : Sweep HpOrder Int) :
    recordSlot slots orderNo (sw.fills.map (MatchCoreHp.fillEvent takerId client) ++
        (MatchCoreHp.leftover x sw).map MatchCoreHp.restEvent) =
      if 0 < sw.left then Function.update slots orderNo x.id else slots := by
  have hfills :
      (sw.fills.map (MatchCoreHp.fillEvent takerId client)).findSome? restSlot = none := by
    rw [List.findSome?_eq_none_iff]
    rintro ev hev
    obtain ⟨f, -, rfl⟩ := List.mem_map.mp hev
    rfl
  rw [recordSlot, List.findSome?_append, hfills, MatchCoreHp.leftover]
  by_cases hl : 0 < sw.left
  · rw [if_pos hl, if_pos hl]
    rfl
  · rw [if_neg hl, if_neg hl]
    rfl

/-- A record for another order changes no line. -/
theorem map_coreLine_update {slots : String → Nat} {orderNo : String} {slot : Nat}
    {l : List BbOrder} (h : ∀ x ∈ l, x.trustOrderNo ≠ orderNo) :
    l.map (coreLine (Function.update slots orderNo slot)) = l.map (coreLine slots) := by
  refine List.map_congr_left fun x hx => ?_
  rw [coreLine, Function.update_of_ne (h x hx)]
  rfl

/-! ## Converted orders -/

/-- What the adapter makes of a limit order, in units of the symbol. -/
structure Scaled (scale : SymbolScale) (o : BbOrder) (side : Side) (tick qty : Int)
    (client : Nat) : Prop where
  side : Side.fromOrderType o.orderType = some side
  number : parseId o.trustOrderNo = .ok client
  price : o.trustPrice = priceOf scale tick
  qty : remaining o = qtyOf scale qty

theorem side_of_parseSide {code : Int} {s : MatchCoreHp.Side}
    (h : MatchCoreHp.parseSide code = .ok s) :
    ∃ side, Side.fromOrderType code = some side ∧ hpSide side = s := by
  unfold MatchCoreHp.parseSide at h
  split at h
  next hb =>
    cases h
    exact ⟨.buy, by rw [hb]; rfl, rfl⟩
  next =>
    split at h
    next hs =>
      cases h
      exact ⟨.sell, by rw [hs]; rfl, rfl⟩
    next => cases h

/-- A text that is accepted is the decimal in units of the scale. -/
theorem eq_scaled_of_parse {display : BigDecimal → String} (hdisplay : DisplayExact display)
    {d : BigDecimal} {k : Nat} {n : Int}
    (h : MatchCoreHp.parseFixed (display d).toList k = .ok n) : d = BigDecimal.scaled k n := by
  obtain ⟨q, hq, hn⟩ := MatchCoreHp.parseFixed_value h
  rw [← hdisplay d q hq] at hn
  exact BigDecimal.eq_scaled hn

/-- A limit order that is converted becomes a limit command in units of the
symbol. -/
theorem scaled_of_fromBbOrder {display : BigDecimal → String} (hdisplay : DisplayExact display)
    {scale : SymbolScale} {o : BbOrder} {cmd : HpCommand} (hrev : isRevoke o = false)
    (hform : o.orderForm = orderFormLimit) (hacc : o.Accepted)
    (h : fromBbOrder display scale o = .ok cmd) :
    ∃ side tick qty ts client, cmd = .limit (hpSide side) tick qty ts client ∧
      Scaled scale o side tick qty client := by
  cases MatchCoreHp.converts_of_fromBbOrder h with
  | cancel hstatus hid => exact absurd hstatus (of_decide_eq_false hrev)
  | limit hstatus hform hside hts hid hqty hprice =>
      obtain ⟨side, hcode, rfl⟩ := side_of_parseSide hside
      refine ⟨side, _, _, _, _, rfl, hcode, hid, eq_scaled_of_parse hdisplay hprice, ?_⟩
      rw [← (Live.of_accepted hacc).field]
      exact eq_scaled_of_parse hdisplay hqty
  | market hstatus hform' hside hts hid hqty hgear hpos =>
      rw [hform] at hform'
      exact absurd hform' (by decide)

/-! ## One call -/

/-- The books have the same lines on both sides. -/
def SameLines (scale : SymbolScale) (slots : String → Nat) (book : OrderBook) (q : Queues) :
    Prop :=
  ∀ side, (book.entries side).map (coreLine slots) = (q (hpSide side)).map (hpLine scale)

theorem sameLines_ofSides {scale : SymbolScale} {slots : String → Nat} {q : Queues} {side : Side}
    {own ms : List BbOrder} (hown : own.map (coreLine slots) = (q (hpSide side)).map (hpLine scale))
    (hopp : ms.map (coreLine slots) = (q (hpSide side).opp).map (hpLine scale)) :
    SameLines scale slots (OrderBook.ofSides side own ms) q := by
  cases side with
  | buy => exact fun | .buy => hown | .sell => hopp
  | sell => exact fun | .buy => hopp | .sell => hown

section Limit

variable [DecimalRounding] {scale : SymbolScale} {slots : String → Nat} {side : Side} {o : BbOrder}
  {own ms : List BbOrder} {q : Queues} {tick qty : Int} {client : Nat} {x : HpOrder}

/-- Both engines make the same sweep. -/
theorem sweeps_agree (ho : Scaled scale o side tick qty client)
    (hlines : ms.map (coreLine slots) = (q (hpSide side).opp).map (hpLine scale)) :
    (limitSweep side o ms).map (coreLine slots) id =
      (MatchCoreHp.takerSweep q (hpSide side) (some tick) none qty).map (hpLine scale)
        (qtyOf scale) := by
  rw [← sweep_coreLine, hlines, ho.price, ho.qty, sweep_hpLine]
  rfl

/-- The record after a limit order. -/
def slotsAfter (slots : String → Nat) (o : BbOrder) (x : HpOrder) (sw : Sweep HpOrder Int) :
    String → Nat :=
  if 0 < sw.left then Function.update slots o.trustOrderNo x.id else slots

omit [DecimalRounding] in
theorem map_coreLine_slotsAfter {l : List BbOrder} (sw : Sweep HpOrder Int)
    (h : ∀ y ∈ l, y.trustOrderNo ≠ o.trustOrderNo) :
    l.map (coreLine (slotsAfter slots o x sw)) = l.map (coreLine slots) := by
  rw [slotsAfter]
  split
  next => exact map_coreLine_update h
  next => rfl

/-- What is left of a limit order rests in both books alike. -/
theorem rests_agree {sw : Sweep HpOrder Int} (ho : Scaled scale o side tick qty client)
    (hclient : x.clientId = client) (htick : x.priceTick = tick)
    (hleft : (limitSweep side o ms).left = qtyOf scale sw.left) (hnonneg : 0 ≤ sw.left)
    (hown : own.map (coreLine slots) = (q (hpSide side)).map (hpLine scale))
    (hfresh : ∀ y ∈ own, y.trustOrderNo ≠ o.trustOrderNo)
    (hlater : ∀ y ∈ own, y.createTime < o.createTime) :
    (rested side o own (limitSweep side o ms)).map (coreLine (slotsAfter slots o x sw)) =
      ((MatchCoreHp.leftover x sw).foldr (MatchCoreHp.restIn (hpSide side))
        (q (hpSide side))).map (hpLine scale) := by
  have hold := @map_coreLine_slotsAfter slots o x own sw hfresh
  rw [rested, MatchCoreHp.leftover]
  by_cases hl : 0 < sw.left
  · have hne : (limitSweep side o ms).left ≠ 0 := by
      rw [hleft, ← map_zero (qtyOf scale)]
      exact (qtyOf_strictMono scale).injective.ne hl.ne'
    have ht := terms_takeFills o (limitSweep side o ms).fills
    have htime : (takeFills o (limitSweep side o ms).fills).createTime = o.createTime :=
      (congrArg BbOrder.createTime ht :)
    -- The rest of the order has the line of what rests in the other book.
    have hline : coreLine (slotsAfter slots o x sw) (takeFills o (limitSweep side o ms).fills) =
        hpLine scale { x with openLot := sw.left } := by
      rw [coreLine, trustOrderNo_of_terms ht, trustPrice_of_terms ht, slotsAfter, if_pos hl,
        Function.update_self, ho.number, ho.price, limitSweep, remaining_taken]
      rw [limitSweep] at hleft
      rw [hleft, hpLine, hclient, htick]
    rw [if_neg hne, if_pos hl, map_place (by rwa [htime]), hline, hold, hown, List.foldr_cons,
      List.foldr_nil, map_restIn]
  · have hzero : (limitSweep side o ms).left = 0 := by
      rw [hleft, le_antisymm (not_lt.mp hl) hnonneg, map_zero]
    rw [if_pos hzero, if_neg hl, hold, hown]
    rfl

/-- A limit order leaves the books with the same lines. -/
theorem lines_agree {sw : Sweep HpOrder Int} (ho : Scaled scale o side tick qty client)
    (hx : x.clientId = client ∧ x.priceTick = tick) (hqty : 0 < qty)
    (hsw : sw = MatchCoreHp.takerSweep q (hpSide side) (some tick) none qty)
    (hi : Incoming side o own ms) (hlater : ∀ y ∈ own, y.createTime < o.createTime)
    (hown : own.map (coreLine slots) = (q (hpSide side)).map (hpLine scale))
    (hopp : ms.map (coreLine slots) = (q (hpSide side).opp).map (hpLine scale)) :
    SameLines scale (slotsAfter slots o x sw)
      (OrderBook.ofSides side (rested side o own (limitSweep side o ms))
        (limitSweep side o ms).book)
      (q.settle (hpSide side) sw (MatchCoreHp.leftover x sw)) := by
  have hsweep := sweeps_agree ho hopp
  rw [← hsw] at hsweep
  have hnonneg : 0 ≤ sw.left := by
    rw [hsw]
    exact left_nonneg _ _ _ _ _ hqty.le
  refine sameLines_ofSides ?_ ?_
  · rw [Queues.settle, Queues.set_self]
    exact rests_agree ho hx.1 hx.2 (congrArg Sweep.left hsweep) hnonneg hown hi.own_ne hlater
  · have hfresh := hi.fresh_swept (bookMakers_makersOf side) (crossing side o) none (remaining o)
    rw [Queues.settle, Queues.set_opp, Queues.set_self, limitSweep,
      map_coreLine_slotsAfter sw fun y hy => hfresh y (List.mem_append_right _ hy)]
    exact (congrArg Sweep.book hsweep :)

/-- The result of a limit order. -/
theorem settle_limit (hform : o.orderForm = orderFormLimit) :
    settle side o own ms =
      (OrderBook.ofSides side (rested side o own (limitSweep side o ms))
          (limitSweep side o ms).book,
        (limitSweep side o ms).fills.map (fillOf o)) := by
  rw [settle, hform, if_neg (by decide), if_neg (by decide), if_neg (by decide),
    if_neg (by decide)]

/-- After a limit order only that order is new. -/
theorem terms_limit {s : Side} {y : BbOrder} (hy : y ∈ (OrderBook.ofSides side
      (rested side o own (limitSweep side o ms)) (limitSweep side o ms).book).entries s) :
    terms y = terms o ∨ terms y ∈ own.map terms ∨ terms y ∈ ms.map terms := by
  have hswept := (book_keys (makersOf side) (crossing side o) terms
    (bookMakers_makersOf side).terms none (remaining o) ms).subset
  have hrest : ∀ z ∈ rested side o own (limitSweep side o ms),
      terms z = terms o ∨ terms z ∈ own.map terms := by
    intro z hz
    rw [rested] at hz
    split at hz
    next => exact Or.inr (List.mem_map_of_mem hz)
    next =>
      rcases mem_place.mp hz with rfl | hz
      · exact Or.inl (terms_takeFills o _)
      · exact Or.inr (List.mem_map_of_mem hz)
  rcases side.eq_or_eq_opp s with rfl | rfl
  · rw [OrderBook.entries_ofSides] at hy
    exact (hrest y hy).imp_right Or.inl
  · rw [OrderBook.entries_ofSides_opp] at hy
    exact Or.inr (Or.inr (hswept (List.mem_map_of_mem hy)))

end Limit

/-! ## The invariant -/

section Invariant

variable {B A : Type} [LevelIndex B] [LevelIndex A] [LawfulLevelIndex .buy B]
  [LawfulLevelIndex .sell A] [DecimalRounding] {display : BigDecimal → String}
  {scale : SymbolScale} {symbol : String} {news : List BbOrder} {s : Engines B A} {o : BbOrder}
  {cmd : HpCommand}

omit [DecimalRounding] in
/-- The engines agree: their books have the same lines, and the resting orders
are among those that came. -/
structure Agree (scale : SymbolScale) (symbol : String) (news : List BbOrder) (s : Engines B A) :
    Prop where
  core : EngineInv s.core
  hp : MatchCoreHp.EngineInv True s.hp
  lines : SameLines scale s.slots (s.core.books symbol) s.hp.book.queue
  known : ∀ side, ∀ x ∈ (s.core.books symbol).entries side, terms x ∈ news.map terms

omit [DecimalRounding] in
/-- Engines that agree have the same depth. -/
theorem Agree.depth (h : Agree scale symbol news s) (side : Side) (n : Nat) :
    s.core.depthLevels symbol side n =
      (s.hp.book.depth (hpSide side) n).map fun p => (priceOf scale p.1, qtyOf scale p.2) := by
  have hs := (h.core symbol).sides side
  rw [Engine.depthLevels, OrderBook.depthLevels, depth_coreLine s.slots hs.sorted hs.live,
    h.lines side, depth_hpLine h.hp.book]

omit [DecimalRounding] in
theorem agree_start {hp : HpEngine B A} (hrep : Represents True hp.book (fun _ => []) [])
    (slots : String → Nat) : Agree scale symbol [] ⟨{}, hp, slots⟩ := by
  refine ⟨engineInv_new, .of_represents hrep nofun, ?_, fun side x hx => ?_⟩
  · rw [hrep.queue_eq]
    exact fun | .buy => rfl | .sell => rfl
  · cases side with
    | buy => cases hx
    | sell => cases hx

omit [DecimalRounding] in
/-- Agreement after a call on the book of the symbol. -/
theorem Agree.update (h : Agree scale symbol news s) {core : Engine} {book : OrderBook}
    {hp : HpEngine B A} {q : Queues} {slots : String → Nat} {news' : List BbOrder}
    (hcore : core.books = Function.update s.core.books symbol book) (hbook : BookInv book)
    (hhp : MatchCoreHp.EngineInv True hp) (hq : hp.book.queue = q)
    (hlines : SameLines scale slots book q)
    (hknown : ∀ side, ∀ x ∈ book.entries side, terms x ∈ news'.map terms) :
    Agree scale symbol news' ⟨core, hp, slots⟩ := by
  have hself : core.books symbol = book := by rw [hcore, Function.update_self]
  subst hself
  refine ⟨fun t => ?_, hhp, hq.symm ▸ hlines, hknown⟩
  by_cases ht : t = symbol
  · subst ht
    exact hbook
  · rw [hcore, Function.update_of_ne ht]
    exact h.core t

omit [DecimalRounding] in
/-- What a limit command does to the queues, and the events it gives. -/
theorem limit_effect {e : HpEngine B A} (h : MatchCoreHp.EngineInv True e) {hs : MatchCoreHp.Side}
    {tick qty : Int} {ts client : Nat} {x : HpOrder} {sw : Sweep HpOrder Int} (hqty : 0 < qty)
    (hx : x = e.taker hs tick qty ts client)
    (hsw : sw = MatchCoreHp.takerSweep e.book.queue hs (some tick) none qty) :
    (e.onOrder (.limit hs tick qty ts client)).book.queue =
        e.book.queue.settle hs sw (MatchCoreHp.leftover x sw) ∧
      (e.onOrder (.limit hs tick qty ts client)).events =
        sw.fills.map (MatchCoreHp.fillEvent x.id client) ++
          (MatchCoreHp.leftover x sw).map MatchCoreHp.restEvent := by
  subst hx hsw
  have hset : HpEngine.Settled False _ _ _ (e.onOrder (.limit hs tick qty ts client)) :=
    HpEngine.onLimit_settled (e := { e with events := [] }) h.book.weaken hqty rfl rfl False.elim
  exact ⟨hset.book.queue_eq, hset.events⟩

omit [DecimalRounding] in
/-- The orders at rest came earlier, under other numbers. -/
theorem Agree.earlier (h : Agree scale symbol news s)
    (hlater : ∀ a ∈ news, a.createTime < o.createTime)
    (hnew : ∀ a ∈ news, a.trustOrderNo ≠ o.trustOrderNo) {side : Side} {x : BbOrder}
    (hx : x ∈ (s.core.books symbol).entries side) :
    x.trustOrderNo ≠ o.trustOrderNo ∧ x.createTime < o.createTime := by
  obtain ⟨a, ha, ht⟩ := List.mem_map.mp (h.known side x hx)
  have htime : a.createTime = x.createTime := (congrArg BbOrder.createTime ht :)
  rw [← trustOrderNo_of_terms ht, ← htime]
  exact ⟨hnew a ha, hlater a ha⟩

/-- A limit order in both engines: the books it meets, the sweeps it makes and what they
give.  `x` is the order as the fixed-point engine takes it. -/
structure LimitCall (scale : SymbolScale) (s : Engines B A) (o : BbOrder) (cmd : HpCommand)
    (side : Side) (own ms : List BbOrder) (tick qty : Int) (client : Nat) (x : HpOrder)
    (sw : Sweep HpOrder Int) : Prop where
  ownSide : own = (s.core.books o.symbolKey).entries side
  oppSide : ms = (s.core.books o.symbolKey).entries side.opp
  scaled : Scaled scale o side tick qty client
  pos : 0 < qty
  incoming : Incoming side o own ms
  taker : x.clientId = client ∧ x.priceTick = tick
  sweep : sw = MatchCoreHp.takerSweep s.hp.book.queue (hpSide side) (some tick) none qty
  same : (limitSweep side o ms).map (coreLine s.slots) id = sw.map (hpLine scale) (qtyOf scale)
  book : Engine.onBook (s.core.books o.symbolKey) o = some (OrderBook.ofSides side
    (rested side o own (limitSweep side o ms)) (limitSweep side o ms).book,
    (limitSweep side o ms).fills.map (fillOf o))
  queue : (s.hp.onOrder cmd).book.queue =
    s.hp.book.queue.settle (hpSide side) sw (MatchCoreHp.leftover x sw)
  events : (s.hp.onOrder cmd).events = sw.fills.map (MatchCoreHp.fillEvent x.id client) ++
    (MatchCoreHp.leftover x sw).map MatchCoreHp.restEvent

/-- What both engines do with a limit order. -/
theorem Agree.limitCall (h : Agree scale o.symbolKey news s) (hdisplay : DisplayExact display)
    (hrev : isRevoke o = false) (hform : o.orderForm = orderFormLimit) (hacc : o.Accepted)
    (hlater : ∀ a ∈ news, a.createTime < o.createTime)
    (hnew : ∀ a ∈ news, a.trustOrderNo ≠ o.trustOrderNo)
    (hcmd : fromBbOrder display scale o = .ok cmd) :
    ∃ side own ms tick qty client x sw,
      LimitCall scale s o cmd side own ms tick qty client x sw := by
  obtain ⟨side, tick, qty, ts, client, rfl, ho⟩ :=
    scaled_of_fromBbOrder hdisplay hrev hform hacc hcmd
  have hl := Live.of_accepted hacc
  obtain ⟨own, hown⟩ : ∃ own, own = (s.core.books o.symbolKey).entries side := ⟨_, rfl⟩
  obtain ⟨ms, hms⟩ : ∃ ms, ms = (s.core.books o.symbolKey).entries side.opp := ⟨_, rfl⟩
  have hopp := h.lines side.opp
  rw [← hms, hpSide_opp] at hopp
  have hfresh := (OrderBook.containsOrderNo_eq_false _).mpr
    fun s' x hx => (h.earlier hlater hnew hx).1
  have hbook := onBook_eq_settle (h.core o.symbolKey) hl ho.side hrev hfresh
  have hi : Incoming side o own ms := by
    refine ⟨⟨ho.side, ?_⟩, hl⟩
    rwa [hown, hms, ← OrderBook.containsOrderNo_ofSides side, OrderBook.ofSides_entries]
  rw [← hown, ← hms, settle_limit hform] at hbook
  have hqty : 0 < qty := by
    have hpos := hl.pos
    rw [ho.qty, ← map_zero (qtyOf scale)] at hpos
    exact (qtyOf_strictMono scale).lt_iff_lt.mp hpos
  obtain ⟨x, hx⟩ : ∃ x, x = s.hp.taker (hpSide side) tick qty ts client := ⟨_, rfl⟩
  obtain ⟨sw, hsw⟩ : ∃ sw, sw =
    MatchCoreHp.takerSweep s.hp.book.queue (hpSide side) (some tick) none qty := ⟨_, rfl⟩
  obtain ⟨hqueue, hevents⟩ := limit_effect h.hp hqty hx hsw
  have hsweep := sweeps_agree ho hopp
  rw [← hsw] at hsweep
  exact ⟨side, own, ms, tick, qty, client, x, sw,
    { ownSide := hown
      oppSide := hms
      scaled := ho
      pos := hqty
      incoming := hi
      taker := ⟨by rw [hx]; rfl, by rw [hx]; rfl⟩
      sweep := hsw
      same := hsweep
      book := hbook
      queue := hqueue
      events := hevents }⟩

/-- A limit order gives the same fills, and keeps the engines in agreement. -/
theorem Agree.order (h : Agree scale symbol news s) (hdisplay : DisplayExact display)
    (hsymbol : o.symbolKey = symbol) (hrev : isRevoke o = false)
    (hform : o.orderForm = orderFormLimit) (hacc : o.Accepted)
    (hlater : ∀ a ∈ news, a.createTime < o.createTime)
    (hnew : ∀ a ∈ news, a.trustOrderNo ≠ o.trustOrderNo)
    (hcmd : fromBbOrder display scale o = .ok cmd)
    (hfit : (s.hp.onOrder cmd).book.LevelSumsFit) :
    ∃ core evs, s.core.onOrder o = some (core, evs) ∧
      coreTrades evs = hpTrades scale (s.hp.onOrder cmd).events ∧
      Agree scale symbol (o :: news) (s.next o cmd core) := by
  subst hsymbol
  have hhp := h.hp.onOrder cmd fun _ => hfit
  obtain ⟨side, own, ms, tick, qty, client, x, sw, hcall⟩ :=
    h.limitCall hdisplay hrev hform hacc hlater hnew hcmd
  refine ⟨_, _, onOrder_eq hcall.book, ?_, ?_⟩
  · rw [coreTrades_fills s.slots, hcall.events, hpTrades_append, hpTrades_fills, hpTrades_rests,
      List.append_nil, hcall.scaled.number]
    exact congrArg (fun r : Sweep Line BigDecimal => r.fills.map (lineTrade (.ok client)))
      hcall.same
  · have hsides := (h.core o.symbolKey).sides side
    have hold := h.lines side
    have hopp := h.lines side.opp
    rw [← hcall.ownSide, ← hcall.oppSide] at hsides
    rw [← hcall.ownSide] at hold
    rw [← hcall.oppSide, hpSide_opp] at hopp
    rw [Engines.next, hcall.events, recordSlot_limit]
    refine h.update rfl (bookInv_ofSides (sides_limit hsides hcall.incoming)) hhp hcall.queue
      (lines_agree hcall.scaled hcall.taker hcall.pos hcall.sweep hcall.incoming ?_ hold hopp) ?_
    · intro y hy
      rw [hcall.ownSide] at hy
      exact (h.earlier hlater hnew hy).2
    · intro s' y hy
      rw [List.map_cons, List.mem_cons]
      rcases terms_limit hy with ht | ht | ht
      · exact Or.inl ht
      · obtain ⟨z, hz, ht⟩ := List.mem_map.mp ht
        exact Or.inr (ht ▸ h.known side z (hcall.ownSide ▸ hz))
      · obtain ⟨z, hz, ht⟩ := List.mem_map.mp ht
        exact Or.inr (ht ▸ h.known side.opp z (hcall.oppSide ▸ hz))

omit [DecimalRounding] in
/-- An order at rest, in the other book. -/
theorem Agree.resting (h : Agree scale symbol news s) {side : Side} {x : BbOrder}
    {l₁ l₂ : List BbOrder} (hx : (s.core.books symbol).entries side = l₁ ++ x :: l₂) :
    ∃ pre y post, s.hp.book.queue (hpSide side) = pre ++ y :: post ∧
      y.id = s.slots x.trustOrderNo ∧ pre.map (hpLine scale) = l₁.map (coreLine s.slots) ∧
      post.map (hpLine scale) = l₂.map (coreLine s.slots) := by
  have hlines := h.lines side
  rw [hx, List.map_append, List.map_cons] at hlines
  obtain ⟨pre, rest, hq, hpre, hrest⟩ := List.map_eq_append_iff.mp hlines.symm
  obtain ⟨y, post, rfl, hy, hpost⟩ := List.map_eq_cons_iff.mp hrest
  exact ⟨pre, y, post, hq, congrArg Line.slot hy, hpre, hpost⟩

/-- What both engines do with a revoke request for a resting order. -/
theorem Agree.revokeCall (h : Agree scale symbol news s) {r x : BbOrder} {side : Side}
    {l₁ l₂ : List BbOrder} (hrev : isRevoke r = true)
    (hside : Side.fromOrderType r.orderType = some side)
    (he : (s.core.books symbol).entries side = l₁ ++ x :: l₂)
    (hno : x.trustOrderNo = r.trustOrderNo) :
    Engine.onBook (s.core.books symbol) r = some
        ((s.core.books symbol).setEntries side (l₁ ++ l₂), [revokeOf x (remaining x) "user"]) ∧
      ∃ y pre post, pre.map (hpLine scale) = l₁.map (coreLine s.slots) ∧
        post.map (hpLine scale) = l₂.map (coreLine s.slots) ∧
        (s.hp.onOrder (.cancel (s.slots r.trustOrderNo))).book.queue =
          s.hp.book.queue.set (hpSide side) (pre ++ post) ∧
        (s.hp.onOrder (.cancel (s.slots r.trustOrderNo))).events =
          [.revoke (s.slots r.trustOrderNo) y 0] := by
  have hrem := OrderBook.removeByOrderNo_append he (he ▸ ((h.core symbol).sides side).sorted)
  obtain ⟨pre, y, post, hq, hid, hpre, hpost⟩ := h.resting he
  rw [hno] at hrem hid
  have hy : y ∈ s.hp.book.queue (hpSide side) :=
    hq ▸ List.mem_append_right _ (List.mem_cons_self ..)
  have hget := h.hp.book.get hy
  rw [hid] at hget
  have hset : HpEngine.Settled True _ _ _ (s.hp.onOrder (.cancel (s.slots r.trustOrderNo))) :=
    HpEngine.onCancel_live (e := { s.hp with events := [] }) h.hp.book hget
  refine ⟨?_, _, pre, post, hpre, hpost, ?_, hset.events⟩
  · rw [Engine.onBook, if_pos hrev, revokeOrder, revokeOrderWithReason_present hside hrem]
    rfl
  · rw [hset.book.queue_eq, h.hp.book.set_eq_without hq, hid]

/-- A revoke of a resting order gives no fills, and keeps the engines in
agreement. -/
theorem Agree.revoke (h : Agree scale symbol news s) {r x : BbOrder} {side : Side}
    (hsymbol : r.symbolKey = symbol) (hrev : isRevoke r = true)
    (hside : Side.fromOrderType r.orderType = some side)
    (hx : x ∈ (s.core.books symbol).entries side) (hno : x.trustOrderNo = r.trustOrderNo) :
    ∃ core evs, s.core.onOrder r = some (core, evs) ∧
      coreTrades evs =
        hpTrades scale (s.hp.onOrder (.cancel (s.slots r.trustOrderNo))).events ∧
      Agree scale symbol news (s.next r (.cancel (s.slots r.trustOrderNo)) core) := by
  subst hsymbol
  have hhp : MatchCoreHp.EngineInv True (s.hp.onOrder (.cancel (s.slots r.trustOrderNo))) :=
    MatchCoreHp.EngineInv.onCancel (e := { s.hp with events := [] }) ⟨h.hp.book, h.hp.uncrossed⟩ _
  obtain ⟨l₁, l₂, he⟩ := List.append_of_mem hx
  obtain ⟨hbook, y, pre, post, hpre, hpost, hqueue, hevents⟩ := h.revokeCall hrev hside he hno
  refine ⟨_, _, onOrder_eq hbook, ?_, ?_⟩
  · rw [hevents]
    rfl
  · rw [Engines.next, hevents]
    refine h.update rfl ((h.core r.symbolKey).remove he) hhp hqueue ?_ ?_
    · rw [OrderBook.setEntries_eq_ofSides]
      refine sameLines_ofSides ?_ ?_
      · rw [Queues.set_self, List.map_append, List.map_append, hpre, hpost]
        rfl
      · rw [Queues.set_opp, ← hpSide_opp]
        exact h.lines side.opp
    · intro s' z hz
      refine h.known s' z ?_
      rcases side.eq_or_eq_opp s' with rfl | rfl
      · rw [OrderBook.entries_setEntries] at hz
        rw [he]
        exact (List.Sublist.append_left (List.sublist_cons_self x l₂) l₁).subset hz
      · rwa [OrderBook.entries_setEntries_opp] at hz

/-- Every call gives the same fills, and keeps the engines in agreement. -/
theorem Agree.step (h : Agree scale symbol news s) (hdisplay : DisplayExact display)
    (hnext : Admits display scale symbol news s o cmd) :
    ∃ core evs, s.core.onOrder o = some (core, evs) ∧
      coreTrades evs = hpTrades scale (s.hp.onOrder cmd).events ∧
      Agree scale symbol (if isRevoke o then news else o :: news) (s.next o cmd core) := by
  cases hnext with
  | order hsymbol hrev hform hacc hlater hnew hcmd hfit =>
      rw [hrev]
      exact h.order hdisplay hsymbol hrev hform hacc hlater hnew hcmd hfit
  | revoke hsymbol hrev hside hx hno =>
      rw [if_pos hrev]
      exact h.revoke hsymbol hrev hside hx hno

/-- The engines agree after every run. -/
theorem Flow.agree (hdisplay : DisplayExact display) (h : Flow display scale symbol news s) :
    Agree scale symbol news s := by
  induction h with
  | new => exact agree_start (MatchCoreHp.represents_new True) _
  | withCapacity => exact agree_start (MatchCoreHp.represents_withCapacity True) _
  | step _ hnext hcore ih =>
      obtain ⟨core, evs, hcore', -, hagree⟩ := ih.step hdisplay hnext
      rw [hcore] at hcore'
      cases hcore'
      exact hagree

omit [LawfulLevelIndex .buy B] [LawfulLevelIndex .sell A] in
/-- Both engines after a call, with the decimal engine as it returns. -/
def Engines.call (s : Engines B A) (o : BbOrder) (cmd : HpCommand) : Engines B A :=
  s.next o cmd (((s.core.onOrder o).map Prod.fst).getD {})

theorem Flow.call (hdisplay : DisplayExact display) (h : Flow display scale symbol news s)
    (hnext : Admits display scale symbol news s o cmd) :
    Flow display scale symbol (if isRevoke o then news else o :: news) (s.call o cmd) := by
  obtain ⟨core, evs, hcore, -, -⟩ := (h.agree hdisplay).step hdisplay hnext
  have hcall : s.call o cmd = s.next o cmd core := by
    rw [Engines.call, hcore]
    rfl
  rw [hcall]
  exact h.step hnext hcore

/-- **Both engines agree on limit flow.**  After every run, the next call gives the
same fills in both engines, up to the scales of the symbol, and leaves the same
depth on both sides, for every limit. -/
theorem engines_agree (hdisplay : DisplayExact display) (hflow : Flow display scale symbol news s)
    (hnext : Admits display scale symbol news s o cmd) :
    ∃ core evs, s.core.onOrder o = some (core, evs) ∧
      coreTrades evs = hpTrades scale (s.hp.onOrder cmd).events ∧
      ∀ side n, core.depthLevels symbol side n =
        ((s.hp.onOrder cmd).book.depth (hpSide side) n).map
          fun p => (priceOf scale p.1, qtyOf scale p.2) := by
  obtain ⟨core, evs, hcore, htrades, hagree⟩ := (hflow.agree hdisplay).step hdisplay hnext
  exact ⟨core, evs, hcore, htrades, fun side n => hagree.depth side n⟩

end Invariant

section Runs

open MatchCoreHp (BTreeBidIndex BTreeAskIndex)
open BigDecimal (display new)

theorem displayExact_display : DisplayExact display :=
  displayExact_of_default BigDecimal.defaultDisplay_display

/-- The conversion of a minimal limit order. -/
theorem fromBbOrder_testLimit {scale : SymbolScale} {side : Side} {price qty : BigDecimal}
    {orderNo : String} {time tick lot : Int} {client : Nat} (htime : 0 ≤ time)
    (hid : parseId orderNo = .ok client)
    (hprice : MatchCoreHp.parseFixed (display price).toList scale.priceScale = .ok tick)
    (hqty : MatchCoreHp.parseFixed (display qty).toList scale.qtyScale = .ok lot) :
    fromBbOrder display scale (testLimit side price orderNo time qty) =
      .ok (.limit (hpSide side) tick lot time.toNat client) := by
  have hside : MatchCoreHp.parseSide side.orderType = .ok (hpSide side) := by cases side <;> rfl
  have hstatus : (testLimit side price orderNo time qty).orderStatus ≠ orderStatusRevoke :=
    (by decide : (0 : Int) ≠ orderStatusRevoke)
  have hcmd := @MatchCoreHp.fromBbOrder_limit display scale
    (testLimit side price orderNo time qty) _ _ _ hstatus rfl hside htime hid hqty
  rw [hcmd, MatchCoreHp.decimalToTick, MatchCoreHp.toTick]
  simp only [testLimit, hprice]
  rfl

theorem parseFixed_hundred : MatchCoreHp.parseFixed (display 100).toList 0 = .ok 100 :=
  (by decide +kernel : new 100 0 = 100) ▸
    MatchCoreHp.parseFixed_new (by decide) (by decide) (by decide) (by decide) (by decide)

theorem parseFixed_lots : MatchCoreHp.parseFixed (display (new 5 0)).toList 0 = .ok 5 :=
  MatchCoreHp.parseFixed_new (by decide) (by decide) (by decide) (by decide) (by decide)

theorem parseFixed_five : MatchCoreHp.parseFixed (display 5).toList 0 = .ok 5 :=
  (by decide +kernel : new 5 0 = 5) ▸ parseFixed_lots

theorem fromBbOrder_hundred {side : Side} {orderNo : String} {time : Int} {client : Nat}
    (htime : 0 ≤ time) (hid : parseId orderNo = .ok client) :
    fromBbOrder display ⟨0, 0⟩ (testLimit side 100 orderNo time 5) =
      .ok (.limit (hpSide side) 100 5 time.toNat client) :=
  fromBbOrder_testLimit htime hid parseFixed_hundred parseFixed_five

/-- Both engines after an ask. -/
def oneAsk : Engines BTreeBidIndex BTreeAskIndex :=
  @Engines.call _ _ _ _ .schoolbook ⟨{}, HpEngine.new, fun _ => 0⟩
    (testLimit .sell 100 "7" 1 5) (.limit .sell 100 5 1 7)

/-- Both engines after two asks. -/
def twoAsks : Engines BTreeBidIndex BTreeAskIndex :=
  @Engines.call _ _ _ _ .schoolbook oneAsk (testLimit .sell 100 "8" 2 5) (.limit .sell 100 5 2 8)

/-- The revoke request for the first ask. -/
def revokeFirst : BbOrder :=
  { testLimit .sell 100 "7" 3 5 with orderStatus := orderStatusRevoke }

/-- Both engines after the first of two asks is revoked. -/
def askLeft : Engines BTreeBidIndex BTreeAskIndex :=
  @Engines.call _ _ _ _ .schoolbook twoAsks revokeFirst (.cancel (twoAsks.slots "7"))

theorem flow_oneAsk : @Flow _ _ _ _ _ _ display ⟨0, 0⟩ "btcusdt" .schoolbook
    [testLimit .sell 100 "7" 1 5] oneAsk := by
  have hnext : Admits display ⟨0, 0⟩ "btcusdt" []
      (⟨{}, HpEngine.new, fun _ => 0⟩ : Engines BTreeBidIndex BTreeAskIndex)
      (testLimit .sell 100 "7" 1 5) (.limit .sell 100 5 1 7) :=
    .order rfl (by decide) rfl (by decide +kernel) (by simp) (by simp)
      (fromBbOrder_hundred (by decide) (by decide +kernel)) (by decide +kernel)
  exact @Flow.call _ _ _ _ _ _ .schoolbook _ _ _ _ _ _ _ displayExact_display
    (@Flow.new _ _ _ _ _ _ _ _ _ .schoolbook) hnext

theorem flow_twoAsks : @Flow _ _ _ _ _ _ display ⟨0, 0⟩ "btcusdt" .schoolbook
    [testLimit .sell 100 "8" 2 5, testLimit .sell 100 "7" 1 5] twoAsks := by
  have hnext : Admits display ⟨0, 0⟩ "btcusdt" [testLimit .sell 100 "7" 1 5] oneAsk
      (testLimit .sell 100 "8" 2 5) (.limit .sell 100 5 2 8) :=
    .order rfl (by decide) rfl (by decide +kernel) (by decide +kernel) (by decide +kernel)
      (fromBbOrder_hundred (by decide) (by decide +kernel)) (by decide +kernel)
  exact @Flow.call _ _ _ _ _ _ .schoolbook _ _ _ _ _ _ _ displayExact_display flow_oneAsk hnext

theorem flow_askLeft : @Flow _ _ _ _ _ _ display ⟨0, 0⟩ "btcusdt" .schoolbook
    [testLimit .sell 100 "8" 2 5, testLimit .sell 100 "7" 1 5] askLeft := by
  have hx : testLimit .sell 100 "7" 1 5 ∈ (twoAsks.core.books "btcusdt").entries .sell := by
    decide +kernel
  have hnext : Admits display ⟨0, 0⟩ "btcusdt"
      [testLimit .sell 100 "8" 2 5, testLimit .sell 100 "7" 1 5] twoAsks revokeFirst
      (.cancel (twoAsks.slots "7")) := .revoke rfl (by decide) (by decide) hx rfl
  exact @Flow.call _ _ _ _ _ _ .schoolbook _ _ _ _ _ _ _ displayExact_display flow_twoAsks hnext

/-- Two asks rest, the first is revoked, and a bid takes the second in both
engines. -/
theorem engines_agree_bid :
    (askLeft.hp.onOrder (.limit .buy 100 5 4 9)).events = [.fill 2 1 8 9 100 5 0 0] ∧
      ∃ core evs, @Engine.onOrder .schoolbook askLeft.core (testLimit .buy 100 "9" 4 5) =
          some (core, evs) ∧
        coreTrades evs =
          hpTrades ⟨0, 0⟩ (askLeft.hp.onOrder (.limit .buy 100 5 4 9)).events ∧
        ∀ side n, core.depthLevels "btcusdt" side n =
          ((askLeft.hp.onOrder (.limit .buy 100 5 4 9)).book.depth (hpSide side) n).map
            fun p => (priceOf ⟨0, 0⟩ p.1, qtyOf ⟨0, 0⟩ p.2) :=
  ⟨by decide +kernel, @engines_agree _ _ _ _ _ _ .schoolbook _ _ _ _ _ _ _ displayExact_display
    flow_askLeft (.order rfl (by decide) rfl (by decide +kernel) (by decide +kernel)
      (by decide +kernel) (fromBbOrder_hundred (by decide) (by decide +kernel))
      (by decide +kernel))⟩

end Runs

end MatchCross
