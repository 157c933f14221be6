import MatchRust.Core.Depth
import MatchRust.Core.Settle
import MatchRust.Hp.Adapter
import MatchRust.Hp.Reachable

/-!
# Orders as both engines see them

A `Line` is what the decimal engine and the fixed-point engine both know of a
resting order: its number, its slot in the fixed-point store, its price and what
is open of it, as decimals.  Matching, resting and depth are defined on lines
here, and both engines commute with the passage to lines.  So engines whose
books have the same lines stay together.

The decimal engine has no slots.  Its lines take them from a record of the slots
that were given to the orders.
-/

namespace MatchCross

open MatchProtocol MatchCore PriceTime
open MatchCoreHp (SymbolScale HpOrder Queues Represents AdapterError parseId)

/-- A resting order. -/
structure Line where
  number : Except AdapterError Nat
  slot : Nat
  price : BigDecimal
  openQty : BigDecimal

/-- A partial fill of a line. -/
def lineMakers : MakerOps Line BigDecimal where
  openOf := Line.openQty
  reduce q l := { l with openQty := l.openQty - q }
  openOf_reduce _ _ := rfl

/-- The lines an order of this side and price takes from. -/
def crossesLine (side : Side) (price : BigDecimal) (l : Line) : Bool := side.crosses price l.price

/-- A line rests behind the lines of its price. -/
def restLine (side : Side) (l : Line) (lines : List Line) : List Line :=
  lines.orderedInsert (fun a b => side.signed a.price < side.signed b.price) l

/-- Up to `n` prices with what is open at them. -/
def lineDepth (lines : List Line) (n : Nat) : List (BigDecimal × BigDecimal) :=
  (Grouping.totals Line.price Line.openQty lines).take n

/-! ## The decimal engine -/

/-- An order of the decimal engine, with its slot on record. -/
def coreLine (slots : String → Nat) (o : BbOrder) : Line :=
  ⟨parseId o.trustOrderNo, slots o.trustOrderNo, o.trustPrice, remaining o⟩

section Core

variable {slots : String → Nat} {side : Side} {o : BbOrder}

theorem coreLine_reduce [DecimalRounding] (side : Side) (x : BigDecimal) (m : BbOrder) :
    lineMakers.reduce x (coreLine slots m) = coreLine slots ((makersOf side).reduce x m) := by
  have ht := terms_reduce side x m
  have hopen := (makersOf side).openOf_reduce x m
  rw [openOf_makersOf, openOf_makersOf] at hopen
  rw [coreLine, coreLine, trustOrderNo_of_terms ht, trustPrice_of_terms ht, hopen]
  rfl

/-- The decimal engine sweeps its lines. -/
theorem sweep_coreLine [DecimalRounding] (slots : String → Nat) (side : Side) (o : BbOrder)
    (ms : List BbOrder) :
    sweep lineMakers (crossesLine side o.trustPrice) none (remaining o)
        (ms.map (coreLine slots)) = (limitSweep side o ms).map (coreLine slots) id :=
  sweep_map (makersOf side) lineMakers (coreLine slots) (AddMonoidHom.id BigDecimal) strictMono_id
    (fun m => (openOf_makersOf side m).symm) (fun x m => coreLine_reduce side x m)
    (crossing side o) (crossesLine side o.trustPrice) none (remaining o) ms fun _ _ => rfl

/-- A later order ranks before another exactly if its price is better. -/
theorem rank_le_iff_of_later {x : BbOrder} (hlater : x.createTime < o.createTime) :
    rank side o ≤ rank side x ↔ side.signed o.trustPrice < side.signed x.trustPrice := by
  rw [← not_lt, rank_lt_iff, not_or]
  constructor
  · rintro ⟨hle, hne⟩
    exact lt_of_le_of_ne (not_lt.mp hle) fun he => hne ⟨he.symm, Or.inl hlater⟩
  · exact fun h => ⟨not_lt.mpr h.le, fun he => h.ne' he.1⟩

/-- An order that is later than all others rests behind those of its price. -/
theorem map_place {own : List BbOrder} (hlater : ∀ x ∈ own, x.createTime < o.createTime) :
    (place side o own).map (coreLine slots) =
      restLine side (coreLine slots o) (own.map (coreLine slots)) :=
  SortedSet.map_orderedInsert (coreLine slots) fun x hx => rank_le_iff_of_later (hlater x hx)

/-- The depth of a side is that of its lines. -/
theorem depth_coreLine {entries : List BbOrder} (slots : String → Nat)
    (hs : SideSorted side entries) (hlive : ∀ o ∈ entries, Live o) (n : Nat) :
    depthLevelsFromOrders entries n = lineDepth (entries.map (coreLine slots)) n := by
  have hpos : ∀ o ∈ entries, 0 < o.remainingNumber := by
    intro o ho
    rw [(hlive o ho).field]
    exact (hlive o ho).pos
  have htotals : Grouping.totals (·.trustPrice) (·.remainingNumber) entries =
      Grouping.totals (·.trustPrice) remaining entries :=
    Grouping.totals_congr fun o ho => (hlive o ho).field
  rw [depthLevelsFromOrders_eq hpos (hs.sorted.imp fun h => signed_le_of_rank_lt h), lineDepth,
    Grouping.totals_map, htotals]
  rfl

end Core

/-! ## The fixed-point engine -/

/-- The side, for the fixed-point engine. -/
def hpSide : Side → MatchCoreHp.Side
  | .buy => .buy
  | .sell => .sell

theorem hpSide_opp (side : Side) : hpSide side.opp = (hpSide side).opp := by
  cases side with
  | buy => rfl
  | sell => rfl

/-- The price of a tick. -/
def priceOf (scale : SymbolScale) : Int →+ BigDecimal := BigDecimal.scaled scale.priceScale

/-- The quantity of some lots. -/
def qtyOf (scale : SymbolScale) : Int →+ BigDecimal := BigDecimal.scaled scale.qtyScale

theorem priceOf_strictMono (scale : SymbolScale) : StrictMono (priceOf scale) :=
  BigDecimal.scaled_strictMono _

theorem qtyOf_strictMono (scale : SymbolScale) : StrictMono (qtyOf scale) :=
  BigDecimal.scaled_strictMono _

/-- An order of the fixed-point engine. -/
def hpLine (scale : SymbolScale) (x : HpOrder) : Line :=
  ⟨.ok x.clientId, x.id, priceOf scale x.priceTick, qtyOf scale x.openLot⟩

section Hp

variable {scale : SymbolScale} {side : Side}

theorem better_iff {a b : Int} : (hpSide side).better a b ↔
    side.signed (priceOf scale a) < side.signed (priceOf scale b) := by
  cases side with
  | buy => exact ((neg_lt_neg_iff).trans (priceOf_strictMono scale).lt_iff_lt).symm
  | sell => exact (priceOf_strictMono scale).lt_iff_lt.symm

theorem crosses_hpLine (side : Side) (tick : Int) (x : HpOrder) :
    crossesLine side (priceOf scale tick) (hpLine scale x) =
      MatchCoreHp.crosses (hpSide side) (some tick) x := by
  have hmono : ∀ {a b}, priceOf scale a ≤ priceOf scale b ↔ a ≤ b :=
    (priceOf_strictMono scale).le_iff_le
  cases side with
  | buy =>
      simp [crossesLine, Side.crosses, hpLine, MatchCoreHp.crosses, MatchCoreHp.HpEngine.beyond,
        hpSide, hmono, ← decide_not]
  | sell =>
      simp [crossesLine, Side.crosses, hpLine, MatchCoreHp.crosses, MatchCoreHp.HpEngine.beyond,
        hpSide, hmono, ← decide_not]

theorem hpLine_reduce (n : Int) (x : HpOrder) :
    lineMakers.reduce (qtyOf scale n) (hpLine scale x) = hpLine scale (x.reduce n) := by
  rw [hpLine, hpLine, HpOrder.reduce, map_sub]
  rfl

/-- The fixed-point engine sweeps its lines. -/
theorem sweep_hpLine (scale : SymbolScale) (side : Side) (tick qty : Int) (xs : List HpOrder) :
    sweep lineMakers (crossesLine side (priceOf scale tick)) none (qtyOf scale qty)
        (xs.map (hpLine scale)) =
      (sweep MatchCoreHp.makers (MatchCoreHp.crosses (hpSide side) (some tick)) none qty xs).map
        (hpLine scale) (qtyOf scale) :=
  sweep_map MatchCoreHp.makers lineMakers (hpLine scale) (qtyOf scale) (qtyOf_strictMono scale)
    (fun _ => rfl) hpLine_reduce _ _ none qty xs fun x _ => crosses_hpLine side tick x

theorem map_restIn (x : HpOrder) (xs : List HpOrder) :
    (MatchCoreHp.restIn (hpSide side) x xs).map (hpLine scale) =
      restLine side (hpLine scale x) (xs.map (hpLine scale)) :=
  SortedSet.map_orderedInsert (hpLine scale) fun _ _ => better_iff

variable {B A : Type} [MatchCoreHp.LevelIndex B] [MatchCoreHp.LevelIndex A]
  [MatchCoreHp.LawfulLevelIndex .buy B] [MatchCoreHp.LawfulLevelIndex .sell A]
  {book : MatchCoreHp.Book B A} {q : Queues}

/-- The ticks of the levels are those of the queue. -/
theorem ticks_levels {exact : Prop} (h : Represents exact book q []) (s : MatchCoreHp.Side) :
    (book.levels s).map Prod.fst = Grouping.keys HpOrder.priceTick (q s) := by
  have hkeys : (Grouping.keys HpOrder.priceTick (q s)).Pairwise s.better :=
    Grouping.pairwise_keys (fun _ _ hne hnot => MatchCoreHp.Side.better_of_ne hnot hne.symm)
      (h.side s).ranked
  refine List.Pairwise.eq_of_mem_iff (List.pairwise_map.mpr (book.levels_sorted s)) hkeys ?_
  intro t
  rw [Grouping.mem_keys, ← h.level_isSome, Option.isSome_iff_exists, List.mem_map]
  constructor
  · rintro ⟨p, hp, rfl⟩
    exact ⟨p.2, MatchCoreHp.Book.mem_levels.mp hp⟩
  · rintro ⟨level, hl⟩
    exact ⟨_, MatchCoreHp.Book.mem_levels.mpr hl, rfl⟩

/-- The depth of a side is that of its lines. -/
theorem depth_hpLine (h : Represents True book q []) (s : MatchCoreHp.Side) (n : Nat) :
    (book.depth s n).map (fun p => (priceOf scale p.1, qtyOf scale p.2)) =
      lineDepth ((q s).map (hpLine scale)) n := by
  have htotals : (book.levels s).map (fun p => (p.1, p.2.totalLot)) =
      Grouping.totals HpOrder.priceTick HpOrder.openLot (q s) := by
    rw [Grouping.totals, ← ticks_levels h s, List.map_map]
    refine List.map_congr_left fun p hp => ?_
    have hrep := (h.side s).level_rep p.1
    rw [MatchCoreHp.Book.mem_levels.mp hp] at hrep
    exact Prod.ext rfl (hrep.2.2 trivial).1
  have hcomp : Grouping.totals (fun x : HpOrder => priceOf scale x.priceTick)
      (fun x => qtyOf scale x.openLot) (q s) = _ :=
    Grouping.totals_comp (priceOf_strictMono scale).injective (qtyOf scale) (q s)
  rw [MatchCoreHp.Book.depth_eq, List.map_take, htotals, List.map_take, ← hcomp, lineDepth,
    Grouping.totals_map]
  rfl

end Hp

end MatchCross
