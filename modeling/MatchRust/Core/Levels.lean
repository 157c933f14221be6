import MatchRust.Core.Depth
import MatchRust.Core.Reachable

/-!
# The depth of a reachable engine

On the books that orders lead to, every side is in rank order and every order has a
quantity left.  So the levels of `depthLevels` are the best prices of the side, each once
and with everything that rests there (`depthLevels_exact`).
-/

namespace MatchCore

open MatchProtocol PriceTime OrderBook

/-- A better price on this side. -/
def Side.Better : Side → BigDecimal → BigDecimal → Prop
  | .buy, p, q => q < p
  | .sell, p, q => p < q

theorem Side.better_iff {side : Side} {p q : BigDecimal} :
    side.Better p q ↔ side.signed p < side.signed q := by
  cases side with
  | buy => exact neg_lt_neg_iff.symm
  | sell => exact Iff.rfl

theorem Sides.signed_le {side : Side} {own opp : List BbOrder} (h : Sides side own opp) :
    own.Pairwise fun a b => side.signed a.trustPrice ≤ side.signed b.trustPrice :=
  h.sorted.sorted.imp signed_le_of_rank_lt

theorem Sides.remainingNumber_pos {side : Side} {own opp : List BbOrder}
    (h : Sides side own opp) : ∀ o ∈ own, 0 < o.remainingNumber := by
  intro o ho
  rw [(h.live o ho).field]
  exact (h.live o ho).pos

/-- The prices of a side in order, the best first. -/
theorem Sides.pairwise_prices {side : Side} {own opp : List BbOrder} (h : Sides side own opp) :
    (Grouping.keys (·.trustPrice) own).Pairwise side.Better := by
  have hconn : ∀ p q, p ≠ q → ¬ side.Better q p → side.Better p q := by
    intro p q hne hnot
    rw [Side.better_iff] at hnot ⊢
    exact lt_of_le_of_ne (not_lt.mp hnot) (side.signed_injective.ne hne)
  refine Grouping.pairwise_keys hconn (h.signed_le.imp fun hab => ?_)
  rw [Side.better_iff]
  exact not_lt.mpr hab

/-- The levels of a side: its first prices, with their totals. -/
theorem Sides.depthLevels {side : Side} {own opp : List BbOrder} (h : Sides side own opp)
    (limit : Nat) : depthLevelsFromOrders own limit =
      (Grouping.totals (·.trustPrice) (·.remainingNumber) own).take limit :=
  depthLevelsFromOrders_eq h.remainingNumber_pos h.signed_le limit

theorem fst_totals (own : List BbOrder) :
    (Grouping.totals (·.trustPrice) (·.remainingNumber) own).map Prod.fst =
      Grouping.keys (·.trustPrice) own := by
  simp [Grouping.totals, Function.comp_def]

theorem length_prices (own : List BbOrder) :
    (Grouping.keys (·.trustPrice) own).length = (own.map (·.trustPrice)).toFinset.card := by
  rw [← List.toFinset_card_of_nodup (Grouping.nodup_keys _ own)]
  refine congrArg Finset.card (Finset.ext fun p => ?_)
  simp [Grouping.mem_keys]

/-- In every engine that orders lead to, the depth has as many levels as the limit and the
number of prices allow.  Their prices are resting ones, strictly best first, and better than
every price left out.  Each has the sum of what rests at it. -/
theorem depthLevels_exact [DecimalRounding] {engine : Engine} (h : Reachable engine)
    (symbol : String) (side : Side) (limit : Nat) :
    let resting := (engine.books symbol).entries side
    let levels := engine.depthLevels symbol side limit
    levels.length = min limit (resting.map (·.trustPrice)).toFinset.card ∧
      (levels.map Prod.fst).Pairwise side.Better ∧
      (∀ level ∈ levels, (∃ o ∈ resting, o.trustPrice = level.1) ∧
        level.2 = ((resting.filter (·.trustPrice = level.1)).map (·.remainingNumber)).sum) ∧
      ∀ o ∈ resting, o.trustPrice ∉ levels.map Prod.fst →
        ∀ level ∈ levels, side.Better level.1 o.trustPrice := by
  intro resting levels
  have hs : Sides side resting ((engine.books symbol).entries side.opp) :=
    (h.inv symbol).sides side
  have hlevels : levels = _ := hs.depthLevels limit
  have hprices : levels.map Prod.fst = (Grouping.keys (·.trustPrice) resting).take limit := by
    rw [hlevels, List.map_take, fst_totals]
  have hsorted := hs.pairwise_prices
  refine ⟨?_, ?_, fun level hlevel => ?_, fun o ho hout level hlevel => ?_⟩
  · rw [← length_prices, ← List.length_take, ← hprices, List.length_map]
  · rw [hprices]
    exact hsorted.sublist (List.take_sublist _ _)
  · rw [hlevels] at hlevel
    obtain ⟨p, hp, rfl⟩ := List.mem_map.mp (List.mem_of_mem_take hlevel)
    exact ⟨Grouping.mem_keys.mp hp, rfl⟩
  · -- The price was cut off, so it is behind all those that were not.
    have hmem : o.trustPrice ∈ Grouping.keys (·.trustPrice) resting :=
      Grouping.mem_keys.mpr ⟨o, ho, rfl⟩
    have hlevel' := List.mem_map_of_mem (f := Prod.fst) hlevel
    rw [hprices] at hout hlevel'
    rw [← List.take_append_drop limit (Grouping.keys _ resting)] at hmem hsorted
    rcases List.mem_append.mp hmem with hin | hdrop
    · exact absurd hin hout
    · exact (List.pairwise_append.mp hsorted).2.2 _ hlevel' _ hdrop

/-- Two buys at one price and one below, and a limit of one level. -/
theorem depthLevels_exact_one :
    let engine := @Engine.after .schoolbook [testLimit .buy 100 "1" 1 5,
      testLimit .buy 100 "2" 2 4, testLimit .buy 99 "3" 3 1]
    engine.depthLevels "btcusdt" .buy 1 = [(100, 9)] ∧
      (engine.depthLevels "btcusdt" .buy 1).length =
        min 1 (((engine.books "btcusdt").entries .buy).map (·.trustPrice)).toFinset.card :=
  ⟨by decide +kernel,
    (@depthLevels_exact .schoolbook _ (@reachable_after .schoolbook _ (by decide +kernel)) _ _ _).1⟩

end MatchCore
