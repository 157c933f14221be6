import MatchRust.Core.Outcomes

/-!
# Market matching

A market order that comes before all orders of its side takes the orders of the other side
one after the other, as many as it needs and its gear allows, each at its own price.  What
is left of it is revoked, and the reason says whether the gear or the other side ended it
(`market_matches`).
-/

namespace MatchCore

open MatchProtocol PriceTime OrderBook

/-- A market order comes before these orders of its side.  A market buy is priced at the
largest 32-bit integer, a market sell at its own price. -/
def Foremost : Side → BbOrder → List BbOrder → Prop
  | .buy, _, own => ∀ a ∈ own, a.trustPrice < marketBuyTrustPrice
  | .sell, o, own => ∀ a ∈ own, o.trustPrice < a.trustPrice

section Market

variable [DecimalRounding] {side : Side} {o : BbOrder} {own ms : List BbOrder}

omit [DecimalRounding] in
theorem Foremost.rank_lt (h : Foremost side o own) :
    ∀ a ∈ own, rank side (marketPriced side o) < rank side a := by
  intro a ha
  cases side with
  | buy => exact rank_lt_of_signed_lt (neg_lt_neg (h a ha))
  | sell => exact rank_lt_of_signed_lt (h a ha)

omit [DecimalRounding] in
theorem remaining_marketPriced (side : Side) (o : BbOrder) :
    remaining (marketPriced side o) = remaining o := by
  cases side <;> rfl

omit [DecimalRounding] in
theorem gearOf_marketPriced : gearOf (marketPriced side o) = gearOf o := by
  cases side <;> rfl

omit [DecimalRounding] in
theorem fillOf_marketPriced : fillOf (marketPriced side o) = fillOf o := by
  cases side <;> rfl

omit [DecimalRounding] in
theorem revokeOf_marketPriced : revokeOf (marketPriced side o) = revokeOf o := by
  cases side <;> rfl

omit [DecimalRounding] in
theorem marketable_of_ne (side : Side) {m : BbOrder} (h : m.orderForm ≠ orderFormMarketPrice) :
    marketable side m = true := by
  cases side with
  | buy => exact decide_eq_true h
  | sell => rfl

/-- A market order that comes first is swept. -/
theorem settle_foremost (hform : o.orderForm = orderFormMarketPrice) (h : Foremost side o own) :
    settle side o own ms = sweptMarket side (marketPriced side o) own ms := by
  rw [settle_market hform]
  cases own with
  | nil => rfl
  | cons a own => rw [settleMarket, if_pos (h.rank_lt a (List.mem_cons_self ..))]

/-- The reason that a market order has something left. -/
theorem marketReason_left {gear : Int} (hl : 0 < remaining o)
    (hplain : ∀ m ∈ ms, marketable side m = true)
    (hleft : (marketSweep side gear o ms).left ≠ 0) :
    marketReason (some (gear.toNat - (marketSweep side gear o ms).fills.length))
        (marketSweep side gear o ms).book =
      if (marketSweep side gear o ms).fills.length = gear.toNat then "market_gear"
      else "market_empty" := by
  have hle : (marketSweep side gear o ms).fills.length ≤ gear.toNat :=
    fills_length_le_cap (makersOf side) (marketable side) _ (remaining o) ms _ rfl
  have hpos := lt_of_le_of_ne (left_nonneg (makersOf side) (marketable side) (some gear.toNat)
    (remaining o) ms hl.le) (Ne.symm hleft)
  obtain ⟨hbook, hstop⟩ :=
    book_of_left (makersOf side) (marketable side) (some gear.toNat) (remaining o) ms hpos
  rw [marketReason]
  by_cases hfull : (marketSweep side gear o ms).fills.length = gear.toNat
  · rw [if_pos (by rw [hfull, Nat.sub_self]), if_pos hfull]
  · -- The gear is not used up, so there is no maker left.
    have hempty : (marketSweep side gear o ms).book = [] := by
      have hhead := hstop.resolve_left fun h => hfull (Option.some.inj h).symm
      cases hb : (marketSweep side gear o ms).book with
      | nil => rfl
      | cons m rest =>
          have hm : m ∈ ms := List.mem_of_mem_drop (hbook ▸ hb ▸ List.mem_cons_self)
          have hblocked := hhead m (by rw [marketSweep] at hb; rw [hb]; rfl)
          exact absurd ((hplain m hm).symm.trans hblocked) (by decide)
    rw [if_neg (by rw [Option.some.injEq]; omega), if_pos hempty, if_neg hfull]

/-- The fills of a market order that may take from every maker. -/
theorem fills_marketSweep {gear : Int} (hmarket : ∀ m ∈ ms, marketable side m = true) :
    (marketSweep side gear o ms).fills = takes (makersOf side) (remaining o)
      (ms.take (min gear.toNat (needed (makersOf side) (remaining o) ms))) :=
  fills_eq_takes (makersOf side) _ _ ms hmarket _ rfl

theorem length_fills_marketSweep {gear : Int} (hmarket : ∀ m ∈ ms, marketable side m = true) :
    (marketSweep side gear o ms).fills.length =
      min gear.toNat (needed (makersOf side) (remaining o) ms) := by
  have hle := needed_le_length (makersOf side) (remaining o) ms
  rw [fills_marketSweep hmarket, length_takes, List.length_take]
  omega

theorem left_marketSweep {gear : Int} : (marketSweep side gear o ms).left =
    remaining o - ((marketSweep side gear o ms).fills.map Fill.qty).sum := by
  rw [eq_sub_iff_add_eq']
  exact sum_fills (makersOf side) (marketable side) _ _ ms

/-- The makers after a market order. -/
theorem book_marketSweep (side : Side) (gear : Int) (o : BbOrder) (ms : List BbOrder) :
    ∃ part, (marketSweep side gear o ms).book =
        part ++ ms.drop (marketSweep side gear o ms).fills.length ∧
      ∀ x ∈ part, ∃ m ∈ ms.take (marketSweep side gear o ms).fills.length,
        terms x = terms m := by
  obtain ⟨part, hbook, hpart⟩ :=
    @book_eq_append _ _ _ _ (makersOf side) (marketable side) (some gear.toNat) (remaining o) ms
  refine ⟨part, hbook, fun x hx => ?_⟩
  obtain ⟨f, hf, rfl⟩ := hpart x hx
  have hmakers := fills_initial (makersOf side) (marketable side) (some gear.toNat) (remaining o) ms
  refine ⟨f.maker, ?_, terms_reduce side f.qty f.maker⟩
  have htake := List.prefix_iff_eq_take.mp hmakers
  rw [List.length_map] at htake
  rw [marketSweep, ← htake]
  exact List.mem_map_of_mem hf

/-- On every book without market orders that orders lead to, a market order before all orders
of its side has one fill with each of the best orders of the other side, as many as it needs or
its gear allows.  Each takes what the maker has or what is left, at the maker's price, and all
makers but the last are filled.  The rest is revoked.  No other order changes. -/
theorem market_matches {engine : Engine} (h : Reachable engine) (hacc : o.Accepted)
    (hside : Side.fromOrderType o.orderType = some side) (hrev : isRevoke o = false)
    (hfresh : (engine.books o.symbolKey).containsOrderNo o.trustOrderNo = false)
    (hform : o.orderForm = orderFormMarketPrice) {g : Int} (hgear : o.gear = some g)
    (hg : 1 ≤ g)
    (hplain : ∀ s, ∀ a ∈ (engine.books o.symbolKey).entries s,
      a.orderForm ≠ orderFormMarketPrice)
    (hfirst : Foremost side o ((engine.books o.symbolKey).entries side)) :
    let ms := (engine.books o.symbolKey).entries side.opp
    let n := min g.toNat (needed (makersOf side) o.trustNumber ms)
    let fills := takes (makersOf side) o.trustNumber (ms.take n)
    let left := o.trustNumber - (fills.map Fill.qty).sum
    ∃ engine', engine.onOrder o = some (engine', fills.map (fillOf o) ++
        if left = 0 then []
        else [revokeOf o left (if n = g.toNat then "market_gear" else "market_empty")]) ∧
      (∀ f ∈ fills.dropLast, f.makerLeft = 0) ∧
      (engine'.books o.symbolKey).entries side = (engine.books o.symbolKey).entries side ∧
      (∃ part, (engine'.books o.symbolKey).entries side.opp = part ++ ms.drop n ∧
        ∀ x ∈ part, ∃ m ∈ ms.take n, terms x = terms m) ∧
      ∀ symbol, symbol ≠ o.symbolKey → engine'.books symbol = engine.books symbol := by
  obtain ⟨own, ms, engine', hbook, hs, hi, hon, hbook', hother⟩ := h.settled hacc hside hrev hfresh
  simp only [hbook, entries_ofSides, entries_ofSides_opp] at hfirst hplain ⊢
  have hmarket : ∀ m ∈ ms, marketable side m = true := fun m hm =>
    marketable_of_ne side (hplain side.opp m (by rwa [entries_ofSides_opp]))
  have hopen : remaining o = o.trustNumber := by rw [remaining, hacc.consumed, sub_zero]
  have hgear' : gearOf o = g := by simp [gearOf, hgear, hg]
  have hprice := remaining_marketPriced side o
  rw [hopen] at hprice
  have hfills := @fills_marketSweep _ side (marketPriced side o) ms g hmarket
  have hlen := @length_fills_marketSweep _ side (marketPriced side o) ms g hmarket
  have hleft := @left_marketSweep _ side (marketPriced side o) ms g
  have hlast := makerLeft_dropLast (makersOf side) (marketable side) (some g.toNat)
    (remaining (marketPriced side o)) ms
  obtain ⟨part, hpart, hfront⟩ := book_marketSweep side g (marketPriced side o) ms
  rw [← marketSweep, hfills] at hlast
  rw [hlen] at hpart hfront
  rw [hfills] at hleft
  rw [hprice] at hfills hlen hleft hlast hpart hfront
  rw [settle_foremost hform hfirst, sweptMarket, gearOf_marketPriced, hgear'] at hon hbook'
  refine ⟨engine', ?_, hlast, ?_, ⟨part, ?_, hfront⟩, hother⟩
  · have hpos : 0 < remaining (marketPriced side o) := by
      rw [hprice]
      exact hacc.pos
    rw [hon, takenEvents, fillOf_marketPriced, revokeOf_marketPriced, ← hleft]
    split
    next => rw [hfills]
    next hne => rw [marketReason_left hpos hmarket hne, hlen, hfills]
  · rw [hbook', entries_ofSides]
  · rw [hbook', entries_ofSides_opp, hpart]

end Market

/-- A market buy of 9 with a gear of 2 meets three sells of 4. -/
theorem market_matches_gear :
    ∃ engine', @Engine.onOrder .schoolbook (@Engine.after .schoolbook
        [testLimit .sell 100 "1" 1 4, testLimit .sell 101 "2" 2 4, testLimit .sell 102 "3" 3 4])
        { testLimit .buy 1 "9" 9 9 with orderForm := 2, gear := some 2 } =
      some (engine', [fillOf (testLimit .buy 1 "9" 9 9) ⟨testLimit .sell 100 "1" 1 4, 4, 5, 0⟩,
        fillOf (testLimit .buy 1 "9" 9 9) ⟨testLimit .sell 101 "2" 2 4, 4, 1, 0⟩,
        revokeOf (testLimit .buy 1 "9" 9 9) 1 "market_gear"]) := by
  obtain ⟨engine', hon, -⟩ := @market_matches .schoolbook .buy
    { testLimit .buy 1 "9" 9 9 with orderForm := 2, gear := some 2 } _
    (@reachable_after .schoolbook [testLimit .sell 100 "1" 1 4, testLimit .sell 101 "2" 2 4,
      testLimit .sell 102 "3" 3 4] (by decide +kernel))
    (by decide +kernel) (by decide) (by decide +kernel) (by decide +kernel) rfl 2 rfl (by decide)
    (by intro s; cases s <;> decide +kernel) (by rw [Foremost]; decide +kernel)
  refine ⟨engine', hon.trans ?_⟩
  congr 2
  decide +kernel

end MatchCore
