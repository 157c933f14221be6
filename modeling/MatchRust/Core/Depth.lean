import MatchRust.Core.Engine
import MatchRust.Lib.Grouping

/-!
# Depth

`depthLevelsFromOrders` adds up the orders of a side per price.  It goes through
the orders once and only looks at the last level it made.  On a side in rank
order this is enough: the orders of a price stand together, and a level that
the limit cuts off does not come back.  So the result is the first prices with
the totals of all their orders (`depthLevelsFromOrders_eq`).
-/

namespace MatchCore

open MatchProtocol

/-- Add an order to the levels: to the last one, if it has its price, or as a
new one, if the limit allows it. -/
def pushDepthLevel (levels : List (BigDecimal × BigDecimal)) (limit : Nat)
    (price qty : BigDecimal) : List (BigDecimal × BigDecimal) :=
  match levels.getLast? with
  | some (lastPrice, lastQty) =>
      if lastPrice = price then levels.dropLast ++ [(lastPrice, lastQty + qty)]
      else if levels.length < limit then levels ++ [(price, qty)]
      else levels
  | none => if levels.length < limit then levels ++ [(price, qty)] else levels

/-- Up to `limit` levels, each a price and the sum of its quantities. -/
def depthLevelsFromOrders (orders : List BbOrder) (limit : Nat) :
    List (BigDecimal × BigDecimal) :=
  if limit = 0 then []
  else
    orders.foldl (fun levels order =>
      if order.remainingNumber ≤ 0 then levels
      else pushDepthLevel levels limit order.trustPrice order.remainingNumber) []

/-- The depth of a side. -/
def OrderBook.depthLevels (book : OrderBook) (side : Side) (limit : Nat) :
    List (BigDecimal × BigDecimal) :=
  depthLevelsFromOrders (book.entries side) limit

/-- The depth of a side of a symbol. -/
def Engine.depthLevels (engine : Engine) (symbol : String) (side : Side) (limit : Nat) :
    List (BigDecimal × BigDecimal) :=
  (engine.books symbol).depthLevels side limit

section Push

variable {levels : List (BigDecimal × BigDecimal)} {limit : Nat} {price qty : BigDecimal}

theorem pushDepthLevel_last (lastQty : BigDecimal) :
    pushDepthLevel (levels ++ [(price, lastQty)]) limit price qty =
      levels ++ [(price, lastQty + qty)] := by
  simp [pushDepthLevel]

theorem pushDepthLevel_new (h : price ∉ levels.map Prod.fst) :
    pushDepthLevel levels limit price qty =
      if levels.length < limit then levels ++ [(price, qty)] else levels := by
  unfold pushDepthLevel
  split
  next lastPrice lastQty hlast =>
    have hmem : lastPrice ∈ levels.map Prod.fst :=
      List.mem_map.mpr ⟨_, List.mem_of_getLast? hlast, rfl⟩
    have hne : lastPrice ≠ price := by
      rintro rfl
      exact h hmem
    rw [if_neg hne]
  next => rfl

/-- A new price behind levels that the limit may cut off. -/
theorem pushDepthLevel_take_new (h : price ∉ levels.map Prod.fst) :
    pushDepthLevel (levels.take limit) limit price qty =
      (levels ++ [(price, qty)]).take limit := by
  have hnot : price ∉ (levels.take limit).map Prod.fst := by
    rw [List.map_take]
    exact fun hm => h (List.mem_of_mem_take hm)
  rw [pushDepthLevel_new hnot, List.length_take]
  by_cases hlen : levels.length < limit
  · rw [if_pos (by omega), List.take_of_length_le hlen.le, List.take_of_length_le (by simp; omega)]
  · rw [if_neg (by omega), List.take_append_of_le_length (not_lt.mp hlen)]

/-- One more order at the last price. -/
theorem pushDepthLevel_take_last (h : price ∉ levels.map Prod.fst) (lastQty : BigDecimal) :
    pushDepthLevel ((levels ++ [(price, lastQty)]).take limit) limit price qty =
      (levels ++ [(price, lastQty + qty)]).take limit := by
  by_cases hlen : levels.length < limit
  · rw [List.take_of_length_le (by simp; omega), pushDepthLevel_last,
      List.take_of_length_le (by simp; omega)]
  · -- The limit has cut the price off.
    rw [List.take_append_of_le_length (not_lt.mp hlen), List.take_append_of_le_length
      (not_lt.mp hlen), pushDepthLevel_take_new h, List.take_append_of_le_length (not_lt.mp hlen)]

end Push

/-- A price that comes again on a side in order is the last one. -/
theorem keys_trustPrice_concat {side : Side} {l : List BbOrder} {a : BbOrder}
    (hs : (l ++ [a]).Pairwise fun a b => side.signed a.trustPrice ≤ side.signed b.trustPrice)
    (hmem : a.trustPrice ∈ Grouping.keys (·.trustPrice) l) :
    ∃ ks, Grouping.keys (·.trustPrice) l = ks ++ [a.trustPrice] := by
  have hconn : ∀ p q, p ≠ q → ¬ side.signed q < side.signed p → side.signed p < side.signed q :=
    fun p q hne hnot => lt_of_le_of_ne (not_lt.mp hnot) (side.signed_injective.ne hne)
  exact @Grouping.keys_eq_concat _ _ _ _ a (fun p q => side.signed p < side.signed q) hconn l
    (hs.imp fun hab => not_lt.mpr hab) hmem

/-- On a side in order, the levels are the first prices with their totals. -/
theorem depthLevelsFromOrders_eq {side : Side} {orders : List BbOrder}
    (hpos : ∀ o ∈ orders, 0 < o.remainingNumber)
    (hs : orders.Pairwise fun a b => side.signed a.trustPrice ≤ side.signed b.trustPrice)
    (limit : Nat) :
    depthLevelsFromOrders orders limit =
      (Grouping.totals (·.trustPrice) (·.remainingNumber) orders).take limit := by
  by_cases hlimit : limit = 0
  · rw [depthLevelsFromOrders, if_pos hlimit, hlimit, List.take_zero]
  rw [depthLevelsFromOrders, if_neg hlimit]
  -- The loop appends, so the induction takes the orders from the back.
  induction orders using List.reverseRecOn with
  | nil => simp [Grouping.totals, Grouping.keys]
  | append_singleton l a ih =>
      have ha : ¬ a.remainingNumber ≤ 0 := not_le.mpr (hpos a (by simp))
      have ih' := ih (fun o ho => hpos o (List.mem_append_left _ ho))
        (List.pairwise_append.mp hs).1
      rw [List.foldl_concat, ih', if_neg ha]
      by_cases hmem : a.trustPrice ∈ Grouping.keys (·.trustPrice) l
      · obtain ⟨ks, hks⟩ := keys_trustPrice_concat hs hmem
        obtain ⟨ht, ht'⟩ := Grouping.totals_concat_last (·.remainingNumber) hks
        have hnot : a.trustPrice ∉ ks := by
          have hnd := Grouping.nodup_keys (·.trustPrice) l
          rw [hks] at hnd
          exact fun hk => (List.nodup_append.mp hnd).2.2 _ hk _ (List.mem_singleton_self _) rfl
        rw [ht, ht']
        exact pushDepthLevel_take_last (by simpa [Function.comp_def] using hnot) _
      · rw [Grouping.totals_concat_new _ hmem]
        exact pushDepthLevel_take_new (by simpa [Grouping.totals, Function.comp_def] using hmem)

end MatchCore
