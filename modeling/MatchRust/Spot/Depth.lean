import MatchRust.Core.Levels
import MatchRust.Hp.TextValue

/-!
# Handicap depth of the spot service

`buildDepthLevels` walks the resting orders of a side and adds up the orders of a price,
as the depth of the engine does.  Its levels hold texts: prices are compared as texts, and
sums are parsed, added and printed again.

The loop stops as soon as it has `limit` levels.  The last of them is then only as large as
the first order of its price, while the engine goes on adding up.  So the two agree if one
order rests at the price at the limit, or there is no such price (`spot_agrees_iff`).
-/

namespace MatchSpot

open MatchProtocol MatchCore DecimalText

section Build

variable [DecimalText]

/-- A level of the handicap depth. -/
structure DepthLevel where
  trustPrice : String
  cumulativeTransactionVolume : String
  cumulativeCommissionQuantity : String

/-- The sum of two texts, or the first if one of them is no number. -/
def addText (a b : String) : String :=
  match parse a, parse b with
  | some x, some y => text (x + y)
  | _, _ => a

/-- Add a level to the one before it. -/
def mergeSamePriceLevel (prev level : DepthLevel) : DepthLevel :=
  { prev with
    cumulativeTransactionVolume :=
      addText prev.cumulativeTransactionVolume level.cumulativeTransactionVolume
    cumulativeCommissionQuantity :=
      addText prev.cumulativeCommissionQuantity level.cumulativeCommissionQuantity }

/-- The level of one order. -/
def levelOf (order : BbOrder) : DepthLevel where
  trustPrice := text order.trustPrice
  cumulativeTransactionVolume := text order.consumerAllNumber
  cumulativeCommissionQuantity := text order.remainingNumber

/-- Add a level to the list: to the last one, if it has its price, or as a new one. -/
def pushLevel (sendList : List DepthLevel) (level : DepthLevel) : List DepthLevel :=
  match sendList.getLast? with
  | some prev =>
      if prev.trustPrice = level.trustPrice then
        sendList.dropLast ++ [mergeSamePriceLevel prev level]
      else sendList ++ [level]
  | none => sendList ++ [level]

/-- The loop over the orders. -/
def buildLoop (limit : Nat) : List BbOrder → List DepthLevel → BigDecimal →
    List DepthLevel × BigDecimal
  | [], sendList, sumTrust => (sendList, sumTrust)
  | order :: orders, sendList, sumTrust =>
      if sendList.length < limit then
        if order.remainingNumber ≤ 0 then buildLoop limit orders sendList sumTrust
        else
          buildLoop limit orders (pushLevel sendList (levelOf order))
            (sumTrust + order.trustNumber)
      else (sendList, sumTrust)

/-- Up to `limit` levels, and the sum of the quantities ordered. -/
def buildDepthLevels (orders : List BbOrder) (limit : Nat) : List DepthLevel × BigDecimal :=
  buildLoop limit orders [] 0

/-- The price and the quantity of a level, as numbers. -/
def DepthLevel.numbers (level : DepthLevel) : Option (BigDecimal × BigDecimal) :=
  (parse level.trustPrice).bind fun price =>
    (parse level.cumulativeCommissionQuantity).map fun qty => (price, qty)

end Build

/-- The resting orders of a side, best first. -/
def restingOrders (engine : Engine) (symbol : String) (side : Side) : List BbOrder :=
  (engine.books symbol).entries side

/-! ## The orders of each price -/

/-- What rests at each price. -/
def quantities (orders : List BbOrder) : List (BigDecimal × BigDecimal) :=
  Grouping.totals (·.trustPrice) (·.remainingNumber) orders

/-- The prices of some orders, each once, in their order. -/
def prices (orders : List BbOrder) : List BigDecimal := Grouping.keys (·.trustPrice) orders

theorem length_quantities (orders : List BbOrder) :
    (quantities orders).length = (prices orders).length := List.length_map ..

theorem map_fst_quantities (orders : List BbOrder) :
    (quantities orders).map Prod.fst = prices orders := by
  rw [quantities, Grouping.totals, List.map_map]
  exact List.map_id _

/-- One more order of a side in order. -/
theorem pushDepthLevel_quantities {side : Side} {orders : List BbOrder} {o : BbOrder}
    (hpos : ∀ x ∈ orders ++ [o], 0 < x.remainingNumber)
    (hs : (orders ++ [o]).Pairwise fun a b =>
      side.signed a.trustPrice ≤ side.signed b.trustPrice) :
    pushDepthLevel (quantities orders) ((quantities orders).length + 1) o.trustPrice
      o.remainingNumber = quantities (orders ++ [o]) := by
  have hlen : (quantities (orders ++ [o])).length ≤ (quantities orders).length + 1 := by
    rw [length_quantities, length_quantities, prices, prices, Grouping.keys_concat]
    split <;> simp
  have hbefore := depthLevelsFromOrders_eq
    (fun x hx => hpos x (List.mem_append_left _ hx)) (List.pairwise_append.mp hs).1
    ((quantities orders).length + 1)
  have hafter := depthLevelsFromOrders_eq hpos hs ((quantities orders).length + 1)
  have ho : ¬ o.remainingNumber ≤ 0 := not_le.mpr (hpos o (by simp))
  rw [depthLevelsFromOrders, if_neg (Nat.succ_ne_zero _)] at hbefore hafter
  rw [List.foldl_concat, hbefore, if_neg ho] at hafter
  rw [← List.take_of_length_le hlen]
  refine Eq.trans ?_ hafter
  rw [← quantities, List.take_of_length_le (Nat.le_succ _)]

/-- The orders that the loop looks at, behind those it has seen. -/
def upTo (limit : Nat) (seen : List BbOrder) : List BbOrder → List BbOrder
  | [] => seen
  | o :: orders => if (prices seen).length < limit then upTo limit (seen ++ [o]) orders else seen

/-- It looks at all orders, or up to the first one at the last price allowed. -/
theorem upTo_cases {limit : Nat} (orders : List BbOrder) :
    ∀ seen : List BbOrder, (prices seen).length < limit →
      upTo limit seen orders = seen ++ orders ∧ (prices (seen ++ orders)).length < limit ∨
      ∃ front o back, seen ++ orders = front ++ o :: back ∧
        upTo limit seen orders = front ++ [o] ∧ o.trustPrice ∉ prices front ∧
        (prices front).length + 1 = limit := by
  induction orders with
  | nil => exact fun _ h => .inl ⟨by simp [upTo], by simpa using h⟩
  | cons o orders ih =>
      intro seen h
      rw [upTo, if_pos h]
      by_cases hmore : (prices (seen ++ [o])).length < limit
      · simpa using ih _ hmore
      · have hkeys : prices (seen ++ [o]) =
            if o.trustPrice ∈ prices seen then prices seen else prices seen ++ [o.trustPrice] :=
          Grouping.keys_concat ..
        have hnew : o.trustPrice ∉ prices seen := by
          intro hmem
          rw [hkeys, if_pos hmem] at hmore
          exact hmore h
        have hlen : (prices (seen ++ [o])).length = (prices seen).length + 1 := by
          rw [hkeys, if_neg hnew, List.length_append]
          rfl
        have hstop : upTo limit (seen ++ [o]) orders = seen ++ [o] := by
          cases orders with
          | nil => rfl
          | cons o' orders => rw [upTo, if_neg hmore]
        exact .inr ⟨seen, o, orders, rfl, hstop, hnew, by omega⟩

/-- The levels up to a new price.  Its order has all that rests there if it is the only one. -/
theorem take_at_limit {side : Side} {front back : List BbOrder} {o : BbOrder}
    (hpos : ∀ x ∈ front ++ o :: back, 0 < x.remainingNumber)
    (hs : (front ++ o :: back).Pairwise fun a b =>
      side.signed a.trustPrice ≤ side.signed b.trustPrice)
    (hnew : o.trustPrice ∉ prices front) :
    ∃ total, (quantities (front ++ o :: back)).take ((prices front).length + 1) =
        quantities front ++ [(o.trustPrice, total)] ∧
      (o.remainingNumber = total ↔
        ((front ++ o :: back).filter (·.trustPrice = o.trustPrice)).length = 1) := by
  have hdisj : ∀ x ∈ o :: back, x.trustPrice ∉ prices front := by
    intro x hx hmem
    obtain ⟨hfront, hback, hlt⟩ := List.pairwise_append.mp hs
    obtain ⟨y, hy, hyx⟩ := Grouping.mem_keys.mp hmem
    rcases List.mem_cons.mp hx with rfl | hx
    · exact hnew hmem
    · -- The price of `o` is between two equal ones.
      have hox := (List.pairwise_cons.mp hback).1 x hx
      have hyo := hlt y hy o (List.mem_cons_self ..)
      rw [hyx] at hyo
      exact hnew (side.signed_injective (le_antisymm hox hyo) ▸ hmem)
  have hgroup : ((front ++ o :: back).filter fun x => decide (x.trustPrice = o.trustPrice)) =
      o :: Grouping.group (·.trustPrice) o.trustPrice back := by
    have hnone : front.filter (fun x => decide (x.trustPrice = o.trustPrice)) = [] := by
      refine List.filter_eq_nil_iff.mpr fun x hx he => hnew ?_
      exact Grouping.mem_keys.mpr ⟨x, hx, of_decide_eq_true he⟩
    rw [List.filter_append, hnone, List.nil_append]
    exact @Grouping.group_cons_self _ _ _ (·.trustPrice) o back
  refine ⟨Grouping.total (·.trustPrice) (·.remainingNumber) (o :: back) o.trustPrice, ?_, ?_⟩
  · rw [quantities, Grouping.totals_append hdisj, ← quantities, ← length_quantities,
      List.take_append, List.take_of_length_le (Nat.le_succ _), Nat.add_sub_cancel_left]
    rfl
  · rw [hgroup, Grouping.total, @Grouping.group_cons_self _ _ _ (·.trustPrice) o back]
    cases hback : Grouping.group (·.trustPrice) o.trustPrice back with
    | nil => simp
    | cons x xs =>
        refine iff_of_false (fun heq => ?_) (by simp)
        have hsum : 0 < ((x :: xs).map (·.remainingNumber)).sum := by
          refine List.sum_pos _ (fun q hq => ?_) (by simp)
          obtain ⟨y, hy, rfl⟩ := List.mem_map.mp hq
          have hmem := (Grouping.mem_group.mp (hback ▸ hy)).1
          exact hpos y (List.mem_append_right _ (List.mem_cons_of_mem _ hmem))
        rw [List.map_cons, List.sum_cons] at heq
        exact absurd (left_eq_add.mp heq) hsum.ne'

/-! ## The loop in numbers -/

section Numbers

variable [DecimalText]

/-- These texts show these numbers. -/
def Shows (sendList : List DepthLevel) (levels : List (BigDecimal × BigDecimal)) : Prop :=
  sendList.map (fun s => (s.trustPrice, s.cumulativeCommissionQuantity)) =
    levels.map fun l => (text l.1, text l.2)

theorem Shows.length {sendList : List DepthLevel} {levels : List (BigDecimal × BigDecimal)}
    (h : Shows sendList levels) : sendList.length = levels.length := by
  simpa using congrArg List.length h

theorem Shows.numbers {sendList : List DepthLevel} {levels : List (BigDecimal × BigDecimal)}
    (h : Shows sendList levels) : sendList.map DepthLevel.numbers = levels.map some := by
  have hparse := congrArg (List.map fun s : String × String =>
    (parse s.1).bind fun price => (parse s.2).map fun qty => (price, qty)) h
  simp only [List.map_map, Function.comp_def, parse_text, Option.bind_some, Option.map_some]
    at hparse
  exact hparse

@[simp] theorem addText_text (a b : BigDecimal) : addText (text a) (text b) = text (a + b) := by
  simp [addText, parse_text]

/-- A level is added to the texts as to the numbers. -/
theorem Shows.push {sendList : List DepthLevel} {levels : List (BigDecimal × BigDecimal)}
    (h : Shows sendList levels) {limit : Nat} (hlimit : levels.length < limit) (o : BbOrder) :
    Shows (pushLevel sendList (levelOf o))
      (pushDepthLevel levels limit o.trustPrice o.remainingNumber) := by
  rcases List.eq_nil_or_concat' levels with rfl | ⟨levels, l, rfl⟩
  · obtain rfl : sendList = [] := List.eq_nil_of_length_eq_zero h.length
    have hpos : 0 < limit := hlimit
    simp [Shows, pushLevel, pushDepthLevel, levelOf, hpos]
  · rcases List.eq_nil_or_concat' sendList with rfl | ⟨sendList, s, rfl⟩
    · exact absurd h.length (by simp)
    · simp only [Shows, List.map_append, List.map_singleton] at h
      obtain ⟨hinit, hlast⟩ := List.append_inj' h rfl
      obtain ⟨hprice, hqty⟩ := Prod.mk.inj (List.singleton_inj.mp hlast)
      simp only [pushLevel, pushDepthLevel, List.getLast?_append, List.getLast?_singleton,
        Option.some_or, hprice, levelOf, text_inj, List.dropLast_concat, if_pos hlimit]
      split
      · simp [Shows, hinit, hprice, mergeSamePriceLevel, hqty]
      · simp [Shows, hinit, hprice, hqty]

/-- The loop adds up the orders it looks at. -/
theorem shows_buildLoop {side : Side} {limit : Nat} (orders : List BbOrder) :
    ∀ {seen : List BbOrder} {sendList : List DepthLevel} (sumTrust : BigDecimal),
      (∀ x ∈ seen ++ orders, 0 < x.remainingNumber) →
      ((seen ++ orders).Pairwise fun a b => side.signed a.trustPrice ≤ side.signed b.trustPrice) →
      Shows sendList (quantities seen) →
      Shows (buildLoop limit orders sendList sumTrust).1 (quantities (upTo limit seen orders)) := by
  induction orders with
  | nil => exact fun _ _ _ h => h
  | cons o orders ih =>
      intro seen sendList sumTrust hpos hs h
      have hsplit : seen ++ o :: orders = (seen ++ [o]) ++ orders := by simp
      have ho : ¬ o.remainingNumber ≤ 0 := not_le.mpr (hpos o (by simp))
      rw [buildLoop, upTo, h.length, length_quantities, if_neg ho]
      rw [hsplit] at hpos hs
      split
      · refine ih _ hpos hs ?_
        rw [← pushDepthLevel_quantities (fun x hx => hpos x (List.mem_append_left _ hx))
          (List.pairwise_append.mp hs).1]
        exact h.push (Nat.lt_succ_self _) o
      · exact h

/-- On a side in order, the handicap depth has the numbers of the depth exactly if the limit is
zero, or fewer prices rest than the limit, or one order rests at the price at the limit. -/
theorem spot_agrees_iff {side : Side} {own opp : List BbOrder} (h : Sides side own opp)
    (limit : Nat) :
    (buildDepthLevels own limit).1.map DepthLevel.numbers =
        (depthLevelsFromOrders own limit).map some ↔
      limit = 0 ∨ (prices own).length < limit ∨ ∃ price ∈ (prices own)[limit - 1]?,
        (own.filter (·.trustPrice = price)).length = 1 := by
  have hpos := h.remainingNumber_pos
  have hs := h.signed_le
  have hshow : Shows (buildDepthLevels own limit).1 (quantities (upTo limit [] own)) :=
    shows_buildLoop own 0 hpos hs rfl
  rw [hshow.numbers, h.depthLevels, ← quantities,
    (List.map_injective_iff.mpr (Option.some_injective _)).eq_iff]
  rcases Nat.eq_zero_or_pos limit with rfl | hlimit
  · cases own <;> simp [upTo, quantities, Grouping.totals, Grouping.keys, prices]
  rcases upTo_cases own [] hlimit with
    ⟨hall, hlt⟩ | ⟨front, o, back, rfl, htaken, hnew, hlen⟩
  · -- There is no level at the limit.
    rw [List.nil_append] at hall hlt
    refine iff_of_true ?_ (.inr (.inl hlt))
    rw [hall, List.take_of_length_le ((length_quantities own).trans_le hlt.le)]
  · obtain ⟨total, htake, hiff⟩ := take_at_limit hpos hs hnew
    have hlast : quantities (front ++ [o]) =
        quantities front ++ [(o.trustPrice, o.remainingNumber)] :=
      Grouping.totals_concat_new _ hnew
    have hprices : (prices (front ++ o :: back)).take limit = prices front ++ [o.trustPrice] := by
      rw [← map_fst_quantities, ← List.map_take, ← hlen, htake, List.map_append,
        map_fst_quantities]
      rfl
    have hprice : (prices (front ++ o :: back))[limit - 1]? = some o.trustPrice := by
      rw [← List.getElem?_take_of_lt (show limit - 1 < limit by omega), hprices,
        show limit - 1 = (prices front).length by omega, List.getElem?_concat_length]
    have hmany : ¬ (prices (front ++ o :: back)).length < limit := by
      have hindex := (List.getElem?_eq_some_iff.mp hprice).1
      omega
    rw [hlen] at htake
    rw [htaken, htake, hlast]
    rw [hprice]
    simpa [hmany, hlimit.ne'] using hiff

end Numbers

/-- In every engine that orders lead to, the handicap depth of a side has the prices and the
quantities of the engine's depth, in the same order, exactly if the limit is zero, or fewer prices
rest than the limit, or one order rests at the price at the limit. -/
theorem handicap_depth_agrees_iff [DecimalRounding] [DecimalText] {engine : Engine}
    (h : Reachable engine) (symbol : String) (side : Side) (limit : Nat) :
    (buildDepthLevels (restingOrders engine symbol side) limit).1.map DepthLevel.numbers =
        (engine.depthLevels symbol side limit).map some ↔
      limit = 0 ∨ (prices (restingOrders engine symbol side)).length < limit ∨
        ∃ price ∈ (prices (restingOrders engine symbol side))[limit - 1]?,
          ((restingOrders engine symbol side).filter (·.trustPrice = price)).length = 1 :=
  spot_agrees_iff ((h.inv symbol).sides side) limit

/-- Two buys at one price and one below: with a limit of two the depths agree. -/
theorem handicap_depth_agrees_iff_two :
    let engine := @Engine.after .schoolbook [testLimit .buy 100 "1" 1 5,
      testLimit .buy 100 "2" 2 4, testLimit .buy 99 "3" 3 1]
    (@buildDepthLevels .displayed (restingOrders engine "btcusdt" .buy) 2).1.map
        (@DepthLevel.numbers .displayed) =
      (engine.depthLevels "btcusdt" .buy 2).map some :=
  (@handicap_depth_agrees_iff .schoolbook .displayed _
    (@reachable_after .schoolbook _ (by decide +kernel)) _ _ _).mpr (by decide +kernel)

/-- With a limit of one, the second buy at the best price is missing. -/
theorem handicap_depth_short :
    let engine := @Engine.after .schoolbook [testLimit .buy 100 "1" 1 5,
      testLimit .buy 100 "2" 2 4, testLimit .buy 99 "3" 3 1]
    (@buildDepthLevels .displayed (restingOrders engine "btcusdt" .buy) 1).1.map
        (@DepthLevel.numbers .displayed) = [some (100, 5)] ∧
      engine.depthLevels "btcusdt" .buy 1 = [(100, 9)] := by
  refine ⟨?_, by decide +kernel⟩
  have hresting : restingOrders (@Engine.after .schoolbook [testLimit .buy 100 "1" 1 5,
      testLimit .buy 100 "2" 2 4, testLimit .buy 99 "3" 3 1]) "btcusdt" .buy =
        [testLimit .buy 100 "1" 1 5, testLimit .buy 100 "2" 2 4, testLimit .buy 99 "3" 3 1] := by
    decide +kernel
  have hpos : ¬ (testLimit .buy 100 "1" 1 5).remainingNumber ≤ 0 := by decide +kernel
  -- The loop ends with the first level.
  simp only [hresting, buildDepthLevels, buildLoop, if_neg hpos]
  simp [pushLevel, DepthLevel.numbers, levelOf, parse_text, testLimit]

end MatchSpot
