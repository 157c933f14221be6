import MatchRust.Core.Outcomes

/-!
# Statuses and remaining quantities

A fill reports for both orders what is left of them and a status, "fully filled" or
"partially filled".  Every handler chooses the two together, and they agree, with one
exception.  The walk of a FOK order reports the taker as partially filled whenever it
exhausts a maker, also when that fills the taker.  So the last fill of a walk is wrong if
the makers add up to the order exactly.  An order that its first maker fills is not walked.
(`statuses_agree_iff`)
-/

namespace MatchCore

open MatchProtocol PriceTime OrderBook

/-- The statuses agree with what is left. -/
def FillEvent.StatusAgrees (f : FillEvent) : Prop :=
  f.takerStatus = statusOf f.takerRemaining ∧ f.makerStatus = statusOf f.makerRemaining

/-- A FOK order that two or more of the best makers fill exactly. -/
def FilledExactly (side : Side) (o : BbOrder) (ms : List BbOrder) : Prop :=
  ∃ pre, pre <+: ms ∧ 2 ≤ pre.length ∧
    (∀ m ∈ pre, side.crosses o.trustPrice m.trustPrice = true) ∧
    (pre.map remaining).sum = o.trustNumber

section Statuses

variable {o : BbOrder} {fills : List (PriceTime.Fill BbOrder BigDecimal)}

theorem agrees_fillOf : ∀ f ∈ fillsOf (fills.map (fillOf o)), f.StatusAgrees := by
  intro f hf
  rw [fillsOf_fillOf] at hf
  obtain ⟨x, -, rfl⟩ := List.mem_map.mp hf
  exact ⟨rfl, rfl⟩

theorem agrees_revokeOf (left : BigDecimal) (reason : String) :
    ∀ f ∈ fillsOf [revokeOf o left reason], f.StatusAgrees := by
  simp

theorem agrees_taken [DecimalRounding] (r : Sweep BbOrder BigDecimal) (reason : String) :
    ∀ f ∈ fillsOf (takenEvents o r reason), f.StatusAgrees := by
  intro f hf
  rw [takenEvents, fillsOf_append] at hf
  rcases List.mem_append.mp hf with hf | hf
  · exact agrees_fillOf f hf
  · split at hf
    · exact absurd hf List.not_mem_nil
    · exact absurd hf List.not_mem_nil

/-- A fill of a walk is reported wrongly if it exhausts both orders. -/
theorem agrees_walkFillOf (hfill : ∀ f ∈ fills, f.makerLeft = 0 ∨ f.takerLeft = 0) :
    (∀ f ∈ fillsOf (fills.map (walkFillOf o)), f.StatusAgrees) ↔
      ¬ ∃ f ∈ fills, f.takerLeft = 0 ∧ f.makerLeft = 0 := by
  have hreport : fillsOf (fills.map (walkFillOf o)) = fills.map fun f => report o
      (if f.makerLeft = 0 then orderStatusSuccessPart else orderStatusSuccess) f :=
    fillsOf_map fills _
  rw [hreport]
  constructor
  · rintro h ⟨f, hf, htaker, hmaker⟩
    have hagree := (h _ (List.mem_map_of_mem hf)).1
    simp only [report, hmaker, htaker, if_true, statusOf] at hagree
    exact absurd hagree (by decide)
  · intro h x hx
    obtain ⟨f, hf, rfl⟩ := List.mem_map.mp hx
    refine ⟨?_, rfl⟩
    by_cases hmaker : f.makerLeft = 0
    · have htaker : f.takerLeft ≠ 0 := fun htaker => h ⟨f, hf, htaker, hmaker⟩
      simp only [report, if_pos hmaker, statusOf, if_neg htaker]
    · have htaker := (hfill f hf).resolve_left hmaker
      simp only [report, if_neg hmaker, htaker, statusOf_zero]

variable [DecimalRounding] {side : Side} {own ms : List BbOrder}

theorem agrees_market (side : Side) (o : BbOrder) (own ms : List BbOrder) :
    ∀ f ∈ fillsOf (settleMarket side o own ms).2, f.StatusAgrees := by
  cases own with
  | nil => exact agrees_taken _ _
  | cons a own =>
      rw [settleMarket]
      split_ifs
      · exact agrees_taken _ _
      · exact agrees_revokeOf _ _
      · exact agrees_revokeOf _ _
      · simp

/-- The makers add up to a FOK order exactly if a fill exhausts both. -/
theorem filledExactly_iff (hs : Sides side own ms) (hl : Live o)
    (hopen : remaining o = o.trustNumber) :
    FilledExactly side o ms ↔ 2 ≤ (fokSweep side o o ms).fills.length ∧
      ∃ f ∈ (fokSweep side o o ms).fills, f.takerLeft = 0 ∧ f.makerLeft = 0 := by
  have hpos : ∀ m ∈ ms, 0 < averagedMakers.openOf m := fun m hm => (hs.oppLive m hm).pos
  have hexact := fills_exact_iff averagedMakers (crossing side o) none (remaining o) ms rfl hl.pos
    hpos
  rw [← fokSweep, hopen] at hexact
  constructor
  · rintro ⟨pre, hpre, hlen, hcross, hsum⟩
    obtain ⟨hmakers, hboth⟩ := (hexact pre).mpr ⟨hpre, hcross, hsum⟩
    rw [← hmakers, List.length_map] at hlen
    exact ⟨hlen, hboth⟩
  · rintro ⟨hlen, hboth⟩
    obtain ⟨hpre, hcross, hsum⟩ := (hexact _).mp ⟨rfl, hboth⟩
    exact ⟨_, hpre, by rwa [List.length_map], hcross, hsum⟩

/-- The statuses of a FOK order. -/
theorem agrees_fok_iff (hs : Sides side own ms) (hl : Live o)
    (hopen : remaining o = o.trustNumber) :
    (∀ f ∈ fillsOf (fokResult side o own ms (fokSweep side o o ms)).2, f.StatusAgrees) ↔
      ¬ FilledExactly side o ms := by
  have hfill : ∀ f ∈ (fokSweep side o o ms).fills, f.makerLeft = 0 ∨ f.takerLeft = 0 :=
    makerLeft_or_takerLeft averagedMakers (crossing side o) none (remaining o) ms
  have hleft : ∀ f ∈ (fokSweep side o o ms).fills, f.takerLeft = 0 →
      (fokSweep side o o ms).left = 0 :=
    left_of_takerLeft averagedMakers (crossing side o) none (remaining o) ms
  rw [filledExactly_iff hs hl hopen, fokResult]
  by_cases h0 : (fokSweep side o o ms).left = 0
  · rw [if_pos h0]
    by_cases hone : ∃ f, (fokSweep side o o ms).fills = [f]
    · -- The handler reports a single fill itself.
      obtain ⟨f, hf⟩ := hone
      simp only [hf]
      exact iff_of_true (@agrees_fillOf o [f]) (by simp)
    · have hwalk : fokEvents o (fokSweep side o o ms).fills =
          (fokSweep side o o ms).fills.map (walkFillOf o) := by
        rw [fokEvents]
        exact fun f hf => hone ⟨f, hf⟩
      simp only [hwalk]
      rw [agrees_walkFillOf hfill, not_iff_not, iff_and_self]
      rintro ⟨f, hf, -⟩
      have hlen := List.length_pos_of_mem hf
      have hne : (fokSweep side o o ms).fills.length ≠ 1 :=
        fun h => hone (List.length_eq_one_iff.mp h)
      omega
  · rw [if_neg h0]
    refine iff_of_true (agrees_revokeOf _ _) ?_
    rintro ⟨-, f, hf, htaker, -⟩
    exact h0 (hleft f hf htaker)

/-- The statuses of the fills of a call. -/
theorem agrees_settle_iff (hs : Sides side own ms) (hl : Live o)
    (hopen : remaining o = o.trustNumber) :
    (∀ f ∈ fillsOf (settle side o own ms).2, f.StatusAgrees) ↔
      ¬ (o.orderForm = orderFormFok ∧ FilledExactly side o ms) := by
  by_cases hfok : o.orderForm = orderFormFok
  · have hpo : o.orderForm ≠ orderFormPostOnly := by rw [hfok]; decide
    have hioc : o.orderForm ≠ orderFormIoc := by rw [hfok]; decide
    rw [settle, if_neg hpo, if_neg hioc, if_pos hfok, agrees_fok_iff hs hl hopen]
    simp [hfok]
  · refine iff_of_true ?_ fun h => hfok h.1
    rw [settle]
    split_ifs
    · exact agrees_revokeOf _ _
    · simp
    · exact agrees_taken _ _
    · exact agrees_market _ _ _ _
    · exact agrees_fillOf

/-- In every engine that orders lead to, the fills of a call have the statuses that what is
left asks for, exactly if the order is not a FOK order that two or more of the best orders of the
other side fill exactly. -/
theorem statuses_agree_iff {engine : Engine} (h : Reachable engine) (hacc : o.Accepted) :
    ∃ engine' evs, engine.onOrder o = some (engine', evs) ∧
      ((∀ f ∈ fillsOf evs, f.StatusAgrees) ↔
        ¬ (isRevoke o = false ∧
          (engine.books o.symbolKey).containsOrderNo o.trustOrderNo = false ∧
          o.orderForm = orderFormFok ∧
          ∃ s, Side.fromOrderType o.orderType = some s ∧
            FilledExactly s o ((engine.books o.symbolKey).entries s.opp))) := by
  have hinv := h.inv o.symbolKey
  obtain ⟨out, hon, hout⟩ := onBook_handled hinv (Live.of_accepted hacc)
  refine ⟨_, _, onOrder_eq hon, ?_⟩
  cases hout with
  | revoked hrev => exact iff_of_true (by simp [fillsOf_revokeOrder]) (by simp [hrev])
  | ignored hrev hno =>
      refine iff_of_true (by simp) ?_
      rcases hno with hc | hside
      · simp [hc]
      · simp [hside]
  | @settled side hrev hc hi =>
      have hopen : remaining o = o.trustNumber := by rw [remaining, hacc.consumed, sub_zero]
      refine (agrees_settle_iff (hinv.sides side) hi.live hopen).trans (not_congr ?_)
      simp [hrev, hc, hi.code]

end Statuses

/-- A FOK buy of 4 takes a sell of 3 and a part of the next. -/
theorem statuses_agree_iff_part :
    ∃ engine' evs, @Engine.onOrder .schoolbook (@Engine.after .schoolbook
        [testLimit .sell 100 "1" 1 3, testLimit .sell 101 "2" 2 2])
        { testLimit .buy 101 "3" 3 4 with orderForm := orderFormFok } = some (engine', evs) ∧
      ∀ f ∈ fillsOf evs, f.StatusAgrees := by
  obtain ⟨engine', evs, hon, hiff⟩ := @statuses_agree_iff
    { testLimit .buy 101 "3" 3 4 with orderForm := orderFormFok } .schoolbook _
    (@reachable_after .schoolbook [testLimit .sell 100 "1" 1 3, testLimit .sell 101 "2" 2 2]
      (by decide +kernel)) (by decide +kernel)
  refine ⟨engine', evs, hon, hiff.mpr ?_⟩
  rintro ⟨-, -, -, s, hs, pre, hpre, hlen, -, hsum⟩
  obtain rfl : s = .buy := Option.some.inj (hs.symm.trans (by decide))
  have hms : ((@Engine.after .schoolbook [testLimit .sell 100 "1" 1 3,
      testLimit .sell 101 "2" 2 2]).books "btcusdt").entries .sell =
        [testLimit .sell 100 "1" 1 3, testLimit .sell 101 "2" 2 2] := by decide +kernel
  have hall := hpre.eq_of_length_le (hms ▸ hlen)
  rw [hall] at hsum
  exact absurd hsum (by decide +kernel)

/-- One of 5 takes both, and the last fill reports it as partially filled with nothing left. -/
theorem fok_walk_exact_part :
    (@Engine.onOrder .schoolbook (@Engine.after .schoolbook
        [testLimit .sell 100 "1" 1 3, testLimit .sell 101 "2" 2 2])
        { testLimit .buy 101 "3" 3 5 with orderForm := orderFormFok }).map
      (fun r => (fillsOf r.2).map fun f => (f.takerRemaining, f.takerStatus)) =
      some [(2, orderStatusSuccessPart), (0, orderStatusSuccessPart)] := by
  decide +kernel

end MatchCore
