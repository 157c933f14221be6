import MatchRust.Core.Simulation

/-!
# Buys and sells

The handlers of the two sides are written twice in the source, and not alike.  Here we swap
the sides of all orders and negate their prices, and show that nothing else changes: the
events are the same ones at the negated prices, call by call, and the books are each other's
mirror image (`trace_mirror`).  Only the average prices may differ, since a buy that takes
a part of a sell does not keep up the average of the sell.

Market orders are left out.  A market buy gets a price of its own.
-/

namespace MatchCore

open MatchProtocol OrderBook

/-- The code of the other side.  A code that is no side stays. -/
def swapOrderType (code : Int) : Int :=
  if code = orderTypeBuy then orderTypeSell else if code = orderTypeSell then orderTypeBuy else code

/-- The order on the other side at the negated price. -/
def mirror (o : BbOrder) : BbOrder :=
  { o with orderType := swapOrderType o.orderType, trustPrice := -o.trustPrice }

/-- The second order is the mirror image of the first, whatever its average price. -/
def Mirrored (a b : BbOrder) : Prop := ∃ average, b = { mirror a with averagePrice := average }

theorem fromOrderType_swap (code : Int) :
    Side.fromOrderType (swapOrderType code) = (Side.fromOrderType code).map Side.opp := by
  rw [swapOrderType]
  split_ifs with hbuy hsell
  · rw [hbuy]
    rfl
  · rw [hsell]
    rfl
  · have hnone : Side.fromOrderType code = none := (if_neg hbuy).trans (if_neg hsell)
    rw [hnone]
    rfl

theorem mirrored_mirror (o : BbOrder) : Mirrored o (mirror o) := ⟨o.averagePrice, rfl⟩

section Mirror

variable [DecimalRounding]

/-- Mirror images match alike. -/
theorem alike_mirrored : Alike Side.opp (fun p => -p) Mirrored where
  turn_opp _ := rfl
  signed side p := by
    cases side with
    | buy => rfl
    | sell => exact neg_neg p
  orderNo := by rintro a b ⟨x, rfl⟩; rfl
  symbol := by rintro a b ⟨x, rfl⟩; rfl
  userType := by rintro a b ⟨x, rfl⟩; rfl
  time := by rintro a b ⟨x, rfl⟩; rfl
  opens := by rintro a b ⟨x, rfl⟩; rfl
  trustPrice := by rintro a b ⟨x, rfl⟩; rfl
  code := by rintro a b ⟨x, rfl⟩; exact fromOrderType_swap a.orderType
  market := by rintro a b ⟨x, rfl⟩; rfl
  maker := by
    rintro a b s s' q ⟨x, rfl⟩
    cases s <;> cases s' <;> exact ⟨_, rfl⟩
  taker := by rintro a b q p p' ⟨x, rfl⟩; exact ⟨_, rfl⟩

/-- An order that is no market order settles like its mirror image. -/
theorem settles_mirror {o : BbOrder} (hform : o.orderForm ≠ orderFormMarketPrice) :
    Alike.Settles Side.opp (fun p => -p) Mirrored o (mirror o) :=
  fun _ _ _ _ _ hown hms => alike_mirrored.settle (mirrored_mirror o) rfl hform hown hms

/-- The mirror images of the orders of a run, from engines that are mirror images. -/
theorem trace_mirror_from (os : List BbOrder) : ∀ {engine engine' : Engine}, EngineInv engine →
    EngineInv engine' →
    (∀ symbol, (engine.books symbol).Rel Side.opp Mirrored (engine'.books symbol)) →
    (∀ o ∈ os, o.Accepted) →
    (∀ o ∈ os, isRevoke o = true ∨ o.orderForm ≠ orderFormMarketPrice) →
    ∃ next next' evs, engine.trace os = some (next, evs) ∧
      engine'.trace (os.map mirror) =
        some (next', evs.map (List.map (MatchEvent.atPrice fun p => -p))) ∧
      ∀ symbol, (next.books symbol).Rel Side.opp Mirrored (next'.books symbol) := by
  induction os with
  | nil => exact fun _ _ hrel _ _ => ⟨_, _, [], rfl, rfl, hrel⟩
  | cons o os ih =>
      intro engine engine' hinv hinv' hrel hacc hform
      have ho := hacc o (List.mem_cons_self ..)
      have hl : Live o := Live.of_accepted ho
      have hl' : Live (mirror o) := Live.of_accepted ⟨ho.pos, ho.remaining, ho.consumed⟩
      have hset : isRevoke o = false →
          Alike.Settles Side.opp (fun p => -p) Mirrored o (mirror o) := by
        intro hrev
        refine settles_mirror ((hform o (List.mem_cons_self ..)).resolve_left ?_)
        rw [hrev]
        decide
      obtain ⟨next, next', evs, hon, hon', hnext⟩ :=
        alike_mirrored.onOrder hinv hinv' (hrel _) (mirrored_mirror o) rfl hset hl hl'
      obtain ⟨last, last', rest, htr, htr', hlast⟩ := ih (hinv.onOrder hl hon)
        (hinv'.onOrder hl' hon') (fun symbol => hnext symbol (hrel symbol))
        (fun x hx => hacc x (List.mem_cons_of_mem _ hx))
        (fun x hx => hform x (List.mem_cons_of_mem _ hx))
      exact ⟨last, last', evs :: rest, Engine.trace_cons hon htr, Engine.trace_cons hon' htr',
        hlast⟩

/-- Swapping all sides and negating all prices gives the same events at negated prices, call
by call, and the mirror images of the books. -/
theorem trace_mirror (os : List BbOrder) (hacc : ∀ o ∈ os, o.Accepted)
    (hform : ∀ o ∈ os, isRevoke o = true ∨ o.orderForm ≠ orderFormMarketPrice) :
    ∃ engine engine' evs, Engine.trace {} os = some (engine, evs) ∧
      Engine.trace {} (os.map mirror) =
        some (engine', evs.map (List.map (MatchEvent.atPrice fun p => -p))) ∧
      ∀ symbol side, List.Forall₂ Mirrored ((engine.books symbol).entries side)
        ((engine'.books symbol).entries side.opp) := by
  refine trace_mirror_from os engineInv_new engineInv_new (fun symbol side => ?_) hacc hform
  cases side <;> exact .nil

end Mirror

/-- A sell, a FOK buy that takes a part of it, and a revoke of the rest. -/
theorem trace_mirror_three :
    ∃ engine engine' evs,
      @Engine.trace .schoolbook {} [testLimit .sell 100 "1" 1 5,
        { testLimit .buy 101 "2" 2 3 with orderForm := 5 },
        { testLimit .sell 100 "1" 3 5 with orderStatus := 3 }] = some (engine, evs) ∧
      @Engine.trace .schoolbook {} ([testLimit .sell 100 "1" 1 5,
        { testLimit .buy 101 "2" 2 3 with orderForm := 5 },
        { testLimit .sell 100 "1" 3 5 with orderStatus := 3 }].map mirror) =
        some (engine', evs.map (List.map (MatchEvent.atPrice fun p => -p))) ∧
      ∀ symbol side, List.Forall₂ Mirrored ((engine.books symbol).entries side)
        ((engine'.books symbol).entries side.opp) :=
  @trace_mirror .schoolbook _ (by decide +kernel) (by decide +kernel)

end MatchCore
