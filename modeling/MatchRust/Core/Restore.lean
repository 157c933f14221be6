import MatchRust.Core.Resting
import MatchRust.Core.Simulation

/-!
# Restoring a book

The resting orders of a symbol are submitted to an empty engine as new limit orders for
what is left of them, in any order.  None of them crosses another, so there are no events,
and the priorities do not depend on the order of arrival: the restored book has the same
orders in the same places (`restore_in_any_order`).

Later calls read of a resting order its side, price, time, number, symbol and user type,
what it has open, and whether it is a market order (`OpenAlike`).  So they give the same
events on both engines.
-/

namespace MatchCore

open MatchProtocol PriceTime OrderBook

/-! ## What later calls see -/

/-- Two orders that look the same to later calls. -/
structure OpenAlike (a b : BbOrder) : Prop where
  orderType : b.orderType = a.orderType
  trustPrice : b.trustPrice = a.trustPrice
  createTime : b.createTime = a.createTime
  trustOrderNo : b.trustOrderNo = a.trustOrderNo
  symbolKey : b.symbolKey = a.symbolKey
  type : b.type = a.type
  remaining : remaining b = remaining a
  market : b.orderForm = orderFormMarketPrice ↔ a.orderForm = orderFormMarketPrice

theorem OpenAlike.refl (o : BbOrder) : OpenAlike o o :=
  ⟨rfl, rfl, rfl, rfl, rfl, rfl, rfl, Iff.rfl⟩

theorem atPrice_id (evs : List MatchEvent) : evs.map (MatchEvent.atPrice id) = evs := by
  have hid : MatchEvent.atPrice id = id := by
    funext ev
    cases ev <;> rfl
  rw [hid, List.map_id]

section Later

variable [DecimalRounding]

theorem alike_open : Alike id id OpenAlike where
  turn_opp _ := rfl
  signed _ _ := rfl
  orderNo h := h.trustOrderNo
  symbol h := h.symbolKey
  userType h := h.type
  time h := h.createTime
  opens h := h.remaining
  trustPrice h := h.trustPrice
  code h := by rw [h.orderType, Option.map_id]; rfl
  market h := h.market
  maker {a b} s s' q h := by
    have hr : remaining ((makersOf s').reduce q b) = remaining ((makersOf s).reduce q a) := by
      rw [← openOf_makersOf s', ← openOf_makersOf s, MakerOps.openOf_reduce,
        MakerOps.openOf_reduce, openOf_makersOf, openOf_makersOf, h.remaining]
    cases s <;> cases s' <;> exact ⟨h.orderType, h.trustPrice, h.createTime, h.trustOrderNo,
      h.symbolKey, h.type, hr, h.market⟩
  taker q p p' h := by
    refine ⟨h.orderType, h.trustPrice, h.createTime, h.trustOrderNo, h.symbolKey, h.type, ?_,
      h.market⟩
    rw [remaining_takerPart, remaining_takerPart, h.remaining]

/-- An order settles alike on books that look the same. -/
theorem settles_open (o : BbOrder) : Alike.Settles id id OpenAlike o o := by
  intro side own own' ms ms' hown hms
  by_cases hm : o.orderForm = orderFormMarketPrice
  · rw [id, settle_market hm, settle_market hm]
    exact alike_open.settleMarket (OpenAlike.refl _) rfl hown hms
  · exact alike_open.settle (OpenAlike.refl o) rfl hm hown hms

/-- The calls of a symbol have the same events on engines whose books of the symbol look the
same. -/
theorem trace_open (symbol : String) (os : List BbOrder) : ∀ {engine engine' : Engine},
    EngineInv engine → EngineInv engine' →
    (engine.books symbol).Rel id OpenAlike (engine'.books symbol) → (∀ o ∈ os, o.Accepted) →
    ∃ next next' evs evs', engine.trace os = some (next, evs) ∧
      engine'.trace os = some (next', evs') ∧
      (os.zip evs').filter (fun c => c.1.symbolKey = symbol) =
        (os.zip evs).filter fun c => c.1.symbolKey = symbol := by
  induction os with
  | nil => exact fun _ _ _ _ => ⟨_, _, [], [], rfl, rfl, rfl⟩
  | cons o os ih =>
      intro engine engine' hinv hinv' hrel hacc
      have hl := Live.of_accepted (hacc o (List.mem_cons_self ..))
      have hacc' : ∀ x ∈ os, x.Accepted := fun x hx => hacc x (List.mem_cons_of_mem _ hx)
      by_cases hs : o.symbolKey = symbol
      · subst hs
        obtain ⟨next, next', evs, hon, hon', hnext⟩ := alike_open.onOrder hinv hinv' hrel
          (OpenAlike.refl o) rfl (fun _ => settles_open o) hl hl
        rw [atPrice_id] at hon'
        obtain ⟨last, last', rest, rest', htr, htr', hrest⟩ :=
          ih (hinv.onOrder hl hon) (hinv'.onOrder hl hon') (hnext _ hrel) hacc'
        refine ⟨last, last', evs :: rest, evs :: rest', Engine.trace_cons hon htr,
          Engine.trace_cons hon' htr', ?_⟩
        simp [hrest]
      · obtain ⟨next, evs, hon, hnext⟩ := engineInv_onOrder hinv hl
        obtain ⟨next', evs', hon', hnext'⟩ := engineInv_onOrder hinv' hl
        have hrel' : (next.books symbol).Rel id OpenAlike (next'.books symbol) := by
          rw [(onOrder_some hon).2 symbol (Ne.symm hs), (onOrder_some hon').2 symbol (Ne.symm hs)]
          exact hrel
        obtain ⟨last, last', rest, rest', htr, htr', hrest⟩ := ih hnext hnext' hrel' hacc'
        refine ⟨last, last', evs :: rest, evs' :: rest', Engine.trace_cons hon htr,
          Engine.trace_cons hon' htr', ?_⟩
        simp [hs, hrest]

end Later

/-! ## Orders that do not meet -/

/-- Orders of different numbers that do not cross. -/
def Apart (a b : BbOrder) : Prop :=
  a.trustOrderNo ≠ b.trustOrderNo ∧
    ∀ side, Side.fromOrderType a.orderType = some side →
      Side.fromOrderType b.orderType = some side.opp →
      side.crosses a.trustPrice b.trustPrice = false

theorem Apart.symm {a b : BbOrder} (h : Apart a b) : Apart b a := by
  refine ⟨h.1.symm, fun side hb ha => ?_⟩
  have hcr := h.2 side.opp ha (by rwa [Side.opp_opp])
  rw [Side.crosses_eq_false, Side.opp_opp, add_comm] at hcr
  exact Side.crosses_eq_false.mpr hcr

/-- The orders of a book do not meet. -/
theorem BookInv.pairwise_apart {book : OrderBook} (h : BookInv book) :
    (book.buys ++ book.sells).Pairwise Apart := by
  have hside : ∀ {side : Side} {l : List BbOrder}, SideSorted side l →
      (∀ o ∈ l, Side.fromOrderType o.orderType = some side) → l.Pairwise Apart := by
    intro side l hs hcode
    have hn := List.pairwise_map.mp hs.nodup
    refine hn.imp_of_mem fun {a b} ha hb hne => ⟨hne, fun s hsa hsb => ?_⟩
    rw [hcode a ha] at hsa
    rw [hcode b hb, ← Option.some.inj hsa] at hsb
    exact absurd (Option.some.inj hsb) (Side.ne_opp side)
  refine List.pairwise_append.mpr ⟨hside h.sorted h.code, hside h.oppSorted h.oppCode, ?_⟩
  intro a ha b hb
  refine ⟨h.distinct a ha b hb, fun s hsa _ => ?_⟩
  rw [h.code a ha] at hsa
  rw [← Option.some.inj hsa]
  exact h.apart a ha b hb

/-! ## New limit orders -/

/-- A new limit order for a symbol. -/
structure NewLimit (symbol : String) (o : BbOrder) : Prop where
  /-- A positive quantity, all of it open. -/
  accepted : o.Accepted
  /-- No request to revoke. -/
  new : isRevoke o = false
  /-- A limit order. -/
  form : o.orderForm = orderFormLimit
  /-- Of the symbol. -/
  symbolKey : o.symbolKey = symbol

/-- The orders of a side among some. -/
def ofSide (side : Side) (os : List BbOrder) : List BbOrder :=
  os.filter fun o => Side.fromOrderType o.orderType = some side

section Submit

variable [DecimalRounding] {symbol : String}

/-- A new limit order that meets no order of the book rests. -/
theorem onOrder_apart {engine : Engine} (hinv : EngineInv engine) {o : BbOrder}
    (hnew : NewLimit symbol o) {side : Side} (hside : Side.fromOrderType o.orderType = some side)
    (hap : ∀ s, ∀ x ∈ (engine.books symbol).entries s, Apart o x) :
    ∃ next, engine.onOrder o = some (next, []) ∧
      next.books symbol = ofSides side (place side o ((engine.books symbol).entries side))
        ((engine.books symbol).entries side.opp) := by
  obtain ⟨hacc, hrev, hform, rfl⟩ := hnew
  have hl := Live.of_accepted hacc
  have hinv' := hinv o.symbolKey
  have hfresh : (engine.books o.symbolKey).containsOrderNo o.trustOrderNo = false := by
    rw [containsOrderNo_eq_false]
    exact fun s x hx => (hap s x hx).1.symm
  have hcross : ∀ m ∈ (engine.books o.symbolKey).entries side.opp,
      side.crosses o.trustPrice m.trustPrice = false :=
    fun m hm => (hap side.opp m hm).2 side hside ((hinv'.sides side).oppCode m hm)
  have hset : settle side o ((engine.books o.symbolKey).entries side)
        ((engine.books o.symbolKey).entries side.opp) =
      (ofSides side (place side o ((engine.books o.symbolKey).entries side))
        ((engine.books o.symbolKey).entries side.opp), []) := by
    rw [settle, hform, if_neg (by decide), if_neg (by decide), if_neg (by decide),
      if_neg (by decide), limitSweep_of_apart hcross]
    simp [rested, hl.pos.ne']
  have hon := onBook_eq_settle hinv' hl hside hrev hfresh
  rw [hset] at hon
  exact ⟨_, onOrder_eq hon, Function.update_self ..⟩

/-- New limit orders that do not meet come to rest, all of them and without an event. -/
theorem trace_apart (os : List BbOrder) : ∀ {engine : Engine}, EngineInv engine →
    (∀ o ∈ os, NewLimit symbol o) →
    (∀ o ∈ os, ∃ side, Side.fromOrderType o.orderType = some side) →
    (∀ o ∈ os, ∀ s, ∀ x ∈ (engine.books symbol).entries s, Apart o x) → os.Pairwise Apart →
    ∃ next, engine.trace os = some (next, os.map fun _ => []) ∧ EngineInv next ∧
      ∀ s, ((next.books symbol).entries s).Perm
        ((engine.books symbol).entries s ++ ofSide s os) := by
  induction os with
  | nil =>
      intro engine hinv _ _ _ _
      exact ⟨engine, rfl, hinv, fun s => by simp [ofSide]⟩
  | cons o os ih =>
      intro engine hinv hnew hside hap hpw
      obtain ⟨hhead, htail⟩ := List.pairwise_cons.mp hpw
      obtain ⟨side, hcode⟩ := hside o (List.mem_cons_self ..)
      have ho := hnew o (List.mem_cons_self ..)
      obtain ⟨next, hon, hbook⟩ := onOrder_apart hinv ho hcode (hap o (List.mem_cons_self ..))
      have hentries : ∀ s, ((next.books symbol).entries s).Perm
          ((engine.books symbol).entries s ++ ofSide s [o]) := by
        intro s
        rw [hbook]
        rcases Side.eq_or_eq_opp side s with rfl | rfl
        · have hone : ofSide s [o] = [o] := by simp [ofSide, hcode]
          rw [entries_ofSides, hone]
          exact (List.perm_orderedInsert _ o _).trans (List.perm_append_singleton o _).symm
        · have hnone : ofSide side.opp [o] = [] := by simp [ofSide, hcode]
          rw [entries_ofSides_opp, hnone, List.append_nil]
      have hap' : ∀ x ∈ os, ∀ s, ∀ y ∈ (next.books symbol).entries s, Apart x y := by
        intro x hx s y hy
        rcases List.mem_append.mp ((hentries s).subset hy) with hy | hy
        · exact hap x (List.mem_cons_of_mem _ hx) s y hy
        · have hyo : y = o := List.mem_singleton.mp (List.mem_of_mem_filter hy)
          rw [hyo]
          exact (hhead x hx).symm
      obtain ⟨last, htr, hlast, hperm⟩ := ih (hinv.onOrder (Live.of_accepted ho.accepted) hon)
        (fun x hx => hnew x (List.mem_cons_of_mem _ hx))
        (fun x hx => hside x (List.mem_cons_of_mem _ hx)) hap' htail
      have hcons : ∀ s, ofSide s (o :: os) = ofSide s [o] ++ ofSide s os := by
        intro s
        rw [ofSide, ofSide, ofSide, ← List.filter_append]
        rfl
      refine ⟨last, Engine.trace_cons hon htr, hlast, fun s => (hperm s).trans ?_⟩
      rw [hcons, ← List.append_assoc]
      exact (hentries s).append_right _

end Submit

/-! ## Restoring -/

/-- The second order is the first one submitted again: a new limit order of the same side,
price, time and number, for what is left of the first. -/
structure Resubmits (a b : BbOrder) : Prop where
  new : NewLimit a.symbolKey b
  quantity : b.trustNumber = a.remainingNumber
  orderType : b.orderType = a.orderType
  trustPrice : b.trustPrice = a.trustPrice
  createTime : b.createTime = a.createTime
  trustOrderNo : b.trustOrderNo = a.trustOrderNo
  type : b.type = a.type

namespace Resubmits

variable {a b : BbOrder}

theorem rank_eq (h : Resubmits a b) (side : Side) : rank side b = rank side a := by
  rw [rank, rank, h.trustPrice, h.createTime, h.trustOrderNo]

/-- An order that is submitted again looks the same to later calls. -/
theorem openAlike (h : Resubmits a b) (hl : Live a) (hm : a.orderForm ≠ orderFormMarketPrice) :
    OpenAlike a b := by
  refine ⟨h.orderType, h.trustPrice, h.createTime, h.trustOrderNo, h.new.symbolKey, h.type, ?_, ?_⟩
  · rw [← (Live.of_accepted h.new.accepted).field, h.new.accepted.remaining, h.quantity, hl.field]
  · rw [h.new.form]
    exact iff_of_false (by decide) hm

theorem apart {c d : BbOrder} (hab : Resubmits a b) (hcd : Resubmits c d) (h : Apart a c) :
    Apart b d := by
  rw [Apart, hab.trustOrderNo, hcd.trustOrderNo, hab.orderType, hcd.orderType, hab.trustPrice,
    hcd.trustPrice]
  exact h

end Resubmits

/-- The orders of a side are those with its code. -/
theorem BookInv.ofSide_eq {book : OrderBook} (h : BookInv book) (side : Side) :
    ofSide side (book.buys ++ book.sells) = book.entries side := by
  have hself : ofSide side (book.entries side) = book.entries side := by
    refine List.filter_eq_self.mpr fun o ho => ?_
    exact decide_eq_true ((h.sides side).code o ho)
  have hopp : ofSide side (book.entries side.opp) = [] := by
    refine List.filter_eq_nil_iff.mpr fun o ho => ?_
    simp [(h.sides side).oppCode o ho]
  rw [ofSide, List.filter_append]
  cases side with
  | buy => exact (congrArg₂ _ hself hopp).trans (List.append_nil _)
  | sell => exact congrArg₂ _ hopp hself

section Restore

variable [DecimalRounding] {symbol : String}

/-- The resting orders of a symbol, submitted to an empty engine as new limit orders in any
order, come to rest without an event in the places they had, with what they had left.  Later
calls have the same events. -/
theorem restore_in_any_order {engine : Engine} (h : Reachable engine)
    (hplain : ∀ s, ∀ a ∈ (engine.books symbol).entries s, a.orderForm ≠ orderFormMarketPrice)
    {as bs : List BbOrder}
    (hperm : as.Perm ((engine.books symbol).buys ++ (engine.books symbol).sells))
    (hbs : List.Forall₂ Resubmits as bs) :
    ∃ restored, Engine.trace {} bs = some (restored, bs.map fun _ => []) ∧
      (∀ s, List.Forall₂ Resubmits ((engine.books symbol).entries s)
        ((restored.books symbol).entries s)) ∧
      ∀ os : List BbOrder, (∀ o ∈ os, o.Accepted) →
        ∃ next next' evs evs', engine.trace os = some (next, evs) ∧
          restored.trace os = some (next', evs') ∧
          (os.zip evs').filter (fun c => c.1.symbolKey = symbol) =
            (os.zip evs).filter fun c => c.1.symbolKey = symbol := by
  have hinv := h.inv symbol
  -- Every order that is submitted is one of the book.
  have hfrom : ∀ b ∈ bs, ∃ a s, a ∈ (engine.books symbol).entries s ∧ Resubmits a b := by
    intro b hb
    obtain ⟨a, ha, hab⟩ := Paired.exists_of_mem_right hbs hb
    rcases List.mem_append.mp (hperm.subset ha) with ha | ha
    · exact ⟨a, .buy, ha, hab⟩
    · exact ⟨a, .sell, ha, hab⟩
  have hnew : ∀ b ∈ bs, NewLimit symbol b := by
    intro b hb
    obtain ⟨a, s, ha, hab⟩ := hfrom b hb
    rw [← h.symbols symbol s a ha]
    exact hab.new
  have hside : ∀ b ∈ bs, ∃ side, Side.fromOrderType b.orderType = some side := by
    intro b hb
    obtain ⟨a, s, ha, hab⟩ := hfrom b hb
    rw [hab.orderType]
    exact ⟨s, (hinv.sides s).code a ha⟩
  have hapart : bs.Pairwise Apart := by
    have has : as.Pairwise Apart := hinv.pairwise_apart.perm hperm.symm Apart.symm
    exact Paired.pairwise_right (fun hab hcd hac => hab.apart hcd hac) hbs has
  have hempty : ∀ b ∈ bs, ∀ s, ∀ x ∈ (({} : Engine).books symbol).entries s, Apart b x := by
    intro b _ s x hx
    cases s <;> exact absurd hx List.not_mem_nil
  obtain ⟨restored, htr, hrinv, hrperm⟩ := trace_apart bs engineInv_new hnew hside hempty hapart
  have hpaired : ∀ s, List.Forall₂ Resubmits ((engine.books symbol).entries s)
      ((restored.books symbol).entries s) := by
    intro s
    have hown : ((engine.books symbol).entries s).Perm (ofSide s as) := by
      rw [← hinv.ofSide_eq s]
      exact (hperm.filter _).symm
    have hpairs : List.Forall₂ Resubmits (ofSide s as) (ofSide s bs) :=
      List.rel_filter (fun a b hab => by simp [hab.orderType]) hbs
    have hrest : (ofSide s bs).Perm ((restored.books symbol).entries s) := by
      have hnil : (({} : Engine).books symbol).entries s = [] := by cases s <;> rfl
      have hs := hrperm s
      rw [hnil, List.nil_append] at hs
      exact hs.symm
    exact Paired.forall₂_of_sorted (fun hab => hab.rank_eq s) (hinv.sides s).sorted.sorted
      ((hrinv symbol).sides s).sorted.sorted hown hpairs hrest
  refine ⟨restored, htr, hpaired, fun os hacc => trace_open symbol os h.inv hrinv ?_ hacc⟩
  intro s
  have hboth := (List.forall₂_and_left _ _).mpr ⟨fun a ha => ha, hpaired s⟩
  exact hboth.imp fun a b hab => hab.2.openAlike ((hinv.sides s).live a hab.1) (hplain s a hab.1)

end Restore

/-- Two sells, the first of them partly filled, are submitted again the other way round. -/
theorem restore_in_any_order_two :
    ∃ restored, @Engine.trace .schoolbook {} [testLimit .sell 101 "2" 2 5,
        testLimit .sell 100 "1" 1 3] = some (restored, [[], []]) ∧
      ∀ s, List.Forall₂ Resubmits (((@Engine.after .schoolbook [testLimit .sell 100 "1" 1 5,
          testLimit .sell 101 "2" 2 5, testLimit .buy 100 "3" 3 2]).books "btcusdt").entries s)
        ((restored.books "btcusdt").entries s) := by
  have hbook : (@Engine.after .schoolbook [testLimit .sell 100 "1" 1 5,
      testLimit .sell 101 "2" 2 5, testLimit .buy 100 "3" 3 2]).books "btcusdt" =
      { sells := [{ testLimit .sell 100 "1" 1 5 with
          consumerAllNumber := 2, remainingNumber := 3 }, testLimit .sell 101 "2" 2 5] } := by
    decide +kernel
  have hplain : ∀ s, ∀ a ∈ ((@Engine.after .schoolbook [testLimit .sell 100 "1" 1 5,
      testLimit .sell 101 "2" 2 5, testLimit .buy 100 "3" 3 2]).books "btcusdt").entries s,
      a.orderForm ≠ orderFormMarketPrice := by
    intro s
    rw [hbook]
    cases s <;> decide +kernel
  obtain ⟨restored, htr, hpaired, -⟩ := @restore_in_any_order .schoolbook "btcusdt" _
    (@reachable_after .schoolbook [testLimit .sell 100 "1" 1 5, testLimit .sell 101 "2" 2 5,
      testLimit .buy 100 "3" 3 2] (by decide +kernel)) hplain
    [testLimit .sell 101 "2" 2 5,
      { testLimit .sell 100 "1" 1 5 with consumerAllNumber := 2, remainingNumber := 3 }]
    [testLimit .sell 101 "2" 2 5, testLimit .sell 100 "1" 1 3]
    (by rw [hbook]; exact List.Perm.swap ..)
    (.cons ⟨⟨by decide +kernel, rfl, rfl, rfl⟩, rfl, rfl, rfl, rfl, rfl, rfl⟩
      (.cons ⟨⟨by decide +kernel, rfl, rfl, rfl⟩, rfl, rfl, rfl, rfl, rfl, rfl⟩ .nil))
  exact ⟨restored, htr, hpaired⟩

end MatchCore
