import MatchRust.Core.Engine
import MatchRust.Lib.Sweep

/-!
# A taker at the front of its side

The loops of the engine never name a taker.  They match whatever is best on
both sides.  Here we fix the state they work in (`Front`): the incoming order
heads its side, and the other orders of its side do not cross the makers.  From
such a state one match is one step of a sweep (`AheadStep`), and a loop that
matches until it has to stop is the whole sweep (`TakerLoop.run`).
-/

namespace MatchCore

open MatchProtocol PriceTime OrderBook

/-! ## What matching leaves alone -/

/-- The fields of an order that no match changes. -/
def terms (o : BbOrder) : BbOrder :=
  { o with
    orderStatus := 0
    consumerAllNumber := 0
    currentDealNumber := 0
    remainingNumber := 0
    averagePrice := 0 }

section Terms

variable {a b : BbOrder}

theorem trustOrderNo_of_terms (h : terms a = terms b) : a.trustOrderNo = b.trustOrderNo :=
  (congrArg BbOrder.trustOrderNo h :)

theorem trustPrice_of_terms (h : terms a = terms b) : a.trustPrice = b.trustPrice :=
  (congrArg BbOrder.trustPrice h :)

theorem orderForm_of_terms (h : terms a = terms b) : a.orderForm = b.orderForm :=
  (congrArg BbOrder.orderForm h :)

theorem orderType_of_terms (h : terms a = terms b) : a.orderType = b.orderType :=
  (congrArg BbOrder.orderType h :)

theorem trustNumber_of_terms (h : terms a = terms b) : a.trustNumber = b.trustNumber :=
  (congrArg BbOrder.trustNumber h :)

theorem rank_of_terms {side : Side} (h : terms a = terms b) : rank side a = rank side b :=
  (congrArg (rank side) h :)

/-- Sortedness only reads the terms. -/
theorem SideSorted.of_terms {side : Side} {l l' : List BbOrder} (h : SideSorted side l)
    (hs : (l'.map terms).Sublist (l.map terms)) : SideSorted side l' := by
  have hr : ∀ l : List BbOrder, l.map (rank side) = (l.map terms).map (rank side) :=
    fun l => by rw [List.map_map]; rfl
  have hn : ∀ l : List BbOrder,
      l.map (·.trustOrderNo) = (l.map terms).map (·.trustOrderNo) :=
    fun l => by rw [List.map_map]; rfl
  constructor
  · have hp := List.pairwise_map.mpr h.sorted
    rw [hr] at hp
    have hp' : (l'.map (rank side)).Pairwise (· < ·) := by
      rw [hr]
      exact hp.sublist (hs.map _)
    exact List.pairwise_map.mp hp'
  · have hd := h.nodup
    rw [hn] at hd ⊢
    exact hd.sublist (hs.map _)

end Terms

/-! ## Makers and takers -/

section Sweeping

variable [DecimalRounding]

omit [DecimalRounding] in
/-- Makers whose average price is left as it is. -/
def plainMakers : MakerOps BbOrder BigDecimal where
  openOf := remaining
  reduce q m := makerPart m q
  openOf_reduce q m := (sub_sub m.trustNumber m.consumerAllNumber q).symm

/-- Makers whose average price is kept up. -/
def averagedMakers : MakerOps BbOrder BigDecimal where
  openOf := remaining
  reduce q m := makerPartAvg m q
  openOf_reduce q m := (sub_sub m.trustNumber m.consumerAllNumber q).symm

/-- The makers of a taker on this side. -/
def makersOf : Side → MakerOps BbOrder BigDecimal
  | .buy => plainMakers
  | .sell => averagedMakers

@[simp] theorem openOf_makersOf (side : Side) (m : BbOrder) :
    (makersOf side).openOf m = remaining m := by
  cases side <;> rfl

@[simp] theorem terms_reduce (side : Side) (q : BigDecimal) (m : BbOrder) :
    terms ((makersOf side).reduce q m) = terms m := by
  cases side <;> rfl

@[simp] theorem terms_takerPart (o : BbOrder) (qty price : BigDecimal) :
    terms (takerPart o qty price) = terms o := rfl

@[simp] theorem remaining_takerPart (o : BbOrder) (qty price : BigDecimal) :
    remaining (takerPart o qty price) = remaining o - qty :=
  (sub_sub o.trustNumber o.consumerAllNumber qty).symm

/-- A taker after some fills that leave it open. -/
def takeFills (o : BbOrder) (fills : List (PriceTime.Fill BbOrder BigDecimal)) : BbOrder :=
  fills.foldl (fun o f => takerPart o f.qty f.maker.trustPrice) o

@[simp] theorem takeFills_nil (o : BbOrder) : takeFills o [] = o := rfl

@[simp] theorem takeFills_cons (o : BbOrder) (f : PriceTime.Fill BbOrder BigDecimal)
    (fs : List (PriceTime.Fill BbOrder BigDecimal)) :
    takeFills o (f :: fs) = takeFills (takerPart o f.qty f.maker.trustPrice) fs := rfl

@[simp] theorem terms_takeFills (o : BbOrder) (fs : List (PriceTime.Fill BbOrder BigDecimal)) :
    terms (takeFills o fs) = terms o := by
  induction fs generalizing o with
  | nil => rfl
  | cons f fs ih => rw [takeFills_cons, ih, terms_takerPart]

theorem remaining_takeFills (o : BbOrder) (fs : List (PriceTime.Fill BbOrder BigDecimal)) :
    remaining (takeFills o fs) = remaining o - (fs.map PriceTime.Fill.qty).sum := by
  induction fs generalizing o with
  | nil => simp
  | cons f fs ih => rw [takeFills_cons, ih, remaining_takerPart, List.map_cons, List.sum_cons,
      sub_sub]

omit [DecimalRounding] in
/-- The status of an order that has this much left. -/
def statusOf (left : BigDecimal) : Int :=
  if left = 0 then orderStatusSuccess else orderStatusSuccessPart

omit [DecimalRounding] in
/-- The event of a fill. -/
def fillOf (t : BbOrder) (f : PriceTime.Fill BbOrder BigDecimal) : MatchEvent :=
  fillEvent t.symbolKey t f.maker f.maker.trustPrice f.qty f.takerLeft f.makerLeft
    (statusOf f.takerLeft) (statusOf f.makerLeft)

omit [DecimalRounding] in
theorem fillOf_of_terms {a b : BbOrder} (h : terms a = terms b) : fillOf a = fillOf b := by
  have hs : a.symbolKey = b.symbolKey := (congrArg BbOrder.symbolKey h :)
  have ht : a.type = b.type := (congrArg BbOrder.type h :)
  funext f
  simp [fillOf, fillEvent, hs, ht, trustOrderNo_of_terms h]

/-! ## The state of a loop -/

omit [DecimalRounding] in
/-- The taker `t` heads its side, before the orders `own`, and the makers `ms`
are on the other side, whatever their quantities. -/
structure Ahead (side : Side) (t : BbOrder) (own ms : List BbOrder) : Prop where
  /-- The taker's side is sorted. -/
  sorted : SideSorted side (t :: own)
  /-- So are the makers. -/
  makers : SideSorted side.opp ms
  /-- The taker carries the code of its side. -/
  code : Side.fromOrderType t.orderType = some side
  /-- So do the makers. -/
  makerCode : ∀ m ∈ ms, Side.fromOrderType m.orderType = some side.opp
  /-- The taker's number is not the number of a maker. -/
  fresh : ∀ m ∈ ms, m.trustOrderNo ≠ t.trustOrderNo
  /-- The other orders of the side do not cross. -/
  apart : ∀ a ∈ own, ∀ m ∈ ms, side.crosses a.trustPrice m.trustPrice = false

namespace Ahead

variable {side : Side} {t t' m : BbOrder} {own ms : List BbOrder}

omit [DecimalRounding] in
/-- The front maker is gone and the quantities of the taker are others. -/
theorem next (h : Ahead side t own (m :: ms)) (ht : terms t' = terms t) : Ahead side t' own ms where
  sorted := h.sorted.replace_head (rank_of_terms ht) (trustOrderNo_of_terms ht)
  makers := h.makers.tail
  code := by rw [orderType_of_terms ht]; exact h.code
  makerCode n hn := h.makerCode n (List.mem_cons_of_mem _ hn)
  fresh n hn := by rw [trustOrderNo_of_terms ht]; exact h.fresh n (List.mem_cons_of_mem _ hn)
  apart a ha n hn := h.apart a ha n (List.mem_cons_of_mem _ hn)

omit [DecimalRounding] in
/-- The quantities of the front maker are others. -/
theorem replace_maker {m' : BbOrder} (h : Ahead side t own (m :: ms)) (hm : terms m' = terms m) :
    Ahead side t own (m' :: ms) where
  sorted := h.sorted
  makers := h.makers.replace_head (rank_of_terms hm) (trustOrderNo_of_terms hm)
  code := h.code
  makerCode n hn := by
    rcases List.mem_cons.mp hn with rfl | hn
    · rw [orderType_of_terms hm]
      exact h.makerCode m (List.mem_cons_self ..)
    · exact h.makerCode n (List.mem_cons_of_mem _ hn)
  fresh n hn := by
    rcases List.mem_cons.mp hn with rfl | hn
    · rw [trustOrderNo_of_terms hm]
      exact h.fresh m (List.mem_cons_self ..)
    · exact h.fresh n (List.mem_cons_of_mem _ hn)
  apart a ha n hn := by
    rcases List.mem_cons.mp hn with rfl | hn
    · rw [trustPrice_of_terms hm]
      exact h.apart a ha m (List.mem_cons_self ..)
    · exact h.apart a ha n (List.mem_cons_of_mem _ hn)

omit [DecimalRounding] in
/-- The taker is not among the other orders of its side. -/
theorem own_ne (h : Ahead side t own ms) : ∀ a ∈ own, a.trustOrderNo ≠ t.trustOrderNo :=
  fun a ha => (h.sorted.head_ne a ha).symm

omit [DecimalRounding] in
/-- Nobody else has the taker's number. -/
theorem others_ne (h : Ahead side t own ms) : ∀ x ∈ own ++ ms, x.trustOrderNo ≠ t.trustOrderNo :=
  fun x hx => (List.mem_append.mp hx).elim (h.own_ne x) (h.fresh x)

omit [DecimalRounding] in
theorem others_ne_of_terms {o : BbOrder} (h : Ahead side t own ms) (ht : terms t = terms o) :
    ∀ x ∈ own ++ ms, x.trustOrderNo ≠ o.trustOrderNo := by
  rw [← trustOrderNo_of_terms ht]
  exact h.others_ne

omit [DecimalRounding] in
/-- A taker taken off the front goes back there after a match. -/
theorem insert_taker (h : Ahead side t own (m :: ms)) (ht : terms t' = terms t) :
    ((ofSides side own ms).insert t').2 = ofSides side (t' :: own) ms := by
  have hnext := h.next ht
  rw [insert_front hnext.code (by simpa using hnext.sorted)]
  simp

omit [DecimalRounding] in
/-- So does a maker. -/
theorem insert_maker (h : Ahead side t own (m :: ms)) (m' : BbOrder) (hm : terms m' = terms m) :
    ((ofSides side own ms).insert m').2 = ofSides side own (m' :: ms) := by
  have hnext := h.replace_maker hm
  rw [insert_front (hnext.makerCode m' (List.mem_cons_self ..)) (by simpa using hnext.makers)]
  simp

omit [DecimalRounding] in
theorem revoke_taker (h : Ahead side t own ms) :
    (ofSides side (t :: own) ms).removeByOrderNo side t.trustOrderNo =
      (some t, ofSides side own ms) := by
  rw [removeByOrderNo_head (entries_ofSides ..) h.sorted]
  simp

end Ahead

omit [DecimalRounding] in
/-- Taker and makers are open. -/
structure Front (side : Side) (t : BbOrder) (own ms : List BbOrder) : Prop
    extends Ahead side t own ms where
  /-- The taker is open. -/
  live : 0 < remaining t
  /-- So are the makers. -/
  makerLive : ∀ m ∈ ms, 0 < remaining m

namespace Front

variable {side : Side} {t t' m : BbOrder} {own ms : List BbOrder}

omit [DecimalRounding] in
/-- The front maker is gone and the taker has less left. -/
theorem next (h : Front side t own (m :: ms)) (ht : terms t' = terms t) (hl : 0 < remaining t') :
    Front side t' own ms :=
  ⟨h.toAhead.next ht, hl, fun n hn => h.makerLive n (List.mem_cons_of_mem _ hn)⟩

end Front

/-! ## One match -/

/-- `step` matches the front taker with the front maker. -/
structure AheadStep (side : Side) (step : OrderBook → List MatchEvent × OrderBook) : Prop where
  /-- The taker is larger: it stays with the rest. -/
  more : ∀ {t m own ms}, Ahead side t own (m :: ms) → t.orderForm ≠ orderFormFok →
    remaining m < remaining t →
    step (ofSides side (t :: own) (m :: ms)) =
      ([fillOf t ⟨m, remaining m, remaining t - remaining m, 0⟩],
        ofSides side (takerPart t (remaining m) m.trustPrice :: own) ms)
  /-- The maker is larger: it stays with the rest. -/
  part : ∀ {t m own ms}, Ahead side t own (m :: ms) → remaining t < remaining m →
    step (ofSides side (t :: own) (m :: ms)) =
      ([fillOf t ⟨m, remaining t, 0, remaining m - remaining t⟩],
        ofSides side own ((makersOf side).reduce (remaining t) m :: ms))
  /-- Both are filled. -/
  exact : ∀ {t m own ms}, Ahead side t own (m :: ms) → remaining m = remaining t →
    step (ofSides side (t :: own) (m :: ms)) =
      ([fillOf t ⟨m, remaining t, 0, 0⟩], ofSides side own ms)

omit [DecimalRounding] in
theorem statusOf_sub {x y : BigDecimal} (h : x < y) : statusOf (y - x) = orderStatusSuccessPart :=
  if_neg (sub_pos.mpr h).ne'

omit [DecimalRounding] in
theorem statusOf_zero : statusOf 0 = orderStatusSuccess := if_pos rfl

theorem ratherThanBuy_front (t m : BbOrder) (own ms : List BbOrder) :
    ratherThanBuy (ofSides .buy (t :: own) (m :: ms)) =
      if remaining m < remaining t then
        let t' := takerPart t (remaining m) m.trustPrice
        (some (fillEvent t.symbolKey t' m m.trustPrice (remaining m) t'.remainingNumber 0
          orderStatusSuccessPart orderStatusSuccess), ((ofSides .buy own ms).insert t').2)
      else if remaining t < remaining m then lessThanBuy (ofSides .buy own ms) t m (remaining t)
      else (equalsBuy t m (remaining t) (remaining m), ofSides .buy own ms) := rfl

theorem ratherThanSell_front {t : BbOrder} (m : BbOrder) (own ms : List BbOrder)
    (hf : remaining m < remaining t → t.orderForm ≠ orderFormFok) :
    ratherThanSell (ofSides .sell (t :: own) (m :: ms)) =
      if remaining m < remaining t then
        let t' := takerPart t (remaining m) m.trustPrice
        (.fill (fillEvent t.symbolKey t' m m.trustPrice (remaining m) t'.remainingNumber 0
          orderStatusSuccessPart orderStatusSuccess), ((ofSides .sell own ms).insert t').2)
      else if remaining t < remaining m then
        let r := lessThanSell (ofSides .sell own ms) m t (remaining t)
        (.fill r.1, r.2)
      else (.fill (equalsSell m t (remaining t)), ofSides .sell own ms) := by
  have hu : ratherThanSell (ofSides .sell (t :: own) (m :: ms)) =
      if remaining m < remaining t then
        if t.orderForm = orderFormFok then _ else _
      else _ := rfl
  rw [hu]
  by_cases hlt : remaining m < remaining t
  · rw [if_pos hlt, if_pos hlt, if_neg (hf hlt)]
    rfl
  · rw [if_neg hlt, if_neg hlt]
    rfl

theorem aheadStep_buy : AheadStep .buy pushRatherThanBuy where
  more {t m own ms} h _ hlt := by
    have hins := h.insert_taker (terms_takerPart t (remaining m) m.trustPrice)
    rw [pushRatherThanBuy, ratherThanBuy_front, if_pos hlt]
    simp only [hins, fillOf, statusOf_sub hlt, statusOf_zero]
    simp [fillEvent, takerPart, remaining, sub_sub]
  part {t m own ms} h hlt := by
    have hins := h.insert_maker _ (terms_reduce .buy (remaining t) m)
    rw [pushRatherThanBuy, ratherThanBuy_front, if_neg (not_lt_of_gt hlt), if_pos hlt]
    simp only [makersOf, plainMakers] at hins ⊢
    simp only [lessThanBuy, hins, fillOf, statusOf_sub hlt, statusOf_zero]
    simp [fillEvent, takerFull, makerPart, remaining, sub_sub]
  exact {t m own ms} h he := by
    rw [pushRatherThanBuy, ratherThanBuy_front, if_neg (by simp [he]), if_neg (by simp [he])]
    simp [equalsBuy, fillOf, fillEvent, takerFull, statusOf_zero]

theorem aheadStep_sell : AheadStep .sell pushRatherThanSell where
  more {t m own ms} h hf hlt := by
    have hins := h.insert_taker (terms_takerPart t (remaining m) m.trustPrice)
    rw [pushRatherThanSell, ratherThanSell_front _ _ _ fun _ => hf, if_pos hlt]
    simp only [hins, fillOf, statusOf_sub hlt, statusOf_zero]
    simp [fillEvent, takerPart, remaining, sub_sub]
  part {t m own ms} h hlt := by
    have hins := h.insert_maker _ (terms_reduce .sell (remaining t) m)
    rw [pushRatherThanSell, ratherThanSell_front _ _ _ fun h => absurd h (not_lt_of_gt hlt),
      if_neg (not_lt_of_gt hlt), if_pos hlt]
    simp only [makersOf, averagedMakers] at hins ⊢
    simp only [lessThanSell, hins, fillOf, statusOf_sub hlt, statusOf_zero]
    simp [fillEvent, takerFull, makerPartAvg, remaining, sub_sub]
  exact {t m own ms} h he := by
    rw [pushRatherThanSell, ratherThanSell_front _ _ _ fun h => absurd h (by simp [he]),
      if_neg (by simp [he]), if_neg (by simp [he])]
    simp [equalsSell, fillOf, fillEvent, takerFull, statusOf_zero]

/-- One match, by side. -/
def pushRatherThan : Side → OrderBook → List MatchEvent × OrderBook
  | .buy => pushRatherThanBuy
  | .sell => pushRatherThanSell

theorem aheadStep (side : Side) : AheadStep side (pushRatherThan side) := by
  cases side with
  | buy => exact aheadStep_buy
  | sell => exact aheadStep_sell

/-! ## Loops -/

/-- A loop that matches the taker `o`, ahead of the orders `own`.  `loop` is one
iteration and `next` is what follows a match, both with the number of fills that
are still allowed, one of `caps`.  `rest` is what the loop does with a taker
that is not filled. -/
structure TakerLoop (side : Side) (o : BbOrder) (own : List BbOrder) (crosses : BbOrder → Bool)
    (caps : Option Nat → Prop)
    (loop next : Option Nat → Nat → OrderBook → List MatchEvent → Outcome)
    (rest : Option Nat → BbOrder → List BbOrder → List MatchEvent → Outcome) : Prop where
  /-- A fill uses up one of those allowed. -/
  pred : ∀ {cap}, caps cap → caps (cap.map Nat.pred)
  /-- While it crosses, the taker is matched. -/
  go : ∀ {cap n t m ms evs}, caps cap → terms t = terms o → Ahead side t own (m :: ms) →
    cap ≠ some 0 → crosses m = true →
    loop cap (n + 1) (ofSides side (t :: own) (m :: ms)) evs =
      let r := pushRatherThan side (ofSides side (t :: own) (m :: ms))
      next (cap.map Nat.pred) n r.2 (evs ++ r.1)
  /-- After a match the loop goes on with the rest of the taker, -/
  resume : ∀ {cap n t ms evs}, caps cap → terms t = terms o → Ahead side t own ms →
    cap ≠ some 0 →
    next cap n (ofSides side (t :: own) ms) evs = loop cap n (ofSides side (t :: own) ms) evs
  /-- unless it had its fills. -/
  capped : ∀ {n t ms evs}, caps (some 0) → terms t = terms o → Ahead side t own ms →
    next (some 0) n (ofSides side (t :: own) ms) evs = rest (some 0) t ms evs
  /-- The taker does not cross. -/
  stop : ∀ {cap n t ms evs}, caps cap → terms t = terms o → Ahead side t own ms →
    cap ≠ some 0 → (∀ m ∈ ms.head?, crosses m = false) →
    loop cap (n + 1) (ofSides side (t :: own) ms) evs = rest cap t ms evs
  /-- The taker is filled. -/
  filled : ∀ {cap n ms evs}, (∀ x ∈ own ++ ms, x.trustOrderNo ≠ o.trustOrderNo) →
    (∀ a ∈ own, ∀ m ∈ ms, side.crosses a.trustPrice m.trustPrice = false) →
    next cap (n + 1) (ofSides side own ms) evs = some (ofSides side own ms, evs)

/-- What a loop makes of a sweep. -/
def TakerLoop.result (side : Side) (o t : BbOrder) (own : List BbOrder)
    (rest : Option Nat → BbOrder → List BbOrder → List MatchEvent → Outcome) (cap : Option Nat)
    (r : Sweep BbOrder BigDecimal) (evs : List MatchEvent) : Outcome :=
  let evs := evs ++ r.fills.map (fillOf o)
  if r.left = 0 then some (ofSides side own r.book, evs)
  else rest (cap.map (· - r.fills.length)) (takeFills t r.fills) r.book evs

theorem TakerLoop.result_cons (side : Side) (o t : BbOrder) (own : List BbOrder)
    (rest : Option Nat → BbOrder → List BbOrder → List MatchEvent → Outcome) (cap : Option Nat)
    (f : PriceTime.Fill BbOrder BigDecimal) (r : Sweep BbOrder BigDecimal)
    (evs : List MatchEvent) :
    result side o t own rest cap (.cons f r) evs =
      result side o (takerPart t f.qty f.maker.trustPrice) own rest (cap.map Nat.pred) r
        (evs ++ [fillOf o f]) := by
  have hcap : cap.map (· - (r.fills.length + 1)) = (cap.map Nat.pred).map (· - r.fills.length) := by
    cases cap with
    | none => rfl
    | some k => exact congrArg some (by simp only [Nat.pred_eq_sub_one]; omega)
  simp [result, Sweep.cons, hcap]

/-- Such a loop is a sweep of the makers. -/
theorem TakerLoop.run {side : Side} {o : BbOrder} {own : List BbOrder} {crosses : BbOrder → Bool}
    {caps : Option Nat → Prop}
    {loop next : Option Nat → Nat → OrderBook → List MatchEvent → Outcome}
    {rest : Option Nat → BbOrder → List BbOrder → List MatchEvent → Outcome}
    (L : TakerLoop side o own crosses caps loop next rest) (hform : o.orderForm ≠ orderFormFok)
    (ms : List BbOrder) : ∀ {cap : Option Nat} {n : Nat} {t : BbOrder} (evs : List MatchEvent),
      caps cap → terms t = terms o → Front side t own ms → cap ≠ some 0 → ms.length + 2 ≤ n →
      loop cap n (ofSides side (t :: own) ms) evs =
        TakerLoop.result side o t own rest cap
          (sweep (makersOf side) crosses cap (remaining t) ms) evs := by
  induction ms with
  | nil =>
      intro cap n t evs hok ht hF hcap hn
      obtain ⟨n, rfl⟩ : ∃ k, n = k + 1 := ⟨n - 1, by omega⟩
      rw [L.stop hok ht hF.toAhead hcap (by simp)]
      simp [TakerLoop.result, hF.live.ne']
  | cons m ms ih =>
      intro cap n t evs hok ht hF hcap hn
      obtain ⟨n, rfl⟩ : ∃ k, n = k + 1 + 1 := ⟨n - 2, by omega⟩
      by_cases hc : crosses m = true
      case neg =>
        rw [Bool.not_eq_true] at hc
        rw [L.stop hok ht hF.toAhead hcap (by simpa using hc), sweep_stop _ (Or.inr hc)]
        simp [TakerLoop.result, hF.live.ne']
      rw [L.go hok ht hF.toAhead hcap hc]
      rcases lt_trichotomy (remaining m) (remaining t) with hlt | heq | hgt
      · -- The maker is exhausted.
        have ht' : terms (takerPart t (remaining m) m.trustPrice) = terms o := ht
        have hlive : 0 < remaining (takerPart t (remaining m) m.trustPrice) := by
          rw [remaining_takerPart]
          exact sub_pos.mpr hlt
        have hF' := hF.next (terms_takerPart t (remaining m) m.trustPrice) hlive
        have hform' : t.orderForm ≠ orderFormFok := by rwa [orderForm_of_terms ht]
        rw [(aheadStep side).more hF.toAhead hform' hlt,
          sweep_more _ hcap hc (by rwa [openOf_makersOf])]
        simp only [openOf_makersOf]
        by_cases hcap' : cap.map Nat.pred = some 0
        · rw [hcap', L.capped (hcap' ▸ L.pred hok) ht' hF'.toAhead, sweep_capped, result_cons,
            hcap']
          simp [TakerLoop.result, fillOf_of_terms ht, (sub_pos.mpr hlt).ne']
        · rw [L.resume (L.pred hok) ht' hF'.toAhead hcap',
            ih _ (L.pred hok) ht' hF' hcap' (by simp at hn; omega), result_cons,
            remaining_takerPart, fillOf_of_terms ht]
      · -- Both are.
        rw [(aheadStep side).exact hF.toAhead heq, sweep_exact _ hcap hc (by rwa [openOf_makersOf]),
          L.filled ((hF.toAhead.next rfl).others_ne_of_terms ht) (hF.toAhead.next rfl).apart]
        simp [TakerLoop.result, fillOf_of_terms ht]
      · -- The taker is.
        have hF' := hF.toAhead.replace_maker (terms_reduce side (remaining t) m)
        rw [(aheadStep side).part hF.toAhead hgt, sweep_part _ hcap hc (by rwa [openOf_makersOf]),
          L.filled (hF'.others_ne_of_terms ht) hF'.apart]
        simp [TakerLoop.result, fillOf_of_terms ht]

end Sweeping

end MatchCore
