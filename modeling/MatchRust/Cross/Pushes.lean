import MatchRust.Contract.Outbound
import MatchRust.Cross.Agreement
import MatchRust.Hp.TextValue

/-!
# The payloads of both engines

The contract service pushes the events of whichever engine a symbol runs on.  Along a run
that both engines can take, the payloads of a limit order are the same, entry by entry: the
numbers of the orders, the statuses, and the decimals up to the way they are written
(`SamePush`).  This needs scales that the code can hold, and order numbers that are written as
the fixed-point engine writes them back, since it keeps a number and not its text.

The payloads of a revoke request are not the same.  The decimal engine reports what was left
of the order, and for the fixed-point engine the service always writes zero
(`pushesAgree_iff`).
-/

namespace MatchCross

open MatchProtocol MatchCore PriceTime
open MatchCoreHp (SymbolScale HpOrder HpEvent HpCommand HpEngine AdapterError LevelIndex
  LawfulLevelIndex parseId fromBbOrder ExactTexts textValue fromTick fromLot)
open MatchContract (PushOrder pushEvent pushBatch pushHpEvent hpPushBatch fillStatus)

/-! ## Entries that agree -/

/-- Texts of the same number. -/
def SameNumber (a b : String) : Prop :=
  ∃ q, textValue a.toList = some q ∧ textValue b.toList = some q

/-- Payloads with the same order numbers and statuses and equal prices, quantities and
remainders. -/
structure SamePush (a b : PushOrder) : Prop where
  orderNo : a.trustOrderNo = b.trustOrderNo
  targetOrderNo : a.targetTrustOrderNo = b.targetTrustOrderNo
  status : a.orderStatus = b.orderStatus
  targetStatus : a.targetOrderStatus = b.targetOrderStatus
  price : SameNumber a.trustPrice b.trustPrice
  dealPrice : Option.Rel SameNumber a.dealPrice b.dealPrice
  dealNumber : Option.Rel SameNumber a.currentDealNumber b.currentDealNumber
  remaining : SameNumber a.remainingNumber b.remainingNumber
  targetRemaining : Option.Rel SameNumber a.targetRemainingNumber b.targetRemainingNumber

/-- The payloads of a call on both engines agree, entry by entry. -/
def PushesAgree [DecimalRounding] {B A : Type} [LevelIndex B] [LevelIndex A]
    (display : BigDecimal → String) (scale : SymbolScale) (symbol : String) (s : Engines B A)
    (o : BbOrder) (cmd : HpCommand) : Prop :=
  ∃ core evs, s.core.onOrder o = some (core, evs) ∧
    List.Forall₂ SamePush (pushBatch display evs)
      (hpPushBatch symbol scale (s.hp.onOrder cmd).events)

/-- An order number as it is written back: digits, without a sign or a zero in front. -/
def PlainNumber (orderNo : String) : Prop := ∃ n : Nat, orderNo = toString n

theorem PlainNumber.toString_id {orderNo : String} (h : PlainNumber orderNo) {id : Nat}
    (hid : parseId orderNo = .ok id) : orderNo = toString id := by
  obtain ⟨n, rfl⟩ := h
  have hdigit : ∀ c ∈ Nat.toDigits 10 n, c.isDigit = true := fun c hc =>
    Nat.isDigit_of_mem_toDigits (by decide) (by decide) hc
  rw [parseId, MatchCoreHp.toList_toString_nat,
    MatchCoreHp.parseUnsigned_digits Nat.toDigits_ne_nil hdigit,
    Nat.ofDigitChars_ten_toDigits] at hid
  split at hid
  next => cases hid
  next m hm =>
    cases hid
    split at hm
    next => rw [Option.some.inj hm]
    next => cases hm

section Entries

variable {display : BigDecimal → String} {scale : SymbolScale}

theorem sameNumber_price (hdisplay : ExactTexts display) (hp : scale.priceScale ≤ 19)
    (tick : Int) : SameNumber (display (priceOf scale tick)) (fromTick scale tick) :=
  ⟨_, hdisplay _, MatchCoreHp.textValue_fixedText (MatchContract.fixedText_fromTick hp tick)⟩

theorem sameNumber_qty (hdisplay : ExactTexts display) (hq : scale.qtyScale ≤ 19) (lot : Int) :
    SameNumber (display (qtyOf scale lot)) (fromLot scale lot) :=
  ⟨_, hdisplay _, MatchCoreHp.textValue_fixedText (MatchContract.fixedText_fromLot hq lot)⟩

/-- The statuses of both engines. -/
theorem toNat_statusOf (scale : SymbolScale) (lot : Int) :
    (statusOf (qtyOf scale lot)).toNat = fillStatus lot := by
  have hzero : qtyOf scale lot = 0 ↔ lot = 0 := by
    rw [← map_zero (qtyOf scale)]
    exact (qtyOf_strictMono scale).injective.eq_iff
  rw [statusOf, fillStatus]
  by_cases h : lot = 0
  · rw [if_pos h, if_pos (hzero.mpr h)]
  · rw [if_neg h, if_neg (hzero.not.mpr h)]

/-- The payloads of one fill. -/
theorem samePush_fill (hdisplay : ExactTexts display) (hp : scale.priceScale ≤ 19)
    (hq : scale.qtyScale ≤ 19) {slots : String → Nat} {o : BbOrder} {takerId client : Nat}
    {f : PriceTime.Fill BbOrder BigDecimal} {g : PriceTime.Fill HpOrder Int}
    (hfill : Fill.map (coreLine slots) id f = Fill.map (hpLine scale) (qtyOf scale) g)
    (htaker : o.trustOrderNo = toString client) (hmaker : PlainNumber f.maker.trustOrderNo)
    (symbol : String) :
    ∃ push, pushHpEvent symbol scale (MatchCoreHp.fillEvent takerId client g) = some push ∧
      SamePush (pushEvent display (fillOf o f)) push := by
  have hline := congrArg PriceTime.Fill.maker hfill
  have hnumber : parseId f.maker.trustOrderNo = .ok g.maker.clientId := congrArg Line.number hline
  have hprice : f.maker.trustPrice = priceOf scale g.maker.priceTick := congrArg Line.price hline
  have hqty : f.qty = qtyOf scale g.qty := congrArg PriceTime.Fill.qty hfill
  have htleft : f.takerLeft = qtyOf scale g.takerLeft := congrArg PriceTime.Fill.takerLeft hfill
  have hmleft : f.makerLeft = qtyOf scale g.makerLeft := congrArg PriceTime.Fill.makerLeft hfill
  refine ⟨_, rfl, ?_⟩
  simp only [pushEvent, fillOf, fillEvent, hprice, hqty, htleft, hmleft]
  exact
    { orderNo := htaker
      targetOrderNo := congrArg some (hmaker.toString_id hnumber)
      status := toNat_statusOf scale _
      targetStatus := congrArg some (toNat_statusOf scale _)
      price := sameNumber_price hdisplay hp _
      dealPrice := .some (sameNumber_price hdisplay hp _)
      dealNumber := .some (sameNumber_qty hdisplay hq _)
      remaining := sameNumber_qty hdisplay hq _
      targetRemaining := .some (sameNumber_qty hdisplay hq _) }

/-- Orders that come to rest are not pushed. -/
theorem hpPushBatch_rests (symbol : String) (scale : SymbolScale) (left : List HpOrder) :
    hpPushBatch symbol scale (left.map MatchCoreHp.restEvent) = [] := by
  induction left with
  | nil => rfl
  | cons x left ih => exact ih

/-- The payloads of the fills of a sweep. -/
theorem samePushes_fills (hdisplay : ExactTexts display) (hp : scale.priceScale ≤ 19)
    (hq : scale.qtyScale ≤ 19) {slots : String → Nat} {o : BbOrder} {takerId client : Nat}
    {fs : List (PriceTime.Fill BbOrder BigDecimal)} {gs : List (PriceTime.Fill HpOrder Int)}
    (hfills : List.Forall₂ (fun f g =>
      Fill.map (coreLine slots) id f = Fill.map (hpLine scale) (qtyOf scale) g) fs gs)
    (htaker : o.trustOrderNo = toString client)
    (hmakers : ∀ f ∈ fs, PlainNumber f.maker.trustOrderNo) (symbol : String) :
    List.Forall₂ SamePush (pushBatch display (fs.map (fillOf o)))
      (hpPushBatch symbol scale (gs.map (MatchCoreHp.fillEvent takerId client))) := by
  induction hfills with
  | nil => exact .nil
  | cons hfill _ ih =>
      obtain ⟨push, hpush, hsame⟩ := @samePush_fill _ _ hdisplay hp hq _ _ takerId _ _ _ hfill
        htaker (hmakers _ (List.mem_cons_self ..)) symbol
      have ih' := ih fun f hf => hmakers f (List.mem_cons_of_mem _ hf)
      rw [List.map_cons, List.map_cons, hpPushBatch, List.filterMap_cons_some hpush]
      exact .cons hsame ih'

/-- The text of a decimal is no text of another number. -/
theorem not_sameNumber (hdisplay : ExactTexts display) {d : BigDecimal} {text : String} {q : ℚ}
    (htext : textValue text.toList = some q) (hd : d.toRat ≠ q) :
    ¬SameNumber (display d) text := by
  rintro ⟨v, hleft, hright⟩
  rw [htext] at hright
  rw [hdisplay d, ← hright] at hleft
  exact hd (Option.some.inj hleft)

/-- What was left of an order is not zero. -/
theorem not_sameNumber_zero (hdisplay : ExactTexts display) {d : BigDecimal} (hd : 0 < d) :
    ¬SameNumber (display d) "0" := by
  have hpos : 0 < d.toRat := hd
  exact not_sameNumber hdisplay (by decide +kernel : textValue "0".toList = some 0) hpos.ne'

end Entries

/-! ## Calls -/

section Calls

variable {B A : Type} [LevelIndex B] [LevelIndex A] [LawfulLevelIndex .buy B]
  [LawfulLevelIndex .sell A] [DecimalRounding] {display : BigDecimal → String}
  {scale : SymbolScale} {symbol : String} {news : List BbOrder} {s : Engines B A} {o : BbOrder}
  {cmd : HpCommand}

/-- The makers of a sweep came earlier, under plain numbers. -/
theorem LimitCall.plain_makers {side : Side} {own ms : List BbOrder} {tick qty : Int}
    {client : Nat} {x : HpOrder} {sw : Sweep HpOrder Int}
    (hcall : LimitCall scale s o cmd side own ms tick qty client x sw)
    (h : Agree scale o.symbolKey news s) (hplain : ∀ a ∈ news, PlainNumber a.trustOrderNo) :
    ∀ f ∈ (limitSweep side o ms).fills, PlainNumber f.maker.trustOrderNo := by
  intro f hf
  have hm : f.maker ∈ ms :=
    (fills_initial (makersOf side) (crossing side o) none (remaining o) ms).subset
      (List.mem_map_of_mem hf)
  obtain ⟨a, ha, ht⟩ := List.mem_map.mp (h.known side.opp f.maker (hcall.oppSide ▸ hm))
  rw [← trustOrderNo_of_terms ht]
  exact hplain a ha

/-- The payloads of a limit order agree. -/
theorem Agree.pushes_order (h : Agree scale o.symbolKey news s) (hdisplay : ExactTexts display)
    (hp : scale.priceScale ≤ 19) (hq : scale.qtyScale ≤ 19)
    (hrev : isRevoke o = false) (hform : o.orderForm = orderFormLimit) (hacc : o.Accepted)
    (hlater : ∀ a ∈ news, a.createTime < o.createTime)
    (hnew : ∀ a ∈ news, a.trustOrderNo ≠ o.trustOrderNo)
    (hcmd : fromBbOrder display scale o = .ok cmd) (hplainOrder : PlainNumber o.trustOrderNo)
    (hplain : ∀ a ∈ news, PlainNumber a.trustOrderNo) (symbol : String) :
    PushesAgree display scale symbol s o cmd := by
  obtain ⟨side, own, ms, tick, qty, client, x, sw, hcall⟩ :=
    h.limitCall (fun d q => hdisplay.plain) hrev hform hacc hlater hnew hcmd
  refine ⟨_, _, onOrder_eq hcall.book, ?_⟩
  have hfills : List.Forall₂ (fun f g =>
      Fill.map (coreLine s.slots) id f = Fill.map (hpLine scale) (qtyOf scale) g)
      (limitSweep side o ms).fills sw.fills := by
    have hsame : (limitSweep side o ms).fills.map (Fill.map (coreLine s.slots) id) =
        sw.fills.map (Fill.map (hpLine scale) (qtyOf scale)) := congrArg Sweep.fills hcall.same
    rw [← List.forall₂_eq_eq_eq, List.forall₂_map_left_iff, List.forall₂_map_right_iff] at hsame
    exact hsame
  rw [hcall.events, hpPushBatch, List.filterMap_append]
  have hrests := hpPushBatch_rests symbol scale (MatchCoreHp.leftover x sw)
  rw [hpPushBatch] at hrests
  rw [hrests, List.append_nil]
  exact samePushes_fills hdisplay hp hq hfills (hplainOrder.toString_id hcall.scaled.number)
    (hcall.plain_makers h hplain) symbol

omit [LawfulLevelIndex .buy B] [LawfulLevelIndex .sell A] in
/-- Payloads that differ. -/
theorem not_pushesAgree {evs : List MatchEvent}
    (hcore : (s.core.onOrder o).map Prod.snd = some evs)
    (hdiffer : ¬List.Forall₂ SamePush (pushBatch display evs)
      (hpPushBatch symbol scale (s.hp.onOrder cmd).events)) :
    ¬PushesAgree display scale symbol s o cmd := by
  rintro ⟨core, evs', hcore', hagree⟩
  rw [hcore', Option.map_some] at hcore
  cases hcore
  exact hdiffer hagree

/-- The payloads of a revoke request differ in the quantity that was left. -/
theorem Agree.pushes_revoke (h : Agree scale symbol news s) (hdisplay : ExactTexts display)
    {r x : BbOrder} {side : Side} (hsymbol : r.symbolKey = symbol) (hrev : isRevoke r = true)
    (hside : Side.fromOrderType r.orderType = some side)
    (hx : x ∈ (s.core.books symbol).entries side) (hno : x.trustOrderNo = r.trustOrderNo) :
    ¬PushesAgree display scale symbol s r (.cancel (s.slots r.trustOrderNo)) := by
  subst hsymbol
  obtain ⟨l₁, l₂, he⟩ := List.append_of_mem hx
  obtain ⟨hbook, y, pre, post, -, -, -, hevents⟩ := h.revokeCall hrev hside he hno
  have hlive := ((h.core r.symbolKey).sides side).live x hx
  refine not_pushesAgree (by rw [onOrder_eq hbook]; rfl) ?_
  rw [hevents]
  rintro (_ | ⟨hsame, -⟩)
  exact not_sameNumber_zero hdisplay hlive.pos hsame.remaining

/-- **Both engines push the same, except for revokes.**  After every run, the payloads of the
next call agree exactly if it is no revoke request. -/
theorem pushesAgree_iff (hdisplay : ExactTexts display) (hp : scale.priceScale ≤ 19)
    (hq : scale.qtyScale ≤ 19) (hflow : Flow display scale symbol news s)
    (hnext : Admits display scale symbol news s o cmd)
    (hplain : ∀ a ∈ o :: news, PlainNumber a.trustOrderNo) :
    PushesAgree display scale symbol s o cmd ↔ isRevoke o = false := by
  have hagree := hflow.agree fun d q => hdisplay.plain
  cases hnext with
  | order hsymbol hrev hform hacc hlater hnew hcmd hfit =>
      subst hsymbol
      refine iff_of_true ?_ hrev
      exact hagree.pushes_order hdisplay hp hq hrev hform hacc hlater hnew hcmd
        (hplain o (List.mem_cons_self ..)) (fun a ha => hplain a (List.mem_cons_of_mem _ ha)) _
  | revoke hsymbol hrev hside hx hno =>
      refine iff_of_false (hagree.pushes_revoke hdisplay hsymbol hrev hside hx hno) ?_
      rw [hrev]
      decide

end Calls

/-! ## Calls whose payloads differ -/

section Runs

open MatchCoreHp (BTreeBidIndex BTreeAskIndex)
open BigDecimal (display new)

theorem parseFixed_cents :
    MatchCoreHp.parseFixed (display (new 5 2)).toList 20 = .ok 5000000000000000000 :=
  MatchCoreHp.parseFixed_new (by decide) (by decide) (by decide) (by decide) (by decide)

/-- Both engines after an ask at 0.05, with twenty decimal places for prices. -/
def centsAsk : Engines BTreeBidIndex BTreeAskIndex :=
  @Engines.call _ _ _ _ .schoolbook ⟨{}, HpEngine.new, fun _ => 0⟩
    (testLimit .sell (new 5 2) "7" 1 (new 5 0)) (.limit .sell 5000000000000000000 5 1 7)

theorem flow_centsAsk : @Flow _ _ _ _ _ _ display ⟨20, 0⟩ "btcusdt" .schoolbook
    [testLimit .sell (new 5 2) "7" 1 (new 5 0)] centsAsk := by
  have hcmd := @fromBbOrder_testLimit ⟨20, 0⟩ .sell (new 5 2) (new 5 0) "7" 1
    5000000000000000000 5 7 (by decide) (by decide +kernel) parseFixed_cents parseFixed_lots
  exact @Flow.call _ _ _ _ _ _ .schoolbook _ _ _ _ _ _ _
    displayExact_display (@Flow.new _ _ _ _ _ _ _ _ _ .schoolbook)
    (.order rfl (by decide) rfl (by decide +kernel) (by simp) (by simp) hcmd (by decide +kernel))

/-- A run of both engines, with the default texts, and a call after it whose payloads
differ. -/
def Differs (scale : SymbolScale) (news : List BbOrder) (s : Engines BTreeBidIndex BTreeAskIndex)
    (o : BbOrder) (cmd : HpCommand) : Prop :=
  @Flow _ _ _ _ _ _ display scale "btcusdt" .schoolbook news s ∧
    Admits display scale "btcusdt" news s o cmd ∧
    ¬@PushesAgree .schoolbook _ _ _ _ display scale "btcusdt" s o cmd

/-- A revoke request, of which the decimal engine reports the five that were left. -/
theorem differs_revoke : Differs ⟨0, 0⟩ [testLimit .sell 100 "7" 1 5] oneAsk revokeFirst
    (.cancel (oneAsk.slots "7")) := by
  have hx : testLimit .sell 100 "7" 1 5 ∈ (oneAsk.core.books "btcusdt").entries .sell := by
    decide +kernel
  have hcore : (@Engine.onOrder .schoolbook oneAsk.core revokeFirst).map Prod.snd =
      some [.revoke ⟨"7", "btcusdt", 5, "user"⟩] := by decide +kernel
  have hhp : (oneAsk.hp.onOrder (.cancel (oneAsk.slots "7"))).events = [.revoke 1 7 0] := by
    decide +kernel
  refine ⟨flow_oneAsk, .revoke rfl (by decide) (by decide) hx rfl,
    @not_pushesAgree _ _ _ _ .schoolbook _ _ _ _ _ _ _ hcore ?_⟩
  rw [hhp]
  rintro (_ | ⟨hsame, -⟩)
  exact not_sameNumber_zero MatchCoreHp.exactTexts_display (by decide +kernel) hsame.remaining

/-- A bid whose number is written with a zero in front. -/
theorem differs_number : Differs ⟨0, 0⟩ [testLimit .sell 100 "7" 1 5] oneAsk
    (testLimit .buy 100 "09" 2 5) (.limit .buy 100 5 2 9) := by
  have hcmd := @fromBbOrder_hundred .buy "09" 2 9 (by decide) (by decide +kernel)
  have hcore : (@Engine.onOrder .schoolbook oneAsk.core (testLimit .buy 100 "09" 2 5)).map
      Prod.snd = some [.fill ⟨"btcusdt", "09", "7", 1, 1, 100, 5, 0, 0, 1, 1⟩] := by
    decide +kernel
  have hhp : (oneAsk.hp.onOrder (.limit .buy 100 5 2 9)).events = [.fill 1 2 7 9 100 5 0 0] := by
    decide +kernel
  refine ⟨flow_oneAsk, .order rfl (by decide) rfl (by decide +kernel) (by decide +kernel)
    (by decide +kernel) hcmd (by decide +kernel),
    @not_pushesAgree _ _ _ _ .schoolbook _ _ _ _ _ _ _ hcore ?_⟩
  rw [hhp]
  rintro (_ | ⟨hsame, -⟩)
  exact (by decide +kernel : "09" ≠ toString 9) hsame.orderNo

/-- A bid at 0.05, with more decimal places than the code can hold. -/
theorem differs_scale : Differs ⟨20, 0⟩ [testLimit .sell (new 5 2) "7" 1 (new 5 0)] centsAsk
    (testLimit .buy (new 5 2) "9" 2 (new 5 0)) (.limit .buy 5000000000000000000 5 2 9) := by
  have hcmd := @fromBbOrder_testLimit ⟨20, 0⟩ .buy (new 5 2) (new 5 0) "9" 2
    5000000000000000000 5 9 (by decide) (by decide +kernel) parseFixed_cents parseFixed_lots
  have hcore : (@Engine.onOrder .schoolbook centsAsk.core
      (testLimit .buy (new 5 2) "9" 2 (new 5 0))).map Prod.snd =
        some [.fill ⟨"btcusdt", "9", "7", 1, 1, new 5 2, new 5 0, 0, 0, 1, 1⟩] := by
    decide +kernel
  have hhp : (centsAsk.hp.onOrder (.limit .buy 5000000000000000000 5 2 9)).events =
      [.fill 1 2 7 9 5000000000000000000 5 0 0] := by decide +kernel
  have htext : textValue (fromTick ⟨20, 0⟩ 5000000000000000000).toList = some (1 / 2) := by
    decide +kernel
  refine ⟨flow_centsAsk, .order rfl (by decide) rfl (by decide +kernel) (by decide +kernel)
    (by decide +kernel) hcmd (by decide +kernel),
    @not_pushesAgree _ _ _ _ .schoolbook _ _ _ _ _ _ _ hcore ?_⟩
  rw [hhp]
  rintro (_ | ⟨hsame, -⟩)
  exact not_sameNumber MatchCoreHp.exactTexts_display htext (by decide +kernel) hsame.price

/-- The payloads differ for a revoke request, for a number that is not plain, and for a
scale that the code cannot hold. -/
theorem pushes_differ :
    Differs ⟨0, 0⟩ [testLimit .sell 100 "7" 1 5] oneAsk revokeFirst
      (.cancel (oneAsk.slots "7")) ∧
    Differs ⟨0, 0⟩ [testLimit .sell 100 "7" 1 5] oneAsk (testLimit .buy 100 "09" 2 5)
      (.limit .buy 100 5 2 9) ∧
    Differs ⟨20, 0⟩ [testLimit .sell (new 5 2) "7" 1 (new 5 0)] centsAsk
      (testLimit .buy (new 5 2) "9" 2 (new 5 0)) (.limit .buy 5000000000000000000 5 2 9) :=
  ⟨differs_revoke, differs_number, differs_scale⟩

/-- An ask rests and a bid takes it; the payloads of the fill agree. -/
theorem pushesAgree_iff_bid :
    (oneAsk.hp.onOrder (.limit .buy 100 5 2 9)).events = [.fill 1 2 7 9 100 5 0 0] ∧
      @PushesAgree .schoolbook _ _ _ _ display ⟨0, 0⟩ "btcusdt" oneAsk
        (testLimit .buy 100 "9" 2 5) (.limit .buy 100 5 2 9) := by
  have hcmd := @fromBbOrder_hundred .buy "9" 2 9 (by decide) (by decide +kernel)
  have hplain : ∀ a ∈ [testLimit .buy 100 "9" 2 5, testLimit .sell 100 "7" 1 5],
      PlainNumber a.trustOrderNo := by
    intro a ha
    simp only [List.mem_cons, List.not_mem_nil, or_false] at ha
    obtain rfl | rfl := ha
    · exact ⟨9, by decide +kernel⟩
    · exact ⟨7, by decide +kernel⟩
  have hiff := @pushesAgree_iff _ _ _ _ _ _ .schoolbook _ _ _ _ _ _ _
    MatchCoreHp.exactTexts_display (by decide) (by decide) flow_oneAsk
    (.order rfl (by decide) rfl (by decide +kernel) (by decide +kernel) (by decide +kernel) hcmd
      (by decide +kernel)) hplain
  exact ⟨by decide +kernel, hiff.mpr rfl⟩

end Runs

end MatchCross
