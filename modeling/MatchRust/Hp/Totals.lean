import MatchRust.Hp.ArtTree
import MatchRust.Hp.Reference

/-!
# Totals of levels

A level adds the lots of an order that comes and takes off those that are filled or cancelled,
in 64 bits and without a check.  The definitions below list what is computed for a command,
before it is cut to 64 bits, in the order of the source: `fill_order` for each round of the
matching loop, `rest` for what is left of a limit order, `remove_from_level` for a cancel.

Taking off never leaves the range, as every order is part of the total of its level.  Adding
does when the lots at one tick are more than a 64-bit integer, and only then.  A limit order
that finds others at its own tick does not cross, because the book was not crossed before, so
all of its lots are added.
-/

namespace MatchCoreHp

open PriceTime

variable {B A : Type} [LevelIndex B] [LevelIndex A]

/-! ## What is computed -/

namespace Book

/-- Lots are taken off the level of an order. -/
def debitTotals (book : Book B A) (order : HpOrder) (lot : Int) : List Int :=
  match book.level order.side order.priceTick with
  | none => []
  | some level => [level.totalLot - lot]

/-- `fill_order` takes off what is filled. -/
def fillTotals (book : Book B A) (id : Nat) (qtyLot : Int) : List Int :=
  match book.store.get id with
  | none => []
  | some order => book.debitTotals order qtyLot

/-- `cancel` takes off what is open. -/
def cancelTotals (book : Book B A) (id : Nat) : List Int :=
  match book.store.get id with
  | none => []
  | some order => book.debitTotals order order.openLot

/-- `rest` adds what is open, to the level of the tick or to one from the pool. -/
def restTotals (book : Book B A) (id : Nat) : List Int :=
  match book.store.get id with
  | none => []
  | some order =>
      [((book.level order.side order.priceTick).getD book.takeLevel.1).totalLot + order.openLot]

/-- The orders of a client are cancelled. -/
def cancelAllTotals : List Nat → Book B A → List Int
  | [], _ => []
  | slot :: slots, book => book.cancelTotals slot ++ cancelAllTotals slots (book.cancel slot).2

end Book

namespace HpEngine

/-- A round of the matching loop fills the first order of the best level. -/
def roundTotals (e : HpEngine B A) (side : Side) (qtyLot : Int) : List Int :=
  match (e.book.best side.opp).bind (e.book.frontId side.opp) with
  | none => []
  | some makerId => e.book.fillTotals makerId qtyLot

/-- The rounds of the matching loop. -/
def matchTotals (side : Side) (takerId takerClient : Nat) (limitTick : Option Int)
    (maxFills : Option Nat) (fillCount : Nat) (takerOpen : Int) (e : HpEngine B A) : List Int :=
  match _h : matchStep side takerId takerClient limitTick maxFills fillCount takerOpen e with
  | none => []
  | some r =>
      e.roundTotals side (takerOpen - r.1) ++
        matchTotals side takerId takerClient limitTick maxFills (fillCount + 1) r.1 r.2
termination_by takerOpen.toNat
decreasing_by
  have := matchStep_lt _h
  omega

/-- A cancel. -/
def cancelTotals (e : HpEngine B A) (id : Nat) : List Int :=
  match e.book.store.get id with
  | some _ => e.book.cancelTotals id
  | none =>
      match e.clientToId[id]? with
      | none => []
      | some list => Book.cancelAllTotals list e.book

/-- A limit order. -/
def limitTotals (e : HpEngine B A) (side : Side) (priceTick qtyLot : Int) (ts clientId : Nat) :
    List Int :=
  if qtyLot ≤ 0 then []
  else
    let r := e.book.store.insert
      { id := 0, side := side, priceTick := priceTick, qtyLot := qtyLot, openLot := qtyLot,
        ts := ts, clientId := clientId }
    let takerId := r.1
    let e := { e with book := { e.book with store := r.2 } }
    let matched := matchSide side takerId clientId (some priceTick) none e
    matchTotals side takerId clientId (some priceTick) none 0
        (e.book.store.remainingOpen takerId) e ++
      if 0 < matched.book.store.remainingOpen takerId then matched.book.restTotals takerId else []

/-- A market order. -/
def marketTotals (e : HpEngine B A) (side : Side) (qtyLot : Int) (ts : Nat)
    (maxFills : Option Nat) (clientId : Nat) : List Int :=
  if qtyLot ≤ 0 then []
  else
    let r := e.book.store.insert
      { id := 0, side := side, priceTick := 0, qtyLot := qtyLot, openLot := qtyLot,
        ts := ts, clientId := clientId }
    let e := { e with book := { e.book with store := r.2 } }
    matchTotals side r.1 clientId none maxFills 0 (e.book.store.remainingOpen r.1) e

/-- All totals of levels that are computed for a command, before they are cut to 64 bits. -/
def totals (e : HpEngine B A) (cmd : HpCommand) : List Int :=
  let e := { e with events := [] }
  match cmd with
  | .limit side priceTick qtyLot ts clientId => e.limitTotals side priceTick qtyLot ts clientId
  | .cancel id => e.cancelTotals id
  | .market side qtyLot ts maxFills clientId => e.marketTotals side qtyLot ts maxFills clientId

end HpEngine

/-! ## Taking off -/

theorem isI64_of_le {x : Int} (h0 : 0 ≤ x) (h1 : x ≤ i64Max) : IsI64 x := by
  have hmax : i64Max = 2 ^ 63 - 1 := rfl
  exact ⟨by omega, by omega⟩

theorem openLot_le_sumOpen {os : List HpOrder} {o : HpOrder} (hpos : ∀ x ∈ os, 0 < x.openLot)
    (ho : o ∈ os) : o.openLot ≤ sumOpen os := by
  refine List.single_le_sum (fun x hx => ?_) _ (List.mem_map_of_mem ho)
  obtain ⟨y, hy, rfl⟩ := List.mem_map.mp hx
  exact (hpos y hy).le

section Taking

variable {book : Book B A} {q : Queues} {working : List HpOrder} {o : HpOrder} {side : Side}

theorem Represents.sumAt_nonneg {exact : Prop} (h : Represents exact book q working)
    (side : Side) (t : Int) : 0 ≤ sumOpen (atTick t (q side)) :=
  sumOpen_nonneg fun x hx => ((h.side side).live x (mem_atTick.mp hx).1).1

/-- An order is part of the total of its level. -/
theorem Represents.debitTotals (h : Represents True book q working) (ho : o ∈ q side) {lot : Int}
    (h0 : 0 ≤ lot) (hle : lot ≤ o.openLot) : ∀ x ∈ book.debitTotals o lot, IsI64 x := by
  have hside : o.side = side := (h.side side).side_eq o ho
  obtain ⟨level, hl⟩ := h.level_some ho
  have hrep := (h.side side).level_rep o.priceTick
  rw [hl] at hrep
  obtain ⟨htotal, hfit⟩ := hrep.2.2 trivial
  have hpart : o.openLot ≤ sumOpen (atTick o.priceTick (q side)) :=
    openLot_le_sumOpen (fun x hx => ((h.side side).live x (mem_atTick.mp hx).1).1)
      (mem_atTick.mpr ⟨ho, rfl⟩)
  intro x hx
  simp only [Book.debitTotals, hside, hl, List.mem_singleton] at hx
  rw [hx, htotal]
  exact isI64_of_le (by omega) (by omega)

theorem Represents.cancelTotals (h : Represents True book q []) (id : Nat) :
    ∀ x ∈ book.cancelTotals id, IsI64 x := by
  intro x hx
  unfold Book.cancelTotals at hx
  split at hx
  next => cases hx
  next o hget =>
    have ho := (h.mem_of_get hget).1
    exact h.debitTotals ho ((h.side _).live o ho).1.le le_rfl x hx

variable [LawfulLevelIndex .buy B] [LawfulLevelIndex .sell A]

theorem Represents.cancelAllTotals (slots : List Nat) (h : Represents True book q []) :
    ∀ x ∈ Book.cancelAllTotals slots book, IsI64 x := by
  induction slots generalizing book q with
  | nil => exact fun x hx => nomatch hx
  | cons slot slots ih =>
      intro x hx
      rcases List.mem_append.mp hx with hx | hx
      · exact h.cancelTotals slot x hx
      · cases hget : book.store.get slot with
        | none =>
            rw [(h.cancel_dead hget).1] at hx
            exact ih h x hx
        | some o => exact ih (h.cancel_live hget).2 x hx

end Taking

/-! ## Rounds -/

section Rounds

variable {e : HpEngine B A} {q : Queues} {working : List HpOrder} {side : Side}
  {takerId takerClient : Nat} {limitTick : Option Int} {maxFills : Option Nat}

namespace HpEngine

theorem roundTotals_eq {o : HpOrder} (hbest : e.book.best side.opp = some o.priceTick)
    (hfront : e.book.frontId side.opp o.priceTick = some o.id)
    (hget : e.book.store.get o.id = some o) (qtyLot : Int) :
    e.roundTotals side qtyLot = e.book.debitTotals o qtyLot := by
  simp only [roundTotals, hbest, Option.bind_some, hfront, Book.fillTotals, hget]

variable [LawfulLevelIndex .buy B] [LawfulLevelIndex .sell A]

/-- A round fills the first order of the other side, no more of it than is open. -/
theorem matchStep_inv {exact : Prop} (h : Represents exact e.book q working) {fillCount : Nat}
    {takerOpen : Int} {r : Int × HpEngine B A}
    (hr : matchStep side takerId takerClient limitTick maxFills fillCount takerOpen e = some r) :
    ∃ o ∈ q side.opp, e.book.best side.opp = some o.priceTick ∧
      e.book.frontId side.opp o.priceTick = some o.id ∧
      0 ≤ takerOpen - r.1 ∧ takerOpen - r.1 ≤ o.openLot ∧
      ∃ q', Represents exact r.2.book q' working := by
  have hlt := matchStep_lt hr
  have hgo : ¬(capLeft maxFills fillCount = some 0 ∨
      ∀ o ∈ (q side.opp).head?, crosses side limitTick o = false) := by
    intro hstop
    have hnone : matchStep side takerId takerClient limitTick maxFills fillCount takerOpen e =
      none := matchStep_stop h hstop
    rw [hr] at hnone
    cases hnone
  obtain ⟨hcap, hhead⟩ := not_or.mp hgo
  cases hq : q side.opp with
  | nil => exact absurd (by simp [hq]) hhead
  | cons o rest =>
      have hc : crosses side limitTick o = true := by simpa [hq] using hhead
      have hstep : matchStep side takerId takerClient limitTick maxFills fillCount takerOpen e =
        _ := matchStep_go h hcap hlt.1 hq hc
      rw [hr] at hstep
      cases hstep
      have hbest : e.book.best side.opp = some o.priceTick := by
        rw [(h.side side.opp).best_eq, hq]
        rfl
      refine ⟨o, List.mem_cons_self .., hbest, frontId_head h hq, ?_, ?_, ?_⟩
      · have hopen := ((h.side side.opp).live o (hq ▸ List.mem_cons_self ..)).1
        dsimp only
        omega
      · dsimp only
        omega
      · rcases le_or_gt o.openLot takerOpen with hle | hgt
        · rw [min_eq_left hle]
          exact ⟨_, (h.fillOrder_full hq).2⟩
        · rw [min_eq_right hgt.le]
          exact ⟨_, (h.fillOrder_part hq hlt.1 hgt).2⟩

/-- No round leaves the range. -/
theorem matchTotals_isI64 {fillCount : Nat} {takerOpen : Int}
    (h : Represents True e.book q working) :
    ∀ x ∈ matchTotals side takerId takerClient limitTick maxFills fillCount takerOpen e,
      IsI64 x := by
  fun_induction matchTotals side takerId takerClient limitTick maxFills fillCount takerOpen e
    generalizing q with
  | case1 fillCount takerOpen e hr => exact fun x hx => nomatch hx
  | case2 fillCount takerOpen e r hr ih =>
      obtain ⟨o, ho, hbest, hfront, h0, hle, q', h'⟩ := matchStep_inv h hr
      intro x hx
      rw [roundTotals_eq hbest hfront (h.get ho)] at hx
      rcases List.mem_append.mp hx with hx | hx
      · exact h.debitTotals ho h0 hle x hx
      · exact ih h' x hx

end HpEngine

end Rounds

/-! ## Adding -/

section Adding

variable {book : Book B A} {q : Queues} {working : List HpOrder} {side : Side}

/-- The total that an order is added to is the sum of the open lots at its tick. -/
theorem Represents.level_total (h : Represents True book q working) (side : Side) (t : Int) :
    ((book.level side t).getD book.takeLevel.1).totalLot = sumOpen (atTick t (q side)) := by
  have hrep := (h.side side).level_rep t
  cases hl : book.level side t with
  | none =>
      rw [hl] at hrep
      rw [hrep.eq_none_iff.mp rfl, Option.getD_none, (Book.takeLevel_spec h.pool).1]
      rfl
  | some level =>
      rw [hl] at hrep
      exact (hrep.2.2 trivial).1

theorem Represents.restTotals {o : HpOrder} (h : Represents True book q [o]) :
    book.restTotals o.id = [sumOpen (atTick o.priceTick (q o.side)) + o.openLot] := by
  have hget : book.store.get o.id = some o := h.holds.get (List.mem_cons_self ..)
  rw [Book.restTotals, hget, ← h.level_total]

/-- Exact totals are 64-bit integers. -/
theorem Represents.fits (h : Represents True book q working) : q.Fits := by
  intro s t
  have hrep := (h.side s).level_rep t
  cases hl : book.level s t with
  | none =>
      rw [hl] at hrep
      rw [hrep.eq_none_iff.mp rfl]
      decide
  | some level =>
      rw [hl] at hrep
      exact (hrep.2.2 trivial).2

variable {e : HpEngine B A} {priceTick qtyLot : Int} {ts clientId : Nat}

/-- The queues fit with one order more if the sum at its tick does. -/
theorem Queues.Fits.restIn {o : HpOrder} (h : q.Fits) (hr : Ranked side (q side))
    (hfit : sumOpen (atTick o.priceTick (q side)) + o.openLot ≤ i64Max) :
    (q.set side (restIn side o (q side))).Fits := by
  intro s t
  by_cases hs : s = side
  · subst hs
    rw [Queues.set_self, atTick_restIn hr]
    split
    next ht =>
      subst ht
      simpa using hfit
    next => exact h s t
  · rw [Queues.set_ne q hs]
    exact h s t

/-- A limit order that meets others at its own tick fills nothing. -/
theorem Queues.Uncrossed.takerSweep_eq {o : HpOrder} (hu : q.Uncrossed) (ho : o ∈ q side)
    (qtyLot : Int) :
    takerSweep q side (some o.priceTick) none qtyLot = ⟨[], q side.opp, qtyLot⟩ := by
  refine sweep_blocked makers fun m hm => ?_
  exact (Queues.uncrossed_iff side).mp hu o ho m (List.mem_of_mem_head? hm)

/-- What is left fits at the tick exactly if all of it does. -/
theorem Queues.Uncrossed.left_fits_iff (h : Represents True e.book q []) (hu : q.Uncrossed)
    (hpos : 0 < qtyLot) (hqty : qtyLot ≤ i64Max) {left : Int}
    (hleft : left = (takerSweep q side (some priceTick) none qtyLot).left) :
    (0 < left → sumOpen (atTick priceTick (q side)) + left ≤ i64Max) ↔
      sumOpen (atTick priceTick (q side)) + qtyLot ≤ i64Max := by
  constructor
  · intro hfit
    cases hos : atTick priceTick (q side) with
    | nil => simpa using hqty
    | cons o os =>
        obtain ⟨ho, rfl⟩ := mem_atTick.mp (hos ▸ List.mem_cons_self (a := o))
        rw [hu.takerSweep_eq ho] at hleft
        subst hleft
        exact hos ▸ hfit hpos
  · intro hfit _
    have hle : left ≤ qtyLot := hleft ▸ HpEngine.takerSweep_left_le h hpos _ _
    omega

variable [LawfulLevelIndex .buy B] [LawfulLevelIndex .sell A]

/-- The open lots that a book has at a tick. -/
def Book.openAt (book : Book B A) (side : Side) (t : Int) : Int :=
  sumOpen (atTick t (book.queue side))

/-- There is room for a limit order at its tick, whatever it fills before. -/
def HasRoom (e : HpEngine B A) : HpCommand → Prop
  | .limit side priceTick qtyLot _ _ =>
      0 < qtyLot → e.book.openAt side priceTick + qtyLot ≤ i64Max
  | .cancel _ => True
  | .market .. => True

namespace HpEngine

/-- A limit order: the rounds, and then what is left is added at its tick. -/
theorem limitTotals_eq (h : Represents True e.book q []) (side : Side) (priceTick : Int)
    (hpos : 0 < qtyLot) (ts clientId : Nat) {left : Int}
    (hleft : left = (takerSweep q side (some priceTick) none qtyLot).left) :
    ∃ matching : List Int, (∀ x ∈ matching, IsI64 x) ∧
      e.limitTotals side priceTick qtyLot ts clientId =
        matching ++ if 0 < left then [sumOpen (atTick priceTick (q side)) + left] else [] := by
  obtain ⟨o, ho⟩ : ∃ o, o = e.taker side priceTick qtyLot ts clientId := ⟨_, rfl⟩
  obtain ⟨e', he'⟩ : ∃ e' : HpEngine B A, e' = { e with book := { e.book with store :=
    (OrderStore.insert e.book.store { o with id := 0 }).2 } } := ⟨_, rfl⟩
  have hstart : Represents True e'.book q [o] := by
    rw [he', ho]
    exact h.start { e.taker side priceTick qtyLot ts clientId with id := 0 }
  have hswept := admit_swept h hpos ho (some priceTick) none
  rw [← he', ← hleft] at hswept
  obtain ⟨m, hm⟩ : ∃ m, m = matchSide side o.id clientId (some priceTick) none e' := ⟨_, rfl⟩
  rw [← hm] at hswept
  have hopen : m.book.store.remainingOpen o.id = left := remainingOpen_of_holds hswept.book.holds
  have hrest : m.book.restTotals o.id = [sumOpen (atTick priceTick (q side)) + left] := by
    have hrest := hswept.book.restTotals
    subst ho
    rwa [show ({ e.taker side priceTick qtyLot ts clientId with openLot := left } : HpOrder).side =
      side from rfl, Queues.set_opp_self] at hrest
  refine ⟨_, @matchTotals_isI64 _ _ _ _ _ _ _ side o.id clientId (some priceTick) none _ _ 0
    (e'.book.store.remainingOpen o.id) hstart, ?_⟩
  rw [limitTotals, if_neg (not_le.mpr hpos), ← hrest, ← hopen, hm, he', ho]
  rfl

/-- The sums fit after a limit order if what is left of it does at its tick. -/
theorem settle_fits (h : Represents True e.book q []) {o : HpOrder} {sw : Sweep HpOrder Int}
    (hpos : 0 < qtyLot) (ho : o = e.taker side priceTick qtyLot ts clientId)
    (hsw : sw = takerSweep q side (some priceTick) none qtyLot)
    (hfit : 0 < sw.left → sumOpen (atTick priceTick (q side)) + sw.left ≤ i64Max) :
    (q.settle side sw (leftover o sw)).Fits := by
  have hswept := admit_swept h hpos ho (some priceTick) none
  rw [← hsw] at hswept
  rw [leftover]
  split
  next hl =>
    subst ho
    rw [Queues.settle_single]
    refine hswept.book.fits.restIn (hswept.book.side side).ranked ?_
    rw [Queues.set_opp_self]
    exact hfit hl
  next =>
    rw [Queues.settle_nil]
    exact hswept.book.fits

end HpEngine

theorem EngineInv.limit_room (h : EngineInv True e)
    (hroom : 0 < qtyLot → e.book.openAt side priceTick + qtyLot ≤ i64Max) :
    EngineInv True (e.onLimit side priceTick qtyLot ts clientId) := by
  by_cases hpos : 0 < qtyLot
  · have hle : (takerSweep e.book.queue side (some priceTick) none qtyLot).left ≤ qtyLot :=
      HpEngine.takerSweep_left_le h.book hpos _ _
    have hroom := hroom hpos
    refine h.onLimit_fits hpos rfl rfl fun _ => ?_
    refine HpEngine.settle_fits h.book hpos rfl rfl fun _ => ?_
    rw [Book.openAt] at hroom
    omega
  · rw [HpEngine.onLimit, if_pos (not_lt.mp hpos)]
    exact h

/-- A command for which there is room keeps the totals exact. -/
theorem EngineInv.onOrder_room (h : EngineInv True e) {cmd : HpCommand} (hroom : HasRoom e cmd) :
    EngineInv True (e.onOrder cmd) := by
  have h0 : EngineInv True { e with events := [] } := ⟨h.book, h.uncrossed⟩
  cases cmd with
  | limit side priceTick qtyLot ts clientId => exact h0.limit_room hroom
  | cancel id => exact h0.onCancel id
  | market side qtyLot ts maxFills clientId => exact h0.onMarket side qtyLot ts maxFills clientId

theorem Reachable.inv_room (h : Reachable HasRoom e) : EngineInv True e := by
  induction h with
  | new => exact engineInv_new
  | withCapacity => exact engineInv_withCapacity
  | step _ hroom ih => exact ih.onOrder_room hroom

/-! ## Every command -/

/-- The quantity of a command is a 64-bit integer. -/
def HpCommand.QtyFits : HpCommand → Prop
  | .limit _ _ qtyLot _ _ => IsI64 qtyLot
  | .cancel _ => True
  | .market _ qtyLot _ _ _ => IsI64 qtyLot

theorem EngineInv.limitTotals_iff (h : EngineInv True e) (hqty : IsI64 qtyLot) :
    (∀ x ∈ e.limitTotals side priceTick qtyLot ts clientId, IsI64 x) ↔
      (0 < qtyLot → e.book.openAt side priceTick + qtyLot ≤ i64Max) := by
  by_cases hpos : 0 < qtyLot
  · have hmax : i64Max = 2 ^ 63 - 1 := rfl
    obtain ⟨matching, hmatching, heq⟩ :=
      HpEngine.limitTotals_eq h.book side priceTick hpos ts clientId rfl
    have hqty : qtyLot ≤ i64Max := by
      have := hqty.2
      omega
    rw [imp_iff_right hpos, Book.openAt, ← h.uncrossed.left_fits_iff h.book hpos hqty rfl, heq]
    constructor
    · intro hall hl
      have hlt := (hall _ (List.mem_append_right _ (by rw [if_pos hl]; exact List.mem_cons_self))).2
      omega
    · intro hfit x hx
      rcases List.mem_append.mp hx with hx | hx
      · exact hmatching x hx
      · split at hx
        next hl =>
          have h0 := h.book.sumAt_nonneg side priceTick
          rw [List.mem_singleton.mp hx]
          exact isI64_of_le (by omega) (hfit hl)
        next => cases hx
  · rw [HpEngine.limitTotals, if_pos (not_lt.mp hpos)]
    simp [hpos]

theorem EngineInv.cancelTotals (h : EngineInv True e) (id : Nat) :
    ∀ x ∈ e.cancelTotals id, IsI64 x := by
  unfold HpEngine.cancelTotals
  split
  next => exact h.book.cancelTotals id
  next =>
    split
    next => exact fun x hx => nomatch hx
    next list _ => exact h.book.cancelAllTotals list

theorem EngineInv.marketTotals (h : EngineInv True e) (side : Side) (qtyLot : Int) (ts : Nat)
    (maxFills : Option Nat) (clientId : Nat) :
    ∀ x ∈ e.marketTotals side qtyLot ts maxFills clientId, IsI64 x := by
  unfold HpEngine.marketTotals
  split
  next => exact fun x hx => nomatch hx
  next => exact HpEngine.matchTotals_isI64 (h.book.start _)

/-- The totals of a command stay in range exactly if there is room for it. -/
theorem EngineInv.totals_iff (h : EngineInv True e) {cmd : HpCommand} (hqty : cmd.QtyFits) :
    (∀ x ∈ e.totals cmd, IsI64 x) ↔ HasRoom e cmd := by
  have h0 : EngineInv True { e with events := [] } := ⟨h.book, h.uncrossed⟩
  cases cmd with
  | limit side priceTick qtyLot ts clientId => exact h0.limitTotals_iff hqty
  | cancel id => exact iff_of_true (h0.cancelTotals id) trivial
  | market side qtyLot ts maxFills clientId =>
      exact iff_of_true (h0.marketTotals side qtyLot ts maxFills clientId) trivial

/-- Exact totals give the depth, level by level. -/
theorem Represents.depth_eq (h : Represents True book q []) (side : Side) (n : Nat) :
    book.depth side n =
      ((book.priceLevels side).take n).map fun l => (l.tick, sumOpen l.orders) := by
  rw [Book.depth_eq, Book.priceLevels, ← List.map_take, List.map_map]
  refine List.map_congr_left fun p hp => ?_
  have hl := Book.mem_levels.mp (List.mem_of_mem_take hp)
  have hrep := (h.side side).level_rep p.1
  rw [hl] at hrep
  rw [(hrep.2.2 trivial).1, Function.comp_apply, h.ordersAt_eq hl]

/-- In every run whose commands find room, in every state reached, the store, the levels and
their totals agree, and the depth has for each level the sum of the open lots of its orders.
The totals computed for the next command stay in range exactly if there is room for it. -/
theorem totals_in_range_iff (h : Reachable HasRoom e) :
    e.book.Sound ∧
      (∀ side n, e.book.depth side n =
        ((e.book.priceLevels side).take n).map fun l => (l.tick, sumOpen l.orders)) ∧
      ∀ cmd : HpCommand, cmd.QtyFits → ((∀ x ∈ e.totals cmd, IsI64 x) ↔ HasRoom e cmd) := by
  have hinv := h.inv_room
  exact ⟨hinv.book.sound hinv.uncrossed, hinv.book.depth_eq, fun _ hqty => hinv.totals_iff hqty⟩

end Adding

/-- Two bids of the largest quantity but one and of one lot, at one tick. -/
theorem totals_in_range_full :
    let e := ((HpEngine.new : BTreeEngine).onOrder (.limit .buy 100 (2 ^ 63 - 2) 1 7)).onOrder
      (.limit .buy 100 1 2 8)
    e.book.depth .buy 1 = [(100, 2 ^ 63 - 1)] ∧ ∀ x ∈ e.totals (.cancel 1), IsI64 x := by
  have hreach : Reachable HasRoom (((HpEngine.new : BTreeEngine).onOrder
      (.limit .buy 100 (2 ^ 63 - 2) 1 7)).onOrder (.limit .buy 100 1 2 8)) := by
    refine .step (.step .new ?_) ?_
    · intro _
      decide +kernel
    · intro _
      decide +kernel
  obtain ⟨-, hdepth, htotals⟩ := totals_in_range_iff hreach
  refine ⟨?_, (htotals (.cancel 1) trivial).mpr trivial⟩
  rw [hdepth]
  decide +kernel

/-- Two bids of the largest quantity at one tick: the depth shows a negative sum. -/
theorem depth_negative :
    let e := (HpEngine.new : BTreeEngine).onOrder (.limit .buy 100 (2 ^ 63 - 1) 1 7)
    let cmd : HpCommand := .limit .buy 100 (2 ^ 63 - 1) 2 8
    e.totals cmd = [2 ^ 64 - 2] ∧ ¬IsI64 (2 ^ 64 - 2) ∧
      ((e.onOrder cmd).book.priceLevels .buy).map (fun l => (l.tick, sumOpen l.orders)) =
        [(100, 2 ^ 64 - 2)] ∧
      (e.onOrder cmd).book.depth .buy 1 = [(100, -2)] := by
  decide +kernel

end MatchCoreHp
