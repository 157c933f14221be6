import MatchRust.Hp.Engine
import MatchRust.Hp.Represents
import MatchRust.Lib.Sweep

/-!
# The matching loop is a sweep

One round of the loop reads the cached best tick, the front of that level and
the maker in the store.  In a book that represents queues these lead to the
first order of the other side.  The fill then does to the queue what a step of
a sweep does, so the loop is the sweep of the other side.
-/

namespace MatchCoreHp

open PriceTime

/-- Orders as makers. -/
def makers : MakerOps HpOrder Int where
  openOf := HpOrder.openLot
  reduce := HpOrder.reduce
  openOf_reduce := fun _ _ => rfl

/-- A taker of this side and limit crosses a maker. -/
def crosses (side : Side) (limitTick : Option Int) (o : HpOrder) : Bool :=
  !HpEngine.beyond side o.priceTick limitTick

/-- The event of a fill. -/
def fillEvent (takerId takerClient : Nat) (f : Fill HpOrder Int) : HpEvent :=
  .fill f.maker.id takerId f.maker.clientId takerClient f.maker.priceTick f.qty f.makerLeft
    f.takerLeft

/-- The client index after the fills.  A filled maker is dropped from its client,
unless that is client zero. -/
def dropFilled (index : ClientIndex) (fills : List (Fill HpOrder Int)) : ClientIndex :=
  fills.foldl (fun index f =>
    if f.makerLeft = 0 ∧ f.maker.clientId ≠ 0 then index.drop f.maker.clientId f.maker.id
    else index) index

/-- What a cap still allows after so many fills. -/
def capLeft (maxFills : Option Nat) (fillCount : Nat) : Option Nat :=
  maxFills.map fun n => n - fillCount

theorem capLeft_succ (maxFills : Option Nat) (fillCount : Nat) :
    (capLeft maxFills fillCount).map Nat.pred = capLeft maxFills (fillCount + 1) := by
  cases maxFills with
  | none => rfl
  | some n => rfl

theorem capLeft_eq_zero {maxFills : Option Nat} {fillCount : Nat} :
    capLeft maxFills fillCount = some 0 ↔ maxFills.any (fun n => n ≤ fillCount) = true := by
  cases maxFills with
  | none => simp [capLeft]
  | some n => simp [capLeft]; omega

section Loop

variable {B A : Type} [LevelIndex B] [LevelIndex A]
  {exact : Prop} {q : Queues} {working : List HpOrder} {side : Side}
  {takerId takerClient : Nat} {limitTick : Option Int} {maxFills : Option Nat}

namespace HpEngine

/-! ## One round -/

/-- The loop ends for a filled taker. -/
theorem matchStep_filled {fillCount : Nat} (e : HpEngine B A) :
    matchStep side takerId takerClient limitTick maxFills fillCount 0 e = none := by
  unfold matchStep
  split
  next => rfl
  next => rw [if_pos le_rfl]

/-- The loop ends when the cap is used up, the other side is empty or its first
order does not cross. -/
theorem matchStep_stop {fillCount : Nat} {takerOpen : Int} {e : HpEngine B A}
    (h : Represents exact e.book q working)
    (hstop : capLeft maxFills fillCount = some 0 ∨
      ∀ o ∈ (q side.opp).head?, crosses side limitTick o = false) :
    matchStep side takerId takerClient limitTick maxFills fillCount takerOpen e = none := by
  unfold matchStep
  split
  next => rfl
  next hcap =>
    split
    next => rfl
    next =>
      rw [(h.side side.opp).best_eq]
      cases hq : q side.opp with
      | nil => rfl
      | cons o rest =>
          have hc := hstop.resolve_left (fun h0 => hcap (capLeft_eq_zero.mp h0)) o
            (by rw [hq]; rfl)
          have hb : beyond side o.priceTick limitTick = true := by simpa [crosses] using hc
          simp [hb]

/-- The front of the best level is the first order. -/
theorem frontId_head {e : HpEngine B A} {o : HpOrder} {rest : List HpOrder} {s : Side}
    (h : Represents exact e.book q working) (hq : q s = o :: rest) :
    e.book.frontId s o.priceTick = some o.id := by
  obtain ⟨level, hl⟩ := h.level_some (hq ▸ List.mem_cons_self ..)
  have hrep := (h.side s).level_rep o.priceTick
  rw [hl, hq, atTick_cons_self] at hrep
  rw [Book.frontId, hl, Option.bind_some, hrep.2.1]
  rfl

/-- A round fills the first order of the other side. -/
theorem matchStep_go {fillCount : Nat} {takerOpen : Int} {e : HpEngine B A} {o : HpOrder}
    {rest : List HpOrder} (h : Represents exact e.book q working)
    (hcap : capLeft maxFills fillCount ≠ some 0) (hpos : 0 < takerOpen)
    (hq : q side.opp = o :: rest) (hc : crosses side limitTick o = true) :
    matchStep side takerId takerClient limitTick maxFills fillCount takerOpen e =
      some (takerOpen - min o.openLot takerOpen,
        { book := (e.book.fillOrder o.id (min o.openLot takerOpen)).2
          events := e.events ++ [.fill o.id takerId o.clientId takerClient o.priceTick
            (min o.openLot takerOpen)
            (if (e.book.fillOrder o.id (min o.openLot takerOpen)).1.isNone then 0
              else o.openLot - min o.openLot takerOpen)
            (takerOpen - min o.openLot takerOpen)]
          clientToId :=
            if (e.book.fillOrder o.id (min o.openLot takerOpen)).1.isNone ∧ o.clientId ≠ 0 then
              e.clientToId.drop o.clientId o.id
            else e.clientToId }) := by
  have ho : o ∈ q side.opp := hq ▸ List.mem_cons_self ..
  have hlive := ((h.side side.opp).live o ho).1
  have hbest : e.book.best side.opp = some o.priceTick := by
    rw [(h.side side.opp).best_eq, hq]
    rfl
  have hmaker : e.book.store.makerOpenAndClient o.id = some (o.openLot, o.clientId) := by
    rw [OrderStore.makerOpenAndClient, h.get ho, Option.bind_some, if_neg (not_le.mpr hlive)]
  have hb : beyond side o.priceTick limitTick = false := by simpa [crosses] using hc
  rw [matchStep, if_neg (fun h0 => hcap (capLeft_eq_zero.mpr h0)), if_neg (not_le.mpr hpos)]
  simp only [hbest, hb, frontId_head h hq, hmaker, Bool.false_eq_true, if_false]

/-! ## The loop -/

theorem matchLoop_none {fillCount : Nat} {takerOpen : Int} {e : HpEngine B A}
    (h : matchStep side takerId takerClient limitTick maxFills fillCount takerOpen e = none) :
    matchLoop side takerId takerClient limitTick maxFills fillCount takerOpen e =
      (takerOpen, e) := by
  rw [matchLoop]
  split
  next => rfl
  next r hr => rw [h] at hr; cases hr

theorem matchLoop_some {fillCount : Nat} {takerOpen : Int} {e : HpEngine B A}
    {r : Int × HpEngine B A}
    (h : matchStep side takerId takerClient limitTick maxFills fillCount takerOpen e = some r) :
    matchLoop side takerId takerClient limitTick maxFills fillCount takerOpen e =
      matchLoop side takerId takerClient limitTick maxFills (fillCount + 1) r.1 r.2 := by
  rw [matchLoop]
  split
  next hn => rw [h] at hn; cases hn
  next r' hr => rw [h] at hr; cases hr; rfl

/-- What a sweep of the other side makes of an engine and its taker. -/
structure Swept (exact : Prop) (q : Queues) (working : List HpOrder) (side : Side)
    (takerId takerClient : Nat) (e : HpEngine B A) (sw : Sweep HpOrder Int)
    (r : Int × HpEngine B A) : Prop where
  left : r.1 = sw.left
  events : r.2.events = e.events ++ sw.fills.map (fillEvent takerId takerClient)
  clients : r.2.clientToId = dropFilled e.clientToId sw.fills
  book : Represents exact r.2.book (q.set side.opp sw.book) working

/-- A fill in front of a sweep. -/
theorem Swept.cons {e e' : HpEngine B A} {f : Fill HpOrder Int} {sw : Sweep HpOrder Int}
    {r : Int × HpEngine B A} {l : List HpOrder}
    (h : Swept exact (q.set side.opp l) working side takerId takerClient e' sw r)
    (hev : e'.events = e.events ++ [fillEvent takerId takerClient f])
    (hcl : e'.clientToId = dropFilled e.clientToId [f]) :
    Swept exact q working side takerId takerClient e (sw.cons f) r := by
  refine ⟨h.left, ?_, ?_, ?_⟩
  · rw [h.events, hev, List.append_assoc]
    rfl
  · rw [h.clients, hcl]
    rfl
  · have hb := h.book
    rw [Queues.set_set] at hb
    exact hb

variable [LawfulLevelIndex .buy B] [LawfulLevelIndex .sell A]

/-- The loop sweeps the other side. -/
theorem matchLoop_swept (ms : List HpOrder) (q : Queues) (e : HpEngine B A) (fillCount : Nat)
    (takerOpen : Int) (h : Represents exact e.book q working) (hq : q side.opp = ms)
    (hpos : 0 < takerOpen) :
    Swept exact q working side takerId takerClient e
      (sweep makers (crosses side limitTick) (capLeft maxFills fillCount) takerOpen ms)
      (matchLoop side takerId takerClient limitTick maxFills fillCount takerOpen e) := by
  induction ms generalizing q e fillCount takerOpen with
  | nil =>
      rw [matchLoop_none (matchStep_stop h (Or.inr (by simp [hq]))), sweep_nil]
      exact ⟨rfl, by simp, rfl, (Queues.set_eq_self hq).symm ▸ h⟩
  | cons o rest ih =>
      by_cases hstop : capLeft maxFills fillCount = some 0 ∨ crosses side limitTick o = false
      · have hhead : capLeft maxFills fillCount = some 0 ∨
            ∀ o ∈ (q side.opp).head?, crosses side limitTick o = false := by
          refine hstop.imp_right fun hc x hx => ?_
          rw [hq] at hx
          cases hx
          exact hc
        rw [matchLoop_none (matchStep_stop h hhead), sweep_stop makers hstop]
        exact ⟨rfl, by simp, rfl, (Queues.set_eq_self hq).symm ▸ h⟩
      · obtain ⟨hcap, hc⟩ := not_or.mp hstop
        rw [Bool.not_eq_false] at hc
        have hgo :
            matchStep side takerId takerClient limitTick maxFills fillCount takerOpen e = _ :=
          matchStep_go h hcap hpos hq hc
        rw [matchLoop_some hgo]
        rcases lt_trichotomy o.openLot takerOpen with hlt | heq | hgt
        · -- The maker goes, and the taker goes on.
          obtain ⟨hgone, hrep⟩ := h.fillOrder_full hq
          rw [min_eq_left hlt.le, hgone]
          rw [sweep_more makers hcap hc hlt, capLeft_succ]
          refine (ih _ _ _ _ hrep (Queues.set_self ..) (sub_pos.mpr hlt)).cons rfl ?_
          simp [dropFilled]
        · -- Both are filled.
          obtain ⟨hgone, hrep⟩ := h.fillOrder_full hq
          rw [min_eq_left heq.le, hgone, heq, sub_self, matchLoop_none (matchStep_filled _)]
          rw [sweep_exact makers hcap hc heq]
          exact ⟨rfl, rfl, by simp [dropFilled], heq ▸ hrep⟩
        · -- The maker stays, reduced.
          obtain ⟨hkept, hrep⟩ := h.fillOrder_part hq hpos hgt
          rw [min_eq_right hgt.le, hkept, sub_self, matchLoop_none (matchStep_filled _)]
          rw [sweep_part makers hcap hc hgt]
          refine ⟨rfl, rfl, ?_, hrep⟩
          have hne : makers.openOf o - takerOpen ≠ 0 := sub_ne_zero.mpr hgt.ne'
          simp [dropFilled, hne]

end HpEngine

end Loop

end MatchCoreHp
