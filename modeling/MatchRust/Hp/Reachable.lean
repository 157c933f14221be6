import MatchRust.Hp.Settle

/-!
# States of the fixed-point engine

`Book.queue` reads the queue of a side off the levels and the store.  In every
state an engine reaches, the book represents the queues read off it, and the
queues do not cross.  This is the invariant of the engine, with two readings:
the totals of the levels are exact as long as the sums fit into 64 bits, and
the rest holds without that.

`run_sound` spells the invariant out in terms of the store, the levels and the
cached ticks.
-/

namespace MatchCoreHp

open PriceTime

/-! ## Queues of a book -/

section Queue

variable {B A : Type} [LevelIndex B] [LevelIndex A]
  [LawfulLevelIndex .buy B] [LawfulLevelIndex .sell A]
  {exact : Prop} {book : Book B A} {q : Queues} {working : List HpOrder} {side : Side}

/-- The orders of a level. -/
def Book.ordersAt (book : Book B A) (level : Level) : List HpOrder :=
  level.ids.filterMap book.store.get

/-- The queue of a side: the orders of its levels, best level first. -/
def Book.queue (book : Book B A) : Queues := fun side =>
  (book.levels side).flatMap fun p => book.ordersAt p.2

theorem filterMap_get {store : OrderStore} {os : List HpOrder}
    (h : ∀ o ∈ os, store.get o.id = some o) : (os.map HpOrder.id).filterMap store.get = os := by
  induction os with
  | nil => rfl
  | cons o os ih =>
      rw [List.map_cons, List.filterMap_cons_some (h o (List.mem_cons_self ..)),
        ih fun x hx => h x (List.mem_cons_of_mem _ hx)]

omit [LawfulLevelIndex .buy B] [LawfulLevelIndex .sell A] in
/-- The orders of a level are those of the queue at its tick. -/
theorem Represents.ordersAt_eq (h : Represents exact book q working) {t : Int} {level : Level}
    (hl : book.level side t = some level) : book.ordersAt level = atTick t (q side) := by
  have hrep := (h.side side).level_rep t
  rw [hl] at hrep
  rw [Book.ordersAt, hrep.2.1]
  exact filterMap_get fun o ho => h.get (mem_atTick.mp ho).1

/-- A book that represents queues has exactly these. -/
theorem Represents.queue_eq (h : Represents exact book q working) : book.queue = q := by
  funext side
  have hs := h.side side
  have hruns : book.queue side =
      ((book.levels side).map Prod.fst).flatMap fun t => atTick t (q side) := by
    rw [Book.queue, List.flatMap_map]
    exact List.flatMap_congr fun p hp => h.ordersAt_eq (Book.mem_levels.mp hp)
  rw [hruns]
  have hticks := List.pairwise_map.mpr (book.levels_sorted side)
  refine Grouping.flatMap_group (fun a b => Side.better_asymm) hticks hs.ranked fun o ho => ?_
  obtain ⟨level, hl⟩ := h.level_some ho
  exact List.mem_map.mpr ⟨_, Book.mem_levels.mpr hl, rfl⟩

/-- The sums of the levels are 64-bit integers. -/
def Book.LevelSumsFit (book : Book B A) : Prop :=
  ∀ side, ∀ p ∈ book.levels side, sumOpen (book.ordersAt p.2) ≤ i64Max

instance (book : Book B A) : Decidable book.LevelSumsFit :=
  decidable_of_iff
    ((∀ p ∈ book.levels .buy, sumOpen (book.ordersAt p.2) ≤ i64Max) ∧
      ∀ p ∈ book.levels .sell, sumOpen (book.ordersAt p.2) ≤ i64Max)
    ⟨fun h side => match side with | .buy => h.1 | .sell => h.2, fun h => ⟨h .buy, h .sell⟩⟩

theorem Represents.fits_of_levelSumsFit (h : Represents exact book q working)
    (hfit : book.LevelSumsFit) : q.Fits := by
  intro s t
  cases hl : book.level s t with
  | none =>
      rw [((h.side s).level_rep t).eq_none_iff.mp hl]
      decide
  | some level =>
      rw [← h.ordersAt_eq hl]
      exact hfit s _ (Book.mem_levels.mpr hl)

omit [LawfulLevelIndex .buy B] [LawfulLevelIndex .sell A] in
/-- Exact totals are not needed for the rest. -/
theorem Represents.weaken (h : Represents exact book q working) :
    Represents False book q working := by
  refine ⟨fun s => ?_, h.holds, h.pool⟩
  have hs := h.side s
  refine ⟨hs.ranked, hs.side_eq, hs.live, fun t => ?_, hs.best_eq⟩
  have hrep := hs.level_rep t
  cases hl : book.level s t with
  | none => rw [hl] at hrep; exact hrep
  | some level => rw [hl] at hrep; exact ⟨hrep.1, hrep.2.1, False.elim⟩

end Queue

/-! ## Queues that do not cross -/

/-- Bids are below asks. -/
def Queues.Uncrossed (q : Queues) : Prop :=
  ∀ b ∈ q .buy, ∀ a ∈ q .sell, b.priceTick < a.priceTick

/-- An order that rests is not one the other side would fill. -/
theorem Queues.uncrossed_iff {q : Queues} (side : Side) :
    q.Uncrossed ↔ ∀ o ∈ q side, ∀ m ∈ q side.opp, crosses side (some o.priceTick) m = false := by
  cases side with
  | buy => simp [Uncrossed, crosses, HpEngine.beyond, Side.opp]
  | sell =>
      simp only [Uncrossed, crosses, HpEngine.beyond, Side.opp, Option.any_some,
        Bool.not_eq_false', decide_eq_true_eq]
      exact ⟨fun h a ha b hb => h b hb a ha, fun h b hb a ha => h a ha b hb⟩

/-- Crossing depends on the tick only. -/
theorem crosses_congr {side : Side} {limitTick : Option Int} {a b : HpOrder}
    (h : a.priceTick = b.priceTick) : crosses side limitTick a = crosses side limitTick b := by
  rw [crosses, crosses, h]

/-- Behind an order that does not cross, none does. -/
theorem not_crosses_behind {side : Side} {limitTick : Option Int} {a b : HpOrder}
    (ha : crosses side limitTick a = false) (hab : ¬ side.opp.better b.priceTick a.priceTick) :
    crosses side limitTick b = false := by
  cases limitTick with
  | none => cases side <;> cases ha
  | some lim =>
      cases side with
      | buy =>
          simp only [crosses, HpEngine.beyond, Option.any_some, Bool.not_eq_false',
            decide_eq_true_eq, Side.opp, Side.better] at *
          omega
      | sell =>
          simp only [crosses, HpEngine.beyond, Option.any_some, Bool.not_eq_false',
            decide_eq_true_eq, Side.opp, Side.better] at *
          omega

/-- The ticks a sweep leaves are the last ones of the queue. -/
theorem ticks_takerSweep (q : Queues) (side : Side) (limitTick : Option Int)
    (maxFills : Option Nat) (qtyLot : Int) :
    ((takerSweep q side limitTick maxFills qtyLot).book.map HpOrder.priceTick).Sublist
      ((q side.opp).map HpOrder.priceTick) :=
  (book_keys makers _ HpOrder.priceTick (fun _ _ => rfl) _ _ _).sublist

/-- A sweep makes no crossing. -/
theorem Queues.Uncrossed.swept {q : Queues} (h : q.Uncrossed) (side : Side)
    (limitTick : Option Int) (maxFills : Option Nat) (qtyLot : Int) :
    (q.set side.opp (takerSweep q side limitTick maxFills qtyLot).book).Uncrossed := by
  refine (uncrossed_iff side).mpr fun o ho m hm => ?_
  rw [set_opp_self] at ho
  rw [set_self] at hm
  have hmem := (ticks_takerSweep q side limitTick maxFills qtyLot).subset (List.mem_map_of_mem hm)
  obtain ⟨m', hm', ht⟩ := List.mem_map.mp hmem
  rw [← crosses_congr ht]
  exact (uncrossed_iff side).mp h o ho m' hm'

/-- What is left of a limit order does not cross what is left of the other
side. -/
theorem not_crosses_leftover {q : Queues} {side : Side} {tick qtyLot : Int}
    (hr : Ranked side.opp (q side.opp))
    (hl : 0 < (takerSweep q side (some tick) none qtyLot).left) :
    ∀ m ∈ (takerSweep q side (some tick) none qtyLot).book, crosses side (some tick) m = false := by
  obtain ⟨-, hstop⟩ := book_of_left makers (crosses side (some tick)) none qtyLot (q side.opp) hl
  have hhead := hstop.resolve_left nofun
  have hranked : Ranked side.opp (takerSweep q side (some tick) none qtyLot).book :=
    hr.of_ticks (ticks_takerSweep q side (some tick) none qtyLot)
  intro m hm
  rw [takerSweep] at hm hranked
  cases hb : (sweep makers (crosses side (some tick)) none qtyLot (q side.opp)).book with
  | nil => rw [hb] at hm; cases hm
  | cons x l =>
      rw [hb] at hm hranked hhead
      exact not_crosses_behind (hhead x rfl) (hranked.not_better_head hm)

/-- A limit order leaves the book uncrossed. -/
theorem Queues.Uncrossed.settle {q : Queues} (h : q.Uncrossed) {side : Side} {o : HpOrder}
    {qtyLot : Int} (hr : Ranked side.opp (q side.opp)) :
    (q.settle side (takerSweep q side (some o.priceTick) none qtyLot)
      (leftover o (takerSweep q side (some o.priceTick) none qtyLot))).Uncrossed := by
  have hswept := h.swept side (some o.priceTick) none qtyLot
  rw [leftover]
  split
  next hl =>
    rw [settle_single]
    refine (uncrossed_iff side).mpr fun x hx m hm => ?_
    rw [set_self] at hx
    rw [set_opp, set_self] at hm
    cases mem_restIn.mp hx with
    | inl he => rw [he]; exact not_crosses_leftover hr hl m hm
    | inr hx => exact (uncrossed_iff side).mp hswept x hx m (by rw [set_self]; exact hm)
  next => rw [settle_nil]; exact hswept

theorem Queues.Uncrossed.without {q : Queues} (h : q.Uncrossed) (id : Nat) :
    (q.without id).Uncrossed :=
  fun b hb a ha => h b (mem_without.mp hb).1 a (mem_without.mp ha).1

theorem Queues.Uncrossed.withoutAll {q : Queues} (h : q.Uncrossed) (ids : List Nat) :
    (q.withoutAll ids).Uncrossed :=
  fun b hb a ha => h b (mem_withoutAll.mp hb).1 a (mem_withoutAll.mp ha).1

/-! ## The invariant -/

section Invariant

variable {B A : Type} [LevelIndex B] [LevelIndex A]
  [LawfulLevelIndex .buy B] [LawfulLevelIndex .sell A] {exact : Prop} {e : HpEngine B A}

/-- The book represents its queues, and they do not cross. -/
structure EngineInv (exact : Prop) (e : HpEngine B A) : Prop where
  book : Represents exact e.book e.book.queue []
  uncrossed : e.book.queue.Uncrossed

theorem EngineInv.of_represents {q : Queues} (h : Represents exact e.book q [])
    (hu : q.Uncrossed) : EngineInv exact e := by
  have hq := h.queue_eq
  exact ⟨hq.symm ▸ h, hq.symm ▸ hu⟩

theorem engineInv_new : EngineInv exact (HpEngine.new : HpEngine B A) :=
  .of_represents (represents_new exact) nofun

theorem engineInv_withCapacity : EngineInv exact (HpEngine.withCapacity : HpEngine B A) :=
  .of_represents (represents_withCapacity exact) nofun

/-- A limit order keeps the invariant, with exact totals if the sums fit after it. -/
theorem EngineInv.onLimit_fits (h : EngineInv exact e) {side : Side} {priceTick qtyLot : Int}
    {ts clientId : Nat} {o : HpOrder} {sw : Sweep HpOrder Int} (hpos : 0 < qtyLot)
    (ho : o = e.taker side priceTick qtyLot ts clientId)
    (hsw : sw = takerSweep e.book.queue side (some priceTick) none qtyLot)
    (hfit : exact → (e.book.queue.settle side sw (leftover o sw)).Fits) :
    EngineInv exact (e.onLimit side priceTick qtyLot ts clientId) := by
  refine .of_represents (HpEngine.onLimit_settled h.book hpos ho hsw hfit).book ?_
  have htick : o.priceTick = priceTick := by
    rw [ho]
    rfl
  rw [hsw, ← htick]
  exact h.uncrossed.settle (h.book.side side.opp).ranked

theorem EngineInv.onLimit (h : EngineInv exact e) (side : Side) (priceTick qtyLot : Int)
    (ts clientId : Nat)
    (hfit : exact → (e.onLimit side priceTick qtyLot ts clientId).book.LevelSumsFit) :
    EngineInv exact (e.onLimit side priceTick qtyLot ts clientId) := by
  by_cases hpos : 0 < qtyLot
  · obtain ⟨o, ho⟩ : ∃ o, o = e.taker side priceTick qtyLot ts clientId := ⟨_, rfl⟩
    obtain ⟨sw, hsw⟩ : ∃ sw, sw = takerSweep e.book.queue side (some priceTick) none qtyLot :=
      ⟨_, rfl⟩
    have hweak := HpEngine.onLimit_settled h.book.weaken hpos ho hsw False.elim
    exact h.onLimit_fits hpos ho hsw fun hx => hweak.book.fits_of_levelSumsFit (hfit hx)
  · rw [HpEngine.onLimit, if_pos (not_lt.mp hpos)]
    exact h

theorem EngineInv.onMarket (h : EngineInv exact e) (side : Side) (qtyLot : Int) (ts : Nat)
    (maxFills : Option Nat) (clientId : Nat) :
    EngineInv exact (e.onMarket side qtyLot ts maxFills clientId) := by
  by_cases hpos : 0 < qtyLot
  · have hset : HpEngine.Settled exact _ _ _ (e.onMarket side qtyLot ts maxFills clientId) :=
      HpEngine.onMarket_settled h.book hpos rfl rfl
    refine .of_represents hset.book ?_
    rw [Queues.settle_nil]
    exact h.uncrossed.swept side none maxFills qtyLot
  · rw [HpEngine.onMarket, if_pos (not_lt.mp hpos)]
    exact h

theorem EngineInv.onCancel (h : EngineInv exact e) (id : Nat) :
    EngineInv exact (e.onCancel id) := by
  cases hget : e.book.store.get id with
  | some o =>
      exact .of_represents (HpEngine.onCancel_live h.book hget).book (h.uncrossed.without id)
  | none =>
      cases hlist : e.clientToId[id]? with
      | none => rw [HpEngine.onCancel_none hget hlist]; exact h
      | some list =>
          exact .of_represents (HpEngine.onCancel_client h.book hget hlist).1
            (h.uncrossed.withoutAll list)

/-- Every command keeps the invariant. -/
theorem EngineInv.onOrder (h : EngineInv exact e) (cmd : HpCommand)
    (hfit : exact → (e.onOrder cmd).book.LevelSumsFit) : EngineInv exact (e.onOrder cmd) := by
  have h0 : EngineInv exact { e with events := [] } := ⟨h.book, h.uncrossed⟩
  cases cmd with
  | limit side priceTick qtyLot ts clientId =>
      exact h0.onLimit side priceTick qtyLot ts clientId hfit
  | cancel id => exact h0.onCancel id
  | market side qtyLot ts maxFills clientId => exact h0.onMarket side qtyLot ts maxFills clientId

/-- States an engine reaches by commands that all meet a condition on the state
before and the command. -/
inductive Reachable (ok : HpEngine B A → HpCommand → Prop) : HpEngine B A → Prop
  | new : Reachable ok HpEngine.new
  | withCapacity : Reachable ok HpEngine.withCapacity
  | step {e : HpEngine B A} {cmd : HpCommand} :
      Reachable ok e → ok e cmd → Reachable ok (e.onOrder cmd)

/-- The sums of the levels are 64-bit integers after the command. -/
def SumsFit (e : HpEngine B A) (cmd : HpCommand) : Prop := (e.onOrder cmd).book.LevelSumsFit

instance (e : HpEngine B A) (cmd : HpCommand) : Decidable (SumsFit e cmd) :=
  inferInstanceAs (Decidable (e.onOrder cmd).book.LevelSumsFit)

/-- The invariant holds in every state, with exact totals if the sums fit. -/
theorem Reachable.inv {ok : HpEngine B A → HpCommand → Prop}
    (hok : exact → ∀ e cmd, ok e cmd → SumsFit e cmd) (h : Reachable ok e) : EngineInv exact e := by
  induction h with
  | new => exact engineInv_new
  | withCapacity => exact engineInv_withCapacity
  | step _ hcmd ih => exact ih.onOrder _ fun hx => hok hx _ _ hcmd

/-! ## The invariant, spelled out -/

/-- The identifiers in all levels of both sides. -/
def Book.queuedIds (book : Book B A) : List Nat :=
  (book.levels .buy ++ book.levels .sell).flatMap fun p => p.2.ids

/-- The store, the levels, the totals and the best ticks agree. -/
structure Book.Sound (book : Book B A) : Prop where
  /-- No order is queued twice. -/
  ids_nodup : book.queuedIds.Nodup
  /-- The queued orders are the live slots. -/
  ids_live : ∀ id, id ∈ book.queuedIds ↔ (book.store.get id).isSome
  /-- A queued order belongs to its level, and some of it is open. -/
  placed : ∀ side t level, book.level side t = some level → ∀ id ∈ level.ids,
    ∃ o, book.store.get id = some o ∧ o.id = id ∧ o.side = side ∧ o.priceTick = t ∧
      0 < o.openLot ∧ o.openLot ≤ o.qtyLot
  /-- A total is the sum of the open lots. -/
  total : ∀ side t level, book.level side t = some level →
    level.totalLot = sumOpen (book.ordersAt level)
  /-- No level is empty. -/
  nonempty : ∀ side t level, book.level side t = some level → level.ids ≠ []
  /-- The best ask is the least tick of an ask level, if there is one. -/
  best_ask : ∀ t, book.bestAskTick = some t ↔ IsLeast {u | (book.level .sell u).isSome} t
  no_ask : book.bestAskTick = none ↔ ∀ t, book.level .sell t = none
  /-- The best bid is the greatest tick of a bid level, if there is one. -/
  best_bid : ∀ t, book.bestBidTick = some t ↔ IsGreatest {u | (book.level .buy u).isSome} t
  no_bid : book.bestBidTick = none ↔ ∀ t, book.level .buy t = none
  /-- The best bid is below the best ask. -/
  uncrossed : ∀ b a, book.bestBidTick = some b → book.bestAskTick = some a → b < a
  /-- No slot is free twice. -/
  free_nodup : book.store.free.Nodup
  /-- No free slot is live. -/
  free_dead : ∀ id ∈ book.store.free, book.store.get id = none
  /-- The free and the live slots are all slots. -/
  slots_covered : ∀ id, id ∈ book.store.free ∨ (book.store.get id).isSome ↔
    0 < id ∧ id ≤ book.store.slots.length
  /-- The count is that of the live slots. -/
  live_len : book.store.live = book.store.slots.countP Option.isSome

section Sound

variable {book : Book B A} {q : Queues}

/-- The identifiers in the levels are those of the queues. -/
theorem Represents.queuedIds_eq (h : Represents exact book q []) :
    book.queuedIds = q.orders.map HpOrder.id := by
  have hside : ∀ side, (book.levels side).flatMap (fun p => p.2.ids) =
      (q side).map HpOrder.id := by
    intro side
    rw [← congrFun h.queue_eq side, Book.queue, List.map_flatMap]
    refine List.flatMap_congr fun p hp => ?_
    have hl := Book.mem_levels.mp hp
    have hrep := (h.side side).level_rep p.1
    rw [hl] at hrep
    rw [h.ordersAt_eq hl, hrep.2.1]
  rw [Book.queuedIds, List.flatMap_append, hside, hside, ← List.map_append]
  rfl

omit [LawfulLevelIndex .buy B] [LawfulLevelIndex .sell A] in
/-- There is a level exactly where there is an order. -/
theorem Represents.level_isSome (h : Represents exact book q []) {side : Side} {t : Int} :
    (book.level side t).isSome ↔ ∃ o ∈ q side, o.priceTick = t := by
  rw [Option.isSome_iff_ne_none, ne_eq, ((h.side side).level_rep t).eq_none_iff]
  constructor
  · intro hne
    obtain ⟨o, ho⟩ := List.exists_mem_of_ne_nil _ hne
    exact ⟨o, mem_atTick.mp ho⟩
  · rintro ⟨o, ho⟩ he
    have hmem := mem_atTick.mpr ho
    rw [he] at hmem
    cases hmem

omit [LawfulLevelIndex .buy B] [LawfulLevelIndex .sell A] in
/-- The cached best tick is that of a level, and no level is better. -/
theorem Represents.best_iff (h : Represents exact book q []) (side : Side) (t : Int) :
    book.best side = some t ↔
      (book.level side t).isSome ∧ ∀ u, (book.level side u).isSome → ¬ side.better u t := by
  have hs := h.side side
  rw [hs.best_eq]
  constructor
  · intro hb
    obtain ⟨o, ho, rfl⟩ := Option.map_eq_some_iff.mp hb
    obtain ⟨l, hq⟩ := List.head?_eq_some_iff.mp ho
    refine ⟨h.level_isSome.mpr ⟨o, hq ▸ List.mem_cons_self .., rfl⟩, fun u hu => ?_⟩
    obtain ⟨x, hx, rfl⟩ := h.level_isSome.mp hu
    have hr := hs.ranked
    rw [hq] at hx hr
    exact hr.not_better_head hx
  · rintro ⟨ht, hmin⟩
    obtain ⟨x, hx, rfl⟩ := h.level_isSome.mp ht
    cases hq : q side with
    | nil => rw [hq] at hx; cases hx
    | cons o l =>
        have hr := hs.ranked
        have ho := hmin o.priceTick (h.level_isSome.mpr ⟨o, hq ▸ List.mem_cons_self .., rfl⟩)
        rw [hq] at hx hr
        exact congrArg some (Side.eq_of_not_better ho (hr.not_better_head hx))

omit [LawfulLevelIndex .buy B] [LawfulLevelIndex .sell A] in
theorem Represents.best_none_iff (h : Represents exact book q []) (side : Side) :
    book.best side = none ↔ ∀ t, book.level side t = none := by
  rw [(h.side side).best_eq, Option.map_eq_none_iff, List.head?_eq_none_iff]
  constructor
  · intro hq t
    rw [((h.side side).level_rep t).eq_none_iff, hq, atTick_nil]
  · intro hnone
    refine List.eq_nil_iff_forall_not_mem.mpr fun o ho => ?_
    have hsome := h.level_isSome.mpr ⟨o, ho, rfl⟩
    rw [hnone] at hsome
    cases hsome

/-- A book that represents queues which do not cross is sound. -/
theorem Represents.sound (h : Represents True book q []) (hu : q.Uncrossed) : book.Sound where
  ids_nodup := by
    rw [h.queuedIds_eq]
    exact h.holds.nodup
  ids_live := by
    intro id
    rw [h.queuedIds_eq, List.mem_map, Option.isSome_iff_exists]
    exact exists_congr fun o => (h.holds.get_iff id o).symm
  placed := by
    intro side t level hl id hid
    have hrep := (h.side side).level_rep t
    rw [hl] at hrep
    rw [hrep.2.1] at hid
    obtain ⟨o, ho, rfl⟩ := List.mem_map.mp hid
    obtain ⟨ho, ht⟩ := mem_atTick.mp ho
    exact ⟨o, h.get ho, rfl, (h.side side).side_eq o ho, ht, (h.side side).live o ho⟩
  total := by
    intro side t level hl
    have hrep := (h.side side).level_rep t
    rw [hl] at hrep
    rw [h.ordersAt_eq hl]
    exact (hrep.2.2 trivial).1
  nonempty := by
    intro side t level hl hids
    have hrep := (h.side side).level_rep t
    rw [hl] at hrep
    rw [hrep.2.1, List.map_eq_nil_iff] at hids
    exact hrep.1 hids
  best_ask := by
    intro t
    refine (h.best_iff .sell t).trans (and_congr_right fun _ => ?_)
    exact ⟨fun hmin u hu => not_lt.mp (hmin u hu), fun hmin u hu => not_lt.mpr (hmin hu)⟩
  no_ask := h.best_none_iff .sell
  best_bid := by
    intro t
    refine (h.best_iff .buy t).trans (and_congr_right fun _ => ?_)
    exact ⟨fun hmax u hu => not_lt.mp (hmax u hu), fun hmax u hu => not_lt.mpr (hmax hu)⟩
  no_bid := h.best_none_iff .buy
  uncrossed := by
    intro b a hb ha
    obtain ⟨x, hx, rfl⟩ := h.level_isSome.mp ((h.best_iff .buy b).mp hb).1
    obtain ⟨y, hy, rfl⟩ := h.level_isSome.mp ((h.best_iff .sell a).mp ha).1
    exact hu x hx y hy
  free_nodup := book.store.free_nodup
  free_dead := fun id hid => ((book.store.mem_free id).mp hid).2.2
  slots_covered := book.store.mem_free_or_get
  live_len := book.store.live_eq

end Sound

/-- Every state an engine reaches, with sums that fit, is sound. -/
theorem run_sound (h : Reachable SumsFit e) : e.book.Sound := by
  have hinv : EngineInv True e := h.inv fun _ _ _ hcmd => hcmd
  exact hinv.book.sound hinv.uncrossed

end Invariant

/-- Two asks rest at one tick, a bid fills the first and part of the second,
and the slot of the first is used again. -/
theorem run_sound_reuse :
    ((((HpEngine.new : BTreeEngine).onOrder (.limit .sell 100 5 1 7)).onOrder
      (.limit .sell 100 4 2 8)).onOrder (.limit .buy 101 6 3 9)).onOrder
      (.limit .buy 99 2 4 10) |>.book.Sound := by
  refine run_sound (.step (.step (.step (.step .new ?_) ?_) ?_) ?_)
  · decide +kernel
  · decide +kernel
  · decide +kernel
  · decide +kernel

end MatchCoreHp
