import MatchRust.Hp.Reachable

/-!
# The reference matcher over price levels

A book of the reference is a list of price levels for each side, best tick
first, and a level is a queue of orders, oldest first.  There is no store, no
total and no cached tick.  A taker takes from the oldest order of the first
level as much as both have, and a level without orders goes.  What is left of a
limit order joins the queue of its tick, and what is left of a market order is
revoked.

The engine agrees with it on every limit and market order, event by event and
level by level (`onOrder_eq_fifo`).
-/

namespace MatchCoreHp

open PriceTime

/-! ## Price levels -/

/-- A tick and its orders, oldest first. -/
structure PriceLevel where
  tick : Int
  orders : List HpOrder
deriving DecidableEq

/-- What a taker leaves of the levels. -/
structure Consumed where
  /-- The fills, in order. -/
  events : List HpEvent
  /-- What is left of the taker. -/
  left : Int
  /-- The levels that remain. -/
  levels : List PriceLevel

/-- Take from the levels: the first level first, and its oldest order first,
while the tick is within the limit. -/
def consume (takerId takerClient : Nat) (within : Int → Bool) :
    Option Nat → Int → List PriceLevel → Consumed
  | _, n, [] => ⟨[], n, []⟩
  | cap, n, ⟨_, []⟩ :: levels => consume takerId takerClient within cap n levels
  | cap, n, ⟨t, o :: os⟩ :: levels =>
      if n = 0 ∨ cap = some 0 ∨ within t = false then ⟨[], n, ⟨t, o :: os⟩ :: levels⟩
      else if o.openLot ≤ n then
        let r := consume takerId takerClient within (cap.map Nat.pred) (n - o.openLot)
          (⟨t, os⟩ :: levels)
        ⟨.fill o.id takerId o.clientId takerClient t o.openLot 0 (n - o.openLot) :: r.events,
          r.left, r.levels⟩
      else
        ⟨[.fill o.id takerId o.clientId takerClient t n (o.openLot - n) 0], 0,
          ⟨t, { o with openLot := o.openLot - n } :: os⟩ :: levels⟩
termination_by _ _ levels => (levels.map fun l => l.orders.length + 1).sum

/-- An order joins the queue of its tick, in a new level if there is none. -/
def joinLevel (side : Side) (o : HpOrder) : List PriceLevel → List PriceLevel
  | [] => [⟨o.priceTick, [o]⟩]
  | l :: levels =>
      if o.priceTick = l.tick then ⟨l.tick, l.orders ++ [o]⟩ :: levels
      else if side.better o.priceTick l.tick then ⟨o.priceTick, [o]⟩ :: l :: levels
      else l :: joinLevel side o levels

/-- The price levels of each side. -/
abbrev LevelBook := Side → List PriceLevel

/-- A tick that a taker of this side and limit may pay. -/
def withinLimit (side : Side) (limit : Option Int) (tick : Int) : Bool :=
  match side, limit with
  | _, none => true
  | .buy, some lim => tick ≤ lim
  | .sell, some lim => lim ≤ tick

/-- The levels and the events after a limit order that is given this slot. -/
def referenceLimit (book : LevelBook) (slot : Nat) (side : Side) (tick qty : Int)
    (ts client : Nat) : LevelBook × List HpEvent :=
  let r := consume slot client (withinLimit side (some tick)) none qty (book side.opp)
  if r.left = 0 then (fun s => if s = side then book side else r.levels, r.events)
  else
    let o : HpOrder := { id := slot, side := side, priceTick := tick, qtyLot := qty,
                         openLot := r.left, ts := ts, clientId := client }
    (fun s => if s = side then joinLevel side o (book side) else r.levels,
      r.events ++ [.rest slot client side tick r.left])

/-- The levels and the events after a market order that is given this slot. -/
def referenceMarket (book : LevelBook) (slot : Nat) (side : Side) (qty : Int)
    (maxFills : Option Nat) (client : Nat) : LevelBook × List HpEvent :=
  let r := consume slot client (withinLimit side none) maxFills qty (book side.opp)
  (fun s => if s = side then book side else r.levels,
    if r.left = 0 then r.events else r.events ++ [.revoke slot client 1])

/-! ## Levels and queues -/

/-- The orders of some levels. -/
def flat (levels : List PriceLevel) : List HpOrder := levels.flatMap PriceLevel.orders

@[simp] theorem flat_nil : flat [] = [] := rfl

@[simp] theorem flat_cons (l : PriceLevel) (levels : List PriceLevel) :
    flat (l :: levels) = l.orders ++ flat levels := by
  simp [flat]

/-- Levels of a side: ticks in order, and every level has orders, all of its
tick. -/
structure LevelsOf (side : Side) (levels : List PriceLevel) : Prop where
  sorted : levels.Pairwise fun a b => side.better a.tick b.tick
  tick : ∀ l ∈ levels, ∀ o ∈ l.orders, o.priceTick = l.tick
  nonempty : ∀ l ∈ levels, l.orders ≠ []

namespace LevelsOf

variable {side : Side} {l : PriceLevel} {levels : List PriceLevel}

theorem nil : LevelsOf side [] := ⟨List.Pairwise.nil, by simp, by simp⟩

theorem tail (h : LevelsOf side (l :: levels)) : LevelsOf side levels :=
  ⟨(List.pairwise_cons.mp h.sorted).2, fun m hm => h.tick m (List.mem_cons_of_mem _ hm),
    fun m hm => h.nonempty m (List.mem_cons_of_mem _ hm)⟩

theorem cons (h : LevelsOf side levels) (hs : ∀ m ∈ levels, side.better l.tick m.tick)
    (ht : ∀ o ∈ l.orders, o.priceTick = l.tick) (hne : l.orders ≠ []) :
    LevelsOf side (l :: levels) := by
  refine ⟨List.pairwise_cons.mpr ⟨hs, h.sorted⟩, fun m hm => ?_, fun m hm => ?_⟩
  · cases List.mem_cons.mp hm with
    | inl he => rw [he]; exact ht
    | inr hm => exact h.tick m hm
  · cases List.mem_cons.mp hm with
    | inl he => rw [he]; exact hne
    | inr hm => exact h.nonempty m hm

/-- The orders behind the first level are worse than it. -/
theorem better_flat (h : LevelsOf side (l :: levels)) :
    ∀ o ∈ flat levels, side.better l.tick o.priceTick := by
  intro o ho
  obtain ⟨m, hm, hom⟩ := List.mem_flatMap.mp ho
  rw [h.tail.tick m hm o hom]
  exact (List.pairwise_cons.mp h.sorted).1 m hm

/-- The first level is the run of its tick. -/
theorem atTick_flat (h : LevelsOf side (l :: levels)) :
    atTick l.tick (flat (l :: levels)) = l.orders := by
  have hown : atTick l.tick l.orders = l.orders :=
    List.filter_eq_self.mpr fun o ho => decide_eq_true (h.tick l (List.mem_cons_self ..) o ho)
  have hnone : atTick l.tick (flat levels) = [] := by
    refine List.filter_eq_nil_iff.mpr fun o ho he => ?_
    have hb := h.better_flat o ho
    rw [of_decide_eq_true he] at hb
    exact side.better_irrefl _ hb
  rw [flat_cons, atTick_append, hown, hnone, List.append_nil]

/-- Levels are determined by their orders. -/
theorem eq_of_flat {levels' : List PriceLevel} (h : LevelsOf side levels)
    (h' : LevelsOf side levels') (he : flat levels = flat levels') : levels = levels' := by
  induction levels generalizing levels' with
  | nil =>
      cases levels' with
      | nil => rfl
      | cons l' levels' =>
          have hne := h'.nonempty l' (List.mem_cons_self ..)
          rw [flat_nil, flat_cons] at he
          exact absurd (List.append_eq_nil_iff.mp he.symm).1 hne
  | cons l levels ih =>
      cases levels' with
      | nil =>
          have hne := h.nonempty l (List.mem_cons_self ..)
          rw [flat_nil, flat_cons] at he
          exact absurd (List.append_eq_nil_iff.mp he).1 hne
      | cons l' levels' =>
          -- Both lists start with the same order, hence with the same tick.
          have htick : l.tick = l'.tick := by
            obtain ⟨o, os, ho⟩ := List.exists_cons_of_ne_nil (h.nonempty l (List.mem_cons_self ..))
            obtain ⟨p, ps, hp⟩ :=
              List.exists_cons_of_ne_nil (h'.nonempty l' (List.mem_cons_self ..))
            have heq := he
            rw [flat_cons, flat_cons, ho, hp] at heq
            rw [← h.tick l (List.mem_cons_self ..) o (ho ▸ List.mem_cons_self ..),
              ← h'.tick l' (List.mem_cons_self ..) p (hp ▸ List.mem_cons_self ..),
              (List.cons.inj heq).1]
          have horders : l.orders = l'.orders := by
            rw [← h.atTick_flat, ← h'.atTick_flat, he, htick]
          rw [flat_cons, flat_cons, horders] at he
          have hrest := ih h.tail h'.tail (List.append_cancel_left he)
          cases l
          cases l'
          simp_all

end LevelsOf

/-! ## Consuming levels sweeps their orders -/

section Consume

variable {takerId takerClient : Nat} {within : Int → Bool} {side : Side}

theorem consume_filled (cap : Option Nat) (levels : List PriceLevel) :
    (consume takerId takerClient within cap 0 levels).events = [] ∧
      (consume takerId takerClient within cap 0 levels).left = 0 ∧
      flat (consume takerId takerClient within cap 0 levels).levels = flat levels := by
  generalize hn : (0 : Int) = n
  fun_induction consume takerId takerClient within cap n levels with
  | case1 => exact ⟨rfl, rfl, rfl⟩
  | case2 cap n t levels ih =>
      rw [flat_cons]
      exact ih hn
  | case3 => exact ⟨rfl, rfl, rfl⟩
  | case4 cap n t o os levels hgo => exact absurd (Or.inl hn.symm) hgo
  | case5 cap n t o os levels hgo => exact absurd (Or.inl hn.symm) hgo

/-- Consuming levels is a sweep of their orders. -/
theorem consume_sweep {crosses : HpOrder → Bool} (hw : ∀ o, crosses o = within o.priceTick)
    (cap : Option Nat) (n : Int) (levels : List PriceLevel) (hn : 0 < n)
    (htick : ∀ l ∈ levels, ∀ o ∈ l.orders, o.priceTick = l.tick) :
    (consume takerId takerClient within cap n levels).events =
        (sweep makers crosses cap n (flat levels)).fills.map (fillEvent takerId takerClient) ∧
      (consume takerId takerClient within cap n levels).left =
        (sweep makers crosses cap n (flat levels)).left ∧
      flat (consume takerId takerClient within cap n levels).levels =
        (sweep makers crosses cap n (flat levels)).book := by
  fun_induction consume takerId takerClient within cap n levels with
  | case1 => simp
  | case2 cap n t levels ih =>
      rw [flat_cons]
      exact ih hn fun l hl => htick l (List.mem_cons_of_mem _ hl)
  | case3 cap n t o os levels hstop =>
      have ho : o.priceTick = t := htick _ (List.mem_cons_self ..) o (List.mem_cons_self ..)
      have hstop' : cap = some 0 ∨ crosses o = false := by
        rw [hw, ho]
        exact hstop.resolve_left hn.ne'
      rw [flat_cons, List.cons_append, sweep_stop makers hstop']
      exact ⟨rfl, rfl, by simp⟩
  | case4 cap n t o os levels hgo hle r ih =>
      have ho : o.priceTick = t := htick _ (List.mem_cons_self ..) o (List.mem_cons_self ..)
      have htick' : ∀ l ∈ (⟨t, os⟩ : PriceLevel) :: levels,
          ∀ o ∈ l.orders, o.priceTick = l.tick := by
        intro l hl x hx
        cases List.mem_cons.mp hl with
        | inl he =>
            subst he
            exact htick _ (List.mem_cons_self ..) x (List.mem_cons_of_mem _ hx)
        | inr hl => exact htick l (List.mem_cons_of_mem _ hl) x hx
      obtain ⟨-, hcap, hc⟩ := by simpa only [not_or] using hgo
      have hc' : crosses o = true := by rw [hw, ho]; simpa using hc
      rw [flat_cons, List.cons_append]
      cases lt_or_eq_of_le hle with
      | inl hlt =>
          obtain ⟨h1, h2, h3⟩ := ih (sub_pos.mpr hlt) htick'
          rw [flat_cons] at h1 h2 h3
          rw [sweep_more makers hcap hc' hlt]
          refine ⟨?_, h2, h3⟩
          rw [h1, ← ho]
          rfl
      | inr heq =>
          have hz := @consume_filled takerId takerClient within (cap.map Nat.pred)
            (⟨t, os⟩ :: levels)
          rw [sweep_exact makers hcap hc' heq]
          simp only [r, heq, sub_self]
          refine ⟨?_, hz.2.1, ?_⟩
          · rw [hz.1, ← ho]
            rfl
          · rw [hz.2.2, flat_cons]
  | case5 cap n t o os levels hgo hlt =>
      have ho : o.priceTick = t := htick _ (List.mem_cons_self ..) o (List.mem_cons_self ..)
      obtain ⟨-, hcap, hc⟩ := by simpa only [not_or] using hgo
      have hc' : crosses o = true := by rw [hw, ho]; simpa using hc
      rw [flat_cons, List.cons_append, sweep_part makers hcap hc' (not_le.mp hlt), ← ho]
      exact ⟨rfl, rfl, by simp [makers, HpOrder.reduce]⟩

/-- Consuming levels leaves levels. -/
theorem consume_levelsOf (cap : Option Nat) (n : Int) (levels : List PriceLevel)
    (hsorted : levels.Pairwise fun a b => side.better a.tick b.tick)
    (htick : ∀ l ∈ levels, ∀ o ∈ l.orders, o.priceTick = l.tick)
    (htail : LevelsOf side levels.tail) :
    LevelsOf side (consume takerId takerClient within cap n levels).levels := by
  fun_induction consume takerId takerClient within cap n levels with
  | case1 => exact .nil
  | case2 cap n t levels ih =>
      cases levels with
      | nil => exact ih List.Pairwise.nil (by simp) .nil
      | cons l levels => exact ih htail.sorted htail.tick htail.tail
  | case3 cap n t o os levels hstop =>
      exact htail.cons (List.pairwise_cons.mp hsorted).1 (htick _ (List.mem_cons_self ..)) (by simp)
  | case4 cap n t o os levels hgo hle r ih =>
      refine ih ?_ (fun l hl x hx => ?_) htail
      · exact List.pairwise_cons.mpr (List.pairwise_cons.mp hsorted)
      · cases List.mem_cons.mp hl with
        | inl he =>
            subst he
            exact htick _ (List.mem_cons_self ..) x (List.mem_cons_of_mem _ hx)
        | inr hl => exact htick l (List.mem_cons_of_mem _ hl) x hx
  | case5 cap n t o os levels hgo hlt =>
      refine htail.cons (List.pairwise_cons.mp hsorted).1 (fun x hx => ?_) (by simp)
      cases List.mem_cons.mp hx with
      | inl he => rw [he]; exact htick _ (List.mem_cons_self ..) o (List.mem_cons_self ..)
      | inr hx => exact htick _ (List.mem_cons_self ..) x (List.mem_cons_of_mem _ hx)

end Consume

/-! ## Joining a level rests the order -/

section Join

variable {side : Side} {o : HpOrder}

theorem restIn_append_behind {pre : List HpOrder}
    (h : ∀ x ∈ pre, ¬ side.better o.priceTick x.priceTick) (post : List HpOrder) :
    restIn side o (pre ++ post) = pre ++ restIn side o post := by
  induction pre with
  | nil => rfl
  | cons x pre ih =>
      rw [List.cons_append, restIn_behind (h x (List.mem_cons_self ..)),
        ih fun y hy => h y (List.mem_cons_of_mem _ hy), List.cons_append]

theorem restIn_eq_cons {q : List HpOrder} (h : ∀ x ∈ q, side.better o.priceTick x.priceTick) :
    restIn side o q = o :: q := by
  cases q with
  | nil => rfl
  | cons x q => exact restIn_front (h x (List.mem_cons_self ..)) q

theorem flat_joinLevel {levels : List PriceLevel} (h : LevelsOf side levels) :
    flat (joinLevel side o levels) = restIn side o (flat levels) := by
  induction levels with
  | nil => rfl
  | cons l levels ih =>
      have htick := h.tick l (List.mem_cons_self ..)
      have hworse := h.better_flat
      rw [joinLevel]
      split
      next he =>
        have hown : ∀ x ∈ l.orders, ¬ side.better o.priceTick x.priceTick := by
          intro x hx
          rw [htick x hx, he]
          exact side.better_irrefl _
        rw [flat_cons, flat_cons, restIn_append_behind hown,
          restIn_eq_cons fun x hx => he ▸ hworse x hx]
        simp
      next he =>
        split
        next hb =>
          rw [flat_cons, flat_cons, restIn_eq_cons]
          · rfl
          · intro x hx
            cases List.mem_append.mp hx with
            | inl hx => rw [htick x hx]; exact hb
            | inr hx => exact Side.better_trans hb (hworse x hx)
        next hb =>
          rw [flat_cons, flat_cons, ih h.tail, restIn_append_behind]
          intro x hx
          rw [htick x hx]
          exact hb

/-- Joining adds no other tick. -/
theorem tick_joinLevel {levels : List PriceLevel} {m : PriceLevel}
    (hm : m ∈ joinLevel side o levels) :
    m.tick = o.priceTick ∨ ∃ l ∈ levels, m.tick = l.tick := by
  induction levels with
  | nil => exact Or.inl (by rw [List.mem_singleton.mp hm])
  | cons l levels ih =>
      rw [joinLevel] at hm
      split at hm
      next =>
        cases List.mem_cons.mp hm with
        | inl he => exact Or.inr ⟨l, List.mem_cons_self .., by rw [he]⟩
        | inr hm => exact Or.inr ⟨m, List.mem_cons_of_mem _ hm, rfl⟩
      next =>
        split at hm
        next =>
          cases List.mem_cons.mp hm with
          | inl he => exact Or.inl (by rw [he])
          | inr hm => exact Or.inr ⟨m, hm, rfl⟩
        next =>
          cases List.mem_cons.mp hm with
          | inl he => exact Or.inr ⟨l, List.mem_cons_self .., by rw [he]⟩
          | inr hm =>
              refine (ih hm).imp_right ?_
              rintro ⟨x, hx, ht⟩
              exact ⟨x, List.mem_cons_of_mem _ hx, ht⟩

theorem levelsOf_joinLevel {levels : List PriceLevel} (h : LevelsOf side levels) :
    LevelsOf side (joinLevel side o levels) := by
  induction levels with
  | nil => exact .cons .nil (by simp) (by simp) (by simp)
  | cons l levels ih =>
      have hs := (List.pairwise_cons.mp h.sorted).1
      have htick := h.tick l (List.mem_cons_self ..)
      rw [joinLevel]
      split
      next he =>
        refine h.tail.cons hs (fun x hx => ?_) (by simp)
        cases List.mem_append.mp hx with
        | inl hx => exact htick x hx
        | inr hx => rw [List.mem_singleton.mp hx]; exact he
      next he =>
        split
        next hb =>
          refine h.cons (fun m hm => ?_) (by simp) (by simp)
          cases List.mem_cons.mp hm with
          | inl hm => rw [hm]; exact hb
          | inr hm => exact Side.better_trans hb (hs m hm)
        next hb =>
          refine (ih h.tail).cons (fun m hm => ?_) htick (h.nonempty l (List.mem_cons_self ..))
          rcases tick_joinLevel hm with ht | ⟨x, hx, ht⟩
          · rw [ht]
            exact Side.better_of_ne hb he
          · rw [ht]
            exact hs x hx

end Join

/-! ## The engine and the reference -/

section Engine

variable {B A : Type} [LevelIndex B] [LevelIndex A]
  [LawfulLevelIndex .buy B] [LawfulLevelIndex .sell A]
  {exact : Prop} {book : Book B A} {q : Queues} {e : HpEngine B A} {side : Side}

/-- The price levels of a book, as the reference sees them. -/
def Book.priceLevels (book : Book B A) : LevelBook := fun side =>
  (book.levels side).map fun p => ⟨p.1, book.ordersAt p.2⟩

theorem Represents.flat_priceLevels (h : Represents exact book q []) (side : Side) :
    flat (book.priceLevels side) = q side := by
  rw [← congrFun h.queue_eq side, flat, Book.priceLevels, List.flatMap_map]
  rfl

theorem Represents.levelsOf_priceLevels (h : Represents exact book q []) (side : Side) :
    LevelsOf side (book.priceLevels side) := by
  have hl : ∀ l ∈ book.priceLevels side, l.orders = atTick l.tick (q side) ∧ l.orders ≠ [] := by
    intro l hl
    obtain ⟨p, hp, rfl⟩ := List.mem_map.mp hl
    have hlevel := Book.mem_levels.mp hp
    have hrep := (h.side side).level_rep p.1
    rw [hlevel] at hrep
    have heq := h.ordersAt_eq hlevel
    exact ⟨heq, heq ▸ hrep.1⟩
  refine ⟨List.pairwise_map.mpr (book.levels_sorted side), fun l hm o ho => ?_, fun l hm => ?_⟩
  · rw [(hl l hm).1] at ho
    exact (mem_atTick.mp ho).2
  · exact (hl l hm).2

/-- The levels of a book that represents queues are the levels of the queues. -/
theorem Represents.priceLevels_eq (h : Represents exact book q []) {levels : List PriceLevel}
    (hl : LevelsOf side levels) (hf : flat levels = q side) : book.priceLevels side = levels :=
  (h.levelsOf_priceLevels side).eq_of_flat hl ((h.flat_priceLevels side).trans hf.symm)

omit [LevelIndex B] [LevelIndex A] [LawfulLevelIndex .buy B] [LawfulLevelIndex .sell A] in
theorem crosses_eq_within (side : Side) (limit : Option Int) (o : HpOrder) :
    crosses side limit o = withinLimit side limit o.priceTick := by
  cases limit with
  | none => cases side <;> rfl
  | some lim =>
      cases side with
      | buy =>
          simp only [crosses, HpEngine.beyond, withinLimit, Option.any_some, ← decide_not, not_lt]
      | sell =>
          simp only [crosses, HpEngine.beyond, withinLimit, Option.any_some, ← decide_not, not_lt]

/-- The reference consumes what the engine sweeps. -/
theorem Represents.consume_eq (h : Represents exact book q []) (takerId takerClient : Nat)
    (limit : Option Int) (cap : Option Nat) {qty : Int} (hpos : 0 < qty) {r : Consumed}
    (hr : r = consume takerId takerClient (withinLimit side limit) cap qty
      (book.priceLevels side.opp)) :
    r.events = (takerSweep q side limit cap qty).fills.map (fillEvent takerId takerClient) ∧
      r.left = (takerSweep q side limit cap qty).left ∧
      LevelsOf side.opp r.levels ∧ flat r.levels = (takerSweep q side limit cap qty).book := by
  have hl := h.levelsOf_priceLevels side.opp
  have hsw := @consume_sweep takerId takerClient _ _ (crosses_eq_within side limit) cap qty
    (book.priceLevels side.opp) hpos hl.tick
  rw [h.flat_priceLevels] at hsw
  rw [hr]
  refine ⟨hsw.1, hsw.2.1, consume_levelsOf cap qty _ hl.sorted hl.tick ?_, hsw.2.2⟩
  cases hb : book.priceLevels side.opp with
  | nil => exact .nil
  | cons l levels => rw [hb] at hl; exact hl.tail

/-- The levels of a book that represents the queues after a sweep. -/
theorem Represents.priceLevels_settle {book' : Book B A} {sw : Sweep HpOrder Int}
    {left : List HpOrder} (h : Represents exact book' (q.settle side sw left) [])
    {own opp : List PriceLevel} (hown : LevelsOf side own)
    (hownf : flat own = left.foldr (restIn side) (q side)) (hopp : LevelsOf side.opp opp)
    (hoppf : flat opp = sw.book) :
    book'.priceLevels = fun s => if s = side then own else opp := by
  funext s
  rcases side.eq_or_opp s with rfl | rfl
  · rw [if_pos rfl]
    refine h.priceLevels_eq hown ?_
    rw [hownf, Queues.settle, Queues.set_self]
  · rw [if_neg side.opp_ne]
    refine h.priceLevels_eq hopp ?_
    rw [hoppf, Queues.settle, Queues.set_opp, Queues.set_self]

/-- A limit order, in the engine and in the reference. -/
theorem onLimit_reference (h : EngineInv exact e) {tick qty : Int} (ts client : Nat)
    (hpos : 0 < qty) :
    ((e.onOrder (.limit side tick qty ts client)).book.priceLevels,
        (e.onOrder (.limit side tick qty ts client)).events) =
      referenceLimit e.book.priceLevels e.book.store.nextId side tick qty ts client := by
  have hset : HpEngine.Settled False _ _ _ (e.onOrder (.limit side tick qty ts client)) :=
    HpEngine.onLimit_settled (e := { e with events := [] }) h.book.weaken hpos rfl rfl False.elim
  obtain ⟨r, hr⟩ : ∃ r, r = consume e.book.store.nextId client (withinLimit side (some tick)) none
      qty (e.book.priceLevels side.opp) := ⟨_, rfl⟩
  obtain ⟨hev, hleft, hopp, hoppf⟩ := h.book.consume_eq _ _ _ _ hpos hr
  have hnonneg : 0 ≤ (takerSweep e.book.queue side (some tick) none qty).left :=
    left_nonneg makers _ _ _ _ hpos.le
  have hown := h.book.levelsOf_priceLevels side
  have hownf := h.book.flat_priceLevels side
  rw [referenceLimit, ← hr]
  split
  next hz =>
    have hnone : leftover (HpEngine.taker { e with events := [] } side tick qty ts client)
        (takerSweep e.book.queue side (some tick) none qty) = [] :=
      if_neg (by rw [← hleft, hz]; exact lt_irrefl 0)
    rw [hnone] at hset
    refine Prod.ext (hset.book.priceLevels_settle hown hownf hopp hoppf) ?_
    rw [hset.events, hev]
    simp [HpEngine.taker]
  next hz =>
    have hsome : leftover (HpEngine.taker { e with events := [] } side tick qty ts client)
        (takerSweep e.book.queue side (some tick) none qty) = [_] :=
      if_pos (by omega)
    rw [hsome, ← hleft] at hset
    refine Prod.ext (hset.book.priceLevels_settle (levelsOf_joinLevel hown) ?_ hopp hoppf) ?_
    · rw [flat_joinLevel hown, hownf]
      rfl
    · rw [hset.events, hev]
      simp [HpEngine.taker, restEvent]

/-- A market order, in the engine and in the reference. -/
theorem onMarket_reference (h : EngineInv exact e) {qty : Int} (ts : Nat) (maxFills : Option Nat)
    (client : Nat) (hpos : 0 < qty) :
    ((e.onOrder (.market side qty ts maxFills client)).book.priceLevels,
        (e.onOrder (.market side qty ts maxFills client)).events) =
      referenceMarket e.book.priceLevels e.book.store.nextId side qty maxFills client := by
  have hset : HpEngine.Settled exact _ _ _ (e.onOrder (.market side qty ts maxFills client)) :=
    HpEngine.onMarket_settled (e := { e with events := [] }) h.book hpos rfl rfl
  obtain ⟨r, hr⟩ : ∃ r, r = consume e.book.store.nextId client (withinLimit side none) maxFills
      qty (e.book.priceLevels side.opp) := ⟨_, rfl⟩
  obtain ⟨hev, hleft, hopp, hoppf⟩ := h.book.consume_eq _ _ _ _ hpos hr
  have hnonneg : 0 ≤ (takerSweep e.book.queue side none maxFills qty).left :=
    left_nonneg makers _ _ _ _ hpos.le
  rw [referenceMarket, ← hr]
  refine Prod.ext (hset.book.priceLevels_settle (h.book.levelsOf_priceLevels side)
    (h.book.flat_priceLevels side) hopp hoppf) ?_
  rw [hset.events, leftover, ← hleft]
  dsimp only
  rw [hev]
  split
  next hl => rw [if_neg (by omega)]; simp [HpEngine.taker, dropEvent]
  next hl => rw [if_pos (by omega)]; simp [HpEngine.taker]

/-! ## What the trades of a command are -/

/-- A command that takes from the other side: its side, limit, cap, lots and
client. -/
inductive Takes : HpCommand → Side → Option Int → Option Nat → Int → Nat → Prop
  | limit (side : Side) (tick qty : Int) (ts client : Nat) :
      Takes (.limit side tick qty ts client) side (some tick) none qty client
  | market (side : Side) (qty : Int) (ts : Nat) (maxFills : Option Nat) (client : Nat) :
      Takes (.market side qty ts maxFills client) side none maxFills qty client

/-- The levels and the events after a command that takes. -/
def reference (book : LevelBook) (slot : Nat) : HpCommand → LevelBook × List HpEvent
  | .limit side tick qty ts client => referenceLimit book slot side tick qty ts client
  | .market side qty _ maxFills client => referenceMarket book slot side qty maxFills client
  | .cancel _ => (book, [])

/-- The trades of a taker of `n` lots, each a maker and the lots it gives. -/
def tradeEvents (slot client : Nat) : Int → List (HpOrder × Int) → List HpEvent
  | _, [] => []
  | n, (o, k) :: trades =>
      .fill o.id slot o.clientId client o.priceTick k (o.openLot - k) (n - k) ::
        tradeEvents slot client (n - k) trades

/-- The event that ends a command: what is left of a limit order rests, what is
left of a market order is revoked. -/
def closing (slot : Nat) (left : Int) : HpCommand → List HpEvent
  | .limit side tick _ _ client => if left = 0 then [] else [.rest slot client side tick left]
  | .market _ _ _ _ client => if left = 0 then [] else [.revoke slot client 1]
  | .cancel _ => []

/-- The trades of a taker with the makers of a queue, and what is left of it. -/
structure Trades (makers : List HpOrder) (side : Side) (limit : Option Int) (cap : Option Nat)
    (qty : Int) (trades : List (HpOrder × Int)) (left : Int) : Prop where
  /-- Makers trade in the order of the queue. -/
  order : trades.map Prod.fst <+: makers
  /-- Makers that trade are within the limit. -/
  within : ∀ t ∈ trades, withinLimit side limit t.1.priceTick = true
  /-- A maker gives some of what it has. -/
  amount : ∀ t ∈ trades, 0 < t.2 ∧ t.2 ≤ t.1.openLot
  /-- A maker that is not the last gives all of it. -/
  full : ∀ t ∈ trades.dropLast, t.2 = t.1.openLot
  /-- There are no more trades than the cap allows. -/
  capped : ∀ k, cap = some k → trades.length ≤ k
  /-- The lots of the taker are traded or left. -/
  conserved : (trades.map Prod.snd).sum + left = qty
  nonneg : 0 ≤ left
  /-- If lots are left, the cap is used up or the next maker is beyond the
  limit. -/
  stopped : 0 < left → cap = some trades.length ∨
    ∀ o, makers[trades.length]? = some o → withinLimit side limit o.priceTick = false

/-- A fill as a trade. -/
def tradeOf (f : Fill HpOrder Int) : HpOrder × Int := (f.maker, f.qty)

omit [LevelIndex B] [LevelIndex A] [LawfulLevelIndex .buy B] [LawfulLevelIndex .sell A] in
theorem tradeEvents_sweep (slot client : Nat) (crosses : HpOrder → Bool) (cap : Option Nat)
    (n : Int) (ms : List HpOrder) :
    tradeEvents slot client n ((sweep makers crosses cap n ms).fills.map tradeOf) =
      (sweep makers crosses cap n ms).fills.map (fillEvent slot client) := by
  fun_induction sweep makers crosses cap n ms with
  | case1 => rfl
  | case2 => rfl
  | case3 cap n m ms _ _ ih =>
      simp only [Sweep.cons, List.map_cons]
      rw [← ih]
      simp [tradeOf, tradeEvents, fillEvent, makers]
  | case4 cap n m ms _ _ h => simp [tradeOf, tradeEvents, fillEvent, makers]
  | case5 cap n m ms _ h1 h2 =>
      have heq : m.openLot = n := le_antisymm (not_lt.mp h2) (not_lt.mp h1)
      simp [tradeOf, tradeEvents, fillEvent, heq]

omit [LevelIndex B] [LevelIndex A] [LawfulLevelIndex .buy B] [LawfulLevelIndex .sell A] in
theorem trades_takerSweep {side : Side} (limit : Option Int) (cap : Option Nat) {qty : Int}
    (hpos : 0 < qty) (hlive : ∀ o ∈ q side.opp, 0 < o.openLot) :
    Trades (q side.opp) side limit cap qty ((takerSweep q side limit cap qty).fills.map tradeOf)
      (takerSweep q side limit cap qty).left := by
  have hspec := fill_spec makers (crosses side limit) cap qty (q side.opp) hpos hlive
  refine ⟨?_, fun t ht => ?_, fun t ht => ?_, fun t ht => ?_, fun k hk => ?_, ?_, ?_, fun hl => ?_⟩
  · rw [List.map_map]
    exact fills_initial makers (crosses side limit) cap qty (q side.opp)
  · obtain ⟨f, hf, rfl⟩ := List.mem_map.mp ht
    rw [← crosses_eq_within]
    exact (hspec f hf).1
  · obtain ⟨f, hf, rfl⟩ := List.mem_map.mp ht
    exact ⟨(hspec f hf).2.1, (hspec f hf).2.2.1⟩
  · rw [← List.map_dropLast] at ht
    obtain ⟨f, hf, rfl⟩ := List.mem_map.mp ht
    have hzero := makerLeft_dropLast makers (crosses side limit) cap qty (q side.opp) f hf
    have hleft := (hspec f (List.dropLast_subset _ hf)).2.2.2
    rw [hzero] at hleft
    exact (sub_eq_zero.mp hleft.symm).symm
  · rw [List.length_map]
    exact fills_length_le_cap makers (crosses side limit) cap qty (q side.opp) k hk
  · rw [List.map_map]
    exact sum_fills makers (crosses side limit) cap qty (q side.opp)
  · exact left_nonneg makers _ _ _ _ hpos.le
  · obtain ⟨hbook, hstop⟩ := book_of_left makers (crosses side limit) cap qty (q side.opp) hl
    rw [List.length_map]
    refine hstop.imp_right fun hhead o ho => ?_
    rw [← crosses_eq_within]
    refine hhead o ?_
    rw [hbook, List.head?_drop]
    exact ho

omit [LevelIndex B] [LevelIndex A] [LawfulLevelIndex .buy B] [LawfulLevelIndex .sell A] in
/-- A sweep leaves orders of the queue. -/
theorem ids_takerSweep {limit : Option Int} {cap : Option Nat} {qty : Int} {o : HpOrder}
    (ho : o ∈ (takerSweep q side limit cap qty).book) : ∃ x ∈ q side.opp, x.id = o.id := by
  have hsub :=
    book_keys makers (crosses side limit) HpOrder.id (fun _ _ => rfl) cap qty (q side.opp)
  exact List.mem_map.mp (hsub.subset (List.mem_map_of_mem ho))

omit [LawfulLevelIndex .buy B] [LawfulLevelIndex .sell A] in
/-- No order is in the next slot, before a command and after the sweep. -/
theorem Represents.ne_nextId (h : Represents exact book q []) (limit : Option Int)
    (cap : Option Nat) (qty : Int) :
    ∀ s, ∀ o ∈ (q.settle side (takerSweep q side limit cap qty) []) s,
      o.id ≠ book.store.nextId := by
  have hq : ∀ s, ∀ o ∈ q s, o.id ≠ book.store.nextId := by
    intro s o ho he
    have hget := h.get ho
    rw [he, book.store.get_nextId] at hget
    cases hget
  intro s o ho
  rw [Queues.settle_nil] at ho
  rcases side.eq_or_opp s with rfl | rfl
  · rw [Queues.set_opp_self] at ho
    exact hq s o ho
  · rw [Queues.set_self] at ho
    obtain ⟨x, hx, he⟩ := ids_takerSweep ho
    rw [← he]
    exact hq _ x hx

theorem Represents.mem_priceLevels (h : Represents exact book q []) (side : Side) {o : HpOrder}
    (ho : o ∈ q side) :
    ∃ l ∈ book.priceLevels side, l.tick = o.priceTick ∧ l.orders = atTick o.priceTick (q side) := by
  obtain ⟨level, hl⟩ := h.level_some ho
  exact ⟨_, List.mem_map_of_mem (Book.mem_levels.mpr hl), rfl, h.ordersAt_eq hl⟩

theorem Represents.orders_priceLevels (h : Represents exact book q []) {l : PriceLevel}
    {o : HpOrder} (hl : l ∈ book.priceLevels side) (ho : o ∈ l.orders) : o ∈ q side := by
  rw [← h.flat_priceLevels side]
  exact List.mem_flatMap.mpr ⟨l, hl, ho⟩

/-- Where the order of a command is afterwards: what is left of a limit order is
last at its tick, and otherwise the order is in no level. -/
def Placed (book : LevelBook) (slot : Nat) (left : Int) : HpCommand → Prop
  | .limit side tick qty ts client =>
      if left = 0 then ∀ s, ∀ l ∈ book s, ∀ o ∈ l.orders, o.id ≠ slot
      else ∃ l ∈ book side, l.tick = tick ∧ l.orders.getLast? = some
        { id := slot, side := side, priceTick := tick, qtyLot := qty, openLot := left, ts := ts,
          clientId := client }
  | _ => ∀ s, ∀ l ∈ book s, ∀ o ∈ l.orders, o.id ≠ slot

theorem EngineInv.trades (h : EngineInv exact e) (side : Side) (limit : Option Int)
    (cap : Option Nat) {qty : Int} (hpos : 0 < qty) :
    Trades (flat (e.book.priceLevels side.opp)) side limit cap qty
      ((takerSweep e.book.queue side limit cap qty).fills.map tradeOf)
      (takerSweep e.book.queue side limit cap qty).left := by
  rw [h.book.flat_priceLevels side.opp]
  exact trades_takerSweep limit cap hpos fun o ho => ((h.book.side side.opp).live o ho).1

theorem onLimit_trades (h : EngineInv exact e) {tick qty : Int} (ts client : Nat)
    (hpos : 0 < qty) :
    ∃ trades left,
      Trades (flat (e.book.priceLevels side.opp)) side (some tick) none qty trades left ∧
      (e.onOrder (.limit side tick qty ts client)).events =
        tradeEvents e.book.store.nextId client qty trades ++
          closing e.book.store.nextId left (.limit side tick qty ts client) ∧
      Placed (e.onOrder (.limit side tick qty ts client)).book.priceLevels e.book.store.nextId left
        (.limit side tick qty ts client) := by
  have hset : HpEngine.Settled False _ _ _ (e.onOrder (.limit side tick qty ts client)) :=
    HpEngine.onLimit_settled (e := { e with events := [] }) h.book.weaken hpos rfl rfl False.elim
  have htr := h.trades side (some tick) none hpos
  refine ⟨_, _, htr, ?_⟩
  rw [takerSweep, tradeEvents_sweep, ← takerSweep]
  rcases htr.nonneg.eq_or_lt with hz | hl
  · have hnone : leftover (HpEngine.taker { e with events := [] } side tick qty ts client)
        (takerSweep e.book.queue side (some tick) none qty) = [] :=
      if_neg (by rw [← hz]; exact lt_irrefl 0)
    rw [hnone] at hset
    rw [← hz]
    refine ⟨?_, ?_⟩
    · rw [hset.events]
      simp [HpEngine.taker, closing]
    · rw [Placed, if_pos rfl]
      intro s l hl o ho
      exact h.book.ne_nextId (some tick) none qty s o (hset.book.orders_priceLevels hl ho)
  · have hsome : leftover (HpEngine.taker { e with events := [] } side tick qty ts client)
        (takerSweep e.book.queue side (some tick) none qty) = [_] := if_pos hl
    rw [hsome] at hset
    refine ⟨?_, ?_⟩
    · rw [hset.events, closing, if_neg hl.ne']
      simp [HpEngine.taker, restEvent]
    · rw [Placed, if_neg hl.ne']
      have hb := hset.book
      rw [Queues.settle_single, Queues.set_opp_self] at hb
      obtain ⟨l, hmem, ht, hos⟩ := hb.mem_priceLevels side
        (by rw [Queues.set_self]; exact mem_restIn.mpr (Or.inl rfl))
      refine ⟨l, hmem, ht, ?_⟩
      rw [hos, Queues.set_self, atTick_restIn (h.book.side side).ranked, if_pos rfl,
        List.getLast?_concat]
      rfl

theorem onMarket_trades (h : EngineInv exact e) {qty : Int} (ts : Nat) (maxFills : Option Nat)
    (client : Nat) (hpos : 0 < qty) :
    ∃ trades left,
      Trades (flat (e.book.priceLevels side.opp)) side none maxFills qty trades left ∧
      (e.onOrder (.market side qty ts maxFills client)).events =
        tradeEvents e.book.store.nextId client qty trades ++
          closing e.book.store.nextId left (.market side qty ts maxFills client) ∧
      Placed (e.onOrder (.market side qty ts maxFills client)).book.priceLevels
        e.book.store.nextId left (.market side qty ts maxFills client) := by
  have hset : HpEngine.Settled exact _ _ _ (e.onOrder (.market side qty ts maxFills client)) :=
    HpEngine.onMarket_settled (e := { e with events := [] }) h.book hpos rfl rfl
  have htr := h.trades side none maxFills hpos
  refine ⟨_, _, htr, ?_, ?_⟩
  · rw [takerSweep, tradeEvents_sweep, ← takerSweep, hset.events, leftover, closing]
    rcases htr.nonneg.eq_or_lt with hz | hl
    · rw [← hz, if_neg (lt_irrefl 0), if_pos rfl]
      simp [HpEngine.taker]
    · rw [if_pos hl, if_neg hl.ne']
      simp [HpEngine.taker, dropEvent]
  · intro s l hl o ho
    exact h.book.ne_nextId none maxFills qty s o (hset.book.orders_priceLevels hl ho)

/-- **The engine is the reference matcher.**  On every limit or market order
that wants lots, the engine has the events and the levels of the reference. -/
theorem onOrder_eq_fifo {ok : HpEngine B A → HpCommand → Prop} (h : Reachable ok e)
    {cmd : HpCommand} {limit : Option Int} {cap : Option Nat} {qty : Int} {client : Nat}
    (hcmd : Takes cmd side limit cap qty client) (hpos : 0 < qty) :
    ((e.onOrder cmd).book.priceLevels, (e.onOrder cmd).events) =
        reference e.book.priceLevels e.book.store.nextId cmd ∧
      ∃ trades left,
        Trades (flat (e.book.priceLevels side.opp)) side limit cap qty trades left ∧
        (e.onOrder cmd).events = tradeEvents e.book.store.nextId client qty trades ++
          closing e.book.store.nextId left cmd ∧
        Placed (e.onOrder cmd).book.priceLevels e.book.store.nextId left cmd := by
  have hinv : EngineInv False e := h.inv False.elim
  cases hcmd with
  | limit _ tick _ ts _ =>
      exact ⟨onLimit_reference hinv ts client hpos, onLimit_trades hinv ts client hpos⟩
  | market _ _ ts _ _ =>
      exact ⟨onMarket_reference hinv ts cap client hpos, onMarket_trades hinv ts cap client hpos⟩

end Engine

/-- Of two asks a market buy with one fill takes the older, and its last lot is
revoked. -/
theorem onOrder_eq_fifo_capped :
    let e := ((HpEngine.new : BTreeEngine).onOrder (.limit .sell 100 5 1 7)).onOrder
      (.limit .sell 100 4 2 8)
    (e.onOrder (.market .buy 6 3 (some 1) 9)).events =
        (reference e.book.priceLevels e.book.store.nextId (.market .buy 6 3 (some 1) 9)).2 ∧
      (e.onOrder (.market .buy 6 3 (some 1) 9)).events =
        [.fill 1 3 7 9 100 5 0 1, .revoke 3 9 1] := by
  intro e
  have hreach : Reachable (fun _ _ => True) e := .step (.step .new trivial) trivial
  exact ⟨congrArg Prod.snd
    (onOrder_eq_fifo hreach (.market .buy 6 3 (some 1) 9) (by decide)).1, by decide +kernel⟩

end MatchCoreHp
