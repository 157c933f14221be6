import MatchRust.Lib.Grouping
import MatchRust.Hp.LevelIndex

/-!
# The queue of a side

A side of the book is for its user one queue of orders, better ticks first and
older orders first at one tick.  The levels, their totals and the cached best
tick are a way to store that queue.  `SideRep` says that they store a given
one, and the lemmas follow the four changes the engine makes to a side: an
order comes, the front order shrinks, an order goes, and a level goes with its
last order.

Totals are 64-bit sums.  Everything else is right whether or not they overflow,
so the relation has a parameter that says whether the totals are meant to be
exact.
-/

namespace MatchCoreHp

/-! ## Queues -/

/-- The open lots of some orders. -/
def sumOpen (os : List HpOrder) : Int := (os.map HpOrder.openLot).sum

@[simp] theorem sumOpen_nil : sumOpen [] = 0 := rfl

@[simp] theorem sumOpen_cons (o : HpOrder) (os : List HpOrder) :
    sumOpen (o :: os) = o.openLot + sumOpen os := by
  simp [sumOpen]

@[simp] theorem sumOpen_append (os ps : List HpOrder) :
    sumOpen (os ++ ps) = sumOpen os + sumOpen ps := by
  simp [sumOpen]

/-- The orders of a queue at a tick. -/
def atTick (t : Int) (q : List HpOrder) : List HpOrder := Grouping.group HpOrder.priceTick t q

@[simp] theorem atTick_nil (t : Int) : atTick t [] = [] := rfl

theorem atTick_cons_self (o : HpOrder) (q : List HpOrder) :
    atTick o.priceTick (o :: q) = o :: atTick o.priceTick q := Grouping.group_cons_self o q

theorem atTick_cons_ne {o : HpOrder} {t : Int} (h : o.priceTick ≠ t) (q : List HpOrder) :
    atTick t (o :: q) = atTick t q := Grouping.group_cons_ne h q

theorem atTick_append (t : Int) (pre post : List HpOrder) :
    atTick t (pre ++ post) = atTick t pre ++ atTick t post := Grouping.group_append t pre post

theorem mem_atTick {t : Int} {o : HpOrder} {q : List HpOrder} :
    o ∈ atTick t q ↔ o ∈ q ∧ o.priceTick = t := Grouping.mem_group

/-- Better ticks come first. -/
def Ranked (side : Side) (q : List HpOrder) : Prop :=
  q.Pairwise fun a b => ¬ side.better b.priceTick a.priceTick

/-- An order of a ranked queue is not better than the first one. -/
theorem Ranked.not_better_head {side : Side} {o x : HpOrder} {q : List HpOrder}
    (h : Ranked side (o :: q)) (hx : x ∈ o :: q) : ¬ side.better x.priceTick o.priceTick := by
  cases List.mem_cons.mp hx with
  | inl he => rw [he]; exact side.better_irrefl _
  | inr hx => exact (List.pairwise_cons.mp h).1 x hx

theorem Ranked.tail {side : Side} {o : HpOrder} {q : List HpOrder} (h : Ranked side (o :: q)) :
    Ranked side q := (List.pairwise_cons.mp h).2

/-- Ranking reads the ticks only. -/
theorem Ranked.of_ticks {side : Side} {l l' : List HpOrder} (h : Ranked side l)
    (hs : (l'.map HpOrder.priceTick).Sublist (l.map HpOrder.priceTick)) : Ranked side l' := by
  have hp : (l.map HpOrder.priceTick).Pairwise fun a b => ¬ side.better b a :=
    List.pairwise_map.mpr h
  exact List.pairwise_map.mp (hp.sublist hs)

/-- If an order at the tick of the first one is left, the next one is such. -/
theorem Ranked.head_tick {side : Side} {o x : HpOrder} {q : List HpOrder}
    (h : Ranked side (o :: q)) (hx : x ∈ q) (ht : x.priceTick = o.priceTick) :
    q.head?.map HpOrder.priceTick = some o.priceTick := by
  cases q with
  | nil => cases hx
  | cons y q =>
      have hyx := h.tail.not_better_head hx
      have hoy := h.not_better_head (List.mem_cons_of_mem o (List.mem_cons_self (a := y)))
      rw [ht] at hyx
      exact congrArg some (Side.eq_of_not_better hoy hyx)

/-- An order comes to rest behind all orders that are not worse. -/
def restIn (side : Side) (o : HpOrder) (q : List HpOrder) : List HpOrder :=
  q.orderedInsert (fun a b => side.better a.priceTick b.priceTick) o

section RestIn

variable {side : Side} {o : HpOrder}

@[simp] theorem restIn_nil : restIn side o [] = [o] := rfl

theorem restIn_front {b : HpOrder} (h : side.better o.priceTick b.priceTick) (q : List HpOrder) :
    restIn side o (b :: q) = o :: b :: q := by
  rw [restIn, List.orderedInsert_cons, if_pos h]

theorem restIn_behind {b : HpOrder} (h : ¬ side.better o.priceTick b.priceTick)
    (q : List HpOrder) : restIn side o (b :: q) = b :: restIn side o q := by
  rw [restIn, List.orderedInsert_cons, if_neg h]
  rfl

theorem perm_restIn (q : List HpOrder) : (restIn side o q).Perm (o :: q) :=
  List.perm_orderedInsert ..

theorem mem_restIn {x : HpOrder} {q : List HpOrder} : x ∈ restIn side o q ↔ x = o ∨ x ∈ q := by
  rw [(perm_restIn q).mem_iff, List.mem_cons]

theorem ranked_restIn {q : List HpOrder} (h : Ranked side q) : Ranked side (restIn side o q) := by
  induction q with
  | nil => simp [Ranked]
  | cons b q ih =>
      by_cases hb : side.better o.priceTick b.priceTick
      · rw [restIn_front hb]
        refine List.pairwise_cons.mpr ⟨fun x hx hxo => ?_, h⟩
        exact h.not_better_head hx (Side.better_trans hxo hb)
      · rw [restIn_behind hb]
        refine List.pairwise_cons.mpr ⟨fun x hx => ?_, ih h.tail⟩
        cases mem_restIn.mp hx with
        | inl he => rw [he]; exact hb
        | inr hx => exact h.not_better_head (List.mem_cons_of_mem b hx)

/-- An order that rests goes to the back of its tick. -/
theorem atTick_restIn {q : List HpOrder} (h : Ranked side q) (t : Int) :
    atTick t (restIn side o q) = if t = o.priceTick then atTick t q ++ [o] else atTick t q := by
  induction q with
  | nil =>
      rw [restIn_nil]
      split
      next ht => rw [ht]; exact atTick_cons_self o []
      next ht => exact atTick_cons_ne (Ne.symm ht) []
  | cons b q ih =>
      by_cases hb : side.better o.priceTick b.priceTick
      · rw [restIn_front hb]
        split
        next ht =>
          -- Every order of the queue is worse than the new one.
          have hnone : atTick o.priceTick (b :: q) = [] := by
            refine List.filter_eq_nil_iff.mpr fun x hx hxt => ?_
            rw [← of_decide_eq_true hxt] at hb
            exact h.not_better_head hx hb
          rw [ht, atTick_cons_self, hnone]
          rfl
        next ht => exact atTick_cons_ne (Ne.symm ht) _
      · rw [restIn_behind hb]
        by_cases hbt : b.priceTick = t
        · subst hbt
          rw [atTick_cons_self, atTick_cons_self, ih h.tail]
          split
          next => rfl
          next => rfl
        · rw [atTick_cons_ne hbt, atTick_cons_ne hbt, ih h.tail]

theorem head_restIn (q : List HpOrder) :
    (restIn side o q).head?.map HpOrder.priceTick =
      if (q.head?.map HpOrder.priceTick).all (fun t => side.better o.priceTick t) then
        some o.priceTick
      else q.head?.map HpOrder.priceTick := by
  cases q with
  | nil => rfl
  | cons b q =>
      by_cases hb : side.better o.priceTick b.priceTick
      · simp [restIn_front hb, hb]
      · simp [restIn_behind hb, hb]

end RestIn

/-! ## Levels that store a queue -/

/-- A level stores the orders of its tick.  No level stores none. -/
def LevelRep (exact : Prop) : Option Level → List HpOrder → Prop
  | none, os => os = []
  | some level, os =>
      os ≠ [] ∧ level.ids = os.map HpOrder.id ∧
        (exact → level.totalLot = sumOpen os ∧ sumOpen os ≤ i64Max)

/-- The levels and the best tick of a side store a queue. -/
structure SideRep (exact : Prop) (side : Side) (level : Int → Option Level) (best : Option Int)
    (q : List HpOrder) : Prop where
  ranked : Ranked side q
  side_eq : ∀ o ∈ q, o.side = side
  live : ∀ o ∈ q, 0 < o.openLot ∧ o.openLot ≤ o.qtyLot
  level_rep : ∀ t, LevelRep exact (level t) (atTick t q)
  best_eq : best = q.head?.map HpOrder.priceTick

theorem LevelRep.eq_none_iff {exact : Prop} {level : Option Level} {os : List HpOrder}
    (h : LevelRep exact level os) : level = none ↔ os = [] := by
  cases level with
  | none => exact ⟨fun _ => h, fun _ => rfl⟩
  | some level => exact ⟨nofun, fun he => absurd he h.1⟩

theorem sumOpen_nonneg {os : List HpOrder} (h : ∀ o ∈ os, 0 < o.openLot) : 0 ≤ sumOpen os := by
  refine List.sum_nonneg fun x hx => ?_
  obtain ⟨o, ho, rfl⟩ := List.mem_map.mp hx
  exact (h o ho).le

/-- A debit of no more than the total is exact. -/
theorem Level.debit_total {level : Level} {lot : Int} (h0 : 0 ≤ level.totalLot - lot)
    (h1 : level.totalLot - lot ≤ i64Max) : (level.debit lot).totalLot = level.totalLot - lot := by
  simp only [debit, wrapI64_eq h0 h1]
  rw [if_neg (not_lt.mpr h0)]

/-! ## An order comes -/

theorem LevelRep.push {exact : Prop} {level : Option Level} {os : List HpOrder} {o : HpOrder}
    (h : LevelRep exact level os) (hpos : 0 < o.openLot) (hos : ∀ x ∈ os, 0 < x.openLot)
    (hfit : exact → sumOpen (os ++ [o]) ≤ i64Max) :
    LevelRep exact (some ((level.getD {}).push o.id o.openLot)) (os ++ [o]) := by
  have hsum := sumOpen_nonneg hos
  refine ⟨by simp, ?_, fun hx => ⟨?_, hfit hx⟩⟩
  · cases level with
    | none => cases h; rfl
    | some level => simp [Level.push, h.2.1]
  · have hfit := hfit hx
    have heq : sumOpen (os ++ [o]) = sumOpen os + o.openLot := by simp
    have htot : (level.getD {}).totalLot = sumOpen os := by
      cases level with
      | none => cases h; rfl
      | some level => exact (h.2.2 hx).1
    rw [heq] at hfit ⊢
    rw [Level.push, htot]
    exact wrapI64_eq (by omega) hfit

/-- An order rests in a side. -/
theorem SideRep.rest {exact : Prop} {side : Side} {level level' : Int → Option Level}
    {best best' : Option Int} {q : List HpOrder} {o : HpOrder}
    (h : SideRep exact side level best q) (hside : o.side = side)
    (hlive : 0 < o.openLot ∧ o.openLot ≤ o.qtyLot)
    (hfit : exact → sumOpen (atTick o.priceTick (restIn side o q)) ≤ i64Max)
    (hlevel : ∀ t, level' t = if t = o.priceTick then
      some (((level t).getD {}).push o.id o.openLot) else level t)
    (hbest : best' = if best.all (fun t => side.better o.priceTick t) then some o.priceTick
      else best) :
    SideRep exact side level' best' (restIn side o q) := by
  refine ⟨ranked_restIn h.ranked, fun x hx => ?_, fun x hx => ?_, fun t => ?_, ?_⟩
  · cases mem_restIn.mp hx with
    | inl he => rw [he]; exact hside
    | inr hx => exact h.side_eq x hx
  · cases mem_restIn.mp hx with
    | inl he => rw [he]; exact hlive
    | inr hx => exact h.live x hx
  · rw [atTick_restIn h.ranked, hlevel t]
    split
    next ht =>
      subst ht
      rw [atTick_restIn h.ranked, if_pos rfl] at hfit
      exact (h.level_rep _).push hlive.1 (fun x hx => (h.live x (mem_atTick.mp hx).1).1) hfit
    next => exact h.level_rep t
  · rw [hbest, h.best_eq, head_restIn]

/-! ## The front order shrinks -/

/-- The order after a partial fill. -/
def HpOrder.reduce (n : Int) (o : HpOrder) : HpOrder := { o with openLot := o.openLot - n }

/-- The first order of a side is filled in part. -/
theorem SideRep.shrink {exact : Prop} {side : Side} {level level' : Int → Option Level}
    {best : Option Int} {q : List HpOrder} {o : HpOrder} {n : Int}
    (h : SideRep exact side level best (o :: q)) (hn : 0 < n) (hlt : n < o.openLot)
    (hlevel : ∀ t, level' t = if t = o.priceTick then (level t).map fun l => l.debit n
      else level t) :
    SideRep exact side level' best (o.reduce n :: q) := by
  have ho := h.live o (List.mem_cons_self ..)
  refine ⟨?_, fun x hx => ?_, fun x hx => ?_, fun t => ?_, h.best_eq⟩
  · exact List.pairwise_cons.mpr (List.pairwise_cons.mp h.ranked)
  · cases List.mem_cons.mp hx with
    | inl he => rw [he]; exact h.side_eq o (List.mem_cons_self ..)
    | inr hx => exact h.side_eq x (List.mem_cons_of_mem _ hx)
  · cases List.mem_cons.mp hx with
    | inl he =>
        rw [he]
        show 0 < o.openLot - n ∧ o.openLot - n ≤ o.qtyLot
        omega
    | inr hx => exact h.live x (List.mem_cons_of_mem _ hx)
  · have hrep := h.level_rep t
    rw [hlevel t]
    by_cases ht : t = o.priceTick
    · subst ht
      rw [if_pos rfl]
      rw [atTick_cons_self] at hrep
      rw [show atTick o.priceTick (o.reduce n :: q) = o.reduce n :: atTick o.priceTick q from
        atTick_cons_self (o.reduce n) q]
      have hrest : 0 ≤ sumOpen (atTick o.priceTick q) := sumOpen_nonneg fun x hx =>
        (h.live x (List.mem_cons_of_mem _ (mem_atTick.mp hx).1)).1
      cases hl : level o.priceTick with
      | none => rw [hl] at hrep; cases hrep
      | some l =>
          rw [hl] at hrep
          refine ⟨by simp, hrep.2.1, fun hx => ?_⟩
          obtain ⟨htot, hfit⟩ := hrep.2.2 hx
          rw [sumOpen_cons] at htot hfit
          rw [sumOpen_cons, show (o.reduce n).openLot = o.openLot - n from rfl,
            Level.debit_total (by omega) (by omega)]
          omega
    · rw [if_neg ht]
      rw [atTick_cons_ne (Ne.symm ht)] at hrep
      exact (atTick_cons_ne (o := o.reduce n) (Ne.symm ht) q).symm ▸ hrep

/-! ## An order goes -/

/-- A queue without the order of this identifier. -/
def without (id : Nat) (q : List HpOrder) : List HpOrder := q.filter fun o => o.id ≠ id

theorem mem_without {id : Nat} {o : HpOrder} {q : List HpOrder} :
    o ∈ without id q ↔ o ∈ q ∧ o.id ≠ id := by
  simp [without]

theorem without_eq_self {id : Nat} {q : List HpOrder} (h : ∀ o ∈ q, o.id ≠ id) :
    without id q = q := by
  simpa [without] using h

/-- In a queue without double identifiers, one order goes. -/
theorem without_middle {pre post : List HpOrder} {o : HpOrder}
    (h : ((pre ++ o :: post).map HpOrder.id).Nodup) :
    without o.id (pre ++ o :: post) = pre ++ post := by
  rw [List.map_append, List.map_cons, List.nodup_middle, List.nodup_cons, ← List.map_append] at h
  have hne : ∀ x ∈ pre ++ post, x.id ≠ o.id := fun x hx he => h.1 (List.mem_map.mpr ⟨x, hx, he⟩)
  have hpost := without_eq_self fun x hx => hne x (List.mem_append_right pre hx)
  have hpre := without_eq_self fun x hx => hne x (List.mem_append_left post hx)
  rw [without] at hpre hpost
  rw [without, List.filter_append, hpre, List.filter_cons_of_neg (by simp), hpost]

/-- What taking an order off its level does to the level. -/
def Level.take (level : Level) (id : Nat) (lot : Int) : Option Level :=
  let ids := level.ids.filter fun x => x ≠ id
  if ids.isEmpty then none else some { level.debit lot with ids := ids }

theorem LevelRep.take {exact : Prop} {level : Level} {pre post : List HpOrder} {o : HpOrder}
    (h : LevelRep exact (some level) (pre ++ o :: post))
    (hnd : ((pre ++ o :: post).map HpOrder.id).Nodup)
    (hpos : ∀ x ∈ pre ++ o :: post, 0 < x.openLot) :
    LevelRep exact (level.take o.id o.openLot) (pre ++ post) := by
  obtain ⟨-, hids, htot⟩ := h
  have hids' : (level.ids.filter fun x => x ≠ o.id) = (pre ++ post).map HpOrder.id := by
    rw [hids, ← without_middle hnd, without, List.filter_map]
    rfl
  have hsum : 0 ≤ sumOpen (pre ++ post) := sumOpen_nonneg fun x hx => hpos x (by
    rw [List.mem_append, List.mem_cons]
    exact (List.mem_append.mp hx).imp_right Or.inr)
  have heq : sumOpen (pre ++ o :: post) = o.openLot + sumOpen (pre ++ post) := by
    simp only [sumOpen_append, sumOpen_cons]
    omega
  have ho : 0 < o.openLot := hpos o (by simp)
  rw [Level.take, hids']
  cases hq : pre ++ post with
  | nil => exact (rfl : ([] : List HpOrder) = [])
  | cons x q =>
      refine ⟨by simp, rfl, fun hx => ?_⟩
      obtain ⟨htot, hfit⟩ := htot hx
      rw [heq] at htot hfit
      rw [← hq]
      show (level.debit o.openLot).totalLot = _ ∧ _
      rw [Level.debit_total (by omega) (by omega)]
      omega

/-- An order leaves a side.  The best tick is looked up again only if the level
of that tick went. -/
theorem SideRep.remove {exact : Prop} {side : Side} {level level' : Int → Option Level}
    {best best' : Option Int} {pre post : List HpOrder} {o : HpOrder}
    (h : SideRep exact side level best (pre ++ o :: post))
    (hnd : ((pre ++ o :: post).map HpOrder.id).Nodup)
    (hother : ∀ t, t ≠ o.priceTick → level' t = level t)
    (htick : level' o.priceTick = (level o.priceTick).bind fun l => l.take o.id o.openLot)
    (hlookup : level' o.priceTick = none → best = some o.priceTick →
      (∀ t, LevelRep exact (level' t) (atTick t (pre ++ post))) →
      best' = (pre ++ post).head?.map HpOrder.priceTick)
    (hkeep : ¬ (level' o.priceTick = none ∧ best = some o.priceTick) → best' = best) :
    SideRep exact side level' best' (pre ++ post) := by
  have hsub : (pre ++ post).Sublist (pre ++ o :: post) :=
    (List.sublist_cons_self o post).append_left pre
  have hlevels : ∀ t, LevelRep exact (level' t) (atTick t (pre ++ post)) := by
    intro t
    have hrep := h.level_rep t
    rw [atTick_append] at hrep ⊢
    by_cases ht : t = o.priceTick
    · subst ht
      rw [atTick_cons_self] at hrep
      rw [htick]
      cases hl : level o.priceTick with
      | none =>
          rw [hl] at hrep
          exact absurd (hrep.eq_none_iff.mp rfl) (by simp)
      | some l =>
          rw [hl] at hrep
          have hmem : ∀ x ∈ atTick o.priceTick pre ++ o :: atTick o.priceTick post,
              x ∈ pre ++ o :: post := by
            rw [← atTick_cons_self, ← atTick_append]
            exact fun x hx => (mem_atTick.mp hx).1
          refine hrep.take ?_ fun x hx => (h.live x (hmem x hx)).1
          rw [← atTick_cons_self, ← atTick_append]
          exact hnd.sublist (List.filter_sublist.map HpOrder.id)
    · rw [atTick_cons_ne (Ne.symm ht)] at hrep
      rw [hother t ht]
      exact hrep
  refine ⟨h.ranked.sublist hsub, fun x hx => h.side_eq x (hsub.subset hx),
    fun x hx => h.live x (hsub.subset hx), hlevels, ?_⟩
  by_cases hgone : level' o.priceTick = none ∧ best = some o.priceTick
  · exact hlookup hgone.1 hgone.2 hlevels
  · rw [hkeep hgone, h.best_eq]
    cases pre with
    | cons p pre => rfl
    | nil =>
        -- The first order goes, and another one is left at its tick.
        have hne : atTick o.priceTick post ≠ [] := by
          intro he
          refine hgone ⟨(hlevels o.priceTick).eq_none_iff.mpr ?_, h.best_eq⟩
          exact he
        obtain ⟨x, hx⟩ := List.exists_mem_of_ne_nil _ hne
        exact (h.ranked.head_tick (mem_atTick.mp hx).1 (mem_atTick.mp hx).2).symm

end MatchCoreHp
