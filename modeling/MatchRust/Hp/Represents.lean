import MatchRust.Hp.Frames
import MatchRust.Hp.Queue

/-!
# Books that represent queues

A book represents one queue for each side when its levels and best ticks store
them (`SideRep`) and its store holds the orders of both.  During a call the
store also holds the taker, which is in no queue.  Such orders are listed
separately.

The lemmas say what the functions of the book do to the queues: `rest` puts a
working order into the queue of its side, `cancel` takes an order out, and
`fillOrder` shrinks the first order of a side or takes it out.
-/

namespace MatchCoreHp

/-! ## The store -/

/-- The store holds these orders, each in the slot of its identifier. -/
structure Holds (store : OrderStore) (orders : List HpOrder) : Prop where
  nodup : (orders.map HpOrder.id).Nodup
  get_iff : ∀ id o, store.get id = some o ↔ o ∈ orders ∧ o.id = id

namespace Holds

variable {store : OrderStore} {orders : List HpOrder} {o : HpOrder}

theorem perm {orders' : List HpOrder} (h : Holds store orders) (hp : orders.Perm orders') :
    Holds store orders' :=
  ⟨(hp.map HpOrder.id).nodup_iff.mp h.nodup, fun id o => by rw [h.get_iff, hp.mem_iff]⟩

theorem get (h : Holds store orders) (ho : o ∈ orders) : store.get o.id = some o :=
  (h.get_iff o.id o).mpr ⟨ho, rfl⟩

/-- The first of the orders is the only one of its identifier. -/
theorem ne_head (h : Holds store (o :: orders)) : ∀ x ∈ orders, x.id ≠ o.id := by
  intro x hx he
  exact (List.nodup_cons.mp h.nodup).1 (List.mem_map.mpr ⟨x, hx, he⟩)

theorem insert (h : Holds store orders) (o : HpOrder) :
    Holds (OrderStore.insert store o).2 ({ o with id := store.nextId } :: orders) := by
  have hfresh : ∀ x ∈ orders, x.id ≠ store.nextId := by
    intro x hx he
    have hget := h.get hx
    rw [he, store.get_nextId] at hget
    cases hget
  refine ⟨?_, fun id x => ?_⟩
  · refine List.nodup_cons.mpr ⟨fun hmem => ?_, h.nodup⟩
    obtain ⟨x, hx, he⟩ := List.mem_map.mp hmem
    exact hfresh x hx he
  · rw [OrderStore.insert, Slab.get_insert, List.mem_cons]
    split
    next hid =>
      subst hid
      constructor
      · intro hx
        cases hx
        exact ⟨Or.inl rfl, rfl⟩
      · rintro ⟨rfl | hx, he⟩
        · rfl
        · exact absurd he (hfresh x hx)
    next hid =>
      rw [h.get_iff]
      constructor
      · exact fun hx => ⟨Or.inr hx.1, hx.2⟩
      · rintro ⟨rfl | hx, he⟩
        · exact absurd he.symm hid
        · exact ⟨hx, he⟩

theorem modify (h : Holds store (o :: orders)) (f : HpOrder → HpOrder) (hf : (f o).id = o.id) :
    Holds (store.modify o.id f) (f o :: orders) := by
  refine ⟨?_, fun id x => ?_⟩
  · have hn := h.nodup
    rw [List.map_cons, ← hf] at hn
    exact hn
  · rw [Slab.get_modify, List.mem_cons, h.get (List.mem_cons_self ..), Option.map_some]
    split
    next hid =>
      subst hid
      constructor
      · intro hx
        cases hx
        exact ⟨Or.inl rfl, hf⟩
      · rintro ⟨rfl | hx, he⟩
        · rfl
        · exact absurd he (h.ne_head x hx)
    next hid =>
      rw [h.get_iff, List.mem_cons]
      constructor
      · rintro ⟨rfl | hx, he⟩
        · exact absurd he.symm hid
        · exact ⟨Or.inr hx, he⟩
      · rintro ⟨rfl | hx, he⟩
        · exact absurd (he.symm.trans hf) hid
        · exact ⟨Or.inr hx, he⟩

theorem remove (h : Holds store (o :: orders)) : Holds (store.remove o.id).2 orders := by
  refine ⟨(List.nodup_cons.mp h.nodup).2, fun id x => ?_⟩
  rw [Slab.get_remove]
  split
  next hid =>
    subst hid
    exact ⟨nofun, fun hx => absurd hx.2 (h.ne_head x hx.1)⟩
  next hid =>
    rw [h.get_iff, List.mem_cons]
    constructor
    · rintro ⟨rfl | hx, he⟩
      · exact absurd he.symm hid
      · exact ⟨hx, he⟩
    · exact fun hx => ⟨Or.inr hx.1, hx.2⟩

end Holds

/-! ## Queues of both sides -/

/-- A queue for each side. -/
abbrev Queues := Side → List HpOrder

/-- The orders of both queues. -/
def Queues.orders (q : Queues) : List HpOrder := q .buy ++ q .sell

/-- Other orders in the queue of a side. -/
def Queues.set (q : Queues) (side : Side) (l : List HpOrder) : Queues :=
  fun s => if s = side then l else q s

namespace Queues

@[simp] theorem set_self (q : Queues) (side : Side) (l : List HpOrder) :
    (q.set side l) side = l := if_pos rfl

theorem set_ne (q : Queues) {side s : Side} (h : s ≠ side) (l : List HpOrder) :
    (q.set side l) s = q s := if_neg h

@[simp] theorem set_opp (q : Queues) (side : Side) (l : List HpOrder) :
    (q.set side l) side.opp = q side.opp := set_ne q side.opp_ne l

@[simp] theorem set_opp_self (q : Queues) (side : Side) (l : List HpOrder) :
    (q.set side.opp l) side = q side := set_ne q (Ne.symm side.opp_ne) l

@[simp] theorem set_set (q : Queues) (side : Side) (l l' : List HpOrder) :
    (q.set side l).set side l' = q.set side l' := by
  funext s
  unfold set
  split
  next => rfl
  next => rfl

theorem set_eq_self {q : Queues} {side : Side} {l : List HpOrder} (h : q side = l) :
    q.set side l = q := by
  funext s
  unfold set
  split
  next hs => rw [hs, h]
  next => rfl

theorem orders_perm (q : Queues) (side : Side) : q.orders.Perm (q side ++ q side.opp) := by
  cases side with
  | buy => exact List.Perm.refl _
  | sell => exact List.perm_append_comm

theorem orders_set_perm (q : Queues) (side : Side) (l : List HpOrder) :
    (q.set side l).orders.Perm (l ++ q side.opp) := by
  have h := orders_perm (q.set side l) side
  rwa [set_self, set_opp] at h

theorem mem_orders {q : Queues} {o : HpOrder} : o ∈ q.orders ↔ ∃ side, o ∈ q side := by
  rw [orders, List.mem_append]
  constructor
  · exact fun h => h.elim (fun h => ⟨.buy, h⟩) fun h => ⟨.sell, h⟩
  · rintro ⟨side, h⟩
    cases side with
    | buy => exact Or.inl h
    | sell => exact Or.inr h

end Queues

/-! ## Representation -/

variable {B A : Type} [LevelIndex B] [LevelIndex A]

/-- A book represents the queues of its sides.  Its store also holds the
working orders. -/
structure Represents (exact : Prop) (book : Book B A) (q : Queues) (working : List HpOrder) :
    Prop where
  side : ∀ s, SideRep exact s (book.level s) (book.best s) (q s)
  holds : Holds book.store (working ++ q.orders)
  pool : book.PoolClear

namespace Represents

variable {exact : Prop} {book book' : Book B A} {q : Queues} {working : List HpOrder}
  {o : HpOrder} {side : Side}

/-- The orders, those of a side in front. -/
theorem holds_perm (h : Represents exact book q working) (side : Side) :
    Holds book.store (q side ++ (working ++ q side.opp)) := by
  refine h.holds.perm ?_
  refine ((q.orders_perm side).append_left working).trans ?_
  rw [← List.append_assoc, ← List.append_assoc]
  exact List.perm_append_comm.append_right _

theorem nodup (h : Represents exact book q working) (side : Side) :
    ((q side).map HpOrder.id).Nodup := by
  have hn := (h.holds_perm side).nodup
  rw [List.map_append] at hn
  exact hn.of_append_left

theorem get (h : Represents exact book q working) (ho : o ∈ q side) :
    book.store.get o.id = some o :=
  h.holds.get (List.mem_append_right _ (Queues.mem_orders.mpr ⟨side, ho⟩))

/-! ## Working orders -/

/-- The store may change if it holds the right orders. -/
theorem withStore (h : Represents exact book q working) {store : OrderStore}
    {working' : List HpOrder} (hh : Holds store (working' ++ q.orders)) :
    Represents exact { book with store := store } q working' := by
  have hsame := book.sameLevels_store store
  refine ⟨fun s => ?_, hh, h.pool⟩
  rw [show ({ book with store := store } : Book B A).level s = book.level s from
    funext (hsame.level s), hsame.best]
  exact h.side s

/-- A new order is stored. -/
theorem start (h : Represents exact book q []) (o : HpOrder) :
    Represents exact { book with store := (OrderStore.insert book.store o).2 } q
      [{ o with id := book.store.nextId }] :=
  h.withStore (h.holds.insert o)

/-- A working order is removed. -/
theorem finish (h : Represents exact book q [o]) :
    Represents exact { book with store := (book.store.remove o.id).2 } q [] :=
  h.withStore h.holds.remove

/-- There is a level for every order. -/
theorem level_some (h : Represents exact book q working) (ho : o ∈ q side) :
    ∃ level, book.level side o.priceTick = some level := by
  refine Option.ne_none_iff_exists'.mp fun he => ?_
  have hmem := mem_atTick.mpr ⟨ho, rfl⟩
  rw [((h.side side).level_rep o.priceTick).eq_none_iff.mp he] at hmem
  cases hmem

/-- All orders, one of a side in front. -/
theorem perm_take (working pre post : List HpOrder) (hq : q side = pre ++ o :: post) :
    (working ++ q.orders).Perm (o :: (working ++ (q.set side (pre ++ post)).orders)) := by
  have h1 := (q.orders_perm side).append_left working
  have h2 := (q.orders_set_perm side (pre ++ post)).append_left working
  rw [hq] at h1
  refine h1.trans (List.Perm.trans ?_ (h2.cons o).symm)
  simp only [List.append_assoc, List.cons_append]
  exact (List.perm_middle.append_left working).trans List.perm_middle

end Represents

section Lawful

variable [LawfulLevelIndex .buy B] [LawfulLevelIndex .sell A]

/-- The first level is that of the first order. -/
theorem head_levels {exact : Prop} {book : Book B A} {side : Side} {q : List HpOrder}
    (hr : Ranked side q) (h : ∀ t, LevelRep exact (book.level side t) (atTick t q)) :
    (book.levels side).head?.map Prod.fst = q.head?.map HpOrder.priceTick := by
  have hsome : ∀ {t l}, (t, l) ∈ book.levels side → ∃ x ∈ q, x.priceTick = t := by
    intro t l hl
    have hne : atTick t q ≠ [] := fun he => by
      have := (h t).eq_none_iff.mpr he
      rw [Book.mem_levels.mp hl] at this
      cases this
    obtain ⟨x, hx⟩ := List.exists_mem_of_ne_nil _ hne
    exact ⟨x, mem_atTick.mp hx⟩
  cases q with
  | nil =>
      cases hl : book.levels side with
      | nil => rfl
      | cons p ls =>
          obtain ⟨x, hx, -⟩ := hsome (hl ▸ List.mem_cons_self (a := p))
          cases hx
  | cons o q =>
      have hne : book.level side o.priceTick ≠ none := fun he => by
        have := (h o.priceTick).eq_none_iff.mp he
        rw [atTick_cons_self] at this
        cases this
      obtain ⟨l, hlo⟩ := Option.ne_none_iff_exists'.mp hne
      have hmem := Book.mem_levels.mpr hlo
      have hsorted := book.levels_sorted side
      cases hl : book.levels side with
      | nil => rw [hl] at hmem; cases hmem
      | cons p ls =>
          rw [hl] at hmem hsorted
          obtain ⟨x, hx, hxp⟩ := hsome (hl ▸ List.mem_cons_self (a := p))
          cases List.mem_cons.mp hmem with
          | inl he => rw [← he]; rfl
          | inr hmem =>
              have hb := (List.pairwise_cons.mp hsorted).1 _ hmem
              rw [← hxp] at hb
              exact absurd hb (hr.not_better_head hx)

omit [LawfulLevelIndex .buy B] [LawfulLevelIndex .sell A] in
theorem holds_empty : Holds (Slab.empty : OrderStore) [] := ⟨List.nodup_nil, by simp⟩

omit [LawfulLevelIndex .buy B] [LawfulLevelIndex .sell A] in
/-- An empty book represents empty queues, whatever is in its pool. -/
theorem represents_empty (exact : Prop) {book : Book B A} (hstore : book.store = Slab.empty)
    (hlevel : ∀ s t, book.level s t = none) (hbest : ∀ s, book.best s = none)
    (hpool : book.PoolClear) : Represents exact book (fun _ => []) [] := by
  refine ⟨fun s => ⟨List.Pairwise.nil, by simp, by simp, fun t => ?_, hbest s⟩, ?_, hpool⟩
  · rw [hlevel]
    exact (rfl : ([] : List HpOrder) = [])
  · rw [hstore]
    exact holds_empty

theorem level_new (s : Side) (t : Int) : (Book.new : Book B A).level s t = none := by
  cases s with
  | buy => exact LawfulLevelIndex.get_default .buy t
  | sell => exact LawfulLevelIndex.get_default .sell t

theorem represents_new (exact : Prop) :
    Represents exact (Book.new : Book B A) (fun _ => []) [] := by
  refine represents_empty exact rfl level_new (fun s => ?_) ?_
  · cases s with
    | buy => rfl
    | sell => rfl
  · simp [Book.PoolClear, Book.new]

theorem represents_withCapacity (exact : Prop) :
    Represents exact (Book.withCapacity : Book B A) (fun _ => []) [] := by
  refine represents_empty exact rfl (fun s t => ?_) (fun s => ?_) ?_
  · rw [← level_new (B := B) (A := A) s t]
    cases s with
    | buy => rfl
    | sell => rfl
  · cases s with
    | buy => rfl
    | sell => rfl
  · exact fun l hl => List.eq_of_mem_replicate hl

/-- What taking an order off its level leaves of a book. -/
structure LevelTaken (book book' : Book B A) (side : Side) (tick : Int) (id : Nat) (lot : Int) :
    Prop where
  level : ∀ s t, book'.level s t =
    if s = side ∧ t = tick then (book.level side tick).bind fun l => l.take id lot
    else book.level s t
  lookup : book'.level side tick = none → book.best side = some tick →
    book'.best side = (book'.levels side).head?.map Prod.fst
  keep : ∀ s, ¬ (s = side ∧ book'.level side tick = none ∧ book.best side = some tick) →
    book'.best s = book.best s
  pool : book'.PoolClear

theorem LevelTaken.congr {book book₁ book' book₁' : Book B A} {side : Side} {tick : Int}
    {id : Nat} {lot : Int} (h : LevelTaken book₁ book₁' side tick id lot)
    (hb : book.SameLevels book₁) (hb' : book₁'.SameLevels book') :
    LevelTaken book book' side tick id lot := by
  refine ⟨fun s t => ?_, fun hn ho => ?_, fun s hs => ?_, ?_⟩
  · rw [hb'.level, h.level, hb.level, hb.level]
  · rw [hb'.level] at hn
    rw [hb'.best, h.lookup hn (by rw [hb.best, ho]), Book.levels_congr (hb'.level side)]
  · rw [hb'.level] at hs
    rw [hb'.best, h.keep s (by rw [hb.best]; exact hs), hb.best]
  · have hp := h.pool
    rw [Book.PoolClear, ← hb'.pool] at hp
    exact hp

theorem levelTaken_removeFromLevel {book : Book B A} (h : book.PoolClear) {side : Side}
    {tick : Int} {level : Level} (hl : book.level side tick = some level) (id : Nat) (lot : Int) :
    LevelTaken book (book.removeFromLevel side tick id lot) side tick id lot ∧
      (book.removeFromLevel side tick id lot).store = book.store := by
  let f : Level → Level := fun l =>
    { l.debit lot with ids := level.ids.filter fun x => x ≠ id }
  have hpool : (book.levelMutForRemove side tick f).PoolClear := by
    simpa [Book.PoolClear] using h
  have hlevel : ∀ s t, (book.levelMutForRemove side tick f).level s t =
      if s = side ∧ t = tick then some (f level) else book.level s t := by
    intro s t
    rw [Book.level_levelMutForRemove, hl]
    rfl
  simp only [Book.removeFromLevel, hl]
  split
  next hempty =>
    have hr := Book.levelRemoved_removeEmptyLevel hpool side tick
    have htake : level.take id lot = none := if_pos hempty
    refine ⟨⟨fun s t => ?_, fun _ hb => ?_, fun s hs => ?_, hr.pool⟩, ?_⟩
    · rw [hr.level, hlevel, hl, Option.bind_some, htake]
      split
      next => rfl
      next => rfl
    · rw [hr.best, Book.best_levelMutForRemove, if_pos ⟨rfl, hb⟩]
    · rw [hr.level, if_pos ⟨rfl, rfl⟩] at hs
      rw [hr.best, Book.best_levelMutForRemove, Book.best_levelMutForRemove, if_neg]
      exact fun hb => hs ⟨hb.1, rfl, hb.2⟩
    · rw [hr.store, Book.store_levelMutForRemove]
  next hempty =>
    have htake : level.take id lot = some (f level) := if_neg hempty
    refine ⟨⟨fun s t => ?_, fun hn _ => ?_, fun s _ => ?_, hpool⟩, ?_⟩
    · rw [hl, Option.bind_some, htake]
      exact hlevel s t
    · rw [hlevel, if_pos ⟨rfl, rfl⟩] at hn
      cases hn
    · exact Book.best_levelMutForRemove ..
    · exact Book.store_levelMutForRemove ..

namespace Represents

variable {exact : Prop} {book book' : Book B A} {q : Queues} {working : List HpOrder}
  {o : HpOrder} {side : Side}

/-! ## An order goes -/

/-- An order is taken off its level. -/
theorem take (h : Represents exact book q working) (pre post : List HpOrder)
    (hq : q side = pre ++ o :: post)
    (ht : LevelTaken book book' side o.priceTick o.id o.openLot)
    (hholds : Holds book'.store (working ++ (q.set side (pre ++ post)).orders)) :
    Represents exact book' (q.set side (pre ++ post)) working := by
  have hs := h.side side
  have hnd := h.nodup side
  rw [hq] at hs hnd
  refine ⟨fun s => ?_, hholds, ht.pool⟩
  by_cases hside : s = side
  · subst hside
    rw [Queues.set_self]
    refine hs.remove hnd (fun t hne => ?_) ?_ (fun hnone hb hrep => ?_) fun hk => ?_
    · rw [ht.level, if_neg fun he => hne he.2]
    · rw [ht.level, if_pos ⟨rfl, rfl⟩]
    · rw [ht.lookup hnone hb]
      exact head_levels (hs.ranked.sublist ((List.sublist_cons_self o post).append_left pre)) hrep
    · exact ht.keep s fun he => hk he.2
  · have hlevel : book'.level s = book.level s := by
      funext t
      rw [ht.level, if_neg fun he => hside he.1]
    rw [Queues.set_ne q hside, hlevel, ht.keep s fun he => hside he.1]
    exact h.side s

/-- Cancelling an order takes it out of its queue. -/
theorem cancel (h : Represents exact book q working) {pre post : List HpOrder}
    (hq : q side = pre ++ o :: post) :
    (book.cancel o.id).1 = true ∧
      Represents exact (book.cancel o.id).2 (q.set side (pre ++ post)) working := by
  have ho : o ∈ q side := hq ▸ List.mem_append_right pre (List.mem_cons_self ..)
  have hside : o.side = side := (h.side side).side_eq o ho
  obtain ⟨level, hl⟩ := h.level_some ho
  have hstore : book.store.remove o.id = (some o, (book.store.remove o.id).2) := by
    rw [← h.get ho, ← Slab.remove_fst]
  have hsame := book.sameLevels_store (book.store.remove o.id).2
  obtain ⟨ht, hst⟩ := levelTaken_removeFromLevel (hsame.pool ▸ h.pool)
    ((hsame.level side o.priceTick).trans hl) o.id o.openLot
  have heq : book.cancel o.id = (true, Book.removeFromLevel
      { book with store := (book.store.remove o.id).2 } side o.priceTick o.id o.openLot) := by
    rw [Book.cancel, hstore, ← hside]
  rw [heq]
  refine ⟨rfl, h.take pre post hq (ht.congr hsame ⟨fun _ _ => rfl, fun _ => rfl, rfl⟩) ?_⟩
  rw [hst]
  exact (h.holds.perm (perm_take working pre post hq)).remove

/-! ## The first order is filled -/

/-- A first order that is filled in part stays, reduced. -/
theorem fillOrder_part (h : Represents exact book q working) {rest : List HpOrder} {n : Int}
    (hq : q side = o :: rest) (hn : 0 < n) (hlt : n < o.openLot) :
    (book.fillOrder o.id n).1 = some (o.reduce n) ∧
      Represents exact (book.fillOrder o.id n).2 (q.set side (o.reduce n :: rest)) working := by
  have ho : o ∈ q side := hq ▸ List.mem_cons_self ..
  have hside : o.side = side := (h.side side).side_eq o ho
  obtain ⟨level, hl⟩ := h.level_some ho
  let f : HpOrder → HpOrder := fun order =>
    { order with openLot := if o.openLot - n < 0 then 0 else o.openLot - n }
  have hf : f o = o.reduce n := by
    show { o with openLot := if o.openLot - n < 0 then 0 else o.openLot - n } = o.reduce n
    rw [if_neg (by omega)]
    rfl
  have hsame := book.sameLevels_store (book.store.modify o.id f)
  have hholds : Holds (book.store.modify o.id f)
      (o.reduce n :: (working ++ (q.set side ([] ++ rest)).orders)) := by
    rw [← hf]
    exact (h.holds.perm (perm_take working [] rest hq)).modify f rfl
  have hfill : book.fillOrder o.id n = (some (o.reduce n),
      Book.levelMutForRemove { book with store := book.store.modify o.id f } side o.priceTick
        fun level => level.debit n) := by
    have hl' := (hsame.level side o.priceTick).trans hl
    have hrem : ¬ o.openLot - n ≤ 0 := by omega
    have hget : (book.store.modify o.id f).get o.id = some (o.reduce n) :=
      hholds.get (List.mem_cons_self ..)
    simp only [Book.fillOrder, h.get ho, hside]
    simp only [f] at hl' hget
    simp only [hl', if_neg hrem, Book.store_levelMutForRemove, hget, f]
  rw [hfill]
  refine ⟨rfl, fun s => ?_, ?_, ?_⟩
  · by_cases hs : s = side
    · subst hs
      rw [Queues.set_self, Book.best_levelMutForRemove, hsame.best]
      have hrep := h.side s
      rw [hq] at hrep
      refine hrep.shrink hn hlt fun t => ?_
      rw [Book.level_levelMutForRemove, hsame.level, hsame.level]
      by_cases ht : t = o.priceTick
      · simp [ht]
      · simp [ht]
    · have hlevel : (Book.levelMutForRemove { book with store := book.store.modify o.id f } side
          o.priceTick fun level => level.debit n).level s = book.level s := by
        funext t
        rw [Book.level_levelMutForRemove, if_neg fun he => hs he.1, hsame.level]
      rw [Queues.set_ne q hs, hlevel, Book.best_levelMutForRemove, hsame.best]
      exact h.side s
  · rw [Book.store_levelMutForRemove]
    have hperm := perm_take working [] rest
      (Queues.set_self q side (o.reduce n :: rest))
    rw [Queues.set_set] at hperm
    exact hholds.perm hperm.symm
  · simpa [Book.PoolClear] using h.pool

/-- A first order that is filled goes. -/
theorem fillOrder_full (h : Represents exact book q working) {rest : List HpOrder}
    (hq : q side = o :: rest) :
    (book.fillOrder o.id o.openLot).1 = none ∧
      Represents exact (book.fillOrder o.id o.openLot).2 (q.set side rest) working := by
  have ho : o ∈ q side := hq ▸ List.mem_cons_self ..
  have hside : o.side = side := (h.side side).side_eq o ho
  obtain ⟨level, hl⟩ := h.level_some ho
  let f : HpOrder → HpOrder := fun order =>
    { order with openLot := if o.openLot - o.openLot < 0 then 0 else o.openLot - o.openLot }
  have hsame := book.sameLevels_store (book.store.modify o.id f)
  have hl' := (hsame.level side o.priceTick).trans hl
  obtain ⟨ht, hst⟩ := levelTaken_removeFromLevel (hsame.pool ▸ h.pool) hl' o.id o.openLot
  -- The order is at the front of its level, so dropping the front is taking it out.
  have hids : (if level.ids.head? = some o.id then level.ids.tail
      else level.ids.filter fun x => x ≠ o.id) = level.ids.filter fun x => x ≠ o.id := by
    have hrep := (h.side side).level_rep o.priceTick
    rw [hl, hq, atTick_cons_self] at hrep
    have hnd : ((o :: atTick o.priceTick rest).map HpOrder.id).Nodup := by
      rw [← atTick_cons_self, ← hq]
      exact (h.nodup side).sublist (List.filter_sublist.map HpOrder.id)
    rw [hrep.2.1, List.map_cons, List.head?_cons, if_pos rfl, List.tail_cons,
      List.filter_cons_of_neg (by simp)]
    refine (List.filter_eq_self.mpr fun x hx => ?_).symm
    exact decide_eq_true fun he => (List.nodup_cons.mp hnd).1 (he ▸ hx)
  obtain ⟨mid, hmid, hfill⟩ : ∃ mid, mid = Book.removeFromLevel
      { book with store := book.store.modify o.id f } side o.priceTick o.id o.openLot ∧
      book.fillOrder o.id o.openLot =
        (none, { mid with store := (mid.store.remove o.id).2 }) := by
    have hrem : o.openLot - o.openLot ≤ 0 := by omega
    simp only [f] at hl'
    refine ⟨_, rfl, ?_⟩
    simp only [Book.fillOrder, h.get ho, hside, hl', if_pos hrem, hids, Book.removeFromLevel, f]
  rw [← hmid] at ht hst
  have hholds := (h.holds.perm (perm_take working [] rest hq)).modify f rfl
  rw [hfill]
  refine ⟨rfl, h.take [] rest hq (ht.congr hsame (mid.sameLevels_store _)) ?_⟩
  show Holds (mid.store.remove o.id).2 _
  rw [hst]
  exact hholds.remove

/-! ## An order rests -/

/-- A working order is put into the queue of its side. -/
theorem rest (h : Represents exact book q [o]) (hside : o.side = side)
    (hlive : 0 < o.openLot ∧ o.openLot ≤ o.qtyLot)
    (hfit : exact → sumOpen (atTick o.priceTick (restIn side o (q side))) ≤ i64Max) :
    Represents exact (book.rest o.id) (q.set side (restIn side o (q side))) [] := by
  subst hside
  have hget : book.store.get o.id = some o := h.holds.get (List.mem_cons_self ..)
  obtain ⟨hbest, hstore, hpool⟩ := Book.levelMut_frame h.pool o.side o.priceTick
    fun level => level.push o.id o.openLot
  have hrest : book.rest o.id = (book.levelMut o.side o.priceTick
      fun level => level.push o.id o.openLot).noteInsert o.side o.priceTick := by
    simp only [Book.rest, hget]
  have hlevel : ∀ s t, (book.rest o.id).level s t = if s = o.side ∧ t = o.priceTick then
      some (((book.level s t).getD {}).push o.id o.openLot) else book.level s t := by
    intro s t
    have hl := Book.level_levelMut h.pool o.side s o.priceTick t
      fun level => level.push o.id o.openLot
    rw [hrest, Book.noteInsert_eq]
    split
    next =>
      rw [Book.level_withBest, hl]
      exact ite_congr rfl (fun he => by rw [he.1, he.2]) fun _ => rfl
    next =>
      rw [hl]
      exact ite_congr rfl (fun he => by rw [he.1, he.2]) fun _ => rfl
  have hbest' : ∀ s, (book.rest o.id).best s =
      if s = o.side ∧ (book.best o.side).all (fun t => o.side.better o.priceTick t) then
        some o.priceTick
      else book.best s := by
    intro s
    rw [hrest, Book.noteInsert_eq, hbest]
    split
    next ha => rw [Book.best_withBest, hbest]; simp [ha]
    next ha => rw [hbest]; simp [ha]
  refine ⟨fun s => ?_, ?_, ?_⟩
  · by_cases hs : s = o.side
    · subst hs
      rw [Queues.set_self]
      refine (h.side o.side).rest rfl hlive hfit (fun t => ?_) ?_
      · rw [hlevel]
        simp
      · rw [hbest']
        simp
    · have hl : (book.rest o.id).level s = book.level s := by
        funext t
        rw [hlevel, if_neg fun he => hs he.1]
      rw [Queues.set_ne q hs, hl, hbest', if_neg fun he => hs he.1]
      exact h.side s
  · have hst : (book.rest o.id).store = book.store := by
      rw [hrest, Book.noteInsert_eq]
      split
      next => rw [Book.store_withBest, hstore]
      next => exact hstore
    rw [hst]
    refine h.holds.perm ?_
    refine ((q.orders_perm o.side).cons o).trans ?_
    refine List.Perm.trans ?_ (q.orders_set_perm o.side _).symm
    exact (perm_restIn (q o.side)).symm.append_right _
  · rw [hrest, Book.noteInsert_eq]
    split
    next => simpa [Book.PoolClear] using hpool
    next => exact hpool

end Represents

end Lawful

end MatchCoreHp
