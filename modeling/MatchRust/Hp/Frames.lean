import MatchRust.Hp.Book

/-!
# What the book's functions change

For every function of the book that changes levels: which level, which best
tick, and what of the rest stays.  Later proofs read these equations and do not
look at the indexes any more.
-/

namespace MatchCoreHp

namespace Book

variable {B A : Type} [LevelIndex B] [LevelIndex A]

/-! ## The levels of a side -/

section Levels

variable [LawfulLevelIndex .buy B] [LawfulLevelIndex .sell A]

/-- The levels of a side, best tick first. -/
def levels (book : Book B A) : Side → List (Int × Level)
  | .buy => LawfulLevelIndex.levels .buy book.bids
  | .sell => LawfulLevelIndex.levels .sell book.asks

theorem mem_levels {book : Book B A} {side : Side} {t : Int} {l : Level} :
    (t, l) ∈ book.levels side ↔ book.level side t = some l := by
  cases side with
  | buy => exact LawfulLevelIndex.mem_levels ..
  | sell => exact LawfulLevelIndex.mem_levels ..

theorem levels_sorted (book : Book B A) (side : Side) :
    (book.levels side).Pairwise fun a b => side.better a.1 b.1 := by
  cases side with
  | buy => exact LawfulLevelIndex.sorted _
  | sell => exact LawfulLevelIndex.sorted _

theorem depth_eq (book : Book B A) (side : Side) (n : Nat) :
    book.depth side n = ((book.levels side).take n).map fun p => (p.1, p.2.totalLot) := by
  cases side with
  | buy => exact LawfulLevelIndex.depth_eq ..
  | sell => exact LawfulLevelIndex.depth_eq ..

/-- The levels depend on what the index returns, and on nothing else. -/
theorem levels_congr {book book' : Book B A} {side : Side}
    (h : ∀ t, book'.level side t = book.level side t) : book'.levels side = book.levels side := by
  have hnodup : ∀ b : Book B A, (b.levels side).Nodup := by
    intro b
    refine (b.levels_sorted side).imp fun {p q} hpq heq => ?_
    exact side.better_irrefl q.1 (heq ▸ hpq)
  refine List.Perm.eq_of_pairwise (fun p q _ _ hpq hqp => absurd hqp (Side.better_asymm hpq))
    (book'.levels_sorted side) (book.levels_sorted side) ?_
  refine (List.perm_ext_iff_of_nodup (hnodup _) (hnodup _)).mpr fun p => ?_
  rw [show p = (p.1, p.2) from rfl, mem_levels, mem_levels, h]

end Levels

/-! ## Books that differ in the store only -/

/-- Two books have the same levels, best ticks and pool. -/
structure SameLevels (book book' : Book B A) : Prop where
  level : ∀ s t, book'.level s t = book.level s t
  best : ∀ s, book'.best s = book.best s
  pool : book'.levelPool = book.levelPool

theorem sameLevels_store (book : Book B A) (store : OrderStore) :
    SameLevels book { book with store := store } := by
  refine ⟨fun s t => ?_, fun s => ?_, rfl⟩
  · cases s with
    | buy => rfl
    | sell => rfl
  · cases s with
    | buy => rfl
    | sell => rfl

/-! ## Changing a level -/

section Lawful

variable [LawfulLevelIndex .buy B] [LawfulLevelIndex .sell A]

theorem level_levelMutForRemove (book : Book B A) (side s : Side) (tick t : Int)
    (f : Level → Level) :
    (book.levelMutForRemove side tick f).level s t =
      if s = side ∧ t = tick then (book.level side tick).map f else book.level s t := by
  cases side with
  | buy => cases s with
    | buy => simp [levelMutForRemove, level, LawfulLevelIndex.get_getMut .buy]
    | sell => simp [levelMutForRemove, level]
  | sell => cases s with
    | buy => simp [levelMutForRemove, level]
    | sell => simp [levelMutForRemove, level, LawfulLevelIndex.get_getMut .sell]

omit [LawfulLevelIndex .buy B] [LawfulLevelIndex .sell A] in
@[simp] theorem best_levelMutForRemove (book : Book B A) (side s : Side) (tick : Int)
    (f : Level → Level) : (book.levelMutForRemove side tick f).best s = book.best s := by
  cases side with
  | buy => rfl
  | sell => rfl

omit [LawfulLevelIndex .buy B] [LawfulLevelIndex .sell A] in
@[simp] theorem store_levelMutForRemove (book : Book B A) (side : Side) (tick : Int)
    (f : Level → Level) : (book.levelMutForRemove side tick f).store = book.store := by
  cases side with
  | buy => rfl
  | sell => rfl

omit [LawfulLevelIndex .buy B] [LawfulLevelIndex .sell A] in
@[simp] theorem levelPool_levelMutForRemove (book : Book B A) (side : Side) (tick : Int)
    (f : Level → Level) : (book.levelMutForRemove side tick f).levelPool = book.levelPool := by
  cases side with
  | buy => rfl
  | sell => rfl

/-- Every pooled level is empty. -/
def PoolClear (book : Book B A) : Prop := ∀ l ∈ book.levelPool, l = {}

omit [LevelIndex B] [LevelIndex A] [LawfulLevelIndex .buy B] [LawfulLevelIndex .sell A] in
theorem takeLevel_spec {book : Book B A} (h : book.PoolClear) :
    book.takeLevel.1 = {} ∧ ∃ pool, book.takeLevel.2 = { book with levelPool := pool } ∧
      ∀ l ∈ pool, l = {} := by
  unfold takeLevel PoolClear at *
  split
  next hp => exact ⟨rfl, [], by rw [← hp], by simp⟩
  next l pool hp =>
    rw [hp] at h
    exact ⟨h l (List.mem_cons_self ..), pool, rfl, fun x hx => h x (List.mem_cons_of_mem _ hx)⟩

theorem level_levelMut {book : Book B A} (h : book.PoolClear) (side s : Side) (tick t : Int)
    (f : Level → Level) :
    (book.levelMut side tick f).level s t =
      if s = side ∧ t = tick then some (f ((book.level side tick).getD {}))
      else book.level s t := by
  obtain ⟨hl, pool, hb, -⟩ := takeLevel_spec h
  cases side with
  | buy =>
      simp only [levelMut, LawfulLevelIndex.contains_eq .buy, hl, hb]
      cases hg : LevelIndex.get book.bids tick with
      | none => cases s with
        | buy => simp [level, LawfulLevelIndex.get_getOrInsertWith .buy, hg]
        | sell => simp [level]
      | some l => cases s with
        | buy => simp [level, LawfulLevelIndex.get_getMut .buy, hg]
        | sell => simp [level]
  | sell =>
      simp only [levelMut, LawfulLevelIndex.contains_eq .sell, hl, hb]
      cases hg : LevelIndex.get book.asks tick with
      | none => cases s with
        | buy => simp [level]
        | sell => simp [level, LawfulLevelIndex.get_getOrInsertWith .sell, hg]
      | some l => cases s with
        | buy => simp [level]
        | sell => simp [level, LawfulLevelIndex.get_getMut .sell, hg]

omit [LawfulLevelIndex .buy B] [LawfulLevelIndex .sell A] in
theorem levelMut_frame {book : Book B A} (h : book.PoolClear) (side : Side) (tick : Int)
    (f : Level → Level) :
    (∀ s, (book.levelMut side tick f).best s = book.best s) ∧
      (book.levelMut side tick f).store = book.store ∧ (book.levelMut side tick f).PoolClear := by
  obtain ⟨-, pool, hb, hpool⟩ := takeLevel_spec h
  cases side with
  | buy =>
      simp only [levelMut, hb]
      split
      · exact ⟨fun _ => rfl, rfl, h⟩
      · exact ⟨fun _ => rfl, rfl, hpool⟩
  | sell =>
      simp only [levelMut, hb]
      split
      · exact ⟨fun _ => rfl, rfl, h⟩
      · exact ⟨fun _ => rfl, rfl, hpool⟩

/-! ## The best tick -/

omit [LevelIndex B] [LevelIndex A] [LawfulLevelIndex .buy B] [LawfulLevelIndex .sell A] in
/-- A book with another cached best tick. -/
def withBest (book : Book B A) (side : Side) (tick : Option Int) : Book B A :=
  match side with
  | .buy => { book with bestBidTick := tick }
  | .sell => { book with bestAskTick := tick }

omit [LawfulLevelIndex .buy B] [LawfulLevelIndex .sell A] in
@[simp] theorem level_withBest (book : Book B A) (side s : Side) (tick : Option Int) (t : Int) :
    (book.withBest side tick).level s t = book.level s t := by
  cases side with
  | buy => rfl
  | sell => rfl

omit [LevelIndex B] [LevelIndex A] [LawfulLevelIndex .buy B] [LawfulLevelIndex .sell A] in
@[simp] theorem store_withBest (book : Book B A) (side : Side) (tick : Option Int) :
    (book.withBest side tick).store = book.store := by
  cases side with
  | buy => rfl
  | sell => rfl

omit [LevelIndex B] [LevelIndex A] [LawfulLevelIndex .buy B] [LawfulLevelIndex .sell A] in
@[simp] theorem levelPool_withBest (book : Book B A) (side : Side) (tick : Option Int) :
    (book.withBest side tick).levelPool = book.levelPool := by
  cases side with
  | buy => rfl
  | sell => rfl

omit [LevelIndex B] [LevelIndex A] [LawfulLevelIndex .buy B] [LawfulLevelIndex .sell A] in
theorem best_withBest (book : Book B A) (side s : Side) (tick : Option Int) :
    (book.withBest side tick).best s = if s = side then tick else book.best s := by
  cases side with
  | buy => cases s with
    | buy => rfl
    | sell => rfl
  | sell => cases s with
    | buy => rfl
    | sell => rfl

omit [LevelIndex B] [LevelIndex A] [LawfulLevelIndex .buy B] [LawfulLevelIndex .sell A] in
theorem noteInsert_eq (book : Book B A) (side : Side) (tick : Int) :
    book.noteInsert side tick =
      if (book.best side).all (fun t => side.better tick t) then book.withBest side (some tick)
      else book := by
  cases side with
  | buy => rfl
  | sell => rfl

theorem noteRemoveLevel_eq (book : Book B A) (side : Side) (tick : Int) :
    book.noteRemoveLevel side tick =
      if book.best side = some tick then
        book.withBest side ((book.levels side).head?.map Prod.fst)
      else book := by
  cases side with
  | buy =>
      have h : LevelIndex.bestTick book.bids = (book.levels .buy).head?.map Prod.fst :=
        LawfulLevelIndex.bestTick_eq _
      rw [noteRemoveLevel, h]
      rfl
  | sell =>
      have h : LevelIndex.bestTick book.asks = (book.levels .sell).head?.map Prod.fst :=
        LawfulLevelIndex.bestTick_eq _
      rw [noteRemoveLevel, h]
      rfl

/-! ## Removing a level -/

omit [LevelIndex B] [LevelIndex A] [LawfulLevelIndex .buy B] [LawfulLevelIndex .sell A] in
/-- Pooling a level changes the pool only, and the pool stays clear. -/
theorem recycleRemoved_spec {book : Book B A} (h : book.PoolClear) (level : Option Level) :
    ∃ pool, book.recycleRemoved level = { book with levelPool := pool } ∧ ∀ l ∈ pool, l = {} := by
  cases level with
  | none => exact ⟨book.levelPool, rfl, h⟩
  | some level =>
      simp only [recycleRemoved, recycleLevel]
      split
      next =>
        refine ⟨_, rfl, fun l hl => ?_⟩
        rcases List.mem_cons.mp hl with rfl | hl
        · rfl
        · exact h l hl
      next => exact ⟨book.levelPool, rfl, h⟩

/-- What removing a level leaves of a book. -/
structure LevelRemoved (book book' : Book B A) (side : Side) (tick : Int) : Prop where
  level : ∀ s t, book'.level s t = if s = side ∧ t = tick then none else book.level s t
  best : ∀ s, book'.best s =
    if s = side ∧ book.best side = some tick then (book'.levels side).head?.map Prod.fst
    else book.best s
  store : book'.store = book.store
  pool : book'.PoolClear

theorem levelRemoved_noteRemoveLevel {book mid : Book B A} {side : Side} {tick : Int}
    (hlevel : ∀ s t, mid.level s t = if s = side ∧ t = tick then none else book.level s t)
    (hbest : ∀ s, mid.best s = book.best s) (hstore : mid.store = book.store)
    (hpool : mid.PoolClear) : LevelRemoved book (mid.noteRemoveLevel side tick) side tick := by
  rw [noteRemoveLevel_eq, hbest side]
  split
  next hb =>
    refine ⟨?_, fun s => ?_, ?_, ?_⟩
    · simpa using hlevel
    · rw [best_withBest, levels_congr fun t => level_withBest mid side side _ t, hbest s]
      simp [hb]
    · simpa using hstore
    · simpa [PoolClear] using hpool
  next hb => exact ⟨hlevel, fun s => by rw [hbest s]; simp [hb], hstore, hpool⟩

theorem levelRemoved_removeEmptyLevel {book : Book B A} (h : book.PoolClear) (side : Side)
    (tick : Int) : LevelRemoved book (book.removeEmptyLevel side tick) side tick := by
  cases side with
  | buy =>
      have hclear : { book with bids := (LevelIndex.remove book.bids tick).2 }.PoolClear := h
      obtain ⟨pool, hb, hpool⟩ :=
        recycleRemoved_spec hclear (LevelIndex.remove book.bids tick).1
      rw [removeEmptyLevel]
      refine levelRemoved_noteRemoveLevel (fun s t => ?_) (fun s => ?_) ?_ ?_
      · cases s with
        | buy => simp [hb, level, LawfulLevelIndex.get_remove .buy]
        | sell => simp [hb, level]
      · rw [hb]
        rfl
      · rw [hb]
      · rw [hb]
        exact hpool
  | sell =>
      have hclear : { book with asks := (LevelIndex.remove book.asks tick).2 }.PoolClear := h
      obtain ⟨pool, hb, hpool⟩ :=
        recycleRemoved_spec hclear (LevelIndex.remove book.asks tick).1
      rw [removeEmptyLevel]
      refine levelRemoved_noteRemoveLevel (fun s t => ?_) (fun s => ?_) ?_ ?_
      · cases s with
        | buy => simp [hb, level]
        | sell => simp [hb, level, LawfulLevelIndex.get_remove .sell]
      · rw [hb]
        rfl
      · rw [hb]
      · rw [hb]
        exact hpool

end Lawful

end Book

end MatchCoreHp
