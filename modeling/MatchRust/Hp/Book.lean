import MatchRust.Lib.Slab
import MatchRust.Hp.LevelIndex

/-!
# The fixed-point book

The book keeps the same orders four times over.  The store has the orders
themselves, by identifier.  The levels of the two indexes have the identifiers,
in time order.  A level has the total of its open lots.  And the best tick of
each side is cached.  Every function below updates some of these, and the
engine calls them in an order that makes the four agree again
(`MatchRust.Hp.Represents`).

Emptied levels are pooled for reuse.  The pool matters for the model because a
level taken from it is used as it is.
-/

namespace MatchCoreHp

/-! ## The order store -/

/-- Order slots with a free list. -/
abbrev OrderStore := Slab HpOrder

/-- Insert an order, which is given the identifier of its slot. -/
def OrderStore.insert (store : OrderStore) (order : HpOrder) : Nat × OrderStore :=
  (store.nextId, Slab.insert store fun id => { order with id := id })

/-! ## The book -/

/-- How many emptied levels are kept. -/
def levelPoolCap : Nat := 256

/-- Price-level order book with FIFO within each tick. -/
structure Book (B A : Type) where
  bids : B
  asks : A
  store : OrderStore
  bestBidTick : Option Int
  bestAskTick : Option Int
  levelPool : List Level

namespace Book

variable {B A : Type} [LevelIndex B] [LevelIndex A]

/-- An empty book. -/
def new : Book B A where
  bids := LevelIndex.default
  asks := LevelIndex.default
  store := Slab.empty
  bestBidTick := none
  bestAskTick := none
  levelPool := []

/-- An empty book with levels in its pool. -/
def withCapacity : Book B A :=
  { new with levelPool := List.replicate (max (levelPoolCap / 4) 16) {} }

omit [LevelIndex B] [LevelIndex A] in
/-- The cached best tick of a side: `best_bid` and `best_ask`. -/
def best (book : Book B A) : Side → Option Int
  | .buy => book.bestBidTick
  | .sell => book.bestAskTick

/-- The level of a tick. -/
def level (book : Book B A) (side : Side) (tick : Int) : Option Level :=
  match side with
  | .buy => LevelIndex.get book.bids tick
  | .sell => LevelIndex.get book.asks tick

/-- The oldest order of a tick. -/
def frontId (book : Book B A) (side : Side) (tick : Int) : Option Nat :=
  (book.level side tick).bind fun level => level.ids.head?

/-- Up to `n` levels, best first, with their totals. -/
def depth (book : Book B A) (side : Side) (n : Nat) : List (Int × Int) :=
  match side with
  | .buy => LevelIndex.depth book.bids n
  | .sell => LevelIndex.depth book.asks n

/-! ## Levels -/

omit [LevelIndex B] [LevelIndex A] in
/-- A level from the pool, or a new one. -/
def takeLevel (book : Book B A) : Level × Book B A :=
  match book.levelPool with
  | [] => ({}, book)
  | level :: pool => (level, { book with levelPool := pool })

omit [LevelIndex B] [LevelIndex A] in
/-- Put a level into the pool, cleared. -/
def recycleLevel (book : Book B A) (level : Level) : Book B A :=
  if book.levelPool.length < levelPoolCap then
    { book with levelPool := level.clear :: book.levelPool }
  else book

/-- Change the level of a tick, which is made if it is missing. -/
def levelMut (book : Book B A) (side : Side) (tick : Int) (f : Level → Level) : Book B A :=
  match side with
  | .buy =>
      if LevelIndex.contains book.bids tick then
        { book with bids := LevelIndex.getMut book.bids tick f }
      else
        let r := book.takeLevel
        { r.2 with bids := LevelIndex.getOrInsertWith r.2.bids tick r.1 f }
  | .sell =>
      if LevelIndex.contains book.asks tick then
        { book with asks := LevelIndex.getMut book.asks tick f }
      else
        let r := book.takeLevel
        { r.2 with asks := LevelIndex.getOrInsertWith r.2.asks tick r.1 f }

/-- Change the level of a tick, if there is one. -/
def levelMutForRemove (book : Book B A) (side : Side) (tick : Int) (f : Level → Level) :
    Book B A :=
  match side with
  | .buy => { book with bids := LevelIndex.getMut book.bids tick f }
  | .sell => { book with asks := LevelIndex.getMut book.asks tick f }

omit [LevelIndex B] [LevelIndex A] in
/-- The cached best tick after an order came to a tick. -/
def noteInsert (book : Book B A) (side : Side) (tick : Int) : Book B A :=
  match side with
  | .buy =>
      if book.bestBidTick.all fun b => b < tick then { book with bestBidTick := some tick }
      else book
  | .sell =>
      if book.bestAskTick.all fun a => tick < a then { book with bestAskTick := some tick }
      else book

/-- The cached best tick after the level of a tick went. -/
def noteRemoveLevel (book : Book B A) (side : Side) (tick : Int) : Book B A :=
  match side with
  | .buy =>
      if book.bestBidTick = some tick then
        { book with bestBidTick := LevelIndex.bestTick book.bids }
      else book
  | .sell =>
      if book.bestAskTick = some tick then
        { book with bestAskTick := LevelIndex.bestTick book.asks }
      else book

omit [LevelIndex B] [LevelIndex A] in
/-- Pool a removed level. -/
def recycleRemoved (book : Book B A) : Option Level → Book B A
  | some level => book.recycleLevel level
  | none => book

/-- Remove the level of a tick. -/
def removeEmptyLevel (book : Book B A) (side : Side) (tick : Int) : Book B A :=
  match side with
  | .buy =>
      let r := LevelIndex.remove book.bids tick
      ({ book with bids := r.2 }.recycleRemoved r.1).noteRemoveLevel side tick
  | .sell =>
      let r := LevelIndex.remove book.asks tick
      ({ book with asks := r.2 }.recycleRemoved r.1).noteRemoveLevel side tick

/-- Take an order off its level. -/
def removeFromLevel (book : Book B A) (side : Side) (tick : Int) (id : Nat) (openLot : Int) :
    Book B A :=
  match book.level side tick with
  | none => book
  | some level =>
      let ids := level.ids.filter fun x => x ≠ id
      let book := book.levelMutForRemove side tick fun level =>
        { level.debit openLot with ids := ids }
      if ids.isEmpty then book.removeEmptyLevel side tick else book

/-! ## Orders -/

/-- Put a stored order onto its level. -/
def rest (book : Book B A) (id : Nat) : Book B A :=
  match book.store.get id with
  | none => book
  | some order =>
      (book.levelMut order.side order.priceTick fun level => level.push id order.openLot).noteInsert
        order.side order.priceTick

/-- Remove an order from the store and from its level. -/
def cancel (book : Book B A) (id : Nat) : Bool × Book B A :=
  match book.store.remove id with
  | (none, _) => (false, book)
  | (some order, store) =>
      (true, { book with store := store }.removeFromLevel order.side order.priceTick id
        order.openLot)

/-- Fill an order by so many lots.  A depleted order goes. -/
def fillOrder (book : Book B A) (id : Nat) (qtyLot : Int) : Option HpOrder × Book B A :=
  match book.store.get id with
  | none => (none, book)
  | some order =>
      let side := order.side
      let tick := order.priceTick
      let remaining := order.openLot - qtyLot
      let book := { book with
        store := book.store.modify id fun order =>
          { order with openLot := if remaining < 0 then 0 else remaining } }
      match book.level side tick with
      | none =>
          let book :=
            if remaining ≤ 0 then { book with store := (book.store.remove id).2 } else book
          (book.store.get id, book)
      | some level =>
          if remaining ≤ 0 then
            let ids :=
              if level.ids.head? = some id then level.ids.tail
              else level.ids.filter fun x => x ≠ id
            let book := book.levelMutForRemove side tick fun level =>
              { level.debit qtyLot with ids := ids }
            let book := if ids.isEmpty then book.removeEmptyLevel side tick else book
            (none, { book with store := (book.store.remove id).2 })
          else
            let book := book.levelMutForRemove side tick fun level => level.debit qtyLot
            (book.store.get id, book)

end Book

end MatchCoreHp
