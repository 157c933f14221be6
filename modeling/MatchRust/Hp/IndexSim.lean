import MatchRust.Hp.ArtTree
import MatchRust.Hp.Reachable

/-!
# Engines over related indexes

Two engines that differ in their indexes only, whose indexes are related by an
`IndexSim`, give the same events and the same depth for every command.  The
relation of the indexes is a parameter.  It has to be kept by the operations, and
related indexes have to give the same results.  An insertion may ask for a tick
that is a 64-bit integer, since no other tick reaches an index.

The functions of the book and of the engine are followed one by one.  Where a
stored order comes to rest, its tick is that of the command.  This is read off the
second engine, whose indexes are lawful.
-/

namespace MatchCoreHp

/-- A relation between indexes that their operations keep. -/
structure IndexSim {ι κ : Type} [LevelIndex ι] [LevelIndex κ] (R : ι → κ → Prop) : Prop where
  default : R LevelIndex.default LevelIndex.default
  get : ∀ {i j}, R i j → ∀ t, LevelIndex.get i t = LevelIndex.get j t
  getMut : ∀ {i j}, R i j → ∀ t f, R (LevelIndex.getMut i t f) (LevelIndex.getMut j t f)
  contains : ∀ {i j}, R i j → ∀ t, LevelIndex.contains i t = LevelIndex.contains j t
  remove_fst : ∀ {i j}, R i j → ∀ t, (LevelIndex.remove i t).1 = (LevelIndex.remove j t).1
  remove_snd : ∀ {i j}, R i j → ∀ t, R (LevelIndex.remove i t).2 (LevelIndex.remove j t).2
  bestTick : ∀ {i j}, R i j → LevelIndex.bestTick i = LevelIndex.bestTick j
  depth : ∀ {i j}, R i j → ∀ n, LevelIndex.depth i n = LevelIndex.depth j n
  getOrInsertWith : ∀ {i j}, R i j → ∀ {t}, IsI64 t → LevelIndex.contains i t = false → ∀ l f,
    R (LevelIndex.getOrInsertWith i t l f) (LevelIndex.getOrInsertWith j t l f)

section Sim

variable {B A B' A' : Type} [LevelIndex B] [LevelIndex A] [LevelIndex B'] [LevelIndex A']
  {RB : B → B' → Prop} {RA : A → A' → Prop}

/-! ## Books -/

/-- Books that differ in their indexes only, and these are related. -/
structure BookSim (RB : B → B' → Prop) (RA : A → A' → Prop) (b : Book B A) (b' : Book B' A') :
    Prop where
  bids : RB b.bids b'.bids
  asks : RA b.asks b'.asks
  store : b.store = b'.store
  bestBid : b.bestBidTick = b'.bestBidTick
  bestAsk : b.bestAskTick = b'.bestAskTick
  pool : b.levelPool = b'.levelPool

namespace BookSim

variable {b : Book B A} {b' : Book B' A'} (sB : IndexSim RB) (sA : IndexSim RA)

omit [LevelIndex B] [LevelIndex A] [LevelIndex B'] [LevelIndex A'] in
theorem best (h : BookSim RB RA b b') (side : Side) : b.best side = b'.best side := by
  cases side with
  | buy => exact h.bestBid
  | sell => exact h.bestAsk

omit [LevelIndex B] [LevelIndex A] [LevelIndex B'] [LevelIndex A'] in
theorem withStore (h : BookSim RB RA b b') (store : OrderStore) :
    BookSim RB RA { b with store := store } { b' with store := store } :=
  ⟨h.bids, h.asks, rfl, h.bestBid, h.bestAsk, h.pool⟩

omit [LevelIndex B] [LevelIndex A] [LevelIndex B'] [LevelIndex A'] in
theorem remove (h : BookSim RB RA b b') (id : Nat) :
    BookSim RB RA { b with store := (b.store.remove id).2 }
      { b' with store := (b'.store.remove id).2 } := by
  rw [h.store]
  exact h.withStore _

omit [LevelIndex B] [LevelIndex A] [LevelIndex B'] [LevelIndex A'] in
theorem takeLevel (h : BookSim RB RA b b') :
    b.takeLevel.1 = b'.takeLevel.1 ∧ BookSim RB RA b.takeLevel.2 b'.takeLevel.2 := by
  have hpool := h.pool
  unfold Book.takeLevel
  rw [← hpool]
  cases b.levelPool with
  | nil => exact ⟨rfl, h⟩
  | cons level pool => exact ⟨rfl, h.bids, h.asks, h.store, h.bestBid, h.bestAsk, rfl⟩

omit [LevelIndex B] [LevelIndex A] [LevelIndex B'] [LevelIndex A'] in
theorem recycleRemoved (h : BookSim RB RA b b') (removed : Option Level) :
    BookSim RB RA (b.recycleRemoved removed) (b'.recycleRemoved removed) := by
  cases removed with
  | none => exact h
  | some level =>
      rw [Book.recycleRemoved, Book.recycleRemoved, Book.recycleLevel, Book.recycleLevel, h.pool]
      split
      next => exact ⟨h.bids, h.asks, h.store, h.bestBid, h.bestAsk, rfl⟩
      next => exact h

omit [LevelIndex B] [LevelIndex A] [LevelIndex B'] [LevelIndex A'] in
theorem noteInsert (h : BookSim RB RA b b') (side : Side) (t : Int) :
    BookSim RB RA (b.noteInsert side t) (b'.noteInsert side t) := by
  cases side with
  | buy =>
      rw [Book.noteInsert, Book.noteInsert, h.bestBid]
      split
      next => exact ⟨h.bids, h.asks, h.store, rfl, h.bestAsk, h.pool⟩
      next => exact h
  | sell =>
      rw [Book.noteInsert, Book.noteInsert, h.bestAsk]
      split
      next => exact ⟨h.bids, h.asks, h.store, h.bestBid, rfl, h.pool⟩
      next => exact h

include sB sA

theorem level (h : BookSim RB RA b b') (side : Side) (t : Int) :
    b.level side t = b'.level side t := by
  cases side with
  | buy => exact sB.get h.bids t
  | sell => exact sA.get h.asks t

theorem frontId (h : BookSim RB RA b b') (side : Side) (t : Int) :
    b.frontId side t = b'.frontId side t := by
  rw [Book.frontId, Book.frontId, h.level sB sA]

theorem depth (h : BookSim RB RA b b') (side : Side) (n : Nat) :
    b.depth side n = b'.depth side n := by
  cases side with
  | buy => exact sB.depth h.bids n
  | sell => exact sA.depth h.asks n

theorem levelMut (h : BookSim RB RA b b') (side : Side) {t : Int} (ht : IsI64 t)
    (f : Level → Level) : BookSim RB RA (b.levelMut side t f) (b'.levelMut side t f) := by
  obtain ⟨hlevel, htake⟩ := h.takeLevel
  cases side with
  | buy =>
      have hbids : b.takeLevel.2.bids = b.bids := by
        unfold Book.takeLevel
        split <;> rfl
      rw [Book.levelMut, Book.levelMut, ← sB.contains h.bids]
      split
      next => exact ⟨sB.getMut h.bids t f, h.asks, h.store, h.bestBid, h.bestAsk, h.pool⟩
      next hnew =>
        rw [Bool.not_eq_true, ← hbids] at hnew
        have hins : RB (LevelIndex.getOrInsertWith b.takeLevel.2.bids t b.takeLevel.1 f)
            (LevelIndex.getOrInsertWith b'.takeLevel.2.bids t b'.takeLevel.1 f) := by
          rw [hlevel]
          exact sB.getOrInsertWith htake.bids ht hnew _ f
        exact ⟨hins, htake.asks, htake.store, htake.bestBid, htake.bestAsk, htake.pool⟩
  | sell =>
      have hasks : b.takeLevel.2.asks = b.asks := by
        unfold Book.takeLevel
        split <;> rfl
      rw [Book.levelMut, Book.levelMut, ← sA.contains h.asks]
      split
      next => exact ⟨h.bids, sA.getMut h.asks t f, h.store, h.bestBid, h.bestAsk, h.pool⟩
      next hnew =>
        rw [Bool.not_eq_true, ← hasks] at hnew
        have hins : RA (LevelIndex.getOrInsertWith b.takeLevel.2.asks t b.takeLevel.1 f)
            (LevelIndex.getOrInsertWith b'.takeLevel.2.asks t b'.takeLevel.1 f) := by
          rw [hlevel]
          exact sA.getOrInsertWith htake.asks ht hnew _ f
        exact ⟨htake.bids, hins, htake.store, htake.bestBid, htake.bestAsk, htake.pool⟩

theorem levelMutForRemove (h : BookSim RB RA b b') (side : Side) (t : Int) (f : Level → Level) :
    BookSim RB RA (b.levelMutForRemove side t f) (b'.levelMutForRemove side t f) := by
  cases side with
  | buy => exact ⟨sB.getMut h.bids t f, h.asks, h.store, h.bestBid, h.bestAsk, h.pool⟩
  | sell => exact ⟨h.bids, sA.getMut h.asks t f, h.store, h.bestBid, h.bestAsk, h.pool⟩

theorem noteRemoveLevel (h : BookSim RB RA b b') (side : Side) (t : Int) :
    BookSim RB RA (b.noteRemoveLevel side t) (b'.noteRemoveLevel side t) := by
  cases side with
  | buy =>
      rw [Book.noteRemoveLevel, Book.noteRemoveLevel, h.bestBid]
      split
      next => exact ⟨h.bids, h.asks, h.store, sB.bestTick h.bids, h.bestAsk, h.pool⟩
      next => exact h
  | sell =>
      rw [Book.noteRemoveLevel, Book.noteRemoveLevel, h.bestAsk]
      split
      next => exact ⟨h.bids, h.asks, h.store, h.bestBid, sA.bestTick h.asks, h.pool⟩
      next => exact h

theorem removeEmptyLevel (h : BookSim RB RA b b') (side : Side) (t : Int) :
    BookSim RB RA (b.removeEmptyLevel side t) (b'.removeEmptyLevel side t) := by
  cases side with
  | buy =>
      have hrem : BookSim RB RA { b with bids := (LevelIndex.remove b.bids t).2 }
          { b' with bids := (LevelIndex.remove b'.bids t).2 } :=
        ⟨sB.remove_snd h.bids t, h.asks, h.store, h.bestBid, h.bestAsk, h.pool⟩
      simp only [Book.removeEmptyLevel, sB.remove_fst h.bids t]
      exact (hrem.recycleRemoved _).noteRemoveLevel sB sA .buy t
  | sell =>
      have hrem : BookSim RB RA { b with asks := (LevelIndex.remove b.asks t).2 }
          { b' with asks := (LevelIndex.remove b'.asks t).2 } :=
        ⟨h.bids, sA.remove_snd h.asks t, h.store, h.bestBid, h.bestAsk, h.pool⟩
      simp only [Book.removeEmptyLevel, sA.remove_fst h.asks t]
      exact (hrem.recycleRemoved _).noteRemoveLevel sB sA .sell t

/-- A level goes with its last order. -/
theorem removeIfEmpty (h : BookSim RB RA b b') (side : Side) (t : Int) (empty : Bool) :
    BookSim RB RA (if empty then b.removeEmptyLevel side t else b)
      (if empty then b'.removeEmptyLevel side t else b') := by
  split
  next => exact h.removeEmptyLevel sB sA side t
  next => exact h

theorem removeFromLevel (h : BookSim RB RA b b') (side : Side) (t : Int) (id : Nat) (lot : Int) :
    BookSim RB RA (b.removeFromLevel side t id lot) (b'.removeFromLevel side t id lot) := by
  rw [Book.removeFromLevel, Book.removeFromLevel, h.level sB sA side t]
  cases b'.level side t with
  | none => exact h
  | some level =>
      exact (h.levelMutForRemove sB sA side t _).removeIfEmpty sB sA side t _

theorem rest (h : BookSim RB RA b b') {id : Nat}
    (hid : ∀ o, b'.store.get id = some o → IsI64 o.priceTick) :
    BookSim RB RA (b.rest id) (b'.rest id) := by
  rw [Book.rest, Book.rest, h.store]
  cases hget : b'.store.get id with
  | none => exact h
  | some o => exact (h.levelMut sB sA o.side (hid o hget) _).noteInsert o.side o.priceTick

theorem cancel (h : BookSim RB RA b b') (id : Nat) :
    (b.cancel id).1 = (b'.cancel id).1 ∧ BookSim RB RA (b.cancel id).2 (b'.cancel id).2 := by
  rw [Book.cancel, Book.cancel, h.store]
  obtain ⟨o, store⟩ := b'.store.remove id
  cases o with
  | none => exact ⟨rfl, h⟩
  | some o => exact ⟨rfl, (h.withStore store).removeFromLevel sB sA ..⟩

theorem fillOrder (h : BookSim RB RA b b') (id : Nat) (lot : Int) :
    (b.fillOrder id lot).1 = (b'.fillOrder id lot).1 ∧
      BookSim RB RA (b.fillOrder id lot).2 (b'.fillOrder id lot).2 := by
  rw [Book.fillOrder, Book.fillOrder, h.store]
  cases b'.store.get id with
  | none => exact ⟨rfl, h⟩
  | some o =>
      dsimp only
      have hmod := h.withStore (b'.store.modify id fun order =>
        { order with openLot := if o.openLot - lot < 0 then 0 else o.openLot - lot })
      rw [hmod.level sB sA]
      split
      next =>
        split
        next => exact ⟨rfl, hmod.withStore _⟩
        next => exact ⟨rfl, hmod⟩
      next level =>
        have hmut := fun f => hmod.levelMutForRemove sB sA o.side o.priceTick f
        split
        next => exact ⟨rfl, ((hmut _).removeIfEmpty sB sA _ _ _).remove id⟩
        next => exact ⟨congrArg (Slab.get · id) (hmut _).store, hmut _⟩

end BookSim

/-! ## Engines -/

/-- The tick of a command is a 64-bit integer. -/
def HpCommand.TickFits : HpCommand → Prop
  | .limit _ priceTick _ _ _ => IsI64 priceTick
  | _ => True

instance (cmd : HpCommand) : Decidable cmd.TickFits :=
  match cmd with
  | .limit _ priceTick _ _ _ => inferInstanceAs (Decidable (IsI64 priceTick))
  | .cancel _ => isTrue trivial
  | .market .. => isTrue trivial

/-- What an engine shows of a run: the events of each command, and the depth after
it on both sides and for every limit. -/
def HpEngine.trace (e : HpEngine B A) :
    List HpCommand → List (List HpEvent × (Side → Nat → List (Int × Int)))
  | [] => []
  | cmd :: cmds =>
      ((e.onOrder cmd).events, (e.onOrder cmd).book.depth) :: (e.onOrder cmd).trace cmds

omit [LevelIndex B] [LevelIndex A] [LevelIndex B'] [LevelIndex A'] in
/-- Engines that differ in their indexes only, and these are related. -/
structure EngineSim (RB : B → B' → Prop) (RA : A → A' → Prop) (e : HpEngine B A)
    (e' : HpEngine B' A') : Prop where
  book : BookSim RB RA e.book e'.book
  events : e.events = e'.events
  clients : e.clientToId = e'.clientToId

namespace EngineSim

variable {e : HpEngine B A} {e' : HpEngine B' A'} (sB : IndexSim RB) (sA : IndexSim RA)

include sB sA

theorem cancelAll (client : Nat) (slots : List Nat) (h : EngineSim RB RA e e') :
    EngineSim RB RA (HpEngine.cancelAll client slots e) (HpEngine.cancelAll client slots e') := by
  induction slots generalizing e e' with
  | nil => exact h
  | cons slot slots ih =>
      obtain ⟨hfst, hsnd⟩ := h.book.cancel sB sA slot
      rw [HpEngine.cancelAll, HpEngine.cancelAll]
      generalize e.book.cancel slot = r at hfst hsnd
      generalize e'.book.cancel slot = r' at hfst hsnd
      obtain ⟨found, book⟩ := r
      obtain ⟨found', book'⟩ := r'
      cases hfst
      cases found with
      | false => exact ih ⟨hsnd, h.events, h.clients⟩
      | true => exact ih ⟨hsnd, by rw [h.events], h.clients⟩

theorem onCancel (h : EngineSim RB RA e e') (id : Nat) :
    EngineSim RB RA (e.onCancel id) (e'.onCancel id) := by
  rw [HpEngine.onCancel, HpEngine.onCancel, h.book.store, h.clients]
  cases e'.book.store.get id with
  | some o =>
      obtain ⟨hfst, hsnd⟩ := h.book.cancel sB sA id
      generalize e.book.cancel id = r at hfst hsnd
      generalize e'.book.cancel id = r' at hfst hsnd
      obtain ⟨found, book⟩ := r
      obtain ⟨found', book'⟩ := r'
      cases hfst
      cases found with
      | false => exact ⟨hsnd, h.events, rfl⟩
      | true => exact ⟨hsnd, by rw [h.events], rfl⟩
  | none =>
      cases e'.clientToId[id]? with
      | none => exact h
      | some list => exact cancelAll sB sA id list ⟨h.book, h.events, rfl⟩

section Match

variable (side : Side) (takerId takerClient : Nat) (limitTick : Option Int) (maxFills : Option Nat)

/-- A round of both loops. -/
theorem matchStep (fillCount : Nat) (takerOpen : Int) (h : EngineSim RB RA e e') :
    Option.Rel (fun r r' => r.1 = r'.1 ∧ EngineSim RB RA r.2 r'.2)
      (HpEngine.matchStep side takerId takerClient limitTick maxFills fillCount takerOpen e)
      (HpEngine.matchStep side takerId takerClient limitTick maxFills fillCount takerOpen e') := by
  rw [HpEngine.matchStep, HpEngine.matchStep, h.book.best]
  split
  next => exact .none
  next =>
    split
    next => exact .none
    next =>
      cases e'.book.best side.opp with
      | none => exact .none
      | some tick =>
          dsimp only
          rw [h.book.frontId sB sA, h.book.store]
          split
          next => exact .none
          next =>
            cases e'.book.frontId side.opp tick with
            | none => exact .none
            | some makerId =>
                dsimp only
                cases e'.book.store.makerOpenAndClient makerId with
                | none => exact .none
                | some maker =>
                    obtain ⟨hfst, hsnd⟩ :=
                      h.book.fillOrder sB sA makerId (min maker.1 takerOpen)
                    refine .some ⟨rfl, hsnd, ?_, ?_⟩
                    · simp only [hfst, h.events]
                    · simp only [hfst, h.clients]

theorem matchLoop (fillCount : Nat) (takerOpen : Int) (h : EngineSim RB RA e e') :
    (HpEngine.matchLoop side takerId takerClient limitTick maxFills fillCount takerOpen e).1 =
        (HpEngine.matchLoop side takerId takerClient limitTick maxFills fillCount takerOpen e').1 ∧
      EngineSim RB RA
        (HpEngine.matchLoop side takerId takerClient limitTick maxFills fillCount takerOpen e).2
        (HpEngine.matchLoop side takerId takerClient limitTick maxFills fillCount takerOpen
          e').2 := by
  fun_induction HpEngine.matchLoop side takerId takerClient limitTick maxFills fillCount takerOpen e
    generalizing e' with
  | case1 fillCount takerOpen e hstep =>
      have hrel := h.matchStep sB sA side takerId takerClient limitTick maxFills fillCount takerOpen
      rw [hstep] at hrel
      cases hstep' : HpEngine.matchStep side takerId takerClient limitTick maxFills fillCount
          takerOpen e' with
      | some r' =>
          rw [hstep'] at hrel
          cases hrel
      | none =>
          rw [HpEngine.matchLoop_none hstep']
          exact ⟨rfl, h⟩
  | case2 fillCount takerOpen e r hstep ih =>
      have hrel := h.matchStep sB sA side takerId takerClient limitTick maxFills fillCount takerOpen
      rw [hstep] at hrel
      cases hstep' : HpEngine.matchStep side takerId takerClient limitTick maxFills fillCount
          takerOpen e' with
      | none =>
          rw [hstep'] at hrel
          cases hrel
      | some r' =>
          rw [hstep'] at hrel
          cases hrel with
          | some hr =>
              rw [HpEngine.matchLoop_some hstep', ← hr.1]
              exact ih hr.2

theorem matchSide (h : EngineSim RB RA e e') :
    EngineSim RB RA (HpEngine.matchSide side takerId takerClient limitTick maxFills e)
      (HpEngine.matchSide side takerId takerClient limitTick maxFills e') := by
  obtain ⟨hopen, hsim⟩ := h.matchLoop sB sA side takerId takerClient limitTick maxFills 0
    (e'.book.store.remainingOpen takerId)
  rw [HpEngine.matchSide_eq, HpEngine.matchSide_eq, HpEngine.matchTaker, HpEngine.matchTaker,
    h.book.store]
  refine ⟨?_, hsim.events, hsim.clients⟩
  dsimp only
  rw [hopen, hsim.book.store]
  exact hsim.book.withStore _

/-- A stored order is matched in both engines. -/
theorem matchStored (store : OrderStore) (h : EngineSim RB RA e e') :
    EngineSim RB RA
      (HpEngine.matchSide side takerId takerClient limitTick maxFills
        { e with book := { e.book with store := store } })
      (HpEngine.matchSide side takerId takerClient limitTick maxFills
        { e' with book := { e'.book with store := store } }) :=
  matchSide sB sA side takerId takerClient limitTick maxFills
    ⟨h.book.withStore store, h.events, h.clients⟩

end Match

theorem onMarket (h : EngineSim RB RA e e') (side : Side) (qtyLot : Int) (ts : Nat)
    (maxFills : Option Nat) (clientId : Nat) :
    EngineSim RB RA (e.onMarket side qtyLot ts maxFills clientId)
      (e'.onMarket side qtyLot ts maxFills clientId) := by
  rw [HpEngine.onMarket, HpEngine.onMarket, h.book.store]
  split
  next => exact h
  next =>
    have hmatch := fun id store => h.matchStored sB sA side id clientId none maxFills store
    refine ⟨(hmatch _ _).book.remove _, ?_, (hmatch _ _).clients⟩
    dsimp only
    rw [(hmatch _ _).book.store, (hmatch _ _).events]

/-- What is left of a matched order rests in both engines. -/
theorem restLeft (h : EngineSim RB RA e e') (side : Side) (priceTick : Int) (id clientId : Nat)
    (htick : ∀ o, e'.book.store.get id = some o → IsI64 o.priceTick) :
    EngineSim RB RA
      (if 0 < e.book.store.remainingOpen id then
        { book := e.book.rest id
          clientToId := e.clientToId.push clientId id
          events := e.events ++
            [.rest id clientId side priceTick (e.book.store.remainingOpen id)] }
      else { e with book := { e.book with store := (e.book.store.remove id).2 } })
      (if 0 < e'.book.store.remainingOpen id then
        { book := e'.book.rest id
          clientToId := e'.clientToId.push clientId id
          events := e'.events ++
            [.rest id clientId side priceTick (e'.book.store.remainingOpen id)] }
      else { e' with book := { e'.book with store := (e'.book.store.remove id).2 } }) := by
  rw [h.book.store, h.events, h.clients]
  split
  next => exact ⟨h.book.rest sB sA htick, rfl, rfl⟩
  next => exact ⟨h.book.withStore _, rfl, rfl⟩

/-- A limit order.  The order that may rest has the tick of the command. -/
theorem onLimit [LawfulLevelIndex .buy B'] [LawfulLevelIndex .sell A']
    (h : EngineSim RB RA e e') (hinv : EngineInv False e') (side : Side) {priceTick : Int}
    (htick : IsI64 priceTick) (qtyLot : Int) (ts clientId : Nat) :
    EngineSim RB RA (e.onLimit side priceTick qtyLot ts clientId)
      (e'.onLimit side priceTick qtyLot ts clientId) := by
  rw [HpEngine.onLimit, HpEngine.onLimit, h.book.store]
  split
  next => exact h
  next hpos =>
    have hswept := HpEngine.admit_swept hinv.book (not_le.mp hpos)
      (rfl : e'.taker side priceTick qtyLot ts clientId = _) (some priceTick) none
    have hget := hswept.book.holds.get (List.mem_cons_self ..)
    refine restLeft sB sA (h.matchStored sB sA ..) side priceTick _ clientId fun o ho => ?_
    cases ho.symm.trans hget
    exact htick

theorem onOrder [LawfulLevelIndex .buy B'] [LawfulLevelIndex .sell A']
    (h : EngineSim RB RA e e') (hinv : EngineInv False e') {cmd : HpCommand}
    (hcmd : cmd.TickFits) : EngineSim RB RA (e.onOrder cmd) (e'.onOrder cmd) := by
  have h0 : EngineSim RB RA { e with events := [] } { e' with events := [] } :=
    ⟨h.book, rfl, h.clients⟩
  have hinv0 : EngineInv False { e' with events := [] } := ⟨hinv.book, hinv.uncrossed⟩
  cases cmd with
  | limit side priceTick qtyLot ts clientId =>
      exact h0.onLimit sB sA hinv0 side hcmd qtyLot ts clientId
  | cancel id => exact h0.onCancel sB sA id
  | market side qtyLot ts maxFills clientId =>
      exact h0.onMarket sB sA side qtyLot ts maxFills clientId

/-- Runs show the same. -/
theorem trace_eq [LawfulLevelIndex .buy B'] [LawfulLevelIndex .sell A'] {cmds : List HpCommand}
    (h : EngineSim RB RA e e') (hinv : EngineInv False e') (hcmds : ∀ cmd ∈ cmds, cmd.TickFits) :
    e.trace cmds = e'.trace cmds := by
  induction cmds generalizing e e' with
  | nil => rfl
  | cons cmd cmds ih =>
      have hnext := h.onOrder sB sA hinv (hcmds cmd (List.mem_cons_self ..))
      have hinv' := hinv.onOrder cmd False.elim
      have hdepth : (e.onOrder cmd).book.depth = (e'.onOrder cmd).book.depth :=
        funext fun side => funext fun n => hnext.book.depth sB sA side n
      rw [HpEngine.trace, HpEngine.trace, hnext.events, hdepth,
        ih hnext hinv' fun c hc => hcmds c (List.mem_cons_of_mem _ hc)]

end EngineSim

theorem engineSim_new (sB : IndexSim RB) (sA : IndexSim RA) :
    EngineSim RB RA (HpEngine.new : HpEngine B A) (HpEngine.new : HpEngine B' A') :=
  ⟨⟨sB.default, sA.default, rfl, rfl, rfl, rfl⟩, rfl, rfl⟩

theorem engineSim_withCapacity (sB : IndexSim RB) (sA : IndexSim RA) :
    EngineSim RB RA (HpEngine.withCapacity : HpEngine B A)
      (HpEngine.withCapacity : HpEngine B' A') :=
  ⟨⟨sB.default, sA.default, rfl, rfl, rfl, rfl⟩, rfl, rfl⟩

end Sim

end MatchCoreHp
