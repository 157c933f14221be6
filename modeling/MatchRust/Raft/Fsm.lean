import MatchRust.Lib.Bytes
import MatchRust.Hp.Engine

/-!
# The replicated state machine

A replica keeps one matching engine per group.  A log entry is a command written
as bytes, with a key that identifies the request.  Applying it runs the engine and
returns the events, again as bytes.  A key that the group has seen is ignored, since
a request may be proposed again after a timeout.

A snapshot of a group is not a picture of its engine.  It has the bytes of every
command that was applied, each after its length, and the keys.  Restoring replays
the commands on a new engine.

`decode_command` indexes into the bytes it is given and panics when they are too
short.  A panic is `none` here.  The serialisation of snapshots belongs to another
crate and is a parameter (`Bincode`).  The keys of a group are a hash set, and its
order shows only in the serialised bytes, so the model has a finite set.  A group's
name comes from outside as well, and is of any type with decidable equality.
-/

namespace MatchRaftFsm

open MatchCoreHp

/-- Errors of the state machine.  Both carry a text. -/
inductive MatchFsmError where
  | decode (text : String)
  | bincode (text : String)
deriving DecidableEq

/-! ## Commands as bytes -/

/-- The byte of a side. -/
def sideByte : Side → UInt8
  | .buy => 0
  | .sell => 1

/-- The side of a byte. -/
def byteSide (b : UInt8) : Side := if b = 0 then .buy else .sell

/-- A command and the key of its request, as bytes. -/
def encodeCommand (cmd : HpCommand) (idem : UInt64) : List UInt8 :=
  match cmd with
  | .limit side priceTick qtyLot ts clientId =>
      [0] ++ [sideByte side] ++ Bytes.leInt 8 priceTick ++ Bytes.leInt 8 qtyLot ++
        Bytes.le 8 ts ++ Bytes.le 8 clientId ++ Bytes.le 8 idem.toNat
  | .cancel id => [1] ++ Bytes.le 8 id ++ Bytes.le 8 idem.toNat
  | .market side qtyLot ts maxFills clientId =>
      [2] ++ [sideByte side] ++ Bytes.leInt 8 qtyLot ++ Bytes.le 8 ts ++
        Bytes.le 4 (maxFills.getD 0) ++ Bytes.le 8 clientId ++ Bytes.le 8 idem.toNat

/-- An unsigned number between two positions. -/
def unsignedAt (p : List UInt8) (i j : Nat) : Option Nat := (Bytes.slice p i j).map Bytes.leValue

/-- A signed number between two positions. -/
def signedAt (p : List UInt8) (i j : Nat) : Option Int := (Bytes.slice p i j).map Bytes.leIntValue

/-- The key and the command these bytes stand for. -/
def decodeCommand (p : List UInt8) : Option (UInt64 × HpCommand) :=
  match (p[0]? : Option UInt8) with
  | none => none
  | some 0 => do
      let side ← p[1]?
      let price ← signedAt p 2 10
      let qty ← signedAt p 10 18
      let ts ← unsignedAt p 18 26
      let client ← unsignedAt p 26 34
      let idem ← unsignedAt p 34 42
      some (UInt64.ofNat idem, .limit (byteSide side) price qty ts client)
  | some 1 => do
      let id ← unsignedAt p 1 9
      let idem ← unsignedAt p 9 17
      some (UInt64.ofNat idem, .cancel id)
  | some _ => do
      let side ← p[1]?
      let qty ← signedAt p 2 10
      let ts ← unsignedAt p 10 18
      let maxFills ← unsignedAt p 18 22
      let client ← unsignedAt p 22 30
      let idem ← unsignedAt p 30 38
      let maxFills := if maxFills = 0 then none else some maxFills
      some (UInt64.ofNat idem, .market (byteSide side) qty ts maxFills client)

/-! ## Events as bytes -/

/-- An event as bytes. -/
def encodeEvent : HpEvent → List UInt8
  | .fill makerId takerId makerClientId takerClientId priceTick qtyLot makerOpenLot takerOpenLot =>
      [0] ++ Bytes.le 8 makerId ++ Bytes.le 8 takerId ++ Bytes.le 8 makerClientId ++
        Bytes.le 8 takerClientId ++ Bytes.leInt 8 priceTick ++ Bytes.leInt 8 qtyLot ++
        Bytes.leInt 8 makerOpenLot ++ Bytes.leInt 8 takerOpenLot
  | .rest id clientId side priceTick qtyLot =>
      [1] ++ Bytes.le 8 id ++ Bytes.le 8 clientId ++ [sideByte side] ++
        Bytes.leInt 8 priceTick ++ Bytes.leInt 8 qtyLot
  | .revoke id clientId reason =>
      [2] ++ Bytes.le 8 id ++ Bytes.le 8 clientId ++ Bytes.le 1 reason

/-- The events of a call as bytes, one after the other. -/
def encodeEvents (events : List HpEvent) : List UInt8 := events.flatMap encodeEvent

/-- The event is a revoke. -/
def isRevoke : HpEvent → Bool
  | .revoke .. => true
  | _ => false

/-! ## The state of a group -/

variable {B A : Type} [LevelIndex B] [LevelIndex A]

/-- The matching state of a group. -/
structure MatchState (B A : Type) where
  engine : HpEngine B A
  /-- The commands applied so far, each after its length. -/
  cmds : List UInt8
  /-- The keys seen so far. -/
  idem : Finset UInt64
  fills : Nat
  revokes : Nat

namespace MatchState

/-- The state of a group that has applied nothing. -/
def default : MatchState B A := ⟨HpEngine.new, [], ∅, 0, 0⟩

/-- Run the engine on a command and count its fills and revokes. -/
def execute (st : MatchState B A) (cmd : HpCommand) : MatchState B A :=
  let engine := st.engine.onOrder cmd
  { st with
    engine := engine
    fills := st.fills + engine.events.countP HpEvent.isFill
    revokes := st.revokes + engine.events.countP isRevoke }

/-- Replay the commands of the remaining bytes. -/
def replayLoop (st : MatchState B A) (rest : List UInt8) : Option (MatchState B A) :=
  if 4 ≤ rest.length then
    let len := Bytes.leValue (rest.take 4)
    if rest.length < 4 + len then some st
    else
      match decodeCommand ((rest.drop 4).take len) with
      | none => none
      | some (idem, cmd) =>
          replayLoop ({ st with idem := insert idem st.idem }.execute cmd) (rest.drop (4 + len))
  else some st
termination_by rest.length
decreasing_by
  rw [List.length_drop]
  omega

/-- Replay all commands of a state. -/
def replayAll (st : MatchState B A) : Option (MatchState B A) :=
  (replayLoop { st with cmds := [] } st.cmds).map fun st' => { st' with cmds := st.cmds }

/-- Apply a log entry: its effects, and the state after it. -/
def apply (st : MatchState B A) (data : List UInt8) : Option (List UInt8 × MatchState B A) :=
  match decodeCommand data with
  | none => none
  | some (idem, cmd) =>
      if idem ∈ st.idem then some ([], st)
      else
        let st := { st with
          idem := insert idem st.idem
          cmds := st.cmds ++ Bytes.le 4 data.length ++ data }.execute cmd
        some (encodeEvents st.engine.events, st)

end MatchState

/-! ## The state machine -/

variable {GroupId : Type} [DecidableEq GroupId]

/-- The matching state machine: the state of each group that has one. -/
structure MatchFsm (GroupId B A : Type) where
  groups : GroupId → Option (MatchState B A)

/-- What replicas compare. -/
structure MatchSummary where
  appliedOrders : Nat
  fills : Nat
  revokes : Nat
  bestBid : Option Int
  bestAsk : Option Int
  liveOrders : Nat
deriving DecidableEq

/-- The serialisation of snapshots, which gives back what it was given. -/
structure Bincode where
  serialize : List UInt8 × Finset UInt64 → Except String (List UInt8)
  deserialize : List UInt8 → Except String (List UInt8 × Finset UInt64)
  round_trip : ∀ x, ∃ bytes, serialize x = .ok bytes ∧ deserialize bytes = .ok x

namespace MatchFsm

/-- A state machine without groups. -/
def new : MatchFsm GroupId B A := ⟨fun _ => none⟩

/-- Set the state of a group. -/
def set (fsm : MatchFsm GroupId B A) (group : GroupId) (st : MatchState B A) :
    MatchFsm GroupId B A :=
  ⟨Function.update fsm.groups group (some st)⟩

omit [LevelIndex B] [LevelIndex A] [DecidableEq GroupId] in
/-- The summary of a group. -/
def summary (fsm : MatchFsm GroupId B A) (group : GroupId) : Option MatchSummary :=
  (fsm.groups group).map fun s =>
    { appliedOrders := s.idem.card
      fills := s.fills
      revokes := s.revokes
      bestBid := s.engine.book.best .buy
      bestAsk := s.engine.book.best .sell
      liveOrders := s.engine.book.store.live }

/-- Apply the log entry of a group. -/
def apply (fsm : MatchFsm GroupId B A) (group : GroupId) (_index : Nat) (data : List UInt8) :
    Option (List UInt8 × MatchFsm GroupId B A) :=
  let st := (fsm.groups group).getD MatchState.default
  (st.apply data).map fun r => (r.1, fsm.set group r.2)

omit [LevelIndex B] [LevelIndex A] [DecidableEq GroupId] in
/-- The snapshot of a group. -/
def snapshot [ToString GroupId] (bincode : Bincode) (fsm : MatchFsm GroupId B A)
    (group : GroupId) : Except MatchFsmError (List UInt8) :=
  match fsm.groups group with
  | none => .error (.decode ("no state for group " ++ toString group))
  | some st => (bincode.serialize (st.cmds, st.idem)).mapError .bincode

/-- Restore a group from a snapshot. -/
def restore (bincode : Bincode) (fsm : MatchFsm GroupId B A) (group : GroupId)
    (snapshot : List UInt8) : Option (Except MatchFsmError (MatchFsm GroupId B A)) :=
  match bincode.deserialize snapshot with
  | .error e => some (.error (.bincode e))
  | .ok (cmds, idem) =>
      let st : MatchState B A := ⟨HpEngine.new, cmds, idem, 0, 0⟩
      st.replayAll.map fun st => .ok (fsm.set group st)

end MatchFsm

end MatchRaftFsm
