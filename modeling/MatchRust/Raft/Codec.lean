import MatchRust.Lib.Framing
import MatchRust.Hp.ArtTree
import MatchRust.Raft.Replica

/-!
# What the bytes of the log and of the effects say

A command goes through the log as bytes, and so do the events of its call.  This module
says what can be read back.

An order is read back as it was proposed, with one exception.  The bound on the fills of a
market order is optional, and is written as a plain number with zero for no bound.  So a
bound of zero fills reads as no bound (`decode_encode_iff`).  The engine tells the
two apart: with a bound of zero it fills nothing, and without a bound it fills all it can.

An entry of the log that no command writes is not refused.  The state machine has an
error for it, but nothing returns the error.  Too short an entry panics, and any other is
read as some command (`malformed_not_rejected`).

Events stand one after the other without a count.  Their first byte says how long they
are, so the whole list is read back (`effects_decodable`).
-/

namespace MatchCoreHp

/-- Every number of a command is one of its type. -/
def HpCommand.Fits : HpCommand → Prop
  | .limit _ priceTick qtyLot ts clientId =>
      IsI64 priceTick ∧ IsI64 qtyLot ∧ ts < 2 ^ 64 ∧ clientId < 2 ^ 64
  | .cancel id => id < 2 ^ 64
  | .market _ qtyLot ts maxFills clientId =>
      IsI64 qtyLot ∧ ts < 2 ^ 64 ∧ (∀ n, maxFills = some n → n < 2 ^ 32) ∧ clientId < 2 ^ 64

/-- The bound on the fills of a command. -/
def HpCommand.maxFills : HpCommand → Option Nat
  | .market _ _ _ maxFills _ => maxFills
  | _ => none

/-- Every number of an event is one of its type. -/
def HpEvent.Fits : HpEvent → Prop
  | .fill makerId takerId makerClientId takerClientId priceTick qtyLot makerOpenLot takerOpenLot =>
      makerId < 2 ^ 64 ∧ takerId < 2 ^ 64 ∧ makerClientId < 2 ^ 64 ∧ takerClientId < 2 ^ 64 ∧
        IsI64 priceTick ∧ IsI64 qtyLot ∧ IsI64 makerOpenLot ∧ IsI64 takerOpenLot
  | .rest id clientId _ priceTick qtyLot =>
      id < 2 ^ 64 ∧ clientId < 2 ^ 64 ∧ IsI64 priceTick ∧ IsI64 qtyLot
  | .revoke id clientId reason => id < 2 ^ 64 ∧ clientId < 2 ^ 64 ∧ reason < 2 ^ 8

end MatchCoreHp

namespace MatchRaftFsm

open MatchCoreHp

/-! ## Numbers of their type -/

theorem bmod_of_isI64 {x : Int} (h : IsI64 x) : x.bmod (256 ^ 8) = x :=
  Int.bmod_eq_of_le (by have := h.1; norm_num at this ⊢; omega)
    (by have := h.2; norm_num at this ⊢; omega)

theorem signed_read_back {x : Int} (h : IsI64 x) : Bytes.leIntValue (Bytes.leInt 8 x) = x := by
  rw [Bytes.leIntValue_leInt, bmod_of_isI64 h]

theorem unsigned_read_back {x : Nat} (h : x < 2 ^ 64) : Bytes.leValue (Bytes.le 8 x) = x :=
  Bytes.leValue_le_of_lt (h.trans_eq (by norm_num))

theorem mod_of_lt {x : Nat} (h : x < 2 ^ 64) : x % 256 ^ 8 = x :=
  Nat.mod_eq_of_lt (h.trans_eq (by norm_num))

/-! ## Commands -/

/-- A bound is read back unless it is zero. -/
theorem bound_read_back {maxFills : Option Nat} (h : ∀ n, maxFills = some n → n < 2 ^ 32) :
    (if maxFills.getD 0 % 256 ^ 4 = 0 then none else some (maxFills.getD 0 % 256 ^ 4)) = maxFills ↔
      maxFills ≠ some 0 := by
  cases maxFills with
  | none => simp
  | some n =>
      have hn : n % 256 ^ 4 = n := Nat.mod_eq_of_lt ((h n rfl).trans_eq (by norm_num))
      rw [Option.getD_some, hn]
      by_cases hzero : n = 0
      · simp [hzero]
      · simp [hzero]

/-- The bytes keep a command unless it bounds its fills by zero. -/
theorem onWire_eq_iff {cmd : HpCommand} (h : cmd.Fits) :
    onWire cmd = cmd ↔ cmd.maxFills ≠ some 0 := by
  cases cmd with
  | limit side priceTick qtyLot ts clientId =>
      obtain ⟨hprice, hqty, hts, hclient⟩ := h
      simp only [onWire, HpCommand.maxFills, bmod_of_isI64 hprice, bmod_of_isI64 hqty,
        mod_of_lt hts, mod_of_lt hclient]
      simp
  | cancel id =>
      simp only [onWire, HpCommand.maxFills, mod_of_lt h]
      simp
  | market side qtyLot ts maxFills clientId =>
      obtain ⟨hqty, hts, hfills, hclient⟩ := h
      simp only [onWire, HpCommand.maxFills, bmod_of_isI64 hqty, mod_of_lt hts, mod_of_lt hclient]
      rw [← bound_read_back hfills]
      simp

variable {B A : Type} [LevelIndex B] [LevelIndex A]

namespace MatchState

/-- A replica that has not seen the key of an entry runs the command that is read back. -/
theorem advance_engine {st : MatchState B A} {idem : UInt64} (h : idem ∉ st.idem)
    (cmd : HpCommand) : (st.advance cmd idem).2.engine = st.engine.onOrder (onWire cmd) := by
  rw [advance, if_neg h]
  rfl

end MatchState

/-- A command is read back, and runs on every replica as it was proposed, exactly if it
does not bound its fills by zero. -/
theorem decode_encode_iff (cmd : HpCommand) (hfits : cmd.Fits) (idem : UInt64) :
    (decodeCommand (encodeCommand cmd idem) = some (idem, cmd) ∧
      ∀ st : MatchState B A, idem ∉ st.idem →
        ∃ effects st', st.apply (encodeCommand cmd idem) = some (effects, st') ∧
          st'.engine = st.engine.onOrder cmd) ↔
      cmd.maxFills ≠ some 0 := by
  rw [decodeCommand_encodeCommand, ← onWire_eq_iff hfits]
  constructor
  · rintro ⟨hread, -⟩
    exact congrArg Prod.snd (Option.some.inj hread)
  · intro hwire
    refine ⟨by rw [hwire], fun st hnew => ?_⟩
    refine ⟨_, _, st.apply_encodeCommand cmd idem, ?_⟩
    exact (MatchState.advance_engine hnew cmd).trans (by rw [hwire])

/-- A market order with a bound of two fills is read back. -/
theorem decode_encode_two :
    decodeCommand (encodeCommand (.market .buy 5 0 (some 2) 7) 1) =
      some (1, .market .buy 5 0 (some 2) 7) :=
  ((decode_encode_iff (B := BTreeBidIndex) (A := BTreeAskIndex) (.market .buy 5 0 (some 2) 7)
    ⟨by decide, by decide, by simp, by decide⟩ 1).mpr (by decide)).1

/-- A buy order that must not fill anything is read as one without a bound, and takes the
sell order of the book on the replica. -/
theorem zero_bound_fills :
    decodeCommand (encodeCommand (.market .buy 5 0 (some 0) 7) 2) =
        some (2, .market .buy 5 0 none 7) ∧
      ((MatchState.default : MatchState BTreeBidIndex BTreeAskIndex).engine.onOrder
        (.limit .sell 10 5 0 3)
        |>.onOrder (.market .buy 5 0 (some 0) 7)).events = [.revoke 2 7 1] ∧
      (((MatchState.default : MatchState BTreeBidIndex BTreeAskIndex).apply
        (encodeCommand (.limit .sell 10 5 0 3) 1)).bind fun r =>
          (r.2.apply (encodeCommand (.market .buy 5 0 (some 0) 7) 2)).map fun r =>
            r.2.engine.events) = some [.fill 1 2 3 7 10 5 0 0] := by
  refine ⟨by decide +kernel, by decide +kernel, by decide +kernel⟩

/-! ## Entries that no command writes -/

/-- How many bytes an entry must have to be read.  Its first byte says it, and any byte but
zero and one is taken for a market order. -/
def readLength (p : List UInt8) : Nat :=
  match (p[0]? : Option UInt8) with
  | none => 1
  | some 0 => 42
  | some 1 => 17
  | some _ => 38

theorem slice_eq_some {p : List UInt8} {i j : Nat} (hij : i ≤ j) (hj : j ≤ p.length) :
    Bytes.slice p i j = some ((p.drop i).take (j - i)) := if_pos ⟨hij, hj⟩

theorem slice_eq_none {p : List UInt8} {i j : Nat} (hj : p.length < j) :
    Bytes.slice p i j = none := if_neg fun h => absurd h.2 (Nat.not_le.mpr hj)

/-- Reading an entry that is too short panics. -/
theorem decodeCommand_short {p : List UInt8} (h : p.length < readLength p) :
    decodeCommand p = none := by
  unfold decodeCommand
  unfold readLength at h
  split
  next => rfl
  -- the last number reaches beyond the end
  all_goals
    next htag =>
      simp only [htag] at h
      simp only [unsignedAt, slice_eq_none h, Option.map_none, Option.bind_eq_bind,
        Option.bind_none, Option.bind_fun_none]

/-- Any other entry is read as some command. -/
theorem decodeCommand_long {p : List UInt8} (h : readLength p ≤ p.length) :
    ∃ idem cmd, decodeCommand p = some (idem, cmd) := by
  unfold decodeCommand
  unfold readLength at h
  split
  next htag =>
    simp only [htag] at h
    rw [List.getElem?_eq_none_iff] at htag
    omega
  next htag =>
    simp only [htag] at h
    have hside : p[1]? = some p[1] := List.getElem?_eq_getElem _
    simp (disch := omega) only [signedAt, unsignedAt, slice_eq_some, hside, Option.map_some,
      Option.bind_eq_bind, Option.bind_some]
    exact ⟨_, _, rfl⟩
  next htag =>
    simp only [htag] at h
    simp (disch := omega) only [unsignedAt, slice_eq_some, Option.map_some,
      Option.bind_eq_bind, Option.bind_some]
    exact ⟨_, _, rfl⟩
  next htag =>
    simp only [htag] at h
    have hside : p[1]? = some p[1] := List.getElem?_eq_getElem _
    simp (disch := omega) only [signedAt, unsignedAt, slice_eq_some, hside, Option.map_some,
      Option.bind_eq_bind, Option.bind_some]
    exact ⟨_, _, rfl⟩

namespace MatchState

theorem apply_of_mem {st : MatchState B A} {data : List UInt8} {idem : UInt64} {cmd : HpCommand}
    (hread : decodeCommand data = some (idem, cmd)) (hseen : idem ∈ st.idem) :
    st.apply data = some ([], st) := by
  simp only [apply, hread, if_pos hseen]

theorem apply_of_not_mem {st : MatchState B A} {data : List UInt8} {idem : UInt64}
    {cmd : HpCommand} (hread : decodeCommand data = some (idem, cmd)) (hnew : idem ∉ st.idem) :
    ∃ st', st.apply data = some (encodeEvents st'.engine.events, st') ∧
      st'.engine = st.engine.onOrder cmd ∧ st'.idem = insert idem st.idem ∧
      st'.cmds = st.cmds ++ Bytes.le 4 data.length ++ data := by
  refine ⟨{ st with
    idem := insert idem st.idem
    cmds := st.cmds ++ Bytes.le 4 data.length ++ data }.execute cmd, ?_, rfl, rfl, rfl⟩
  simp only [apply, hread, if_neg hnew]

end MatchState

/-- How a call of the source ends: it returns, or it panics.  Either way it leaves its
receiver in some state. -/
inductive Ending (σ : Type) where
  | returned (result : Except MatchFsmError (List UInt8)) (self : σ)
  | panicked (self : σ)

variable {GroupId : Type} [DecidableEq GroupId]

namespace MatchFsm

/-- The state of a group, which is the default one before its first entry. -/
def entryOrDefault (fsm : MatchFsm GroupId B A) (group : GroupId) : MatchState B A :=
  (fsm.groups group).getD MatchState.default

/-- Apply the log entry of a group, with the way the call ends.  A call that panics has
made the state of the group by then. -/
def applyCall (fsm : MatchFsm GroupId B A) (group : GroupId) (data : List UInt8) :
    Ending (MatchFsm GroupId B A) :=
  match (fsm.entryOrDefault group).apply data with
  | none => .panicked (fsm.set group (fsm.entryOrDefault group))
  | some (effects, st) => .returned (.ok effects) (fsm.set group st)

/-- The call returns exactly what `apply` gives, and panics where that has nothing. -/
theorem applyCall_eq (fsm : MatchFsm GroupId B A) (group : GroupId) (index : Nat)
    (data : List UInt8) :
    fsm.applyCall group data =
      match fsm.apply group index data with
      | none => .panicked (fsm.set group (fsm.entryOrDefault group))
      | some (effects, fsm') => .returned (.ok effects) fsm' := by
  rw [applyCall, apply, entryOrDefault]
  cases ((fsm.groups group).getD MatchState.default).apply data with
  | none => rfl
  | some r => rfl

/-- No call returns an error. -/
theorem applyCall_ne_error (fsm fsm' : MatchFsm GroupId B A) (group : GroupId)
    (data : List UInt8) (error : MatchFsmError) :
    fsm.applyCall group data ≠ .returned (.error error) fsm' := by
  rw [applyCall]
  split
  next => nofun
  next => nofun

/-- The effects of entries, one call after the other. -/
def effectsOf (fsm : MatchFsm GroupId B A) :
    List (GroupId × List UInt8) → Option (List (List UInt8))
  | [] => some []
  | (group, data) :: later =>
      match fsm.applyCall group data with
      | .returned (.ok effects) fsm => (effectsOf fsm later).map (effects :: ·)
      | .returned (.error _) fsm => effectsOf fsm later
      | .panicked _ => none

/-- Nobody can tell the two apart: not by a summary, not by a snapshot and not by the
effects of later entries. -/
def SameObserved [ToString GroupId] (fsm fsm' : MatchFsm GroupId B A) : Prop :=
  (∀ g, fsm'.summary g = fsm.summary g) ∧
    (∀ bincode g, fsm'.snapshot bincode g = fsm.snapshot bincode g) ∧
    ∀ later, fsm'.effectsOf later = fsm.effectsOf later

/-- The entry is refused with an error, and nothing that can be observed changes. -/
def Rejects [ToString GroupId] (fsm : MatchFsm GroupId B A) (group : GroupId)
    (data : List UInt8) : Prop :=
  ∃ error fsm', fsm.applyCall group data = .returned (.error error) fsm' ∧ fsm.SameObserved fsm'

end MatchFsm

/-- An entry that no command writes is never refused.  Too short an entry panics.  Any other
is taken for a command, whose bytes it is not, and the group runs that command unless it has
seen its key. -/
theorem malformed_not_rejected [ToString GroupId] (fsm : MatchFsm GroupId B A) (group : GroupId)
    (data : List UInt8) (hdata : ∀ cmd idem, data ≠ encodeCommand cmd idem) :
    ¬ fsm.Rejects group data ∧
      (data.length < readLength data →
        fsm.applyCall group data = .panicked (fsm.set group (fsm.entryOrDefault group))) ∧
      (readLength data ≤ data.length →
        ∃ idem cmd st', decodeCommand data = some (idem, cmd) ∧ data ≠ encodeCommand cmd idem ∧
          (idem ∈ (fsm.entryOrDefault group).idem →
            fsm.applyCall group data =
              .returned (.ok []) (fsm.set group (fsm.entryOrDefault group))) ∧
          (idem ∉ (fsm.entryOrDefault group).idem →
            fsm.applyCall group data =
                .returned (.ok (encodeEvents st'.engine.events)) (fsm.set group st') ∧
              st'.engine = (fsm.entryOrDefault group).engine.onOrder cmd ∧
              st'.idem = insert idem (fsm.entryOrDefault group).idem ∧
              st'.cmds = (fsm.entryOrDefault group).cmds ++ Bytes.le 4 data.length ++ data)) := by
  refine ⟨?_, fun hshort => ?_, fun hlong => ?_⟩
  · rintro ⟨error, fsm', hcall, -⟩
    exact MatchFsm.applyCall_ne_error _ _ _ _ _ hcall
  · simp only [MatchFsm.applyCall, MatchState.apply, decodeCommand_short hshort]
  · obtain ⟨idem, cmd, hread⟩ := decodeCommand_long hlong
    by_cases hseen : idem ∈ (fsm.entryOrDefault group).idem
    · refine ⟨idem, cmd, fsm.entryOrDefault group, hread, hdata cmd idem, fun _ => ?_,
        fun hnew => absurd hseen hnew⟩
      simp only [MatchFsm.applyCall, MatchState.apply_of_mem hread hseen]
    · obtain ⟨st', happly, hst'⟩ := MatchState.apply_of_not_mem hread hseen
      refine ⟨idem, cmd, st', hread, hdata cmd idem, fun h => absurd h hseen, fun _ => ⟨?_, hst'⟩⟩
      simp only [MatchFsm.applyCall, happly]

/-- The first byte of an entry is zero, one or two. -/
theorem head_encodeCommand (cmd : HpCommand) (idem : UInt64) :
    ∃ tag rest, encodeCommand cmd idem = tag :: rest ∧ tag ≤ 2 := by
  cases cmd with
  | limit => exact ⟨0, _, rfl, by decide⟩
  | cancel => exact ⟨1, _, rfl, by decide⟩
  | market => exact ⟨2, _, rfl, by decide⟩

/-- The empty entry is no command, and panics. -/
theorem empty_entry_panics :
    ¬ (MatchFsm.new : MatchFsm Nat BTreeBidIndex BTreeAskIndex).Rejects 0 [] ∧
      ∃ fsm', (MatchFsm.new : MatchFsm Nat BTreeBidIndex BTreeAskIndex).applyCall 0 [] =
        .panicked fsm' := by
  have hempty : ∀ cmd idem, [] ≠ encodeCommand cmd idem := by
    intro cmd idem h
    obtain ⟨tag, rest, hhead, -⟩ := head_encodeCommand cmd idem
    rw [hhead] at h
    cases h
  obtain ⟨hreject, hpanic, -⟩ := malformed_not_rejected
    (MatchFsm.new : MatchFsm Nat BTreeBidIndex BTreeAskIndex) 0 [] hempty
  exact ⟨hreject, _, hpanic (by decide)⟩

/-- An entry whose first byte is three is no command.  It is applied all the same, as a
market order, and the summary of its group shows that. -/
theorem unknown_tag_applied :
    let data := 3 :: 0 :: Bytes.leInt 8 5 ++ List.replicate 28 0
    let fsm : MatchFsm Nat BTreeBidIndex BTreeAskIndex := MatchFsm.new
    (∀ cmd idem, data ≠ encodeCommand cmd idem) ∧ ¬ fsm.Rejects 0 data ∧
      fsm.summary 0 = none ∧
      ((fsm.apply 0 1 data).bind fun r => r.2.summary 0) = some ⟨1, 0, 1, none, none, 0⟩ := by
  intro data fsm
  refine ⟨fun cmd idem h => ?_, ?_, rfl, by decide +kernel⟩
  · obtain ⟨tag, rest, hhead, htag⟩ := head_encodeCommand cmd idem
    rw [hhead] at h
    obtain ⟨rfl, -⟩ := List.cons.inj h
    exact absurd htag (by decide)
  · rintro ⟨error, fsm', hcall, -⟩
    exact MatchFsm.applyCall_ne_error _ _ _ _ _ hcall

/-! ## Events -/

/-- The bytes of an event after its first. -/
def bodyLength (tag : UInt8) : Nat :=
  match tag with
  | 0 => 64
  | 1 => 33
  | _ => 17

/-- The unsigned number at a position, in eight bytes. -/
def unsignedFrom (p : List UInt8) (i : Nat) : Nat := Bytes.leValue ((p.drop i).take 8)

/-- The signed number at a position, in eight bytes. -/
def signedFrom (p : List UInt8) (i : Nat) : Int := Bytes.leIntValue ((p.drop i).take 8)

/-- The event whose bytes come after its first. -/
def readBody (tag : UInt8) (p : List UInt8) : HpEvent :=
  match tag with
  | 0 => .fill (unsignedFrom p 0) (unsignedFrom p 8) (unsignedFrom p 16) (unsignedFrom p 24)
      (signedFrom p 32) (signedFrom p 40) (signedFrom p 48) (signedFrom p 56)
  | 1 => .rest (unsignedFrom p 0) (unsignedFrom p 8) (byteSide (p.getD 16 0))
      (signedFrom p 17) (signedFrom p 25)
  | _ => .revoke (unsignedFrom p 0) (unsignedFrom p 8) (Bytes.leValue ((p.drop 16).take 1))

/-- The first event of the bytes, and the bytes after it.  The state machine itself has no
reader, since only its caller needs one. -/
def decodeEvent : List UInt8 → Option (HpEvent × List UInt8)
  | [] => none
  | tag :: p =>
      if bodyLength tag ≤ p.length then some (readBody tag p, p.drop (bodyLength tag)) else none

/-- All events of the bytes, if the bytes end with one. -/
def decodeEvents (p : List UInt8) : Option (List HpEvent) :=
  match Framing.parse decodeEvent p.length p with
  | (events, []) => some events
  | _ => none

/-- The bytes of an event after its first. -/
def body : HpEvent → List UInt8
  | .fill makerId takerId makerClientId takerClientId priceTick qtyLot makerOpenLot takerOpenLot =>
      Bytes.le 8 makerId ++ Bytes.le 8 takerId ++ Bytes.le 8 makerClientId ++
        Bytes.le 8 takerClientId ++ Bytes.leInt 8 priceTick ++ Bytes.leInt 8 qtyLot ++
        Bytes.leInt 8 makerOpenLot ++ Bytes.leInt 8 takerOpenLot
  | .rest id clientId side priceTick qtyLot =>
      Bytes.le 8 id ++ Bytes.le 8 clientId ++ [sideByte side] ++
        Bytes.leInt 8 priceTick ++ Bytes.leInt 8 qtyLot
  | .revoke id clientId reason => Bytes.le 8 id ++ Bytes.le 8 clientId ++ Bytes.le 1 reason

/-- The first byte of an event. -/
def tagOf : HpEvent → UInt8
  | .fill .. => 0
  | .rest .. => 1
  | .revoke .. => 2

theorem encodeEvent_eq (event : HpEvent) : encodeEvent event = tagOf event :: body event := by
  cases event with
  | fill => rfl
  | rest => rfl
  | revoke => rfl

/-- The first byte of an event says how many follow. -/
theorem length_body (event : HpEvent) : (body event).length = bodyLength (tagOf event) := by
  cases event with
  | fill => simp [body, tagOf, bodyLength]
  | rest => simp [body, tagOf, bodyLength]
  | revoke => simp [body, tagOf, bodyLength]

theorem unsignedFrom_front {n : Nat} (h : n < 2 ^ 64) (p : List UInt8) :
    unsignedFrom (Bytes.le 8 n ++ p) 0 = n := by
  rw [unsignedFrom, List.drop_zero, List.take_left' (Bytes.length_le 8 n), unsigned_read_back h]

theorem signedFrom_front {x : Int} (h : IsI64 x) (p : List UInt8) :
    signedFrom (Bytes.leInt 8 x ++ p) 0 = x := by
  rw [signedFrom, List.drop_zero, List.take_left' (Bytes.length_leInt 8 x), signed_read_back h]

/-- A position behind the first bytes. -/
theorem unsignedFrom_behind {xs p : List UInt8} {i : Nat} (h : xs.length ≤ i) :
    unsignedFrom (xs ++ p) i = unsignedFrom p (i - xs.length) := by
  rw [unsignedFrom, List.drop_append, List.drop_of_length_le h]
  rfl

theorem signedFrom_behind {xs p : List UInt8} {i : Nat} (h : xs.length ≤ i) :
    signedFrom (xs ++ p) i = signedFrom p (i - xs.length) := by
  rw [signedFrom, List.drop_append, List.drop_of_length_le h]
  rfl

theorem readBody_body {event : HpEvent} (h : event.Fits) (rest : List UInt8) :
    readBody (tagOf event) (body event ++ rest) = event := by
  cases event with
  | fill makerId takerId makerClientId takerClientId priceTick qtyLot makerOpenLot takerOpenLot =>
      obtain ⟨hmaker, htaker, hmakerClient, htakerClient, hprice, hqty, hmakerOpen, htakerOpen⟩ := h
      simp [readBody, tagOf, body, unsignedFrom_behind, signedFrom_behind,
        unsignedFrom_front hmaker, unsignedFrom_front htaker, unsignedFrom_front hmakerClient,
        unsignedFrom_front htakerClient, signedFrom_front hprice, signedFrom_front hqty,
        signedFrom_front hmakerOpen, signedFrom_front htakerOpen]
  | rest id clientId side priceTick qtyLot =>
      obtain ⟨hid, hclient, hprice, hqty⟩ := h
      have hside : (Bytes.le 8 id ++ (Bytes.le 8 clientId ++ ([sideByte side] ++
          (Bytes.leInt 8 priceTick ++ (Bytes.leInt 8 qtyLot ++ rest))))).getD 16 0 =
          sideByte side := rfl
      simp only [readBody, tagOf, body, List.append_assoc, hside, byteSide_sideByte,
        unsignedFrom_behind, signedFrom_behind, Bytes.length_le, Bytes.length_leInt,
        List.length_singleton, Nat.reduceLeDiff, Nat.reduceSub, le_refl, unsignedFrom_front hid,
        unsignedFrom_front hclient, signedFrom_front hprice, signedFrom_front hqty]
  | revoke id clientId reason =>
      obtain ⟨hid, hclient, hreason⟩ := h
      show HpEvent.revoke (Bytes.leValue (Bytes.le 8 id)) (Bytes.leValue (Bytes.le 8 clientId))
        (Bytes.leValue (Bytes.le 1 reason)) = _
      rw [unsigned_read_back hid, unsigned_read_back hclient,
        Bytes.leValue_le_of_lt (hreason.trans_eq (by norm_num))]

/-- Events are read off the front of the bytes, and no part of one is read. -/
theorem frames_events : Framing.Frames decodeEvent encodeEvent HpEvent.Fits where
  nonempty event := by
    rw [encodeEvent_eq]
    exact List.cons_ne_nil _ _
  nothing := rfl
  complete event hfits rest := by
    rw [encodeEvent_eq, List.cons_append, decodeEvent, ← length_body, if_pos (by simp),
      readBody_body hfits, List.drop_left]
  partly event _ buf hpre hshort := by
    rw [encodeEvent_eq] at hpre hshort
    cases buf with
    | nil => rfl
    | cons tag buf =>
        obtain ⟨rfl, -⟩ := List.cons_prefix_cons.mp hpre
        rw [List.length_cons, List.length_cons, length_body] at hshort
        exact if_neg (by omega)

theorem decodeEvents_encodeEvents {events : List HpEvent} (h : ∀ e ∈ events, e.Fits) :
    decodeEvents (encodeEvents events) = some events := by
  rw [decodeEvents, encodeEvents, frames_events.parse_all h le_rfl]

/-- The effects of a call say which events it had.

* Lists of events with the same bytes are equal.
* The events are read back from the effects of any applied entry.
* The bytes of two lists, one after the other, are those of the lists one after the other. -/
theorem effects_decodable :
    (∀ xs ys : List HpEvent, (∀ e ∈ xs, e.Fits) → (∀ e ∈ ys, e.Fits) →
      encodeEvents xs = encodeEvents ys → xs = ys) ∧
      (∃ decode : List UInt8 → Option (List HpEvent),
        (∀ xs : List HpEvent, (∀ e ∈ xs, e.Fits) → decode (encodeEvents xs) = some xs) ∧
        ∀ (st st' : MatchState B A) (data effects : List UInt8),
          st.apply data = some (effects, st') → (∀ e ∈ st'.engine.events, e.Fits) →
          decode effects = some (if st'.idem = st.idem then [] else st'.engine.events)) ∧
      ∀ xs ys : List HpEvent, encodeEvents (xs ++ ys) = encodeEvents xs ++ encodeEvents ys := by
  refine ⟨fun xs ys hxs hys heq => ?_,
    ⟨decodeEvents, fun xs hxs => decodeEvents_encodeEvents hxs, ?_⟩,
    fun xs ys => List.flatMap_append⟩
  · have h := decodeEvents_encodeEvents hxs
    rw [heq, decodeEvents_encodeEvents hys] at h
    exact (Option.some.inj h).symm
  · intro st st' data effects happly hfits
    rw [MatchState.apply] at happly
    split at happly
    next => cases happly
    next idem cmd hread =>
      split at happly
      next hseen =>
        obtain ⟨rfl, rfl⟩ := Prod.mk.inj (Option.some.inj happly)
        rw [if_pos rfl]
        rfl
      next hnew =>
        obtain ⟨rfl, rfl⟩ := Prod.mk.inj (Option.some.inj happly)
        rw [decodeEvents_encodeEvents hfits, if_neg]
        exact fun hsame => hnew (hsame ▸ Finset.mem_insert_self idem st.idem)

/-- An order that rests and is cancelled: its two events are read back. -/
theorem effects_decodable_two :
    ∃ decode : List UInt8 → Option (List HpEvent),
      decode (encodeEvents [.rest 1 7 .sell 10 5, .revoke 1 7 0]) =
        some [.rest 1 7 .sell 10 5, .revoke 1 7 0] := by
  obtain ⟨-, ⟨decode, hdecode, -⟩, -⟩ :=
    effects_decodable (B := BTreeBidIndex) (A := BTreeAskIndex)
  refine ⟨decode, hdecode _ fun e he => ?_⟩
  simp only [List.mem_cons, List.not_mem_nil, or_false] at he
  rcases he with rfl | rfl
  · exact ⟨by decide, by decide, by decide, by decide⟩
  · exact ⟨by decide, by decide, by decide⟩

end MatchRaftFsm
