import MatchRust.Lib.Log
import MatchRust.Raft.Fsm

/-!
# Replicas of the state machine agree

A replica may apply a log from its beginning, or start from the snapshots of
another replica and apply the rest.  `replicas_agree` says that nobody can tell the
difference.  It also says that a repeated key changes nothing and that the groups
do not see each other.

A restored group is equal to the one the snapshot was taken of, engine and all.  The
reason is that its bytes are the commands it applied, in order, and that a replay of
them is those very calls of the engine (`Replays`).  So the argument needs nothing
about matching.

Every entry was written by `encode_command`.  Reading it back gives the key and a
command, so applying an entry never panics (`apply_data`).
-/

namespace MatchRaftFsm

open MatchCoreHp

/-! ## Commands survive the bytes -/

/-- The command that is read back.  Numbers are cut to their width, and a bound of no
fills reads as no bound. -/
def onWire : HpCommand → HpCommand
  | .limit side priceTick qtyLot ts clientId =>
      .limit side (priceTick.bmod (256 ^ 8)) (qtyLot.bmod (256 ^ 8)) (ts % 256 ^ 8)
        (clientId % 256 ^ 8)
  | .cancel id => .cancel (id % 256 ^ 8)
  | .market side qtyLot ts maxFills clientId =>
      .market side (qtyLot.bmod (256 ^ 8)) (ts % 256 ^ 8)
        (if maxFills.getD 0 % 256 ^ 4 = 0 then none else some (maxFills.getD 0 % 256 ^ 4))
        (clientId % 256 ^ 8)

theorem byteSide_sideByte (side : Side) : byteSide (sideByte side) = side := by
  cases side with
  | buy => rfl
  | sell => rfl

theorem key_read_back (idem : UInt64) :
    UInt64.ofNat (Bytes.leValue (Bytes.le 8 idem.toNat)) = idem := by
  rw [Bytes.leValue_le_of_lt (by simpa using idem.toNat_lt), UInt64.ofNat_toNat]

/-- What was written is read back. -/
theorem decodeCommand_encodeCommand (cmd : HpCommand) (idem : UInt64) :
    decodeCommand (encodeCommand cmd idem) = some (idem, onWire cmd) := by
  cases cmd with
  | limit side priceTick qtyLot ts clientId =>
      show some (UInt64.ofNat (Bytes.leValue (Bytes.le 8 idem.toNat)),
        HpCommand.limit (byteSide (sideByte side)) (Bytes.leIntValue (Bytes.leInt 8 priceTick))
          (Bytes.leIntValue (Bytes.leInt 8 qtyLot)) (Bytes.leValue (Bytes.le 8 ts))
          (Bytes.leValue (Bytes.le 8 clientId))) = _
      rw [key_read_back, byteSide_sideByte, Bytes.leIntValue_leInt, Bytes.leIntValue_leInt,
        Bytes.leValue_le, Bytes.leValue_le]
      rfl
  | cancel id =>
      show some (UInt64.ofNat (Bytes.leValue (Bytes.le 8 idem.toNat)),
        HpCommand.cancel (Bytes.leValue (Bytes.le 8 id))) = _
      rw [key_read_back, Bytes.leValue_le]
      rfl
  | market side qtyLot ts maxFills clientId =>
      show some (UInt64.ofNat (Bytes.leValue (Bytes.le 8 idem.toNat)),
        HpCommand.market (byteSide (sideByte side)) (Bytes.leIntValue (Bytes.leInt 8 qtyLot))
          (Bytes.leValue (Bytes.le 8 ts))
          (if Bytes.leValue (Bytes.le 4 (maxFills.getD 0)) = 0 then none
            else some (Bytes.leValue (Bytes.le 4 (maxFills.getD 0))))
          (Bytes.leValue (Bytes.le 8 clientId))) = _
      rw [key_read_back, byteSide_sideByte, Bytes.leIntValue_leInt, Bytes.leValue_le,
        Bytes.leValue_le, Bytes.leValue_le]
      rfl

theorem length_encodeCommand_lt (cmd : HpCommand) (idem : UInt64) :
    (encodeCommand cmd idem).length < 256 ^ 4 := by
  cases cmd with
  | limit => simp [encodeCommand]
  | cancel => simp [encodeCommand]
  | market => simp [encodeCommand]

variable {B A : Type} [LevelIndex B] [LevelIndex A]

namespace MatchState

/-! ## A group replays its own commands -/

/-- A command with its key, as it stands in the bytes of a state. -/
def frame (x : HpCommand × UInt64) : List UInt8 :=
  Bytes.le 4 (encodeCommand x.1 x.2).length ++ encodeCommand x.1 x.2

/-- Replay one command. -/
def replay (st : MatchState B A) (x : HpCommand × UInt64) : MatchState B A :=
  { st with idem := insert x.2 st.idem }.execute (onWire x.1)

theorem replayLoop_frame (st : MatchState B A) (x : HpCommand × UInt64) (rest : List UInt8) :
    replayLoop st (frame x ++ rest) = replayLoop (st.replay x) rest := by
  have hlen : Bytes.leValue ((frame x ++ rest).take 4) = (encodeCommand x.1 x.2).length := by
    rw [frame, List.append_assoc, List.take_left' (Bytes.length_le 4 _),
      Bytes.leValue_le_of_lt (length_encodeCommand_lt x.1 x.2)]
  have hdata : ((frame x ++ rest).drop 4).take (encodeCommand x.1 x.2).length =
      encodeCommand x.1 x.2 := by
    rw [frame, List.append_assoc, List.drop_left' (Bytes.length_le 4 _), List.take_left]
  have hrest : (frame x ++ rest).drop (4 + (encodeCommand x.1 x.2).length) = rest :=
    List.drop_left' (by simp [frame])
  rw [replayLoop, if_pos (by simp [frame])]
  simp only [hlen, hdata, hrest, decodeCommand_encodeCommand]
  rw [if_neg (by simp [frame])]
  rfl

theorem replayLoop_frames (st : MatchState B A) (xs : List (HpCommand × UInt64)) :
    replayLoop st (xs.flatMap frame) = some (xs.foldl replay st) := by
  induction xs generalizing st with
  | nil => rw [List.flatMap_nil, replayLoop, if_neg (by simp)]; rfl
  | cons x xs ih => rw [List.flatMap_cons, replayLoop_frame, ih, List.foldl_cons]

/-- The bytes of a state are commands whose replay, with any keys known already,
gives the state. -/
def Replays (st : MatchState B A) : Prop :=
  ∃ xs : List (HpCommand × UInt64), st.cmds = xs.flatMap frame ∧
    ∀ known : Finset UInt64, xs.foldl replay ⟨HpEngine.new, [], known, 0, 0⟩ =
      { st with cmds := [], idem := known ∪ st.idem }

theorem replays_default : (default : MatchState B A).Replays :=
  ⟨[], rfl, fun known => by simp [default]⟩

/-- A state that replays its own commands is restored from them and its keys. -/
theorem Replays.replayAll_eq {st : MatchState B A} (h : st.Replays) :
    replayAll ⟨HpEngine.new, st.cmds, st.idem, 0, 0⟩ = some st := by
  obtain ⟨xs, hcmds, hfold⟩ := h
  simp only [replayAll, hcmds, replayLoop_frames, hfold, Finset.union_self, Option.map_some]
  rw [← hcmds]

/-! ## Entries that `encode_command` wrote -/

/-- Apply a command with its key. -/
def advance (st : MatchState B A) (cmd : HpCommand) (idem : UInt64) :
    List UInt8 × MatchState B A :=
  if idem ∈ st.idem then ([], st)
  else
    let st := { st with
      idem := insert idem st.idem
      cmds := st.cmds ++ frame (cmd, idem) }.execute (onWire cmd)
    (encodeEvents st.engine.events, st)

theorem apply_encodeCommand (st : MatchState B A) (cmd : HpCommand) (idem : UInt64) :
    st.apply (encodeCommand cmd idem) = some (st.advance cmd idem) := by
  simp only [apply, decodeCommand_encodeCommand, advance, frame, ← List.append_assoc]
  split
  next => rfl
  next => rfl

theorem advance_of_mem {st : MatchState B A} {idem : UInt64} (h : idem ∈ st.idem)
    (cmd : HpCommand) : st.advance cmd idem = ([], st) := if_pos h

theorem advance_idem (st : MatchState B A) (cmd : HpCommand) (idem : UInt64) :
    (st.advance cmd idem).2.idem = insert idem st.idem := by
  unfold advance
  split
  next h => exact (Finset.insert_eq_of_mem h).symm
  next => rfl

/-- Applying a command keeps that the state replays its own commands. -/
theorem Replays.advance {st : MatchState B A} (h : st.Replays) (cmd : HpCommand)
    (idem : UInt64) : (st.advance cmd idem).2.Replays := by
  unfold MatchState.advance
  split
  next => exact h
  next =>
    obtain ⟨xs, hcmds, hfold⟩ := h
    refine ⟨xs ++ [(cmd, idem)], ?_, fun known => ?_⟩
    · simp [execute, hcmds]
    · rw [List.foldl_append, hfold, List.foldl_cons, List.foldl_nil]
      simp [replay, execute]

end MatchState

/-! ## Logs -/

variable {GroupId : Type} [DecidableEq GroupId]

/-- An entry of the log: a command of a group with the key of its request. -/
structure LogEntry (GroupId : Type) where
  group : GroupId
  index : Nat
  cmd : HpCommand
  idem : UInt64

namespace LogEntry

/-- The bytes of an entry. -/
def data (entry : LogEntry GroupId) : List UInt8 := encodeCommand entry.cmd entry.idem

/-- What identifies the request: the group and its key. -/
def key (entry : LogEntry GroupId) : GroupId × UInt64 := (entry.group, entry.idem)

end LogEntry

namespace MatchFsm

/-- Apply a log: every entry with its effects, and the state at the end. -/
def applyLog (fsm : MatchFsm GroupId B A) :
    List (LogEntry GroupId) →
      Option (List (LogEntry GroupId × List UInt8) × MatchFsm GroupId B A)
  | [] => some ([], fsm)
  | entry :: log =>
      match fsm.apply entry.group entry.index entry.data with
      | none => none
      | some (effects, fsm) =>
          (applyLog fsm log).map fun rest => ((entry, effects) :: rest.1, rest.2)

/-- Restore the snapshots of some groups of one replica into another. -/
def transfer [ToString GroupId] (bincode : Bincode) (source : MatchFsm GroupId B A) :
    List GroupId → MatchFsm GroupId B A →
      Option (Except MatchFsmError (MatchFsm GroupId B A))
  | [], target => some (.ok target)
  | group :: groups, target =>
      match source.snapshot bincode group with
      | .error e => some (.error e)
      | .ok bytes =>
          match target.restore bincode group bytes with
          | none => none
          | some (.error e) => some (.error e)
          | some (.ok target) => transfer bincode source groups target

/-- Apply an entry. -/
def step (fsm : MatchFsm GroupId B A) (entry : LogEntry GroupId) :
    List UInt8 × MatchFsm GroupId B A :=
  let r := ((fsm.groups entry.group).getD MatchState.default).advance entry.cmd entry.idem
  (r.1, fsm.set entry.group r.2)

/-- An entry of the log is applied without a panic. -/
theorem apply_data (fsm : MatchFsm GroupId B A) (entry : LogEntry GroupId) :
    fsm.apply entry.group entry.index entry.data = some (fsm.step entry) := by
  simp only [apply, LogEntry.data, MatchState.apply_encodeCommand, Option.map_some, step]

theorem applyLog_eq (fsm : MatchFsm GroupId B A) (log : List (LogEntry GroupId)) :
    fsm.applyLog log = some (Log.run step fsm log) := by
  induction log generalizing fsm with
  | nil => rfl
  | cons entry log ih => simp [applyLog, apply_data, ih, Log.run]

omit [LevelIndex B] [LevelIndex A] in
theorem set_groups (fsm : MatchFsm GroupId B A) (group g : GroupId) (st : MatchState B A) :
    (fsm.set group st).groups g = if g = group then some st else fsm.groups g := by
  simp [set, Function.update_apply]

theorem step_groups (fsm : MatchFsm GroupId B A) (entry : LogEntry GroupId) (g : GroupId) :
    (fsm.step entry).2.groups g =
      if g = entry.group then
        some (((fsm.groups g).getD MatchState.default).advance entry.cmd entry.idem).2
      else fsm.groups g := by
  rw [step, set_groups]
  split
  next h => rw [h]
  next => rfl

/-! ## Snapshots -/

/-- The state of every group replays its own commands. -/
def Replays (fsm : MatchFsm GroupId B A) : Prop :=
  ∀ g st, fsm.groups g = some st → st.Replays

theorem Replays.step {fsm : MatchFsm GroupId B A} (h : fsm.Replays) (entry : LogEntry GroupId) :
    (fsm.step entry).2.Replays := by
  intro g st hst
  rw [step_groups] at hst
  split at hst
  next =>
    have hreplays : ((fsm.groups g).getD MatchState.default).Replays := by
      cases hg : fsm.groups g with
      | none => exact MatchState.replays_default
      | some st => exact h g st hg
    cases hst
    exact hreplays.advance entry.cmd entry.idem
  next => exact h g st hst

theorem replays_run (log : List (LogEntry GroupId)) :
    (Log.run step (new : MatchFsm GroupId B A) log).2.Replays :=
  Log.run_invariant step (P := Replays) (fun _ entry h => h.step entry) (fun _ _ h => by cases h)
    log

/-- A group is restored from its snapshot. -/
theorem Replays.restore_snapshot [ToString GroupId] {fsm : MatchFsm GroupId B A} (h : fsm.Replays)
    (bincode : Bincode) (target : MatchFsm GroupId B A) {g : GroupId} {st : MatchState B A}
    (hg : fsm.groups g = some st) :
    ∃ bytes, fsm.snapshot bincode g = .ok bytes ∧
      target.restore bincode g bytes = some (.ok (target.set g st)) := by
  obtain ⟨bytes, hser, hde⟩ := bincode.round_trip (st.cmds, st.idem)
  refine ⟨bytes, ?_, ?_⟩
  · rw [snapshot, hg]
    simp only [hser]
    rfl
  · rw [restore, hde]
    simp only [(h g st hg).replayAll_eq, Option.map_some]

/-- The groups that were transferred are those of the source. -/
theorem Replays.transfer_eq [ToString GroupId] {fsm : MatchFsm GroupId B A} (h : fsm.Replays)
    (bincode : Bincode) {groups : List GroupId} (hgroups : ∀ g ∈ groups, fsm.groups g ≠ none)
    (target : MatchFsm GroupId B A) :
    fsm.transfer bincode groups target =
      some (.ok ⟨fun g => if g ∈ groups then fsm.groups g else target.groups g⟩) := by
  induction groups generalizing target with
  | nil => simp [transfer]
  | cons group groups ih =>
      obtain ⟨st, hst⟩ := Option.ne_none_iff_exists'.mp (hgroups group List.mem_cons_self)
      obtain ⟨bytes, hsnap, hrest⟩ := h.restore_snapshot bincode target hst
      simp only [transfer, hsnap, hrest]
      rw [ih (fun g hg => hgroups g (List.mem_cons_of_mem _ hg))]
      congr 3
      funext g
      rw [set_groups]
      by_cases hg : g = group
      · simp [hg, hst]
      · simp [hg]

/-- The groups with a state are those of the log. -/
theorem run_groups (fsm : MatchFsm GroupId B A) (log : List (LogEntry GroupId)) (g : GroupId) :
    (Log.run step fsm log).2.groups g ≠ none ↔
      g ∈ log.map LogEntry.group ∨ fsm.groups g ≠ none := by
  induction log generalizing fsm with
  | nil => simp [Log.run]
  | cons entry log ih =>
      rw [Log.run, ih, step_groups, List.map_cons, List.mem_cons]
      by_cases hg : g = entry.group
      · simp [hg]
      · simp [hg]

/-! ## Repeated keys -/

/-- The group has applied the key. -/
def Seen (fsm : MatchFsm GroupId B A) (k : GroupId × UInt64) : Prop :=
  ∃ st, fsm.groups k.1 = some st ∧ k.2 ∈ st.idem

theorem Seen.step_eq {fsm : MatchFsm GroupId B A} {entry : LogEntry GroupId}
    (h : fsm.Seen entry.key) : fsm.step entry = ([], fsm) := by
  obtain ⟨st, hst, hmem⟩ := h
  have hget : (fsm.groups entry.group).getD MatchState.default = st := by
    rw [show fsm.groups entry.group = some st from hst, Option.getD_some]
  have hset : fsm.set entry.group st = fsm := by
    rw [set, ← show fsm.groups entry.group = some st from hst, Function.update_eq_self]
  have hadv : st.advance entry.cmd entry.idem = ([], st) := MatchState.advance_of_mem hmem _
  simp only [step, hget, hadv, hset]

theorem seen_step (fsm : MatchFsm GroupId B A) (entry : LogEntry GroupId)
    (k : GroupId × UInt64) :
    (fsm.step entry).2.Seen k ↔ k = entry.key ∨ fsm.Seen k := by
  obtain ⟨g, idem⟩ := k
  simp only [Seen, step_groups, LogEntry.key, Prod.mk.injEq]
  by_cases hg : g = entry.group
  · subst hg
    cases hst : fsm.groups entry.group with
    | none => simp [MatchState.advance_idem, MatchState.default]
    | some st => simp [MatchState.advance_idem]
  · simp [hg]

/-- The keys a replica has seen are those of the log. -/
theorem seen_run (fsm : MatchFsm GroupId B A) (log : List (LogEntry GroupId))
    (k : GroupId × UInt64) :
    (Log.run step fsm log).2.Seen k ↔ k ∈ log.map LogEntry.key ∨ fsm.Seen k := by
  induction log generalizing fsm with
  | nil => simp [Log.run]
  | cons entry log ih =>
      rw [Log.run, ih, seen_step, List.map_cons, List.mem_cons]
      tauto

omit [LevelIndex B] [LevelIndex A] [DecidableEq GroupId] in
theorem not_seen_new (k : GroupId × UInt64) : ¬ (new : MatchFsm GroupId B A).Seen k :=
  fun ⟨_, h, _⟩ => nomatch h

theorem run_keepFirst (log : List (LogEntry GroupId)) :
    Log.run step (new : MatchFsm GroupId B A) (Log.keepFirst LogEntry.key [] log) =
      (Log.keepFirst (fun x => x.1.key) [] (Log.run step (new : MatchFsm GroupId B A) log).1,
        (Log.run step (new : MatchFsm GroupId B A) log).2) :=
  Log.run_keepFirst step (S := Seen) (fun _ _ h => by rw [h.step_eq])
    (fun fsm entry k _ => seen_step fsm entry k)
    (fun k => iff_of_false List.not_mem_nil (not_seen_new k)) log

/-! ## Groups -/

theorem run_group (log : List (LogEntry GroupId)) (g : GroupId) :
    (Log.run step (new : MatchFsm GroupId B A) (log.filter fun e => e.group = g)).1 =
        (Log.run step (new : MatchFsm GroupId B A) log).1.filter (fun x => x.1.group = g) ∧
      (Log.run step (new : MatchFsm GroupId B A) log).2.groups g =
        (Log.run step (new : MatchFsm GroupId B A)
          (log.filter fun e => e.group = g)).2.groups g := by
  refine Log.run_filter step (R := fun s t => s.groups g = t.groups g) ?_ ?_ rfl log
  · intro s t entry hother h
    rw [step_groups, if_neg (fun hg => by simp [hg] at hother), h]
  · intro s t entry hown h
    have hg : entry.group = g := by simpa using hown
    subst hg
    exact ⟨by simp only [step, h], by simp only [step_groups, h]⟩

end MatchFsm

/-! ## Agreement -/

/-- Every replica of a log is as good as any other.

* Restoring the snapshots of all groups after any part of the log and applying the rest
  gives the effects and the summaries of applying the whole log.
* A key that its group has applied returns no effects and changes nothing.
* The first entries of the keys alone give the same effects and the same state.
* The entries of one group alone give their effects and the state of the group. -/
theorem replicas_agree [ToString GroupId] (bincode : Bincode)
    (log more : List (LogEntry GroupId)) (groups : List GroupId)
    (hgroups : ∀ g, g ∈ groups ↔ g ∈ log.map LogEntry.group) :
    ∃ (done later : List (LogEntry GroupId × List UInt8))
      (replica final : MatchFsm GroupId B A),
      MatchFsm.new.applyLog log = some (done, replica) ∧
      MatchFsm.new.applyLog (log ++ more) = some (done ++ later, final) ∧
      (∃ restored final', replica.transfer bincode groups MatchFsm.new = some (.ok restored) ∧
        restored.applyLog more = some (later, final') ∧
        ∀ g, restored.summary g = replica.summary g ∧ final'.summary g = final.summary g) ∧
      (∀ entry : LogEntry GroupId, entry.key ∈ log.map LogEntry.key →
        replica.apply entry.group entry.index entry.data = some ([], replica)) ∧
      MatchFsm.new.applyLog (Log.keepFirst LogEntry.key [] log) =
        some (Log.keepFirst (fun x => x.1.key) [] done, replica) ∧
      (∀ g, ∃ alone : MatchFsm GroupId B A,
        MatchFsm.new.applyLog (log.filter fun e => e.group = g) =
          some (done.filter (fun x => x.1.group = g), alone) ∧
        alone.groups g = replica.groups g ∧ alone.summary g = replica.summary g) := by
  let start : MatchFsm GroupId B A := MatchFsm.new
  have hrestored : (Log.run MatchFsm.step start log).2.transfer bincode groups start =
      some (.ok (Log.run MatchFsm.step start log).2) := by
    have hsome : ∀ g, g ∈ groups ↔ (Log.run MatchFsm.step start log).2.groups g ≠ none := by
      intro g
      rw [hgroups, MatchFsm.run_groups]
      exact (or_iff_left (not_not.mpr rfl)).symm
    rw [(MatchFsm.replays_run log).transfer_eq bincode (fun g hg => (hsome g).mp hg)]
    congr 3
    funext g
    split
    next => rfl
    next hg => exact (not_not.mp (mt (hsome g).mpr hg)).symm
  refine ⟨_, _, _, _, MatchFsm.applyLog_eq start log, ?_,
    ⟨_, _, hrestored, MatchFsm.applyLog_eq _ more, fun g => ⟨rfl, rfl⟩⟩, ?_, ?_, ?_⟩
  · rw [MatchFsm.applyLog_eq, Log.run_append]
  · intro entry hkey
    have hseen := (MatchFsm.seen_run start log entry.key).mpr (Or.inl hkey)
    rw [MatchFsm.apply_data, hseen.step_eq]
  · rw [MatchFsm.applyLog_eq, MatchFsm.run_keepFirst]
  · intro g
    obtain ⟨hout, hstate⟩ := MatchFsm.run_group (B := B) (A := A) log g
    refine ⟨_, (MatchFsm.applyLog_eq _ _).trans (congrArg some (Prod.ext hout rfl)),
      hstate.symm, ?_⟩
    rw [MatchFsm.summary, MatchFsm.summary, hstate]

/-! ## A snapshot in bytes -/

/-- The keys of a snapshot in ascending order, one of the orders a hash set may have. -/
def sortedKeys (idem : Finset UInt64) : List ℕ := (idem.image UInt64.toNat).sort (· ≤ ·)

/-- The layout of a snapshot: each length in eight bytes, the lowest one first, then the
commands, and the keys in eight bytes each. -/
def bincodeLayout (x : List UInt8 × Finset UInt64) : List UInt8 :=
  Bytes.le 8 x.1.length ++ (x.1 ++
    (Bytes.le 8 x.2.card ++ (sortedKeys x.2).flatMap (Bytes.le 8)))

/-- Read some keys of eight bytes. -/
def readKeys : Nat → List UInt8 → List UInt64
  | 0, _ => []
  | n + 1, bytes => UInt64.ofNat (Bytes.leValue (bytes.take 8)) :: readKeys n (bytes.drop 8)

/-- Read a snapshot in this layout. -/
def readBincode (bytes : List UInt8) : List UInt8 × Finset UInt64 :=
  let n := Bytes.leValue (bytes.take 8)
  let rest := (bytes.drop 8).drop n
  ((bytes.drop 8).take n, (readKeys (Bytes.leValue (rest.take 8)) (rest.drop 8)).toFinset)

theorem take_drop_le (n : Nat) (rest : List UInt8) :
    (Bytes.le 8 n ++ rest).take 8 = Bytes.le 8 n ∧ (Bytes.le 8 n ++ rest).drop 8 = rest :=
  ⟨List.take_left' (Bytes.length_le 8 n), List.drop_left' (Bytes.length_le 8 n)⟩

theorem readKeys_flatMap {keys : List ℕ} (h : ∀ k ∈ keys, k < 2 ^ 64) :
    readKeys keys.length (keys.flatMap (Bytes.le 8)) = keys.map UInt64.ofNat := by
  induction keys with
  | nil => rfl
  | cons k keys ih =>
      obtain ⟨htake, hdrop⟩ := take_drop_le k (keys.flatMap (Bytes.le 8))
      rw [List.flatMap_cons, List.length_cons, readKeys, htake, hdrop,
        Bytes.leValue_le_of_lt (h k List.mem_cons_self),
        ih fun k' hk' => h k' (List.mem_cons_of_mem _ hk'), List.map_cons]

theorem sortedKeys_spec (idem : Finset UInt64) : (sortedKeys idem).length = idem.card ∧
    (∀ k ∈ sortedKeys idem, k < 2 ^ 64) ∧
    ((sortedKeys idem).map UInt64.ofNat).toFinset = idem := by
  refine ⟨?_, fun k hk => ?_, ?_⟩
  · rw [sortedKeys, Finset.length_sort,
      Finset.card_image_of_injective _ fun _ _ => UInt64.toNat_inj.mp]
  · obtain ⟨key, -, rfl⟩ := Finset.mem_image.mp ((Finset.mem_sort _).mp hk)
    exact key.toNat_lt
  · ext key
    simp [sortedKeys]

/-- Both lengths fit into their eight bytes. -/
def SnapshotFits (x : List UInt8 × Finset UInt64) : Prop :=
  x.1.length < 2 ^ 64 ∧ x.2.card < 2 ^ 64

instance decidableSnapshotFits (x : List UInt8 × Finset UInt64) : Decidable (SnapshotFits x) :=
  inferInstanceAs (Decidable (_ ∧ _))

theorem readBincode_layout {x : List UInt8 × Finset UInt64} (h : SnapshotFits x) :
    readBincode (bincodeLayout x) = x := by
  obtain ⟨hlen, hlt, hkeys⟩ := sortedKeys_spec x.2
  obtain ⟨htake, hdrop⟩ := take_drop_le x.1.length
    (x.1 ++ (Bytes.le 8 x.2.card ++ (sortedKeys x.2).flatMap (Bytes.le 8)))
  obtain ⟨htake', hdrop'⟩ := take_drop_le x.2.card ((sortedKeys x.2).flatMap (Bytes.le 8))
  simp only [readBincode, bincodeLayout, htake, hdrop, Bytes.leValue_le_of_lt (n := 8) h.1,
    List.take_left, List.drop_left, htake', hdrop', Bytes.leValue_le_of_lt (n := 8) h.2]
  rw [← hlen, readKeys_flatMap hlt, hkeys]

/-- Zeros are read as a snapshot of nothing. -/
theorem readBincode_zeros (n : Nat) : readBincode (List.replicate (17 + n) 0) = ([], ∅) := by
  have hmin : min 8 (17 + n) = 8 := by omega
  have hmin' : min 8 (17 + n - 8) = 8 := by omega
  have hzero : Bytes.leValue (List.replicate 8 0) = 0 := by decide
  simp only [readBincode, List.take_replicate, List.drop_replicate, hmin, hmin', hzero,
    Nat.sub_zero, List.replicate_zero, Nat.zero_min]
  rfl

instance encodableByte : Encodable UInt8 :=
  Encodable.ofLeftInverse UInt8.toNat UInt8.ofNat fun _ => by simp

instance encodableKey : Encodable UInt64 :=
  Encodable.ofLeftInverse UInt64.toNat UInt64.ofNat fun _ => by simp

/-- The layout of bincode.  Snapshots too large for it, which no memory holds, are written as a
number of zeros. -/
def bincodeDefault : Bincode where
  serialize x :=
    .ok (if SnapshotFits x then bincodeLayout x else List.replicate (17 + Encodable.encode x) 0)
  deserialize bytes :=
    if bincodeLayout (readBincode bytes) = bytes then .ok (readBincode bytes)
    else
      match Encodable.decode (bytes.length - 17) with
      | none => .error "no snapshot"
      | some x => .ok x
  round_trip x := by
    refine ⟨_, rfl, ?_⟩
    split
    next hfits =>
      rw [readBincode_layout hfits, if_pos rfl]
    next =>
      rw [readBincode_zeros, if_neg, List.length_replicate, Nat.add_sub_cancel_left,
        Encodable.encodek]
      intro heq
      have hlen := congrArg List.length heq
      simp [bincodeLayout, sortedKeys] at hlen
      omega

/-- Two groups get a sell order, and the first one gets its request twice. -/
def twoGroups : List (LogEntry Nat) :=
  [⟨0, 1, .limit .sell 100 5 0 1, 7⟩, ⟨1, 2, .limit .sell 200 5 0 1, 7⟩,
    ⟨0, 3, .limit .sell 100 5 0 1, 7⟩]

/-- A restored replica fills the order that was sent before its snapshot. -/
theorem replicas_agree_two :
    ∃ restored final : MatchFsm Nat BTreeBidIndex BTreeAskIndex, ∃ later,
      ((MatchFsm.new.applyLog twoGroups).map fun r =>
        r.2.transfer bincodeDefault [0, 1] MatchFsm.new) = some (some (.ok restored)) ∧
      restored.applyLog [⟨0, 4, .limit .buy 100 3 0 2, 8⟩] = some (later, final) ∧
      final.summary 0 = some ⟨2, 1, 0, none, some 100, 1⟩ ∧
      final.summary 1 = some ⟨1, 0, 0, none, some 200, 1⟩ := by
  obtain ⟨done, later, replica, final, hlog, hall, ⟨restored, final', htransfer, hmore, hsum⟩, -⟩ :=
    replicas_agree (B := BTreeBidIndex) (A := BTreeAskIndex) bincodeDefault twoGroups
      [⟨0, 4, .limit .buy 100 3 0 2, 8⟩] [0, 1]
      (by intro g; simp [twoGroups]; tauto)
  have hfinal : ∀ g, ((MatchFsm.new : MatchFsm Nat BTreeBidIndex BTreeAskIndex).applyLog
      (twoGroups ++ [⟨0, 4, .limit .buy 100 3 0 2, 8⟩])).bind (fun r => r.2.summary g) =
      final'.summary g := by
    intro g
    rw [hall, Option.bind_some, (hsum g).2]
  refine ⟨restored, final', later, ?_, hmore, ?_, ?_⟩
  · rw [hlog, Option.map_some, htransfer]
  · rw [← hfinal]
    decide +kernel
  · rw [← hfinal]
    decide +kernel

end MatchRaftFsm
