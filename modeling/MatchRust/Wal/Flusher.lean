import MatchRust.Lib.Bytes
import MatchRust.Lib.Runs

/-!
# The write-ahead log

Threads append records to a queue of a bounded size, and a flusher thread takes them out
and writes them to a file.  It collects encodings in a buffer and writes the buffer when
it has 32 KiB, when a message asks for it, when it had to wait for the next message, and
at the end.

A call is cut where it waits or touches what other threads see.  `append` in `Async`
mode is one step: the record is accepted, or the queue is full.  In `Sync` mode the record
is sent first, then a `Flush` message with a channel for the answer, and then the answer is
awaited.  `flush` sends the message only.  A send waits for room in the queue.

The flusher is cut at its calls of the file system, which may fail.  `last_write` only
decides when a wait times out, and here a wait may time out at any time.
-/

namespace MatchWal

/-! ## Records -/

/-- Durability mode. -/
inductive WalMode where
  /-- `append` returns when the record is queued. -/
  | async
  /-- `append` returns when the record is written. -/
  | sync
deriving DecidableEq

/-- What a record is about. -/
inductive RecordKind where
  | orderAccepted
  | fill
  | cancel
deriving DecidableEq

/-- The code of a kind. -/
def RecordKind.code : RecordKind → Nat
  | .orderAccepted => 1
  | .fill => 2
  | .cancel => 3

/-- A record of the log. -/
structure WalRecord where
  kind : RecordKind
  idA : UInt64
  idB : UInt64
  priceTick : Int64
  qtyLot : Int64
deriving DecidableEq

/-- The 33 bytes of a record. -/
def WalRecord.encode (r : WalRecord) : List UInt8 :=
  UInt8.ofNat r.kind.code :: (Bytes.le 8 r.idA.toNat ++ (Bytes.le 8 r.idB.toNat ++
    (Bytes.leInt 8 r.priceTick.toInt ++ Bytes.leInt 8 r.qtyLot.toInt)))

/-- The bytes of a list of records. -/
def encodeAll (rs : List WalRecord) : List UInt8 := rs.flatMap WalRecord.encode

@[simp] theorem length_encode (r : WalRecord) : r.encode.length = 33 := by
  simp [WalRecord.encode]

@[simp] theorem encodeAll_nil : encodeAll [] = [] := rfl

@[simp] theorem encodeAll_append (rs rs' : List WalRecord) :
    encodeAll (rs ++ rs') = encodeAll rs ++ encodeAll rs' := List.flatMap_append

@[simp] theorem encodeAll_singleton (r : WalRecord) : encodeAll [r] = r.encode := by
  simp [encodeAll]

theorem encodeAll_cons (r : WalRecord) (rs : List WalRecord) :
    encodeAll (r :: rs) = r.encode ++ encodeAll rs := List.flatMap_cons

theorem code_injective {a b : RecordKind} (h : UInt8.ofNat a.code = UInt8.ofNat b.code) :
    a = b := by
  cases a <;> cases b <;> first | rfl | exact absurd h (by decide)

theorem le_toNat_injective {a b : UInt64} (h : Bytes.le 8 a.toNat = Bytes.le 8 b.toNat) :
    a = b := by
  have hv := congrArg Bytes.leValue h
  rw [Bytes.leValue_le_of_lt a.toNat_lt, Bytes.leValue_le_of_lt b.toNat_lt] at hv
  exact UInt64.toNat_inj.mp hv

theorem leInt_toInt_injective {a b : Int64}
    (h : Bytes.leInt 8 a.toInt = Bytes.leInt 8 b.toInt) : a = b := by
  have hv := congrArg Bytes.leIntValue h
  rw [Bytes.leIntValue_leInt, Bytes.leIntValue_leInt] at hv
  exact Int64.toInt_inj.mp (a.toInt_bmod.symm.trans (hv.trans b.toInt_bmod))

/-- Different records have different bytes. -/
theorem encode_injective {a b : WalRecord} (h : a.encode = b.encode) : a = b := by
  obtain ⟨hkind, h⟩ := List.cons.inj h
  obtain ⟨hidA, h⟩ := List.append_inj h (by simp)
  obtain ⟨hidB, h⟩ := List.append_inj h (by simp)
  obtain ⟨hprice, hqty⟩ := List.append_inj h (by simp)
  cases a
  cases b
  simp only [WalRecord.mk.injEq]
  exact ⟨code_injective hkind, le_toNat_injective hidA, le_toNat_injective hidB,
    leInt_toInt_injective hprice, leInt_toInt_injective hqty⟩

/-- Different lists of records have different bytes. -/
theorem encodeAll_injective {rs rs' : List WalRecord} (h : encodeAll rs = encodeAll rs') :
    rs = rs' := by
  induction rs generalizing rs' with
  | nil =>
      cases rs' with
      | nil => rfl
      | cons r rs' =>
          have hlen := congrArg List.length h
          simp [encodeAll_cons] at hlen
          omega
  | cons r rs ih =>
      cases rs' with
      | nil =>
          have hlen := congrArg List.length h
          simp [encodeAll_cons] at hlen
      | cons r' rs' =>
          rw [encodeAll_cons, encodeAll_cons] at h
          obtain ⟨hr, hrs⟩ := List.append_inj h (by simp)
          rw [encode_injective hr, ih hrs]

/-! ## The flusher -/

/-- A message to the flusher.  The channel for an answer is named by a number. -/
inductive Msg where
  | record (r : WalRecord)
  | flush (ack : Nat)
  | shutdown
deriving DecidableEq

/-- What a wait for a message gives. -/
inductive Received where
  | msg (m : Msg)
  | timeout
  /-- The sender is gone and the queue is empty. -/
  | disconnected

/-- What the flusher does when the buffer is written. -/
inductive After where
  /-- It waits for the next message. -/
  | resume
  /-- It answers first. -/
  | answer (ack : Nat)
  /-- It ends. -/
  | stop
deriving DecidableEq

/-- Where the flusher stands. -/
inductive Stage where
  /-- It waits for a message. -/
  | ready
  /-- It calls `write_all` next, -/
  | write (after : After)
  /-- then `flush`, -/
  | flush (after : After)
  /-- then `sync_all`. -/
  | sync (after : After)
  /-- `write_buf` has returned. -/
  | written (after : After) (ok : Bool)
  /-- The thread has ended. -/
  | stopped
deriving DecidableEq

/-- The flusher thread and its file. -/
structure Flusher where
  /-- The bytes of the file. -/
  file : List UInt8
  /-- Its bytes at the last `sync_all`, or when it was opened. -/
  synced : List UInt8
  /-- The encodings that are not written yet. -/
  buf : List UInt8 := []
  stage : Stage := .ready

namespace Flusher

/-- The flusher calls `write_buf`. -/
def writeBuf (f : Flusher) (after : After) : Flusher :=
  { f with stage := if f.buf = [] then .written after true else .write after }

/-- The size at which the buffer is written. -/
def batchBytes : Nat := 32 * 1024

/-- One round of the loop, up to the call of `write_buf`. -/
def onReceived (f : Flusher) : Received → Flusher
  | .timeout => f.writeBuf .resume
  | .disconnected => f.writeBuf .stop
  | .msg (.record r) =>
      let f := { f with buf := f.buf ++ r.encode }
      if batchBytes ≤ f.buf.length then f.writeBuf .resume else f
  | .msg (.flush ack) => f.writeBuf (.answer ack)
  | .msg .shutdown => f.writeBuf .stop

/-- `write_all` returns.  If it fails, a part of the buffer may have been written. -/
def writeAll (f : Flusher) (failedAfter : Option Nat) : Flusher :=
  match f.stage with
  | .write after =>
      match failedAfter with
      | none => { f with file := f.file ++ f.buf, stage := .flush after }
      | some n => { f with file := f.file ++ f.buf.take n, stage := .written after false }
  | _ => f

/-- `flush` returns. -/
def flushFile (f : Flusher) (ok : Bool) : Flusher :=
  match f.stage with
  | .flush after => { f with stage := if ok then .sync after else .written after false }
  | _ => f

/-- `sync_all` returns.  The buffer is only cleared if it succeeds. -/
def syncAll (f : Flusher) (ok : Bool) : Flusher :=
  match f.stage with
  | .sync after =>
      if ok then { f with synced := f.file, buf := [], stage := .written after true }
      else { f with stage := .written after false }
  | _ => f

end Flusher

/-! ## Threads -/

/-- Where a thread stands. -/
inductive Call where
  | idle
  /-- In `append`, about to send the record. -/
  | sendRecord (r : WalRecord)
  /-- In `append` or `flush`, about to send the `Flush` message. -/
  | sendFlush (own : Option WalRecord)
  /-- Waiting for the answer. -/
  | waiting (ack : Nat) (own : Option WalRecord)
deriving DecidableEq

/-- What has become of the handle. -/
inductive Handle where
  | live
  /-- `drop` is about to send `Shutdown`. -/
  | closing
  /-- It waits for the flusher to end. -/
  | joining
  /-- The sender was dropped without `Shutdown`. -/
  | gone
deriving DecidableEq

/-- A call of `flush`, or of `append` in `Sync` mode, that returned `Ok`. -/
structure Return where
  /-- The record of an `append`. -/
  own : Option WalRecord
  /-- The records accepted when its `Flush` message was. -/
  before : List WalRecord
  /-- What was synced when it returned. -/
  synced : List UInt8

/-- The log and the threads that use it. -/
structure World (Tid : Type) where
  mode : WalMode
  /-- The size of the queue. -/
  cap : Nat
  flusher : Flusher
  chan : List Msg := []
  /-- The answers that were sent. -/
  acks : Nat → Option Bool := fun _ => none
  handle : Handle := .live
  calls : Tid → Call := fun _ => .idle
  /-- The records accepted into the queue, in this order. -/
  accepted : List WalRecord := []
  /-- For each `Flush` message, the records accepted before it. -/
  asked : List (List WalRecord) := []
  returns : List Return := []

/-- What can happen next. -/
inductive Act (Tid : Type) where
  /-- A thread calls `append`. -/
  | append (t : Tid) (r : WalRecord)
  /-- A thread calls `flush`. -/
  | flush (t : Tid)
  /-- A send of a thread goes through. -/
  | send (t : Tid)
  /-- The answer reaches a thread and its call returns. -/
  | done (t : Tid)
  /-- The handle is dropped, and without `Shutdown` in some tests. -/
  | drop (skipShutdown : Bool)
  /-- `drop` sends `Shutdown`. -/
  | sendShutdown
  /-- The flusher takes a message. -/
  | recv
  /-- Its wait times out. -/
  | timeout
  /-- It finds the sender gone. -/
  | disconnected
  /-- `write_all` returns. -/
  | writeAll (failedAfter : Option Nat)
  /-- `flush` of the file returns. -/
  | flushFile (ok : Bool)
  /-- `sync_all` returns. -/
  | syncAll (ok : Bool)
  /-- The flusher goes on after `write_buf`. -/
  | goOn

namespace World

variable {Tid : Type} [DecidableEq Tid]

/-- The log as `open` makes it, on a file with these bytes. -/
def new (mode : WalMode) (queueCap : Nat) (existing : List UInt8) : World Tid where
  mode := mode
  cap := max queueCap 1
  flusher := { file := existing, synced := existing }

/-- A thread gets to another place. -/
def setCall (w : World Tid) (t : Tid) (c : Call) : World Tid :=
  { w with calls := Function.update w.calls t c }

/-- A record is accepted into the queue. -/
def accept (w : World Tid) (r : WalRecord) : World Tid :=
  { w with chan := w.chan ++ [.record r], accepted := w.accepted ++ [r] }

/-- A `Flush` message is accepted into the queue. -/
def ask (w : World Tid) : World Tid :=
  { w with chan := w.chan ++ [.flush w.asked.length], asked := w.asked ++ [w.accepted] }

/-- One step. -/
def act (w : World Tid) : Act Tid → World Tid
  | .append t r =>
      match w.mode with
      | .async => if w.chan.length < w.cap then w.accept r else w
      | .sync => w.setCall t (.sendRecord r)
  | .flush t => w.setCall t (.sendFlush none)
  | .send t =>
      match w.calls t with
      | .sendRecord r => (w.accept r).setCall t (.sendFlush (some r))
      | .sendFlush own => w.ask.setCall t (.waiting w.asked.length own)
      | _ => w
  | .done t =>
      match w.calls t with
      | .waiting ack own =>
          let w' := w.setCall t .idle
          if w.acks ack = some true then
            { w' with returns := w.returns ++ [⟨own, w.asked.getD ack [], w.flusher.synced⟩] }
          else w'
      | _ => w
  | .drop skipShutdown => { w with handle := if skipShutdown then .gone else .closing }
  | .sendShutdown => { w with chan := w.chan ++ [.shutdown], handle := .joining }
  | .recv =>
      match w.chan with
      | m :: chan => { w with chan := chan, flusher := w.flusher.onReceived (.msg m) }
      | [] => w
  | .timeout => { w with flusher := w.flusher.onReceived .timeout }
  | .disconnected => { w with flusher := w.flusher.onReceived .disconnected }
  | .writeAll failedAfter => { w with flusher := w.flusher.writeAll failedAfter }
  | .flushFile ok => { w with flusher := w.flusher.flushFile ok }
  | .syncAll ok => { w with flusher := w.flusher.syncAll ok }
  | .goOn =>
      match w.flusher.stage with
      | .written .resume _ => { w with flusher := { w.flusher with stage := .ready } }
      | .written (.answer ack) ok =>
          { w with
            flusher := { w.flusher with stage := .ready }
            acks := Function.update w.acks ack (some ok) }
      | .written .stop _ => { w with flusher := { w.flusher with stage := .stopped } }
      | _ => w

/-- A thread is about to send a message. -/
def Sending : Call → Prop
  | .sendRecord _ => True
  | .sendFlush _ => True
  | _ => False

/-- When a step is possible.  Threads have the handle while it is live, and it is dropped
when none of them uses it. -/
def Allowed (w : World Tid) : Act Tid → Prop
  | .append t _ => w.handle = .live ∧ w.calls t = .idle
  | .flush t => w.handle = .live ∧ w.calls t = .idle
  | .send t => Sending (w.calls t) ∧ w.chan.length < w.cap
  | .done t => ∃ ack own, w.calls t = .waiting ack own ∧ w.acks ack ≠ none
  | .drop _ => w.handle = .live ∧ ∀ t, w.calls t = .idle
  | .sendShutdown => w.handle = .closing ∧ w.chan.length < w.cap
  | .recv => w.flusher.stage = .ready ∧ w.chan ≠ []
  | .timeout => w.flusher.stage = .ready ∧ w.flusher.buf ≠ []
  | .disconnected => w.flusher.stage = .ready ∧ w.chan = [] ∧ w.handle = .gone
  | .writeAll _ => ∃ after, w.flusher.stage = .write after
  | .flushFile _ => ∃ after, w.flusher.stage = .flush after
  | .syncAll _ => ∃ after, w.flusher.stage = .sync after
  | .goOn => ∃ after ok, w.flusher.stage = .written after ok

end World

/-- The file system does what it is asked for. -/
def Act.Succeeds {Tid : Type} : Act Tid → Prop
  | .writeAll failedAfter => failedAfter = none
  | .flushFile ok => ok = true
  | .syncAll ok => ok = true
  | _ => True

end MatchWal
