import MatchRust.Lib.Bytes
import MatchRust.Lib.Runs
import MatchRust.Lib.Storage

/-!
# The journal

A journal is a file of a fixed size that is mapped into memory.  A record is its
length in four bytes and then its payload, and records follow each other from
position 8 on.  The first 8 bytes hold the committed cursor, the position up to
which the records are to be read after a crash.

`append` and `appendBatch` copy records behind the cursor and advance it.  `commit`
waits until the records are on the disk, writes the header and waits for that.  A
length of four bytes loses its high part if the payload has 4 GiB or more.

A journal in use is a `World`: what the process sees, what the disk has, and where
the running call stands.  A call copies its bytes one by one, in any order, and bytes
reach the disk at any time between two steps.  Only the header reaches it as a whole.
The world also keeps what was accepted and what the last commit promised.
-/

namespace MatchCoreHp

open Storage

/-! ## The file -/

/-- The length of the file header. -/
def headerLen : Nat := 8

/-- A journal that is mapped into memory. -/
structure MmapJournal where
  /-- The bytes of the file, as the process sees them. -/
  map : Image
  /-- The size of the file. -/
  cap : Nat
  /-- The position behind the last record. -/
  cursor : Nat

/-- A payload behind its length. -/
def recordBytes (payload : List UInt8) : List UInt8 := Bytes.le 4 payload.length ++ payload

namespace MmapJournal

/-- A new file, all zeros. -/
def create (capacity : Nat) : MmapJournal where
  map := fun _ => 0
  cap := capacity
  cursor := headerLen

/-- An existing file, opened to be read. -/
def openExisting (file : Image) (capacity : Nat) : MmapJournal where
  map := file
  cap := capacity
  cursor := capacity

/-- Append a record.  Returns where it starts, or nothing if it does not fit. -/
def append (j : MmapJournal) (payload : List UInt8) : Option Nat × MmapJournal :=
  let total := payload.length + 4
  if j.cap < j.cursor + total then (none, j)
  else (some j.cursor,
    { j with map := put j.map j.cursor (recordBytes payload), cursor := j.cursor + total })

/-- Append records up to the first that does not fit.  Returns the number of bytes
written. -/
def appendBatch (j : MmapJournal) : List (List UInt8) → Nat × MmapJournal
  | [] => (0, j)
  | payload :: records =>
      match j.append payload with
      | (none, _) => (0, j)
      | (some _, j) =>
          let r := j.appendBatch records
          (payload.length + 4 + r.1, r.2)

/-- The position up to which the records are committed. -/
def committedCursor (j : MmapJournal) : Nat :=
  max (Bytes.leValue (read j.map 0 headerLen)) headerLen

/-- The records from `off` on that end at `stop` or before, each with its position. -/
def readRecords (f : Image) (stop : Nat) : Nat → Nat → List (Nat × List UInt8)
  | 0, _ => []
  | fuel + 1, off =>
      if stop < off + 4 then []
      else
        let len := Bytes.leValue (read f off 4)
        if stop < off + 4 + len then []
        else (off, read f (off + 4) len) :: readRecords f stop fuel (off + 4 + len)

/-- The records of the file up to `stop`.  There are fewer than `stop`, as each has four
bytes or more. -/
def iterRecords (j : MmapJournal) (stop : Nat) : List (Nat × List UInt8) :=
  readRecords j.map stop stop headerLen

end MmapJournal

/-! ## A journal in use -/

/-- Where the running call stands. -/
inductive JournalCall where
  /-- No call runs. -/
  | idle
  /-- A record is copied.  `stores` are the bytes to come, each with its position, and
  `later` the records of the batch behind it. -/
  | copying (payload : List UInt8) (stores : List (UInt8 × Nat)) (later : List (List UInt8))
  /-- A commit waits for the records. -/
  | waitData
  /-- It writes the header next. -/
  | writeHeader
  /-- It waits for the header. -/
  | waitHeader
deriving DecidableEq

/-- The bytes that a call still has to copy, while it copies a record. -/
def JournalCall.toCopy : JournalCall → Option (List (UInt8 × Nat))
  | .copying _ stores _ => some stores
  | _ => none

/-- A journal, its disk, and the history of its calls. -/
structure JournalWorld where
  journal : MmapJournal
  /-- The bytes that a crash leaves. -/
  disk : Image
  call : JournalCall := .idle
  /-- The records that were accepted, each with its position. -/
  accepted : List (Nat × List UInt8) := []
  /-- Those that were accepted before the last commit that returned `Ok`. -/
  promised : List (Nat × List UInt8) := []

/-- What can happen next. -/
inductive JournalAct where
  /-- `append` is called. -/
  | append (payload : List UInt8)
  /-- `append_batch` is called. -/
  | appendBatch (records : List (List UInt8))
  /-- The running call copies one of the bytes to come. -/
  | store (k : Nat)
  /-- The running call has copied a record and advances the cursor. -/
  | advance
  /-- `msync` is called and returns. -/
  | msync (sync ok : Bool)
  /-- `commit` is called. -/
  | commit
  /-- The system call that a commit waits for returns. -/
  | synced (ok : Bool)
  /-- The running commit writes the header. -/
  | header
  /-- Bytes reach the disk. -/
  | persist (group : Nat → Bool)

namespace JournalWorld

/-- A journal from `MmapJournal::create`. -/
def create (capacity : Nat) : JournalWorld where
  journal := .create capacity
  disk := fun _ => 0

/-- The call goes on with the next record, if there is one and it fits. -/
def nextRecord (j : MmapJournal) : List (List UInt8) → JournalCall
  | [] => .idle
  | payload :: later =>
      if j.cap < j.cursor + (payload.length + 4) then .idle
      else .copying payload ((recordBytes payload).zipIdx j.cursor) later

/-- One step.  A step that is not possible changes nothing. -/
def act (page : Nat) (w : JournalWorld) : JournalAct → JournalWorld
  | .append payload => { w with call := nextRecord w.journal [payload] }
  | .appendBatch records => { w with call := nextRecord w.journal records }
  | .store k =>
      match w.call with
      | .copying payload stores later =>
          match stores[k]? with
          | some (b, i) =>
              { w with
                journal := { w.journal with map := Function.update w.journal.map i b }
                call := .copying payload (stores.eraseIdx k) later }
          | none => w
      | _ => w
  | .advance =>
      match w.call with
      | .copying payload _ later =>
          let j := { w.journal with cursor := w.journal.cursor + (payload.length + 4) }
          { w with
            journal := j
            call := nextRecord j later
            accepted := w.accepted ++ [(w.journal.cursor, payload)] }
      | _ => w
  | .msync sync ok =>
      if sync && ok then
        { w with disk := Storage.sync w.journal.map w.disk w.journal.cursor }
      else w
  | .commit => { w with call := if headerLen < w.journal.cursor then .waitData else .writeHeader }
  | .synced ok =>
      match w.call with
      | .waitData =>
          if ok then
            { w with
              disk := Storage.sync w.journal.map w.disk w.journal.cursor
              call := .writeHeader }
          else { w with call := .idle }
      | .waitHeader =>
          if ok then
            { w with
              disk := Storage.sync w.journal.map w.disk page
              call := .idle
              promised := w.accepted }
          else { w with call := .idle }
      | _ => w
  | .header =>
      { w with
        journal := { w.journal with map := put w.journal.map 0 (Bytes.le 8 w.journal.cursor) }
        call := .waitHeader }
  | .persist group => { w with disk := Storage.persist w.journal.map w.disk group }

/-- When a step is possible.  A call is made when no other runs, with payloads below
4 GiB, and the header reaches the disk as a whole. -/
def Allowed (w : JournalWorld) : JournalAct → Prop
  | .append payload => w.call = .idle ∧ payload.length < 2 ^ 32
  | .appendBatch records => w.call = .idle ∧ ∀ payload ∈ records, payload.length < 2 ^ 32
  | .store k => ∃ stores ∈ w.call.toCopy, k < stores.length
  | .advance => w.call.toCopy = some []
  | .msync _ _ => w.call = .idle
  | .commit => w.call = .idle
  | .synced _ => w.call = .waitData ∨ w.call = .waitHeader
  | .header => w.call = .writeHeader
  | .persist group => ∀ i < headerLen, group i = group 0

instance decidableAllowed (w : JournalWorld) : ∀ a, Decidable (w.Allowed a)
  | .append payload => inferInstanceAs (Decidable (w.call = .idle ∧ payload.length < 2 ^ 32))
  | .appendBatch records => inferInstanceAs
      (Decidable (w.call = .idle ∧ ∀ payload ∈ records, payload.length < 2 ^ 32))
  | .store k => inferInstanceAs (Decidable (∃ stores ∈ w.call.toCopy, k < stores.length))
  | .advance => inferInstanceAs (Decidable (w.call.toCopy = some []))
  | .msync _ _ => inferInstanceAs (Decidable (w.call = .idle))
  | .commit => inferInstanceAs (Decidable (w.call = .idle))
  | .synced _ => inferInstanceAs (Decidable (w.call = .waitData ∨ w.call = .waitHeader))
  | .header => inferInstanceAs (Decidable (w.call = .writeHeader))
  | .persist group => inferInstanceAs (Decidable (∀ i < headerLen, group i = group 0))

/-- The journal as it is opened after a crash. -/
def reopened (w : JournalWorld) : MmapJournal := .openExisting w.disk w.journal.cap

/-! ## Calls from begin to end -/

section Calls

variable (page : Nat) {w : JournalWorld}

/-- The steps that copy a record in the order of its bytes. -/
def recordSteps (payload : List UInt8) : List JournalAct :=
  List.replicate (recordBytes payload).length (.store 0) ++ [.advance]

theorem copy_bytes {payload : List UInt8} {later : List (List UInt8)} (bytes : List UInt8) :
    ∀ {w : JournalWorld} {i : Nat}, w.call = .copying payload (bytes.zipIdx i) later →
      Runs.AllAllowed (act page) Allowed w (List.replicate bytes.length (.store 0)) ∧
      (List.replicate bytes.length (.store 0)).foldl (act page) w =
        { w with
          journal := { w.journal with map := put w.journal.map i bytes }
          call := .copying payload [] later } := by
  induction bytes with
  | nil =>
      intro w i hw
      refine ⟨trivial, ?_⟩
      rw [List.zipIdx_nil] at hw
      simp only [List.length_nil, List.replicate_zero, List.foldl_nil, put_nil, ← hw]
  | cons b bytes ih =>
      intro w i hw
      have hstep : w.act page (.store 0) =
          { w with
            journal := { w.journal with map := Function.update w.journal.map i b }
            call := .copying payload (bytes.zipIdx (i + 1)) later } := by
        simp [act, hw, List.zipIdx_cons]
      have hih := ih (w := w.act page (.store 0)) (i := i + 1) (by rw [hstep])
      refine ⟨⟨⟨_, by rw [hw]; rfl, by simp⟩, hih.1⟩, ?_⟩
      rw [List.length_cons, List.replicate_succ, List.foldl_cons, hih.2, hstep, put_cons]

/-- A record that fits is copied and accepted, and the call goes on with the next one. -/
theorem copy_record {payload : List UInt8} {later : List (List UInt8)} {off : Nat}
    {j : MmapJournal} (hw : w.call = nextRecord w.journal (payload :: later))
    (hfits : w.journal.append payload = (some off, j)) :
    Runs.AllAllowed (act page) Allowed w (recordSteps payload) ∧
      (recordSteps payload).foldl (act page) w =
        { w with
          journal := j
          call := nextRecord j later
          accepted := w.accepted ++ [(off, payload)] } := by
  rw [MmapJournal.append] at hfits
  split at hfits
  next => cases hfits
  next hroom =>
    cases hfits
    rw [nextRecord, if_neg hroom] at hw
    obtain ⟨hall, hcopy⟩ := copy_bytes page _ hw
    refine ⟨Runs.allAllowed_append.mpr ⟨hall, ?_, trivial⟩, ?_⟩
    · rw [hcopy]
      rfl
    · rw [recordSteps, List.foldl_append, hcopy]
      rfl

theorem nextRecord_full {payload : List UInt8} {later : List (List UInt8)} {j j' : MmapJournal}
    (h : j.append payload = (none, j')) : nextRecord j (payload :: later) = .idle := by
  rw [MmapJournal.append] at h
  split at h
  next hfull => exact if_pos hfull
  next => cases h

/-- A call of `append` can run to its end.  Then it has done what `append` does, and has
accepted the record at the position that `append` returns. -/
theorem append_completes (hidle : w.call = .idle) {payload : List UInt8}
    (hsmall : payload.length < 2 ^ 32) :
    ∃ as, Runs.AllAllowed (act page) Allowed w (.append payload :: as) ∧
      (JournalAct.append payload :: as).foldl (act page) w =
        { w with
          journal := (w.journal.append payload).2
          accepted := w.accepted ++ (w.journal.append payload).1.toList.map (·, payload) } := by
  cases hr : w.journal.append payload with
  | mk off j =>
      cases off with
      | none =>
          have hj : j = w.journal := by
            rw [MmapJournal.append] at hr
            split at hr
            next => exact (Prod.ext_iff.mp hr).2.symm
            next => cases hr
          refine ⟨[], ⟨⟨hidle, hsmall⟩, trivial⟩, ?_⟩
          simp [act, nextRecord_full hr, hj, ← hidle]
      | some off =>
          obtain ⟨hall, hrun⟩ := copy_record page
            (w := { w with call := nextRecord w.journal [payload] }) rfl hr
          refine ⟨recordSteps payload, ⟨⟨hidle, hsmall⟩, hall⟩, ?_⟩
          rw [List.foldl_cons, act, hrun]
          simp [nextRecord, hidle]

/-- So can a call of `append_batch`. -/
theorem appendBatch_completes (hidle : w.call = .idle) {records : List (List UInt8)}
    (hsmall : ∀ payload ∈ records, payload.length < 2 ^ 32) :
    ∃ as, Runs.AllAllowed (act page) Allowed w (.appendBatch records :: as) ∧
      ∃ recs, (JournalAct.appendBatch records :: as).foldl (act page) w =
        { w with
          journal := (w.journal.appendBatch records).2
          accepted := w.accepted ++ recs } := by
  suffices hrest : ∀ (records : List (List UInt8)) {w : JournalWorld},
      w.call = nextRecord w.journal records →
      ∃ as, Runs.AllAllowed (act page) Allowed w as ∧ ∃ recs, as.foldl (act page) w =
        { w with
          journal := (w.journal.appendBatch records).2
          call := .idle
          accepted := w.accepted ++ recs } by
    obtain ⟨as, hall, recs, hrun⟩ :=
      hrest records (w := { w with call := nextRecord w.journal records }) rfl
    refine ⟨as, ⟨⟨hidle, hsmall⟩, hall⟩, recs, ?_⟩
    rw [List.foldl_cons, act, hrun, ← hidle]
  intro records
  induction records with
  | nil =>
      intro w hw
      refine ⟨[], trivial, [], ?_⟩
      simp only [nextRecord] at hw
      simp [MmapJournal.appendBatch, ← hw]
  | cons payload later ih =>
      intro w hw
      cases hr : w.journal.append payload with
      | mk off j =>
          cases off with
          | none =>
              rw [nextRecord_full hr] at hw
              refine ⟨[], trivial, [], ?_⟩
              simp [MmapJournal.appendBatch, hr, ← hw]
          | some off =>
              obtain ⟨hall, hrun⟩ := copy_record page hw hr
              obtain ⟨as, hall', recs, hrun'⟩ := ih
                (w := (recordSteps payload).foldl (act page) w) (by rw [hrun])
              refine ⟨recordSteps payload ++ as, Runs.allAllowed_append.mpr ⟨hall, hall'⟩,
                (off, payload) :: recs, ?_⟩
              rw [List.foldl_append, hrun', hrun]
              simp [MmapJournal.appendBatch, hr]

end Calls

end JournalWorld

end MatchCoreHp
