import MatchRust.Wal.Fidelity

/-!
# What a failed write leaves

`write_buf` clears the buffer only when all of `write_all`, `flush` and `sync_all` succeeded.
After a failure the whole buffer is written again, behind whatever the failed call has put into
the file.  A `write_all` that wrote nothing does no harm.  Any other failure leaves bytes that
no later write takes back, and the file stays longer than the records it is to hold.
-/

namespace MatchWal

/-! ## The file in records -/

/-- Cut in pieces of 33 bytes, these bytes are one piece for each record and nothing else. -/
def Parses (bytes : List UInt8) (rs : List WalRecord) : Prop :=
  bytes.length = 33 * rs.length ∧
    ∀ i r, rs[i]? = some r → (bytes.drop (33 * i)).take 33 = r.encode

@[simp] theorem length_encodeAll (rs : List WalRecord) :
    (encodeAll rs).length = 33 * rs.length := by
  induction rs with
  | nil => rfl
  | cons r rs ih =>
      rw [encodeAll_cons, List.length_append, ih, length_encode, List.length_cons]
      omega

theorem parses_encodeAll (rs : List WalRecord) : Parses (encodeAll rs) rs := by
  refine ⟨length_encodeAll rs, ?_⟩
  induction rs with
  | nil =>
      intro i r hr
      cases hr
  | cons r rs ih =>
      intro i r' hr'
      rw [encodeAll_cons]
      cases i with
      | zero =>
          obtain rfl : r = r' := Option.some.inj hr'
          exact List.take_left' (length_encode r)
      | succ i =>
          have hdrop : (r.encode ++ encodeAll rs).drop (33 * (i + 1)) =
              (encodeAll rs).drop (33 * i) := by
            rw [Nat.mul_succ, Nat.add_comm, ← List.drop_drop, List.drop_left' (length_encode r)]
          rw [hdrop]
          exact ih i r' hr'

/-! ## Failures -/

/-- The step leaves nothing in the file that is written again. -/
def Act.Harmless {Tid : Type} : Act Tid → Prop
  | .writeAll failedAfter => failedAfter = none ∨ failedAfter = some 0
  | .flushFile ok => ok = true
  | .syncAll ok => ok = true
  | _ => True

namespace Flusher

/-- What is in the file and in the buffer as well. -/
def twice (f : Flusher) : List UInt8 :=
  match f.stage with
  | .flush _ => f.buf
  | .sync _ => f.buf
  | _ => []

/-- There is something in the buffer while it is written, and nothing when it was. -/
def BufKept (f : Flusher) : Prop :=
  match f.stage with
  | .write _ => f.buf ≠ []
  | .flush _ => f.buf ≠ []
  | .sync _ => f.buf ≠ []
  | .written _ true => f.buf = []
  | _ => True

/-- The file holds these bytes and what is written just now, or it is longer once a failure did
harm. -/
def FileHolds (f : Flusher) (clean : List UInt8) (harmed : Prop) : Prop :=
  (¬harmed ∧ f.file = clean ++ f.twice) ∨
    (harmed ∧ (clean ++ f.twice).length < f.file.length)

variable {f : Flusher} {clean : List UInt8} {harmed : Prop}

theorem FileHolds.le_length (h : f.FileHolds clean harmed) :
    (clean ++ f.twice).length ≤ f.file.length := by
  rcases h with ⟨-, hfile⟩ | ⟨-, hlt⟩
  · rw [hfile]
  · exact hlt.le

/-- The file is as it was. -/
theorem FileHolds.congr {g : Flusher} (h : f.FileHolds clean harmed) (hfile : g.file = f.file)
    {clean' : List UInt8} (hbytes : clean' ++ g.twice = clean ++ f.twice) :
    g.FileHolds clean' harmed := by
  unfold FileHolds
  rw [hbytes, hfile]
  exact h

theorem FileHolds.of_lt (h : clean.length + f.twice.length < f.file.length) :
    f.FileHolds clean True :=
  .inr ⟨trivial, by rwa [List.length_append]⟩

@[simp] theorem file_onReceived (x : Received) : (f.onReceived x).file = f.file := by
  rcases f.onReceived_cases x with h | ⟨-, h⟩
  · rw [h]
    rfl
  · rw [h]

theorem twice_writeBuf (f : Flusher) (after : After) : (f.writeBuf after).twice = [] := by
  by_cases hbuf : f.buf = []
  · simp [writeBuf, twice, hbuf]
  · simp [writeBuf, twice, hbuf]

theorem bufKept_writeBuf (f : Flusher) (after : After) : (f.writeBuf after).BufKept := by
  by_cases hbuf : f.buf = []
  · simp [writeBuf, BufKept, hbuf]
  · simp [writeBuf, BufKept, hbuf]

/-- A message that is taken brings the flusher to `write_buf`, or it waits for the next. -/
theorem twice_onReceived (hready : f.stage = .ready) (x : Received) :
    (f.onReceived x).twice = [] ∧ (f.onReceived x).BufKept := by
  rcases f.onReceived_cases x with h | ⟨-, h⟩
  · rw [h]
    exact ⟨twice_writeBuf .., bufKept_writeBuf ..⟩
  · simp [h, twice, BufKept, hready]

end Flusher

/-! ## The invariant -/

namespace World

variable {Tid : Type}

/-- What every step keeps of the buffer and the file. -/
structure Tracked (existing : List UInt8) (harmed : Prop) (w : World Tid) (clean : List UInt8) :
    Prop extends Marked existing w clean where
  buf : w.flusher.BufKept
  file : w.flusher.FileHolds clean harmed

variable {existing clean : List UInt8} {harmed : Prop} {w w' : World Tid}

theorem tracked_new (mode : WalMode) (queueCap : Nat) :
    (new mode queueCap existing : World Tid).Tracked existing False existing where
  toMarked := marked_new mode queueCap
  buf := trivial
  file := .inl ⟨id, (List.append_nil existing).symm⟩

namespace Tracked

/-- A step of the threads. -/
theorem thread (h : w.Tracked existing harmed clean) (hmarked : w'.Marked existing clean)
    (hflusher : w'.flusher = w.flusher) : w'.Tracked existing harmed clean :=
  ⟨hmarked, hflusher ▸ h.buf, hflusher ▸ h.file⟩

/-- A step of the flusher in `write_buf`. -/
theorem writing (h : w.Tracked existing harmed clean) {f : Flusher} {clean' : List UInt8}
    {harmed' : Prop} (hbytes : clean' ++ f.buf = clean ++ w.flusher.buf) (hbuf : f.BufKept)
    (hfile : f.FileHolds clean' harmed') (hafter : f.stage.after = w.flusher.stage.after) :
    ({ w with flusher := f } : World Tid).Tracked existing harmed' clean' :=
  ⟨h.toMarked.writing hbytes hafter, hbuf, hfile⟩

/-- The flusher waits for a message. -/
theorem received (h : w.Tracked existing harmed clean) (hready : w.flusher.stage = .ready)
    (x : Received) (hflusher : w'.flusher = w.flusher.onReceived x)
    (hmarked : w'.Marked existing clean) : w'.Tracked existing harmed clean := by
  obtain ⟨htwice, hbuf⟩ := Flusher.twice_onReceived hready x
  have hwaiting : w.flusher.twice = [] := by simp [Flusher.twice, hready]
  refine ⟨hmarked, hflusher ▸ hbuf, hflusher ▸ h.file.congr (by simp) ?_⟩
  rw [htwice, hwaiting]

theorem goOn [DecidableEq Tid] (h : w.Tracked existing harmed clean) {after : After} {ok : Bool}
    (hs : w.flusher.stage = .written after ok) :
    (w.act .goOn).Tracked existing harmed clean := by
  have hnext : ∀ stage : Stage, (∀ ack, stage.after ≠ .answer ack) →
      ({ w.flusher with stage := stage } : Flusher).twice = [] →
      ({ w.flusher with stage := stage } : Flusher).BufKept →
      ({ w with flusher := { w.flusher with stage := stage } } : World Tid).Tracked
        existing harmed clean := by
    intro stage hafter htwice hbuf
    refine ⟨h.toMarked.goOn hafter, hbuf, ?_⟩
    apply h.file.congr
    · rfl
    · have hwritten : w.flusher.twice = [] := by simp [Flusher.twice, hs]
      rw [hwritten]
      exact congrArg (clean ++ ·) htwice
  have hready := hnext .ready (fun _ hack => by cases hack) rfl trivial
  cases after with
  | resume =>
      simp only [act, hs]
      exact hready
  | answer ack =>
      simp only [act, hs]
      exact { hready with }
  | stop =>
      simp only [act, hs]
      exact hnext .stopped (fun _ hack => by cases hack) rfl trivial

/-! ## `write_buf` -/

/-- `write_all` fails with nothing written, or succeeds. -/
theorem writeAll (h : w.Tracked existing harmed clean) {after : After}
    (hs : w.flusher.stage = .write after) {failedAfter : Option Nat}
    (hok : failedAfter = none ∨ failedAfter = some 0) :
    ({ w with flusher := w.flusher.writeAll failedAfter } : World Tid).Tracked
      existing harmed clean := by
  have hbuf : w.flusher.buf ≠ [] := by simpa [Flusher.BufKept, hs] using h.buf
  have htwice : w.flusher.twice = [] := by simp [Flusher.twice, hs]
  have hfile := h.file
  simp only [Flusher.FileHolds, htwice, List.append_nil] at hfile
  rcases hok with rfl | rfl
  · simp only [Flusher.writeAll, hs]
    refine h.writing rfl hbuf ?_ (by rw [hs]; rfl)
    rcases hfile with ⟨hno, hfile⟩ | ⟨hyes, hlt⟩
    · exact .inl ⟨hno, by rw [hfile]; rfl⟩
    · refine .inr ⟨hyes, ?_⟩
      simpa [Flusher.twice] using hlt
  · simp only [Flusher.writeAll, hs]
    refine h.writing rfl trivial ?_ (by rw [hs]; rfl)
    simpa [Flusher.FileHolds, Flusher.twice] using hfile

theorem flushFile (h : w.Tracked existing harmed clean) {after : After}
    (hs : w.flusher.stage = .flush after) :
    ({ w with flusher := w.flusher.flushFile true } : World Tid).Tracked
      existing harmed clean := by
  have hbuf : w.flusher.buf ≠ [] := by simpa [Flusher.BufKept, hs] using h.buf
  simp only [Flusher.flushFile, hs, if_true]
  refine h.writing rfl hbuf ?_ (by rw [hs]; rfl)
  apply h.file.congr
  · rfl
  · simp [Flusher.twice, hs]

/-- `sync_all` succeeds, and what was in the buffer is in the file only. -/
theorem syncAll (h : w.Tracked existing harmed clean) {after : After}
    (hs : w.flusher.stage = .sync after) :
    ({ w with flusher := w.flusher.syncAll true } : World Tid).Tracked
      existing harmed (clean ++ w.flusher.buf) := by
  simp only [Flusher.syncAll, hs, if_true]
  refine h.writing (List.append_nil _) rfl ?_ (by rw [hs]; rfl)
  apply h.file.congr
  · rfl
  · simp [Flusher.twice, hs]

/-- `write_buf` fails and the file has more than `clean` in it. -/
theorem failed (h : w.Tracked existing harmed clean) {file : List UInt8} {after : After}
    (hlt : clean.length < file.length) (hafter : w.flusher.stage.after = after) :
    ({ w with flusher := { w.flusher with file := file, stage := .written after false } } :
      World Tid).Tracked existing True clean :=
  h.writing rfl trivial (.of_lt hlt) hafter.symm

/-- Each of the three failures leaves some of the buffer in the file. -/
theorem harmful [DecidableEq Tid] (h : w.Tracked existing harmed clean) {a : Act Tid}
    (ha : w.Allowed a) (hbad : ¬a.Harmless) : (w.act a).Tracked existing True clean := by
  have hle := h.file.le_length
  have hbuf := h.buf
  cases a with
  | writeAll failedAfter =>
      obtain ⟨after, hs⟩ := ha
      simp only [Flusher.twice, Flusher.BufKept, hs, List.append_nil] at hle hbuf
      cases failedAfter with
      | none => exact absurd (.inl rfl) hbad
      | some n =>
          have hpos : 0 < n := Nat.pos_of_ne_zero fun hn => hbad (.inr (congrArg some hn))
          have hlen := List.length_pos_of_ne_nil hbuf
          simp only [World.act, Flusher.writeAll, hs]
          refine h.failed ?_ (by rw [hs]; rfl)
          rw [List.length_append, List.length_take]
          omega
  | flushFile ok =>
      obtain ⟨after, hs⟩ := ha
      obtain rfl : ok = false := Bool.eq_false_of_not_eq_true hbad
      simp only [Flusher.twice, Flusher.BufKept, hs, List.length_append] at hle hbuf
      have hlen := List.length_pos_of_ne_nil hbuf
      simp only [World.act, Flusher.flushFile, hs]
      exact h.failed (by omega) (by rw [hs]; rfl)
  | syncAll ok =>
      obtain ⟨after, hs⟩ := ha
      obtain rfl : ok = false := Bool.eq_false_of_not_eq_true hbad
      simp only [Flusher.twice, Flusher.BufKept, hs, List.length_append] at hle hbuf
      have hlen := List.length_pos_of_ne_nil hbuf
      simp only [World.act, Flusher.syncAll, hs]
      exact h.failed (by omega) (by rw [hs]; rfl)
  | _ => exact absurd trivial hbad

/-- The file is right if it is as long as it should be, and then no step did harm. -/
theorem parses_iff (h : w.Tracked existing harmed clean) {rs : List WalRecord}
    (htwice : w.flusher.twice = []) (hclean : existing ++ encodeAll rs = clean) :
    Parses (w.flusher.file.drop existing.length) rs ↔ ¬harmed := by
  subst hclean
  have hfile := h.file
  simp only [Flusher.FileHolds, htwice, List.append_nil] at hfile
  rcases hfile with ⟨hno, hfile⟩ | ⟨hyes, hlt⟩
  · rw [hfile, List.drop_left]
    exact iff_of_true (parses_encodeAll rs) hno
  · refine iff_of_false (fun hparses => ?_) (not_not_intro hyes)
    have hlen := hparses.1
    rw [List.length_drop] at hlen
    rw [List.length_append, length_encodeAll] at hlt
    omega

/-! ## Every step -/

variable [DecidableEq Tid]

theorem harmless (h : w.Tracked existing harmed clean) {a : Act Tid} (ha : w.Allowed a)
    (hok : a.Harmless) : ∃ clean', (w.act a).Tracked existing harmed clean' := by
  cases a with
  | append t r =>
      refine ⟨clean, h.thread (h.toMarked.append ha.1 t r) ?_⟩
      simp only [act]
      split
      · split <;> rfl
      · rfl
  | flush t => exact ⟨clean, h.thread (h.toMarked.setCall fun _ => ha.1) rfl⟩
  | send t =>
      refine ⟨clean, h.thread (h.toMarked.send ha.1) ?_⟩
      simp only [act]
      split <;> rfl
  | done t =>
      obtain ⟨ack, own, hc, -⟩ := ha
      have hidle : (w.setCall t .idle).Tracked existing harmed clean :=
        h.thread (h.toMarked.setCall fun hne => absurd rfl hne) rfl
      simp only [act, hc]
      split
      · exact ⟨clean, { hidle with }⟩
      · exact ⟨clean, hidle⟩
  | drop skipShutdown => exact ⟨clean, h.thread (h.toMarked.drop ha.1 ha.2 _) rfl⟩
  | sendShutdown => exact ⟨clean, h.thread (h.toMarked.sendShutdown ha.1) rfl⟩
  | recv =>
      obtain ⟨hready, hne⟩ := ha
      simp only [act]
      split
      next m chan hchan =>
        exact ⟨clean, h.received hready _ rfl (h.toMarked.recv hready hchan)⟩
      next => exact ⟨clean, h⟩
  | timeout =>
      have hmarked := h.toMarked.waited ha.1 (x := .timeout) rfl fun _ hack => by cases hack
      exact ⟨clean, h.received ha.1 .timeout rfl hmarked⟩
  | disconnected =>
      have hmarked := h.toMarked.waited ha.1 (x := .disconnected) rfl fun _ hack => by cases hack
      exact ⟨clean, h.received ha.1 .disconnected rfl hmarked⟩
  | writeAll failedAfter =>
      obtain ⟨after, hs⟩ := ha
      exact ⟨clean, h.writeAll hs hok⟩
  | flushFile ok =>
      obtain ⟨after, hs⟩ := ha
      obtain rfl : ok = true := hok
      exact ⟨clean, h.flushFile hs⟩
  | syncAll ok =>
      obtain ⟨after, hs⟩ := ha
      obtain rfl : ok = true := hok
      exact ⟨_, h.syncAll hs⟩
  | goOn =>
      obtain ⟨after, ok, hs⟩ := ha
      exact ⟨clean, h.goOn hs⟩

/-- After a run the file is as it should be, or longer if one of its steps did harm. -/
theorem run {as : List (Act Tid)} (h : w.Tracked existing harmed clean)
    (has : Runs.AllAllowed act Allowed w as) :
    ∃ clean', (as.foldl act w).Tracked existing (harmed ∨ ∃ a ∈ as, ¬a.Harmless) clean' := by
  induction as generalizing w harmed clean with
  | nil => exact ⟨clean, by simpa using h⟩
  | cons a as ih =>
      obtain ⟨ha, has⟩ := has
      by_cases hok : a.Harmless
      · obtain ⟨clean', h'⟩ := h.harmless ha hok
        simpa [hok] using ih h' has
      · simpa [hok] using ih (h.harmful ha hok) has

end Tracked

/-! ## The log -/

variable [DecidableEq Tid] {mode : WalMode} {queueCap : Nat} {as : List (Act Tid)}

/-- In a run whose file operations may fail, take the state where `write_buf` has succeeded for
a `flush` that is to return `Ok`.  The file, cut in records, is what was accepted before the
`flush`, exactly if no failure before it did harm.  The same holds of all records accepted when
none of them is in the queue or in the buffer. -/
theorem parses_iff_harmless
    (has : Runs.AllAllowed act Allowed (new mode queueCap existing : World Tid) as) :
    let w := as.foldl act (new mode queueCap existing)
    (∀ ack, w.flusher.stage = .written (.answer ack) true →
      ∃ before, w.asked[ack]? = some before ∧
        (Parses (w.flusher.file.drop existing.length) before ↔ ∀ a ∈ as, a.Harmless)) ∧
      (w.chan = [] → w.flusher.buf = [] →
        (Parses (w.flusher.file.drop existing.length) w.accepted ↔ ∀ a ∈ as, a.Harmless)) := by
  intro w
  obtain ⟨clean, h⟩ := (tracked_new mode queueCap).run has
  have hharmed : (¬(False ∨ ∃ a ∈ as, ¬a.Harmless)) ↔ ∀ a ∈ as, a.Harmless := by simp
  refine ⟨fun ack hs => ?_, fun hchan hbuf => ?_⟩
  · have hbuf : w.flusher.buf = [] := by simpa [Flusher.BufKept, w, hs] using h.buf
    obtain ⟨before, hbefore, hbytes⟩ := h.answer ack (by rw [hs]; rfl)
    refine ⟨before, hbefore, (h.parses_iff ?_ ?_).trans hharmed⟩
    · simp [Flusher.twice, w, hs]
    · simpa [w, hbuf] using hbytes
  · have hqueue := h.queue
    simp only [w] at hchan hbuf
    rw [hchan, hbuf, List.append_nil] at hqueue
    refine (h.parses_iff ?_ hqueue.symm).trans hharmed
    unfold Flusher.twice
    split
    · exact hbuf
    · exact hbuf
    · rfl

/-- A record is appended and flushed, `write_buf` fails in these steps, and the record is flushed
again. -/
def flushAgain (r : WalRecord) (failure : List (Act Unit)) : List (Act Unit) :=
  let first : List (Act Unit) := [.append () r, .recv, .flush (), .send (), .recv]
  let again : List (Act Unit) := [.goOn, .done (), .flush (), .send (), .recv, .writeAll none,
    .flushFile true, .syncAll true]
  first ++ failure ++ again

theorem parses_after_empty_write :
    let w := (flushAgain ⟨.fill, 1, 2, -3, 4⟩ [.writeAll (some 0)]).foldl act
      (new .async 1 [] : World Unit)
    w.flusher.stage = .written (.answer 1) true ∧
      Parses (w.flusher.file.drop 0) [⟨.fill, 1, 2, -3, 4⟩] := by
  have hrun : Runs.AllAllowed act Allowed (new .async 1 [] : World Unit)
      (flushAgain ⟨.fill, 1, 2, -3, 4⟩ [.writeAll (some 0)]) :=
    ⟨⟨rfl, rfl⟩, ⟨rfl, nofun⟩, ⟨rfl, rfl⟩, ⟨trivial, by decide⟩, ⟨rfl, nofun⟩, ⟨_, rfl⟩,
      ⟨_, _, rfl⟩, ⟨_, _, rfl, nofun⟩, ⟨rfl, rfl⟩, ⟨trivial, by decide⟩, ⟨rfl, nofun⟩, ⟨_, rfl⟩,
      ⟨_, rfl⟩, ⟨_, rfl⟩, trivial⟩
  refine ⟨rfl, ((parses_iff_harmless hrun).2 rfl rfl).mpr ?_⟩
  simp [flushAgain, Act.Harmless]

/-- The record is in the file twice, once from the call of `write_buf` that failed in
`sync_all`. -/
theorem record_written_twice :
    let answered : List (Act Unit) := [.goOn, .done ()]
    let as :=
      flushAgain ⟨.fill, 1, 2, -3, 4⟩ [.writeAll none, .flushFile true, .syncAll false] ++ answered
    let w := as.foldl act (new .async 1 [] : World Unit)
    Runs.AllAllowed act Allowed (new .async 1 [] : World Unit) as ∧ w.returns.length = 1 ∧
      w.accepted = [⟨.fill, 1, 2, -3, 4⟩] ∧ w.chan = [] ∧ w.flusher.buf = [] ∧
      w.flusher.file = encodeAll [⟨.fill, 1, 2, -3, 4⟩, ⟨.fill, 1, 2, -3, 4⟩] ∧
      ¬Parses w.flusher.file w.accepted := by
  intro answered as w
  have hrun : Runs.AllAllowed act Allowed (new .async 1 [] : World Unit) as :=
    ⟨⟨rfl, rfl⟩, ⟨rfl, nofun⟩, ⟨rfl, rfl⟩, ⟨trivial, by decide⟩, ⟨rfl, nofun⟩, ⟨_, rfl⟩, ⟨_, rfl⟩,
      ⟨_, rfl⟩, ⟨_, _, rfl⟩, ⟨_, _, rfl, nofun⟩, ⟨rfl, rfl⟩, ⟨trivial, by decide⟩, ⟨rfl, nofun⟩,
      ⟨_, rfl⟩, ⟨_, rfl⟩, ⟨_, rfl⟩, ⟨_, _, rfl⟩, ⟨_, _, rfl, nofun⟩, trivial⟩
  have hfile : w.flusher.file = encodeAll [⟨.fill, 1, 2, -3, 4⟩, ⟨.fill, 1, 2, -3, 4⟩] := rfl
  refine ⟨hrun, rfl, rfl, rfl, rfl, hfile, fun hparses => ?_⟩
  have hlen := hparses.1
  rw [hfile, length_encodeAll] at hlen
  exact absurd hlen (by decide)

end World

end MatchWal
