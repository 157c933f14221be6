import MatchRust.Wal.Flusher

/-!
# What the log holds

While the file system does what it is asked for, what is synced, what is in the buffer and
what is in the queue are together all records accepted, in their order (`Queue`).  A
`Flush` message marks a place in this sequence.  When the flusher takes it, the place is
the end of the buffer, and when it is answered, all in front of it is synced.

`Shutdown` is the last message, so when the flusher ends nothing is left over and the file
has the encodings of all records accepted (`fidelity`).  After the drop it does end: there
is always a next step, and there are no more than `World.pending` of them.
-/

namespace MatchWal

/-! ## The queue -/

/-- These bytes end with the records accepted before a `Flush` message. -/
def Covers (existing : List UInt8) (asked : List (List WalRecord)) (ack : Nat)
    (bytes : List UInt8) : Prop :=
  ∃ before, asked[ack]? = some before ∧ existing ++ encodeAll before = bytes

/-- What is in the queue goes on from the bytes taken out of it. -/
def Queue (existing : List UInt8) (asked : List (List WalRecord)) (accepted : List WalRecord) :
    List UInt8 → List Msg → Prop
  | bytes, [] => bytes = existing ++ encodeAll accepted
  | bytes, .record r :: ms => Queue existing asked accepted (bytes ++ r.encode) ms
  | bytes, .flush ack :: ms =>
      Covers existing asked ack bytes ∧ Queue existing asked accepted bytes ms
  | bytes, .shutdown :: ms => ms = [] ∧ bytes = existing ++ encodeAll accepted

section Queue

variable {existing bytes : List UInt8} {asked asked' : List (List WalRecord)}
  {accepted accepted' before : List WalRecord} {ack : Nat} {ms ms' : List Msg}

theorem asked_mono (hle : asked <+: asked') (h : asked[ack]? = some before) :
    asked'[ack]? = some before := by
  obtain ⟨rest, rfl⟩ := hle
  rw [List.getElem?_append_left (List.getElem?_eq_some_iff.mp h).1, h]

theorem Covers.mono (h : Covers existing asked ack bytes) (hle : asked <+: asked') :
    Covers existing asked' ack bytes := by
  obtain ⟨before, hbefore, hbytes⟩ := h
  exact ⟨before, asked_mono hle hbefore, hbytes⟩

/-- More is sent, and not after `Shutdown`. -/
theorem Queue.append (h : Queue existing asked accepted bytes ms) (hms : .shutdown ∉ ms)
    (hle : asked <+: asked')
    (hlast : Queue existing asked' accepted' (existing ++ encodeAll accepted) ms') :
    Queue existing asked' accepted' bytes (ms ++ ms') := by
  induction ms generalizing bytes with
  | nil =>
      cases h
      exact hlast
  | cons m ms ih =>
      have hms' : Msg.shutdown ∉ ms := fun hmem => hms (List.mem_cons_of_mem _ hmem)
      cases m with
      | record r => exact ih h hms'
      | flush ack => exact ⟨h.1.mono hle, ih h.2 hms'⟩
      | shutdown => exact absurd List.mem_cons_self hms

end Queue

/-! ## The invariant -/

/-- What follows the call of `write_buf`. -/
def Stage.after : Stage → After
  | .ready => .resume
  | .write after => after
  | .flush after => after
  | .sync after => after
  | .written after _ => after
  | .stopped => .stop

/-- The buffer is in the file between `write_all` and `sync_all`, and at no other time. -/
def Flusher.FileKept (f : Flusher) : Prop :=
  match f.stage with
  | .ready => f.file = f.synced
  | .write _ => f.file = f.synced
  | .flush _ => f.file = f.synced ++ f.buf
  | .sync _ => f.file = f.synced ++ f.buf
  | .written _ _ => f.file = f.synced ∧ f.buf = []
  | .stopped => f.file = f.synced ∧ f.buf = []

/-- What the call asked for is synced. -/
def Return.Durable (existing : List UInt8) (ret : Return) : Prop :=
  (∀ r ∈ ret.own, r ∈ ret.before) ∧ existing ++ encodeAll ret.before <+: ret.synced

/-- The bytes that a message adds to the buffer. -/
def Received.bytes : Received → List UInt8
  | .msg (.record r) => r.encode
  | _ => []

/-- What the flusher does for a message. -/
def Received.after : Received → After
  | .msg (.record _) => .resume
  | .msg (.flush ack) => .answer ack
  | .msg .shutdown => .stop
  | .timeout => .resume
  | .disconnected => .stop

namespace Flusher

variable {f : Flusher}

theorem after_writeBuf (f : Flusher) (after : After) :
    (f.writeBuf after).stage.after = after := by
  simp only [writeBuf]
  split <;> rfl

theorem fileKept_writeBuf (h : f.file = f.synced) (after : After) :
    (f.writeBuf after).FileKept := by
  by_cases hbuf : f.buf = []
  · simp [writeBuf, FileKept, hbuf, h]
  · simp [writeBuf, FileKept, hbuf, h]

/-- What comes with a message goes into the buffer, and `write_buf` is called unless the buffer
waits for more. -/
theorem onReceived_cases (f : Flusher) (x : Received) :
    f.onReceived x = { f with buf := f.buf ++ x.bytes }.writeBuf x.after ∨
      (x.after = .resume ∧ f.onReceived x = { f with buf := f.buf ++ x.bytes }) := by
  have hnil : { f with buf := f.buf ++ [] } = f := by rw [List.append_nil]
  cases x with
  | timeout => exact .inl (congrArg (writeBuf · .resume) hnil.symm)
  | disconnected => exact .inl (congrArg (writeBuf · .stop) hnil.symm)
  | msg m =>
      cases m with
      | record r =>
          simp only [onReceived]
          split
          · exact .inl rfl
          · exact .inr ⟨rfl, rfl⟩
      | flush ack => exact .inl (congrArg (writeBuf · (.answer ack)) hnil.symm)
      | shutdown => exact .inl (congrArg (writeBuf · .stop) hnil.symm)

@[simp] theorem synced_onReceived (x : Received) : (f.onReceived x).synced = f.synced := by
  rcases f.onReceived_cases x with h | ⟨-, h⟩
  · rw [h]
    rfl
  · rw [h]

@[simp] theorem buf_onReceived (x : Received) : (f.onReceived x).buf = f.buf ++ x.bytes := by
  rcases f.onReceived_cases x with h | ⟨-, h⟩
  · rw [h]
    rfl
  · rw [h]

theorem after_onReceived (h : f.stage = .ready) (x : Received) :
    (f.onReceived x).stage.after = x.after := by
  rcases f.onReceived_cases x with hcall | ⟨hafter, hcall⟩
  · rw [hcall]
    exact after_writeBuf ..
  · rw [hcall, hafter, h]
    rfl

theorem fileKept_onReceived (hready : f.stage = .ready) (h : f.FileKept) (x : Received) :
    (f.onReceived x).FileKept := by
  have hfile : f.file = f.synced := by simpa [FileKept, hready] using h
  rcases f.onReceived_cases x with hcall | ⟨-, hcall⟩
  · rw [hcall]
    refine fileKept_writeBuf ?_ _
    exact hfile
  · rw [hcall]
    simpa [FileKept, hready] using h

end Flusher

namespace World

variable {Tid : Type}

/-- What every step keeps, whether the file system succeeds or not.  The bytes of `clean` went
through `write_buf` and out of the buffer. -/
structure Marked (existing : List UInt8) (w : World Tid) (clean : List UInt8) : Prop where
  queue : Queue existing w.asked w.accepted (clean ++ w.flusher.buf) w.chan
  answer : ∀ ack, w.flusher.stage.after = .answer ack →
    Covers existing w.asked ack (clean ++ w.flusher.buf)
  busy : ∀ t, w.calls t ≠ .idle → w.handle = .live
  /-- Only a handle that was dropped has sent `Shutdown`. -/
  shutdown : .shutdown ∈ w.chan → w.handle = .joining

variable {existing clean : List UInt8} {w : World Tid}

theorem marked_new (mode : WalMode) (queueCap : Nat) :
    (new mode queueCap existing : World Tid).Marked existing existing where
  queue := by simp [new, Queue]
  answer ack h := by cases h
  busy t h := absurd rfl h
  shutdown h := absurd h List.not_mem_nil

namespace Marked

/-! ## Threads -/

theorem no_shutdown (h : w.Marked existing clean) (hne : w.handle ≠ .joining) :
    .shutdown ∉ w.chan :=
  fun hmem => hne (h.shutdown hmem)

theorem idle_of_not_live (h : w.Marked existing clean) (hne : w.handle ≠ .live) (t : Tid) :
    w.calls t = .idle := by
  by_contra hbusy
  exact hne (h.busy t hbusy)

theorem accept (h : w.Marked existing clean) (hlive : w.handle = .live) (r : WalRecord) :
    (w.accept r).Marked existing clean where
  queue := h.queue.append (h.no_shutdown (by simp [hlive])) (List.prefix_refl _)
    (by simp [Queue, World.accept])
  answer := h.answer
  busy _ _ := hlive
  shutdown hmem := by
    refine h.shutdown ?_
    simpa [World.accept] using hmem

theorem ask (h : w.Marked existing clean) (hlive : w.handle = .live) :
    w.ask.Marked existing clean where
  queue := h.queue.append (h.no_shutdown (by simp [hlive])) (List.prefix_append _ _)
    ⟨⟨w.accepted, by simp [World.ask], rfl⟩, rfl⟩
  answer ack hack := (h.answer ack hack).mono (List.prefix_append _ _)
  busy _ _ := hlive
  shutdown hmem := by
    refine h.shutdown ?_
    simpa [World.ask] using hmem

theorem setCall [DecidableEq Tid] (h : w.Marked existing clean) {t : Tid} {c : Call}
    (hc : c ≠ .idle → w.handle = .live) : (w.setCall t c).Marked existing clean where
  queue := h.queue
  answer := h.answer
  busy t' ht' := by
    by_cases heq : t' = t
    · subst heq
      refine hc ?_
      simpa [World.setCall] using ht'
    · refine h.busy t' ?_
      simpa [World.setCall, heq] using ht'
  shutdown := h.shutdown

theorem drop (h : w.Marked existing clean) (hlive : w.handle = .live)
    (hidle : ∀ t, w.calls t = .idle) (handle : Handle) :
    ({ w with handle := handle } : World Tid).Marked existing clean where
  queue := h.queue
  answer := h.answer
  busy t ht := absurd (hidle t) ht
  shutdown hmem := absurd hmem (h.no_shutdown (by simp [hlive]))

theorem sendShutdown (h : w.Marked existing clean) (hclosing : w.handle = .closing) :
    ({ w with chan := w.chan ++ [.shutdown], handle := .joining } : World Tid).Marked
      existing clean where
  queue := h.queue.append (h.no_shutdown (by simp [hclosing])) (List.prefix_refl _) ⟨rfl, rfl⟩
  answer := h.answer
  busy t ht := absurd (h.idle_of_not_live (by simp [hclosing]) t) ht
  shutdown _ := rfl

section Calls

variable [DecidableEq Tid]

theorem append (h : w.Marked existing clean) (hlive : w.handle = .live) (t : Tid)
    (r : WalRecord) : (w.act (.append t r)).Marked existing clean := by
  simp only [act]
  split
  · split
    · exact h.accept hlive r
    · exact h
  · exact h.setCall fun _ => hlive

theorem send (h : w.Marked existing clean) {t : Tid} (hsend : Sending (w.calls t)) :
    (w.act (.send t)).Marked existing clean := by
  have hbusy := h.busy t
  cases hc : w.calls t with
  | idle | waiting =>
      rw [hc] at hsend
      exact hsend.elim
  | sendRecord r =>
      have hlive := hbusy (by simp [hc])
      simp only [act, hc]
      exact (h.accept hlive r).setCall fun _ => hlive
  | sendFlush own =>
      have hlive := hbusy (by simp [hc])
      simp only [act, hc]
      exact (h.ask hlive).setCall fun _ => hlive

end Calls

/-! ## The flusher -/

/-- A step of the flusher alone. -/
theorem flusher (h : w.Marked existing clean) {f : Flusher} {chan : List Msg}
    {clean' : List UInt8}
    (hqueue : Queue existing w.asked w.accepted (clean' ++ f.buf) chan)
    (hanswer : ∀ ack, f.stage.after = .answer ack →
      Covers existing w.asked ack (clean' ++ f.buf))
    (hshutdown : .shutdown ∈ chan → .shutdown ∈ w.chan) :
    ({ w with flusher := f, chan := chan } : World Tid).Marked existing clean' where
  queue := hqueue
  answer := hanswer
  busy := h.busy
  shutdown hmem := h.shutdown (hshutdown hmem)

/-- A step of the flusher in `write_buf`. -/
theorem writing (h : w.Marked existing clean) {f : Flusher} {clean' : List UInt8}
    (hbytes : clean' ++ f.buf = clean ++ w.flusher.buf)
    (hafter : f.stage.after = w.flusher.stage.after) :
    ({ w with flusher := f } : World Tid).Marked existing clean' := by
  refine h.flusher (hbytes ▸ h.queue) ?_ id
  intro ack hack
  rw [hbytes]
  exact h.answer ack (hafter ▸ hack)

theorem received (h : w.Marked existing clean) (hready : w.flusher.stage = .ready)
    (x : Received) {chan : List Msg}
    (hqueue : Queue existing w.asked w.accepted (clean ++ (w.flusher.buf ++ x.bytes)) chan)
    (hanswer : ∀ ack, x.after = .answer ack →
      Covers existing w.asked ack (clean ++ (w.flusher.buf ++ x.bytes)))
    (hshutdown : .shutdown ∈ chan → .shutdown ∈ w.chan) :
    ({ w with flusher := w.flusher.onReceived x, chan := chan } : World Tid).Marked
      existing clean := by
  refine h.flusher (by simpa using hqueue) ?_ hshutdown
  simpa [Flusher.after_onReceived hready] using hanswer

theorem recv (h : w.Marked existing clean) (hready : w.flusher.stage = .ready) {m : Msg}
    {chan : List Msg} (hchan : w.chan = m :: chan) :
    ({ w with chan := chan, flusher := w.flusher.onReceived (.msg m) } : World Tid).Marked
      existing clean := by
  have hqueue := h.queue
  have hsub : .shutdown ∈ chan → .shutdown ∈ w.chan := by
    rw [hchan]
    exact List.mem_cons_of_mem _
  rw [hchan] at hqueue
  cases m with
  | record r =>
      refine h.received hready _ ?_ (fun _ hack => by cases hack) hsub
      simpa [Received.bytes, Queue] using hqueue
  | flush ack =>
      refine h.received hready _ ?_ ?_ hsub
      · simpa [Received.bytes] using hqueue.2
      · intro ack' hack
        obtain rfl : ack = ack' := by simpa [Received.after] using hack
        simpa [Received.bytes] using hqueue.1
  | shutdown =>
      obtain ⟨rfl, hbytes⟩ := hqueue
      refine h.received hready _ ?_ (fun _ hack => by cases hack) hsub
      simpa [Received.bytes, Queue] using hbytes

/-- It waits in vain, or finds the sender gone. -/
theorem waited (h : w.Marked existing clean) (hready : w.flusher.stage = .ready)
    {x : Received} (hbytes : x.bytes = []) (hafter : ∀ ack, x.after ≠ .answer ack) :
    ({ w with flusher := w.flusher.onReceived x } : World Tid).Marked existing clean := by
  refine h.received hready x ?_ (fun ack hack => absurd hack (hafter ack)) id
  simpa [hbytes] using h.queue

/-- Behind `write_buf` it takes the next message, or ends. -/
theorem goOn (h : w.Marked existing clean) {stage : Stage}
    (hafter : ∀ ack, stage.after ≠ .answer ack) :
    ({ w with flusher := { w.flusher with stage := stage } } : World Tid).Marked
      existing clean :=
  h.flusher h.queue (fun ack hack => absurd hack (hafter ack)) id

end Marked

/-! ## While the file system succeeds -/

/-- What a thread in a call knows. -/
def CallKept (w : World Tid) : Call → Prop
  | .sendFlush own => ∀ r ∈ own, r ∈ w.accepted
  | .waiting ack own => ∃ before, w.asked[ack]? = some before ∧ ∀ r ∈ own, r ∈ before
  | _ => True

/-- What every step keeps then. -/
structure Kept (existing : List UInt8) (w : World Tid) : Prop
    extends Marked existing w w.flusher.synced where
  room : 0 < w.cap
  file : w.flusher.FileKept
  /-- The flusher ends with the last message. -/
  stop : w.flusher.stage.after = .stop → w.chan = [] ∧ (w.handle = .joining ∨ w.handle = .gone)
  acks : ∀ ack ok, w.acks ack = some ok →
    ∃ before, w.asked[ack]? = some before ∧ existing ++ encodeAll before <+: w.flusher.synced
  calls : ∀ t, w.CallKept (w.calls t)
  joining : w.handle = .joining → .shutdown ∈ w.chan ∨ w.flusher.stage.after = .stop
  returns : ∀ ret ∈ w.returns, ret.Durable existing

theorem kept_new (mode : WalMode) (queueCap : Nat) :
    (new mode queueCap existing : World Tid).Kept existing where
  toMarked := marked_new mode queueCap
  room := lt_max_of_lt_right Nat.one_pos
  file := rfl
  stop h := by cases h
  acks _ _ h := by cases h
  calls _ := trivial
  joining h := by cases h
  returns _ h := absurd h List.not_mem_nil

namespace Kept

/-- Sends come before the handle is joined or gone, and the flusher is not ending then. -/
theorem not_stop (h : w.Kept existing) (hj : w.handle ≠ .joining) (hg : w.handle ≠ .gone) :
    w.flusher.stage.after ≠ .stop :=
  fun hstop => (h.stop hstop).2.elim hj hg

theorem accept (h : w.Kept existing) (hlive : w.handle = .live) (r : WalRecord) :
    (w.accept r).Kept existing where
  toMarked := h.toMarked.accept hlive r
  room := h.room
  file := h.file
  stop hstop := absurd hstop (h.not_stop (by simp [hlive]) (by simp [hlive]))
  acks := h.acks
  calls t := by
    have hcall := h.calls t
    show (w.accept r).CallKept (w.calls t)
    cases hc : w.calls t with
    | sendFlush own =>
        rw [hc] at hcall
        exact fun r' hr' => List.mem_append_left _ (hcall r' hr')
    | waiting ack own => rwa [hc] at hcall
    | idle | sendRecord => trivial
  joining hj := absurd (hlive.symm.trans hj) (by decide)
  returns := h.returns

theorem ask (h : w.Kept existing) (hlive : w.handle = .live) : w.ask.Kept existing where
  toMarked := h.toMarked.ask hlive
  room := h.room
  file := h.file
  stop hstop := absurd hstop (h.not_stop (by simp [hlive]) (by simp [hlive]))
  acks ack ok hok := by
    obtain ⟨before, hbefore, hsynced⟩ := h.acks ack ok hok
    exact ⟨before, asked_mono (List.prefix_append _ _) hbefore, hsynced⟩
  calls t := by
    have hcall := h.calls t
    show w.ask.CallKept (w.calls t)
    cases hc : w.calls t with
    | waiting ack own =>
        rw [hc] at hcall
        obtain ⟨before, hbefore, hown⟩ := hcall
        exact ⟨before, asked_mono (List.prefix_append _ _) hbefore, hown⟩
    | sendFlush own => rwa [hc] at hcall
    | idle | sendRecord => trivial
  joining hj := absurd (hlive.symm.trans hj) (by decide)
  returns := h.returns

theorem setCall [DecidableEq Tid] (h : w.Kept existing) {t : Tid} {c : Call}
    (hlive : c ≠ .idle → w.handle = .live) (hc : w.CallKept c) :
    (w.setCall t c).Kept existing where
  toMarked := h.toMarked.setCall hlive
  room := h.room
  file := h.file
  stop := h.stop
  acks := h.acks
  calls t' := by
    show w.CallKept (Function.update w.calls t c t')
    rw [Function.update_apply]
    split
    · exact hc
    · exact h.calls t'
  joining := h.joining
  returns := h.returns

/-- A step of the flusher alone. -/
theorem flusher (h : w.Kept existing) {f : Flusher} {chan : List Msg}
    (hmarked : ({ w with flusher := f, chan := chan } : World Tid).Marked existing f.synced)
    (hfile : f.FileKept)
    (hstop : f.stage.after = .stop → chan = [] ∧ (w.handle = .joining ∨ w.handle = .gone))
    (hsynced : w.flusher.synced <+: f.synced)
    (hjoining : w.handle = .joining → .shutdown ∈ chan ∨ f.stage.after = .stop) :
    ({ w with flusher := f, chan := chan } : World Tid).Kept existing where
  toMarked := hmarked
  room := h.room
  file := hfile
  stop := hstop
  acks ack ok hok := by
    obtain ⟨before, hbefore, hprefix⟩ := h.acks ack ok hok
    exact ⟨before, hbefore, hprefix.trans hsynced⟩
  calls := h.calls
  joining := hjoining
  returns := h.returns

/-- A step of the flusher in `write_buf`. -/
theorem writing (h : w.Kept existing) {f : Flusher}
    (hbytes : f.synced ++ f.buf = w.flusher.synced ++ w.flusher.buf) (hfile : f.FileKept)
    (hafter : f.stage.after = w.flusher.stage.after) (hsynced : w.flusher.synced <+: f.synced) :
    ({ w with flusher := f } : World Tid).Kept existing :=
  h.flusher (h.toMarked.writing hbytes hafter) hfile (hafter ▸ h.stop) hsynced
    (hafter ▸ h.joining)

/-- While the flusher waits, a handle that is being joined has its `Shutdown` in the queue. -/
theorem joining_ready (h : w.Kept existing) (hready : w.flusher.stage = .ready)
    (hj : w.handle = .joining) : .shutdown ∈ w.chan := by
  rcases h.joining hj with hmem | hstop
  · exact hmem
  · rw [hready] at hstop
    exact absurd hstop (by decide)

theorem recv (h : w.Kept existing) (hready : w.flusher.stage = .ready) {m : Msg}
    {chan : List Msg} (hchan : w.chan = m :: chan) :
    ({ w with chan := chan, flusher := w.flusher.onReceived (.msg m) } : World Tid).Kept
      existing := by
  have hmarked := h.toMarked.recv hready hchan
  rw [← Flusher.synced_onReceived (.msg m)] at hmarked
  have hafter := Flusher.after_onReceived hready (.msg m)
  have hjoining := h.joining_ready hready
  have hfile := Flusher.fileKept_onReceived hready h.file (.msg m)
  rw [hchan] at hjoining
  cases m with
  | record r =>
      refine h.flusher hmarked hfile (fun hstop => ?_) (by simp) fun hj => .inl ?_
      · cases hafter.symm.trans hstop
      · simpa using hjoining hj
  | flush ack =>
      refine h.flusher hmarked hfile (fun hstop => ?_) (by simp) fun hj => .inl ?_
      · cases hafter.symm.trans hstop
      · simpa using hjoining hj
  | shutdown =>
      have hqueue := h.queue
      rw [hchan] at hqueue
      refine h.flusher hmarked hfile (fun _ => ⟨hqueue.1, ?_⟩) (by simp) fun _ => .inr hafter
      exact .inl (h.shutdown (by simp [hchan]))

theorem timeout (h : w.Kept existing) (hready : w.flusher.stage = .ready) :
    ({ w with flusher := w.flusher.onReceived .timeout } : World Tid).Kept existing := by
  refine h.writing ?_ (Flusher.fileKept_onReceived hready h.file _) ?_ (by simp)
  · simp [Received.bytes]
  · rw [Flusher.after_onReceived hready, hready]
    rfl

theorem disconnected (h : w.Kept existing) (hready : w.flusher.stage = .ready)
    (hchan : w.chan = []) (hgone : w.handle = .gone) :
    ({ w with flusher := w.flusher.onReceived .disconnected } : World Tid).Kept existing := by
  have hmarked := h.toMarked.waited hready (x := .disconnected) rfl fun _ hack => by cases hack
  rw [← Flusher.synced_onReceived .disconnected] at hmarked
  exact h.flusher hmarked (Flusher.fileKept_onReceived hready h.file _)
    (fun _ => ⟨hchan, .inr hgone⟩) (by simp)
    fun _ => .inr (Flusher.after_onReceived hready .disconnected)

theorem writeAll (h : w.Kept existing) {after : After} (hs : w.flusher.stage = .write after) :
    ({ w with flusher := w.flusher.writeAll none } : World Tid).Kept existing := by
  have hfile : w.flusher.file = w.flusher.synced := by simpa [Flusher.FileKept, hs] using h.file
  simp only [Flusher.writeAll, hs]
  refine h.writing rfl ?_ (by rw [hs]; rfl) (List.prefix_refl _)
  simp [Flusher.FileKept, hfile]

theorem flushFile (h : w.Kept existing) {after : After} (hs : w.flusher.stage = .flush after) :
    ({ w with flusher := w.flusher.flushFile true } : World Tid).Kept existing := by
  have hfile := h.file
  simp only [Flusher.flushFile, hs, if_true]
  refine h.writing rfl ?_ (by rw [hs]; rfl) (List.prefix_refl _)
  simpa [Flusher.FileKept, hs] using hfile

theorem syncAll (h : w.Kept existing) {after : After} (hs : w.flusher.stage = .sync after) :
    ({ w with flusher := w.flusher.syncAll true } : World Tid).Kept existing := by
  have hfile : w.flusher.file = w.flusher.synced ++ w.flusher.buf := by
    simpa [Flusher.FileKept, hs] using h.file
  simp only [Flusher.syncAll, hs, if_true]
  refine h.writing ?_ ?_ (by rw [hs]; rfl) ?_
  · simp [hfile]
  · simp [Flusher.FileKept]
  · simp [hfile]

/-- Behind `write_buf` the buffer is empty, so an answer is sent when all it stands for is
synced. -/
theorem goOn [DecidableEq Tid] (h : w.Kept existing) {after : After} {ok : Bool}
    (hs : w.flusher.stage = .written after ok) : (w.act .goOn).Kept existing := by
  obtain ⟨hfile, hbuf⟩ : w.flusher.file = w.flusher.synced ∧ w.flusher.buf = [] := by
    simpa [Flusher.FileKept, hs] using h.file
  cases after with
  | resume =>
      simp only [act, hs]
      exact h.writing rfl hfile (by rw [hs]; rfl) (List.prefix_refl _)
  | answer ack =>
      obtain ⟨before, hbefore, hbytes⟩ := h.answer ack (by rw [hs]; rfl)
      rw [hbuf, List.append_nil] at hbytes
      have hkept : ({ w with flusher := { w.flusher with stage := .ready } } : World Tid).Kept
          existing := by
        refine h.flusher (h.toMarked.goOn fun _ hack => by cases hack) hfile
          (fun hstop => by cases hstop) (List.prefix_refl _) fun hj => .inl ?_
        rcases h.joining hj with hmem | hstop
        · exact hmem
        · rw [hs] at hstop
          cases hstop
      simp only [act, hs]
      refine { hkept with acks := ?_ }
      intro ack' ok' hok
      dsimp only at hok
      rw [Function.update_apply] at hok
      split at hok
      next heq =>
        subst heq
        exact ⟨before, hbefore, hbytes ▸ List.prefix_refl _⟩
      next => exact h.acks ack' ok' hok
  | stop =>
      simp only [act, hs]
      exact h.writing rfl ⟨hfile, hbuf⟩ (by rw [hs]; rfl) (List.prefix_refl _)

/-! ## Every step -/

theorem drop (h : w.Kept existing) (hlive : w.handle = .live) (hidle : ∀ t, w.calls t = .idle)
    {handle : Handle} (hne : handle ≠ .joining) :
    ({ w with handle := handle } : World Tid).Kept existing where
  toMarked := h.toMarked.drop hlive hidle handle
  room := h.room
  file := h.file
  stop hstop := absurd hstop (h.not_stop (by simp [hlive]) (by simp [hlive]))
  acks := h.acks
  calls t := by
    show CallKept _ (w.calls t)
    rw [hidle t]
    trivial
  joining hj := absurd hj hne
  returns := h.returns

theorem sendShutdown (h : w.Kept existing) (hclosing : w.handle = .closing) :
    ({ w with chan := w.chan ++ [.shutdown], handle := .joining } : World Tid).Kept
      existing where
  toMarked := h.toMarked.sendShutdown hclosing
  room := h.room
  file := h.file
  stop hstop := absurd hstop (h.not_stop (by simp [hclosing]) (by simp [hclosing]))
  acks := h.acks
  calls t := by
    show CallKept _ (w.calls t)
    rw [h.idle_of_not_live (by simp [hclosing]) t]
    trivial
  joining _ := .inl (by simp)
  returns := h.returns

variable [DecidableEq Tid]

theorem append (h : w.Kept existing) (hlive : w.handle = .live) (t : Tid) (r : WalRecord) :
    (w.act (.append t r)).Kept existing := by
  simp only [act]
  split
  · split
    · exact h.accept hlive r
    · exact h
  · exact h.setCall (fun _ => hlive) trivial

theorem send (h : w.Kept existing) {t : Tid} (hsend : Sending (w.calls t)) :
    (w.act (.send t)).Kept existing := by
  have hcall := h.calls t
  have hbusy := h.busy t
  cases hc : w.calls t with
  | idle | waiting =>
      rw [hc] at hsend
      exact hsend.elim
  | sendRecord r =>
      have hlive := hbusy (by simp [hc])
      simp only [act, hc]
      refine (h.accept hlive r).setCall (fun _ => hlive) ?_
      simp [CallKept, World.accept]
  | sendFlush own =>
      have hlive := hbusy (by simp [hc])
      rw [hc] at hcall
      simp only [act, hc]
      refine (h.ask hlive).setCall (fun _ => hlive) ⟨w.accepted, ?_, hcall⟩
      simp [World.ask]

theorem done (h : w.Kept existing) {t : Tid} {ack : Nat} {own : Option WalRecord}
    (hc : w.calls t = .waiting ack own) : (w.act (.done t)).Kept existing := by
  have hcall := h.calls t
  rw [hc] at hcall
  have hidle : (w.setCall t .idle).Kept existing := 
    h.setCall (fun hne => absurd rfl hne) trivial
  simp only [act, hc]
  split
  next hok =>
    obtain ⟨before, hbefore, hown⟩ := hcall
    obtain ⟨before', hbefore', hprefix⟩ := h.acks ack true hok
    obtain rfl : before' = before := Option.some.inj (hbefore'.symm.trans hbefore)
    refine { hidle with returns := ?_ }
    intro ret hret
    rcases List.mem_append.mp hret with hret | hret
    · exact h.returns ret hret
    · obtain rfl := List.mem_singleton.mp hret
      have hget : w.asked.getD ack [] = before' := by simp [List.getD, hbefore]
      show (∀ r ∈ own, r ∈ w.asked.getD ack []) ∧ existing ++ encodeAll (w.asked.getD ack []) <+: _
      rw [hget]
      exact ⟨hown, hprefix⟩
  next => exact hidle

theorem act (h : w.Kept existing) (a : Act Tid) (ha : w.Allowed a) (hok : a.Succeeds) :
    (w.act a).Kept existing := by
  cases a with
  | append t r => exact h.append ha.1 t r
  | flush t => exact h.setCall (fun _ => ha.1) fun _ hr => by cases hr
  | send t => exact h.send ha.1
  | done t =>
      obtain ⟨ack, own, hc, -⟩ := ha
      exact h.done hc
  | drop skipShutdown =>
      refine h.drop ha.1 ha.2 ?_
      cases skipShutdown <;> decide
  | sendShutdown => exact h.sendShutdown ha.1
  | recv =>
      obtain ⟨hready, hne⟩ := ha
      simp only [World.act]
      split
      next m chan hchan => exact h.recv hready hchan
      next => exact h
  | timeout => exact h.timeout ha.1
  | disconnected => exact h.disconnected ha.1 ha.2.1 ha.2.2
  | writeAll failedAfter =>
      obtain ⟨after, hs⟩ := ha
      obtain rfl : failedAfter = none := hok
      exact h.writeAll hs
  | flushFile ok =>
      obtain ⟨after, hs⟩ := ha
      obtain rfl : ok = true := hok
      exact h.flushFile hs
  | syncAll ok =>
      obtain ⟨after, hs⟩ := ha
      obtain rfl : ok = true := hok
      exact h.syncAll hs
  | goOn =>
      obtain ⟨after, ok, hs⟩ := ha
      exact h.goOn hs

end Kept

end World

/-! ## After the drop -/

/-- A bound on the steps of the flusher up to its end, or to its next message. -/
def Flusher.pending (f : Flusher) : Nat :=
  (match f.stage with
    | .ready => if f.buf = [] then 1 else 6
    | .write _ => 5
    | .flush _ => 4
    | .sync _ => 3
    | .written _ _ => 2
    | .stopped => 0) +
    if f.stage.after = .stop then 0 else 10

theorem Flusher.pending_writeBuf_le (f : Flusher) (after : After) :
    (f.writeBuf after).pending ≤ 5 + if after = .stop then 0 else 10 := by
  rw [Flusher.pending, Flusher.after_writeBuf]
  refine Nat.add_le_add_right ?_ _
  by_cases hbuf : f.buf = []
  · simp [Flusher.writeBuf, hbuf]
  · simp [Flusher.writeBuf, hbuf]

theorem Flusher.pending_onReceived_msg_le {f : Flusher} (hready : f.stage = .ready) (m : Msg) :
    (f.onReceived (.msg m)).pending ≤ f.pending + 5 := by
  have hf : 11 ≤ f.pending := by
    simp only [Flusher.pending, hready, Stage.after]
    split <;> simp
  have hwrite : ∀ (g : Flusher) (after : After), (g.writeBuf after).pending ≤ f.pending + 5 := by
    intro g after
    have hle := g.pending_writeBuf_le after
    split at hle <;> omega
  cases m with
  | record r =>
      simp only [Flusher.onReceived]
      split
      · exact hwrite _ _
      · simp only [Flusher.pending, hready, Stage.after] at hf ⊢
        split <;> split <;> simp_all
  | flush ack => exact hwrite _ _
  | shutdown => exact hwrite _ _

namespace World

variable {Tid : Type} {existing : List UInt8} {w : World Tid}

/-- A bound on the steps up to the flusher's end, once the handle is dropped. -/
def pending (w : World Tid) : Nat :=
  8 * w.chan.length + (if w.handle = .closing then 9 else 0) + w.flusher.pending

namespace Kept

/-- The flusher can go on until it ends. -/
theorem progress (h : w.Kept existing) (hdrop : w.handle ≠ .live)
    (hs : w.flusher.stage ≠ .stopped) : ∃ a, w.Allowed a ∧ a.Succeeds := by
  cases hstage : w.flusher.stage with
  | write after => exact ⟨.writeAll none, ⟨after, hstage⟩, rfl⟩
  | flush after => exact ⟨.flushFile true, ⟨after, hstage⟩, rfl⟩
  | sync after => exact ⟨.syncAll true, ⟨after, hstage⟩, rfl⟩
  | written after ok => exact ⟨.goOn, ⟨after, ok, hstage⟩, trivial⟩
  | stopped => exact absurd hstage hs
  | ready =>
      by_cases hchan : w.chan = []
      · cases hh : w.handle with
        | live => exact absurd hh hdrop
        | closing => exact ⟨.sendShutdown, ⟨hh, by simpa [hchan] using h.room⟩, trivial⟩
        | joining =>
            have hmem := h.joining_ready hstage hh
            rw [hchan] at hmem
            exact absurd hmem List.not_mem_nil
        | gone => exact ⟨.disconnected, ⟨hstage, hchan, hh⟩, trivial⟩
      · exact ⟨.recv, ⟨hstage, hchan⟩, trivial⟩

variable [DecidableEq Tid]

/-- Every step after the drop brings the end nearer. -/
theorem pending_act (h : w.Kept existing) (hdrop : w.handle ≠ .live) {a : Act Tid}
    (ha : w.Allowed a) (hok : a.Succeeds) :
    (w.act a).handle ≠ .live ∧ (w.act a).pending < w.pending := by
  have hidle := h.idle_of_not_live hdrop
  cases a with
  | append t r => exact absurd ha.1 hdrop
  | flush t => exact absurd ha.1 hdrop
  | send t =>
      obtain ⟨hsend, -⟩ := ha
      rw [hidle t] at hsend
      exact hsend.elim
  | done t =>
      obtain ⟨ack, own, hc, -⟩ := ha
      exact absurd ((hidle t).symm.trans hc) nofun
  | drop skipShutdown => exact absurd ha.1 hdrop
  | sendShutdown =>
      refine ⟨by simp [World.act], ?_⟩
      simp only [pending, World.act, ha.1, List.length_append, List.length_singleton]
      simp
      omega
  | recv =>
      obtain ⟨hready, hne⟩ := ha
      obtain ⟨m, chan, hchan⟩ := List.exists_cons_of_ne_nil hne
      have hle := Flusher.pending_onReceived_msg_le hready m
      simp only [pending, World.act, hchan, List.length_cons]
      exact ⟨hdrop, by omega⟩
  | timeout =>
      obtain ⟨hready, hne⟩ := ha
      refine ⟨hdrop, Nat.add_lt_add_left ?_ _⟩
      simp [World.act, Flusher.pending, Flusher.onReceived, Flusher.writeBuf, hready, hne,
        Stage.after]
  | disconnected =>
      obtain ⟨hready, -, -⟩ := ha
      refine ⟨hdrop, Nat.add_lt_add_left ?_ _⟩
      have hle := w.flusher.pending_writeBuf_le .stop
      have hf : 5 < w.flusher.pending := by
        simp only [Flusher.pending, hready, Stage.after]
        split <;> simp
      exact Nat.lt_of_le_of_lt hle hf
  | writeAll failedAfter =>
      obtain ⟨after, hs⟩ := ha
      obtain rfl : failedAfter = none := hok
      refine ⟨hdrop, Nat.add_lt_add_left ?_ _⟩
      simp [World.act, Flusher.pending, Flusher.writeAll, hs, Stage.after]
  | flushFile ok =>
      obtain ⟨after, hs⟩ := ha
      obtain rfl : ok = true := hok
      refine ⟨hdrop, Nat.add_lt_add_left ?_ _⟩
      simp [World.act, Flusher.pending, Flusher.flushFile, hs, Stage.after]
  | syncAll ok =>
      obtain ⟨after, hs⟩ := ha
      obtain rfl : ok = true := hok
      refine ⟨hdrop, Nat.add_lt_add_left ?_ _⟩
      simp [World.act, Flusher.pending, Flusher.syncAll, hs, Stage.after]
  | goOn =>
      obtain ⟨after, ok, hs⟩ := ha
      obtain ⟨-, hbuf⟩ : w.flusher.file = w.flusher.synced ∧ w.flusher.buf = [] := by
        simpa [Flusher.FileKept, hs] using h.file
      cases after with
      | resume => exact ⟨by simpa [World.act, hs] using hdrop,
          by simp [pending, World.act, hs, Flusher.pending, Stage.after, hbuf]⟩
      | answer ack => exact ⟨by simpa [World.act, hs] using hdrop,
          by simp [pending, World.act, hs, Flusher.pending, Stage.after, hbuf]⟩
      | stop => exact ⟨by simpa [World.act, hs] using hdrop,
          by simp [pending, World.act, hs, Flusher.pending, Stage.after]⟩

/-- A run after the drop has an end. -/
theorem length_le_pending (h : w.Kept existing) (hdrop : w.handle ≠ .live) {as : List (Act Tid)}
    (has : Runs.AllAllowed World.act (fun w a => w.Allowed a ∧ a.Succeeds) w as) :
    as.length ≤ w.pending := by
  induction as generalizing w with
  | nil => exact Nat.zero_le _
  | cons a as ih =>
      obtain ⟨⟨ha, hok⟩, has⟩ := has
      obtain ⟨hdrop', hlt⟩ := h.pending_act hdrop ha hok
      exact Nat.lt_of_le_of_lt (ih (h.act a ha hok) hdrop' has) hlt

end Kept

/-! ## The log -/

variable [DecidableEq Tid] {mode : WalMode} {queueCap : Nat}

/-- In every state of a log whose file operations succeed, once the flusher has ended the
file has the encodings of the records accepted, in order, behind what it had before.  Each
call that returned has its own record and all that were accepted before it synced.  After
the drop the flusher ends: it is not stuck, and no run is longer than `pending`.  And the
records can be told from the file. -/
theorem fidelity (h : Runs.Reachable act (fun w a => w.Allowed a ∧ a.Succeeds)
    (new mode queueCap existing : World Tid) w) :
    (w.flusher.stage = .stopped → w.flusher.file = existing ++ encodeAll w.accepted ∧
        ∀ rs, w.flusher.file = existing ++ encodeAll rs → rs = w.accepted) ∧
      (∀ ret ∈ w.returns, ret.Durable existing) ∧
      (w.handle ≠ .live →
        (w.flusher.stage ≠ .stopped → ∃ a, w.Allowed a ∧ a.Succeeds) ∧
        ∀ as, Runs.AllAllowed act (fun w a => w.Allowed a ∧ a.Succeeds) w as →
          as.length ≤ w.pending) ∧
      ∀ r : WalRecord, r.encode.length = 33 := by
  have hkept : w.Kept existing :=
    h.invariant (kept_new mode queueCap) fun _ a _ ha hk => hk.act a ha.1 ha.2
  refine ⟨fun hs => ?_, hkept.returns, fun hdrop => ?_, length_encode⟩
  · obtain ⟨hfile, hbuf⟩ : w.flusher.file = w.flusher.synced ∧ w.flusher.buf = [] := by
      simpa [Flusher.FileKept, hs] using hkept.file
    have hqueue := hkept.queue
    rw [(hkept.stop (by rw [hs]; rfl)).1, hbuf, List.append_nil, ← hfile] at hqueue
    refine ⟨hqueue, fun rs hrs => ?_⟩
    rw [hrs] at hqueue
    exact encodeAll_injective (List.append_cancel_left hqueue)
  · exact ⟨hkept.progress hdrop, fun as has => hkept.length_le_pending hdrop has⟩

/-- A thread appends in `Sync` mode, the handle is dropped, and the flusher ends. -/
def syncRun (r : WalRecord) : List (Act Unit) :=
  [.append () r, .send (), .recv, .send (), .recv, .writeAll none, .flushFile true, .syncAll true,
    .goOn, .done (), .drop false, .sendShutdown, .recv, .goOn]

theorem fidelity_syncRun :
    let w := (syncRun ⟨.fill, 1, 2, -3, 4⟩).foldl act (new .sync 1 [] : World Unit)
    w.flusher.stage = .stopped ∧
      w.flusher.file = [] ++ encodeAll [⟨.fill, 1, 2, -3, 4⟩] ∧ w.returns.length = 1 := by
  have hreach : Runs.Reachable act (fun w a => w.Allowed a ∧ a.Succeeds)
      (new .sync 1 [] : World Unit)
      ((syncRun ⟨.fill, 1, 2, -3, 4⟩).foldl act (new .sync 1 [] : World Unit)) := by
    refine .foldl .start ⟨⟨⟨rfl, rfl⟩, trivial⟩, ⟨⟨trivial, by decide⟩, trivial⟩,
      ⟨⟨rfl, nofun⟩, trivial⟩, ⟨⟨trivial, by decide⟩, trivial⟩, ⟨⟨rfl, nofun⟩, trivial⟩,
      ⟨⟨_, rfl⟩, rfl⟩, ⟨⟨_, rfl⟩, rfl⟩, ⟨⟨_, rfl⟩, rfl⟩, ⟨⟨_, _, rfl⟩, trivial⟩,
      ⟨⟨_, _, rfl, nofun⟩, trivial⟩, ⟨⟨rfl, fun _ => rfl⟩, trivial⟩, ⟨⟨rfl, by decide⟩, trivial⟩,
      ⟨⟨rfl, nofun⟩, trivial⟩, ⟨⟨_, _, rfl⟩, trivial⟩, trivial⟩
  exact ⟨rfl, ((fidelity hreach).1 rfl).1, rfl⟩

end World

end MatchWal
