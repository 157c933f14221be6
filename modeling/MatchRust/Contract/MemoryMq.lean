import Mathlib

/-!
# The memory message source

A message source that lives in memory.  A message that is published goes to the handler at once, if
there is one and the source runs, and into the inbox otherwise.  `start` sets the handler, lets the
source run, hands over what is in the inbox and leaves a poller behind, if it can spawn one.  That
looks into the inbox again and again until the source is stopped.  The spot service has the same
source.

Threads may publish, start and stop in any order, also several at once.  The calls are split where a
lock is taken or released and where the flag is read or written.  No message is lost and none
is handed over twice: every message that was published is handed over, or in the inbox, or in the
hands of a thread (`published_once`).  The order is not kept, though.  A message in the inbox may be
overtaken by one that is published while the source starts.
-/

namespace MemoryMq

/-- Where the call of a thread stands. -/
inductive Phase (M : Type) where
  | idle
  /-- `publish`, before the lock of the handler is taken. -/
  | publish (m : M)
  /-- `publish`, with the lock and a handler, before the flag is read. -/
  | check (m : M)
  /-- `publish`, with the lock, before the handler is called. -/
  | deliver (m : M)
  /-- `publish` or `enqueue_inbox`, before the message is put into the inbox. -/
  | push (m : M)
  /-- `start`, before the handler is set. -/
  | setHandler
  /-- `start`, before the flag is set. -/
  | setRunning
  /-- `start`, before the inbox is emptied. -/
  | drain
  /-- `start`, with messages of the inbox to hand over. -/
  | hand (pending : List M)
  /-- `start`, before the poller is spawned. -/
  | spawn
  /-- The poller, before the flag is read. -/
  | poll
  /-- The poller, before the inbox is emptied. -/
  | take
  /-- The poller, before the lock of the handler is taken. -/
  | batch (batch : List M)
  /-- The poller, with the lock and messages to hand over. -/
  | handBatch (batch : List M)

/-- The messages in the hands of a thread. -/
def Phase.messages {M : Type} : Phase M → List M
  | .publish m | .check m | .deliver m | .push m => [m]
  | .hand ms | .batch ms | .handBatch ms => ms
  | _ => []

/-- The thread has the lock of the handler. -/
def Phase.Holds {M : Type} : Phase M → Prop
  | .check _ | .deliver _ | .handBatch _ => True
  | _ => False

/-- The thread has set the handler, or was left behind by one that has. -/
def Phase.Started {M : Type} : Phase M → Prop
  | .setRunning | .drain | .hand _ | .spawn | .poll | .take | .batch _ | .handBatch _ => True
  | _ => False

/-- The source. -/
structure Source (Tid M : Type) where
  inbox : List M := []
  running : Bool := false
  /-- Whether there is a handler. -/
  handler : Bool := false
  /-- The thread that has the lock of the handler. -/
  lock : Option Tid := none
  thread : Tid → Phase M := fun _ => .idle
  /-- The messages handed over. -/
  delivered : List M := []
  /-- The messages published. -/
  published : List M := []
  /-- The messages a poller threw away. -/
  dropped : List M := []

/-- The steps of the source. -/
inductive Act (Tid M : Type) where
  | publish (t : Tid) (m : M)
  | enqueueInbox (t : Tid) (m : M)
  | start (t : Tid)
  | stop
  /-- The next step of a thread. -/
  | resume (t : Tid)
  /-- A thread that starts the source spawns a poller. -/
  | spawn (t poller : Tid)
  /-- It cannot spawn one, and `start` returns the error. -/
  | spawnFails (t : Tid)

namespace Source

variable {Tid M : Type} [DecidableEq Tid]

/-- A thread goes on elsewhere. -/
def setThread (w : Source Tid M) (t : Tid) (c : Phase M) : Source Tid M :=
  { w with thread := Function.update w.thread t c }

/-- The next step of a thread.  One that needs a lock waits for it. -/
def resume (w : Source Tid M) (t : Tid) : Source Tid M :=
  match w.thread t with
  | .idle | .spawn => w
  | .publish m =>
      if w.lock.isSome then w
      else if w.handler then { w.setThread t (.check m) with lock := some t }
      else w.setThread t (.push m)
  | .check m =>
      if w.running then w.setThread t (.deliver m)
      else { w.setThread t (.push m) with lock := none }
  | .deliver m => { w.setThread t .idle with lock := none, delivered := w.delivered ++ [m] }
  | .push m => { w.setThread t .idle with inbox := w.inbox ++ [m] }
  | .setHandler =>
      if w.lock.isSome then w else { w.setThread t .setRunning with handler := true }
  | .setRunning => { w.setThread t .drain with running := true }
  | .drain => { w.setThread t (.hand w.inbox) with inbox := [] }
  | .hand [] => w.setThread t .spawn
  | .hand (m :: pending) =>
      { w.setThread t (.hand pending) with delivered := w.delivered ++ [m] }
  | .poll => w.setThread t (if w.running then .take else .idle)
  | .take => { w.setThread t (.batch w.inbox) with inbox := [] }
  | .batch batch =>
      if w.lock.isSome then w
      else if w.handler then { w.setThread t (.handBatch batch) with lock := some t }
      else { w.setThread t .poll with dropped := w.dropped ++ batch }
  | .handBatch [] => { w.setThread t .poll with lock := none }
  | .handBatch (m :: batch) =>
      { w.setThread t (.handBatch batch) with delivered := w.delivered ++ [m] }

/-- One step. -/
def act (w : Source Tid M) : Act Tid M → Source Tid M
  | .publish t m =>
      match w.thread t with
      | .idle => { w.setThread t (.publish m) with published := w.published ++ [m] }
      | _ => w
  | .enqueueInbox t m =>
      match w.thread t with
      | .idle => { w.setThread t (.push m) with published := w.published ++ [m] }
      | _ => w
  | .start t =>
      match w.thread t with
      | .idle => w.setThread t .setHandler
      | _ => w
  | .stop => { w with running := false }
  | .resume t => w.resume t
  | .spawn t poller =>
      match w.thread t, w.thread poller with
      | .spawn, .idle => (w.setThread t .idle).setThread poller .poll
      | _, _ => w
  | .spawnFails t =>
      match w.thread t with
      | .spawn => w.setThread t .idle
      | _ => w

/-- The source after some steps. -/
def run (acts : List (Act Tid M)) : Source Tid M := acts.foldl act {}

/-! ## Messages -/

variable [Fintype Tid]

/-- The messages in the hands of threads. -/
def inFlight (w : Source Tid M) : Multiset M := ∑ t, ((w.thread t).messages : Multiset M)

/-- What is known of a source after any steps. -/
structure Sound (w : Source Tid M) : Prop where
  conserved : (w.published : Multiset M) = w.delivered + w.inbox + w.inFlight
  holds : ∀ t, (w.thread t).Holds ↔ w.lock = some t
  started : ∀ t, (w.thread t).Started → w.handler = true
  dropped : w.dropped = []

variable {w w' : Source Tid M} {t : Tid} {old new : Phase M}

theorem inFlight_update (hold : w.thread t = old)
    (hnew : w'.thread = Function.update w.thread t new) :
    w'.inFlight + old.messages = w.inFlight + new.messages := by
  have hothers : ∑ u ∈ Finset.univ.erase t, ((w'.thread u).messages : Multiset M) =
      ∑ u ∈ Finset.univ.erase t, ((w.thread u).messages : Multiset M) :=
    Finset.sum_congr rfl fun u hu => by
      rw [hnew, Function.update_of_ne (Finset.ne_of_mem_erase hu)]
  have hself : w'.thread t = new := by rw [hnew, Function.update_self]
  rw [inFlight, inFlight, ← Finset.add_sum_erase _ _ (Finset.mem_univ t),
    ← Finset.add_sum_erase Finset.univ (fun u => ((w.thread u).messages : Multiset M))
      (Finset.mem_univ t), hothers, hself, hold]
  abel

omit [DecidableEq Tid] in
theorem Sound.on (h : Sound w) (hold : w.thread t = old) (hstarted : old.Started) :
    w.handler = true := h.started t (hold ▸ hstarted)

/-- What a thread does with messages.  What it had in its hands, took from the inbox or publishes is
handed over, or in the inbox, or in its hands. -/
def Passes (w w' : Source Tid M) (old new : Phase M) : Prop :=
  (w'.published : Multiset M) + (w.delivered + w.inbox) + old.messages =
    w.published + (w'.delivered + w'.inbox) + new.messages

/-- A thread moves on.  Only it takes or releases the lock. -/
theorem Sound.move (h : Sound w) (hold : w.thread t = old)
    (hnew : w'.thread = Function.update w.thread t new) (hpasses : Passes w w' old new)
    (hholds : new.Holds ↔ w'.lock = some t)
    (hlock : ∀ u, u ≠ t → (w.lock = some u ↔ w'.lock = some u))
    (hstarted : new.Started → w'.handler = true) (hhandler : w.handler = true → w'.handler = true)
    (hdropped : w'.dropped = w.dropped) : Sound w' := by
  refine ⟨?_, fun u => ?_, fun u hu => ?_, hdropped.trans h.dropped⟩
  · have hflight := inFlight_update hold hnew
    rw [Passes, h.conserved] at hpasses
    refine add_right_cancel (b := (w.delivered + w.inbox + old.messages : Multiset M)) ?_
    calc (w'.published : Multiset M) + (w.delivered + w.inbox + old.messages)
        = w'.published + (w.delivered + w.inbox) + old.messages := by abel
      _ = w.delivered + w.inbox + w.inFlight + (w'.delivered + w'.inbox) + new.messages := hpasses
      _ = w.delivered + w.inbox + (w'.delivered + w'.inbox) + (w.inFlight + new.messages) := by abel
      _ = w.delivered + w.inbox + (w'.delivered + w'.inbox) + (w'.inFlight + old.messages) := by
          rw [hflight]
      _ = w'.delivered + w'.inbox + w'.inFlight + (w.delivered + w.inbox + old.messages) := by abel
  · rw [hnew]
    rcases eq_or_ne u t with rfl | hne
    · rw [Function.update_self]
      exact hholds
    · rw [Function.update_of_ne hne]
      exact (h.holds u).trans (hlock u hne)
  · rw [hnew] at hu
    rcases eq_or_ne u t with rfl | hne
    · rw [Function.update_self] at hu
      exact hstarted hu
    · rw [Function.update_of_ne hne] at hu
      exact hhandler (h.started u hu)

/-- A thread that does not touch the lock, or keeps it. -/
theorem Sound.goOn (h : Sound w) (hold : w.thread t = old)
    (hnew : w'.thread = Function.update w.thread t new) (hpasses : Passes w w' old new)
    (hholds : new.Holds ↔ old.Holds) (hlock : w'.lock = w.lock)
    (hstarted : new.Started → w'.handler = true) (hhandler : w.handler = true → w'.handler = true)
    (hdropped : w'.dropped = w.dropped) : Sound w' := by
  refine h.move hold hnew hpasses ?_ (fun u _ => by rw [hlock]) hstarted hhandler hdropped
  rw [hlock, ← h.holds t, hold]
  exact hholds

/-- A thread that takes the lock. -/
theorem Sound.acquire (h : Sound w) (hfree : w.lock = none) (hold : w.thread t = old)
    (hnew : w'.thread = Function.update w.thread t new) (hpasses : Passes w w' old new)
    (hholds : new.Holds) (hlock : w'.lock = some t) (hon : w'.handler = true)
    (hdropped : w'.dropped = w.dropped) : Sound w' := by
  refine h.move hold hnew hpasses (iff_of_true hholds hlock) (fun u hu => ?_) (fun _ => hon)
    (fun _ => hon) hdropped
  rw [hfree, hlock]
  exact iff_of_false (Option.some_ne_none u).symm fun heq => hu (Option.some.inj heq).symm

/-- A thread that releases the lock. -/
theorem Sound.release (h : Sound w) (hold : w.thread t = old)
    (hnew : w'.thread = Function.update w.thread t new) (hpasses : Passes w w' old new)
    (hheld : old.Holds) (hholds : ¬ new.Holds) (hlock : w'.lock = none)
    (hstarted : new.Started → w'.handler = true) (hhandler : w'.handler = w.handler)
    (hdropped : w'.dropped = w.dropped) : Sound w' := by
  have hmine := (h.holds t).mp (hold ▸ hheld)
  refine h.move hold hnew hpasses
    (iff_of_false hholds (by rw [hlock]; exact (Option.some_ne_none t).symm)) (fun u hu => ?_)
    hstarted (fun hw => hhandler.trans hw) hdropped
  rw [hmine, hlock]
  exact iff_of_false (fun heq => hu (Option.some.inj heq).symm) (Option.some_ne_none u).symm

omit [DecidableEq Tid] [Fintype Tid] in
/-- A message is handed over. -/
theorem passes_handed {m : M} (hold : old.messages = m :: new.messages)
    (hpublished : w'.published = w.published) (hinbox : w'.inbox = w.inbox)
    (hdelivered : w'.delivered = w.delivered ++ [m]) : Passes w w' old new := by
  rw [Passes, hold, hpublished, hinbox, hdelivered, ← Multiset.coe_add, ← Multiset.cons_coe,
    ← Multiset.singleton_add, Multiset.coe_singleton]
  abel

omit [DecidableEq Tid] [Fintype Tid] in
/-- The inbox is emptied. -/
theorem passes_taken (hold : old.messages = []) (hnew : new.messages = w.inbox)
    (hpublished : w'.published = w.published) (hinbox : w'.inbox = [])
    (hdelivered : w'.delivered = w.delivered) : Passes w w' old new := by
  rw [Passes, hold, hnew, hpublished, hinbox, hdelivered, Multiset.coe_nil]
  abel

omit [DecidableEq Tid] [Fintype Tid] in
/-- A message is put into the inbox. -/
theorem passes_put {m : M} (hold : old.messages = m :: new.messages)
    (hpublished : w'.published = w.published) (hinbox : w'.inbox = w.inbox ++ [m])
    (hdelivered : w'.delivered = w.delivered) : Passes w w' old new := by
  rw [Passes, hold, hpublished, hinbox, hdelivered, ← Multiset.coe_add, ← Multiset.cons_coe,
    ← Multiset.singleton_add, Multiset.coe_singleton]
  abel

theorem Sound.resume (h : Sound w) (t : Tid) : Sound (w.resume t) := by
  -- The facts are given in the order: the thread, its messages, the lock, the handler, the drops.
  rw [Source.resume]
  split
  next => exact h
  next => exact h
  next m hphase =>
    split
    next => exact h
    next hfree =>
      split
      next hon =>
        exact h.acquire (Option.not_isSome_iff_eq_none.mp hfree) hphase rfl rfl trivial rfl hon rfl
      next => exact h.goOn hphase rfl rfl .rfl rfl False.elim id rfl
  next m hphase =>
    split
    next => exact h.goOn hphase rfl rfl .rfl rfl False.elim id rfl
    next => exact h.release hphase rfl rfl trivial id rfl False.elim rfl rfl
  next m hphase =>
    exact h.release hphase rfl (passes_handed rfl rfl rfl rfl) trivial id rfl False.elim rfl rfl
  next m hphase =>
    exact h.goOn hphase rfl (passes_put rfl rfl rfl rfl) .rfl rfl False.elim id rfl
  next hphase =>
    split
    next => exact h
    next => exact h.goOn hphase rfl rfl .rfl rfl (fun _ => rfl) (fun _ => rfl) rfl
  next hphase =>
    exact h.goOn hphase rfl rfl .rfl rfl (fun _ => h.on hphase trivial) id rfl
  next hphase =>
    exact h.goOn hphase rfl (passes_taken rfl rfl rfl rfl rfl) .rfl rfl
      (fun _ => h.on hphase trivial) id rfl
  next hphase =>
    exact h.goOn hphase rfl rfl .rfl rfl (fun _ => h.on hphase trivial) id rfl
  next m pending hphase =>
    exact h.goOn hphase rfl (passes_handed rfl rfl rfl rfl) .rfl rfl
      (fun _ => h.on hphase trivial) id rfl
  next hphase =>
    split
    next =>
      exact h.goOn hphase rfl rfl .rfl rfl (fun _ => h.on hphase trivial) id rfl
    next => exact h.goOn hphase rfl rfl .rfl rfl False.elim id rfl
  next hphase =>
    exact h.goOn hphase rfl (passes_taken rfl rfl rfl rfl rfl) .rfl rfl
      (fun _ => h.on hphase trivial) id rfl
  next batch hphase =>
    have hon := h.on hphase trivial
    split
    next => exact h
    next hfree =>
      exact h.acquire (Option.not_isSome_iff_eq_none.mp hfree) hphase rfl rfl trivial rfl hon rfl
  next hphase =>
    exact h.release hphase rfl rfl trivial id rfl
      (fun _ => h.on hphase trivial) rfl rfl
  next m batch hphase =>
    exact h.goOn hphase rfl (passes_handed rfl rfl rfl rfl) .rfl rfl
      (fun _ => h.on hphase trivial) id rfl

omit [DecidableEq Tid] [Fintype Tid] in
/-- A message is published. -/
theorem passes_published {m : M} (hold : old.messages = []) (hnew : new.messages = [m])
    (hpublished : w'.published = w.published ++ [m]) (hinbox : w'.inbox = w.inbox)
    (hdelivered : w'.delivered = w.delivered) : Passes w w' old new := by
  rw [Passes, hold, hnew, hpublished, hinbox, hdelivered, ← Multiset.coe_add, Multiset.coe_nil]
  abel

theorem Sound.act (h : Sound w) (a : Act Tid M) : Sound (w.act a) := by
  cases a with
  | publish t m =>
      rw [Source.act]
      split
      next hphase =>
        exact h.goOn hphase rfl (passes_published rfl rfl rfl rfl rfl) .rfl rfl False.elim id rfl
      next => exact h
  | enqueueInbox t m =>
      rw [Source.act]
      split
      next hphase =>
        exact h.goOn hphase rfl (passes_published rfl rfl rfl rfl rfl) .rfl rfl False.elim id rfl
      next => exact h
  | start t =>
      rw [Source.act]
      split
      next hphase => exact h.goOn hphase rfl rfl .rfl rfl False.elim id rfl
      next => exact h
  | stop => exact ⟨h.conserved, h.holds, h.started, h.dropped⟩
  | resume t => exact h.resume t
  | spawn t poller =>
      rw [Source.act]
      split
      next hspawn hidle =>
        have hne : poller ≠ t := fun heq => by rw [heq, hspawn] at hidle; cases hidle
        have hon := h.on hspawn trivial
        have hleft : Sound (w.setThread t .idle) :=
          h.goOn hspawn rfl rfl .rfl rfl False.elim id rfl
        refine hleft.goOn (?_ : _ = Phase.idle) rfl rfl .rfl rfl (fun _ => hon) id rfl
        exact (Function.update_of_ne hne _ _).trans hidle
      next => exact h
  | spawnFails t =>
      rw [Source.act]
      split
      next hspawn => exact h.goOn hspawn rfl rfl .rfl rfl False.elim id rfl
      next => exact h

omit [DecidableEq Tid] in
theorem sound_empty : Sound ({} : Source Tid M) where
  conserved := by
    have hflight : ({} : Source Tid M).inFlight = 0 := Finset.sum_eq_zero fun _ _ => rfl
    rw [hflight]
    rfl
  holds _ := iff_of_false id (Option.some_ne_none _).symm
  started _ := False.elim
  dropped := rfl

theorem sound_run (acts : List (Act Tid M)) : Sound (run acts : Source Tid M) := by
  suffices h : ∀ w : Source Tid M, Sound w → Sound (acts.foldl Source.act w) from h {} sound_empty
  induction acts with
  | nil => exact fun _ hw => hw
  | cons a acts ih => exact fun w hw => ih _ (hw.act a)

/-! ## The poller -/

omit [Fintype Tid] in
theorem handBatch_done {u : Tid} (batch : List M) (w : Source Tid M)
    (hphase : w.thread u = .handBatch batch) :
    (Source.resume · u)^[batch.length + 1] w =
      { w.setThread u .poll with lock := none, delivered := w.delivered ++ batch } := by
  induction batch generalizing w with
  | nil =>
      have hnext : w.resume u = { w.setThread u .poll with lock := none } := by
        simp only [Source.resume, hphase, setThread]
      rw [List.append_nil]
      exact hnext
  | cons m batch ih =>
      have hnext : w.resume u =
          { w.setThread u (.handBatch batch) with delivered := w.delivered ++ [m] } := by
        simp only [Source.resume, hphase, setThread]
      rw [List.length_cons, Function.iterate_succ_apply, hnext,
        ih _ (Function.update_self u _ w.thread)]
      simp only [setThread, Function.update_idem, List.append_assoc, List.singleton_append]

/-- A poller that finds the lock free hands over what is in the inbox, in order, and polls again. -/
theorem Sound.catchesUp (h : Sound w) {u : Tid} (hrunning : w.running = true)
    (hphase : w.thread u = .poll) (hfree : w.lock = none) :
    (Source.resume · u)^[w.inbox.length + 4] w =
      { w with inbox := [], delivered := w.delivered ++ w.inbox } := by
  have hon := h.on hphase trivial
  have htake : w.resume u = w.setThread u .take := by
    rw [Source.resume, hphase]
    exact congrArg (w.setThread u) (if_pos hrunning)
  have hbatch : (w.setThread u .take).resume u =
      { w.setThread u (.batch w.inbox) with inbox := [] } := by
    simp only [Source.resume, setThread, Function.update_self, Function.update_idem]
  have hhand : ({ w.setThread u (.batch w.inbox) with inbox := [] } : Source Tid M).resume u =
      { w.setThread u (.handBatch w.inbox) with inbox := [], lock := some u } := by
    simp only [Source.resume, setThread, Function.update_self, Function.update_idem, hfree, hon,
      Option.isSome_none, Bool.false_eq_true, if_false, if_true]
  rw [Function.iterate_succ_apply, htake, Function.iterate_succ_apply, hbatch,
    Function.iterate_succ_apply, hhand, handBatch_done _ _ (Function.update_self u _ w.thread)]
  simp only [setThread, Function.update_idem, ← hphase, Function.update_eq_self, ← hfree]

/-- A thread that has the lock gives it back, whatever the other threads do. -/
theorem Sound.released (h : Sound w) {u : Tid} (hlock : w.lock = some u) :
    ∃ n, ((Source.resume · u)^[n] w).lock = none := by
  have hholds := (h.holds u).mpr hlock
  cases hphase : w.thread u with
  | check m =>
      by_cases hrunning : w.running = true
      · have hnext : w.resume u = w.setThread u (.deliver m) := by
          simp only [Source.resume, hphase, hrunning, if_true]
        refine ⟨2, ?_⟩
        rw [Function.iterate_succ_apply, hnext, Function.iterate_one]
        simp only [Source.resume, setThread, Function.update_self]
      · refine ⟨1, ?_⟩
        simp only [Function.iterate_one, Source.resume, hphase, if_neg hrunning]
  | deliver m =>
      refine ⟨1, ?_⟩
      simp only [Function.iterate_one, Source.resume, hphase]
  | handBatch batch => exact ⟨_, by rw [handBatch_done batch w hphase]⟩
  | _ => rw [hphase] at hholds; exact hholds.elim

/-- What the source does with the messages published. -/
structure PublishedOnce (w : Source Tid M) : Prop where
  /-- Every message published was handed over, waits in the inbox or is in the hands of a thread,
  and as often as it was published. -/
  conserved : (w.published : Multiset M) = w.delivered + w.inbox + w.inFlight
  /-- No poller throws a batch away. -/
  dropped : w.dropped = []
  /-- Two threads never have the lock of the handler at once. -/
  exclusive : ∀ t u, (w.thread t).Holds → (w.thread u).Holds → t = u
  /-- A thread that has the lock gives it back without waiting for others. -/
  released : ∀ u, w.lock = some u → ∃ n, ((Source.resume · u)^[n] w).lock = none
  /-- A poller of a running source empties the inbox in order, if the lock is free. -/
  catchesUp : ∀ u, w.running = true → w.thread u = .poll → w.lock = none →
    (Source.resume · u)^[w.inbox.length + 4] w =
      { w with inbox := [], delivered := w.delivered ++ w.inbox }
  /-- Everything published is handed over then, if the other threads have nothing left to do. -/
  settles : ∀ u, w.running = true → w.thread u = .poll → (∀ t, t ≠ u → w.thread t = .idle) →
    ((Source.resume · u)^[w.inbox.length + 4] w).delivered.Perm w.published

/-- After any steps of any number of threads, no message published is lost or handed over twice. -/
theorem published_once (acts : List (Act Tid M)) : PublishedOnce (run acts : Source Tid M) := by
  have h := sound_run (M := M) acts
  generalize run acts = w at h
  refine ⟨h.conserved, h.dropped, fun t u ht hu => ?_, fun u => h.released, fun u => h.catchesUp,
    fun u hrunning hphase hidle => ?_⟩
  · have heq := ((h.holds t).mp ht).symm.trans ((h.holds u).mp hu)
    exact Option.some.inj heq
  · have hnone : ∀ t, ¬ (w.thread t).Holds ∧ (w.thread t).messages = [] := by
      intro t
      rcases eq_or_ne t u with rfl | hne
      · rw [hphase]
        exact ⟨id, rfl⟩
      · rw [hidle t hne]
        exact ⟨id, rfl⟩
    have hfree : w.lock = none := by
      rw [Option.eq_none_iff_forall_ne_some]
      exact fun t ht => (hnone t).1 ((h.holds t).mpr ht)
    have hflight : w.inFlight = 0 :=
      Finset.sum_eq_zero fun t _ => congrArg Multiset.ofList (hnone t).2
    rw [h.catchesUp hrunning hphase hfree, ← Multiset.coe_eq_coe, h.conserved, hflight, add_zero,
      Multiset.coe_add]

-- A message in the inbox is overtaken by one that is published while the source starts.
example : (run [.publish 0 1, .resume 0, .resume 0, .start 0, .resume 0, .resume 0,
    .publish 1 2, .resume 1, .resume 1, .resume 1, .resume 0, .resume 0] :
    Source (Fin 2) Nat).delivered = [2, 1] := by decide

end Source

end MemoryMq
