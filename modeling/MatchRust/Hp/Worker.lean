import MatchRust.Hp.Engine
import MatchRust.Hp.Spsc

/-!
# The worker

A worker has the ring of commands and an engine.  The producer submits commands to the
ring, and the worker's thread pops as many as there are and gives them to the engine one
by one, once (`run_once`) or until the ring was empty often enough (`poll`).

The pop goes on while the producer pushes, one step of the ring at a time.  The engine
belongs to the worker's thread alone, so a command is processed in one step.  How the
thread waits when there is nothing to do is left out.
-/

namespace MatchCoreHp

/-- A call of the worker. -/
inductive WorkerJob where
  | runOnce
  | poll (maxIdleSpins : Option Nat) (idle totalFills : Nat)

/-- Where the worker's thread stands. -/
inductive WorkerCall where
  | idle
  /-- In `pop_n`. -/
  | popping (job : WorkerJob)
  /-- In `drain_batch`, with the fills so far. -/
  | draining (job : WorkerJob) (fills : Nat)

/-- The worker and its producer. -/
structure WorkerWorld (B A : Type) where
  spsc : SpscWorld
  engine : HpEngine B A
  batch : List HpCommand := []
  call : WorkerCall := .idle
  /-- The commands given to the engine. -/
  fed : List HpCommand := []
  /-- The commands accepted when `pop_n` last loaded the tail. -/
  seen : List HpCommand := []
  /-- The fills that the calls returned. -/
  returns : List Nat := []

/-- What can happen next. -/
inductive WorkerAct where
  /-- The producer submits a command. -/
  | trySubmit (cmd : HpCommand)
  /-- Its call goes on. -/
  | push
  | runOnce
  | poll (maxIdleSpins : Option Nat)
  /-- `pop_n` goes on. -/
  | pop
  /-- `drain_batch` goes on. -/
  | drain

/-- Whether idle polling should stop. -/
def idleLimitReached (idle : Nat) : Option Nat → Bool
  | some max => max ≤ idle
  | none => false

namespace WorkerWorld

variable {B A : Type} [LevelIndex B] [LevelIndex A]

/-- Before the first call. -/
def new (ringCap : Nat) (start : UInt64) : WorkerWorld B A where
  spsc := .new ringCap start
  engine := .withCapacity

omit [LevelIndex B] [LevelIndex A] in
/-- Clear the batch and call `pop_n`. -/
def callPop (w : WorkerWorld B A) (job : WorkerJob) : WorkerWorld B A :=
  { w with
    batch := []
    spsc := w.spsc.callPop (.popN w.spsc.ring.capacity)
    call := .popping job }

omit [LevelIndex B] [LevelIndex A] in
/-- What a job does with the commands popped. -/
def popped (w : WorkerWorld B A) (out : List HpCommand) : WorkerJob → WorkerWorld B A
  | .runOnce => { w with batch := out, call := .draining .runOnce 0 }
  | .poll maxIdleSpins idle totalFills =>
      if out = [] then
        let idle := min (idle + 1) (2 ^ 64 - 1)
        if idleLimitReached idle maxIdleSpins then
          { w with call := .idle, returns := w.returns ++ [totalFills] }
        else w.callPop (.poll maxIdleSpins idle totalFills)
      else { w with batch := out, call := .draining (.poll maxIdleSpins 0 totalFills) 0 }

omit [LevelIndex B] [LevelIndex A] in
/-- A step of `pop_n`, and what follows its return. -/
def pop (w : WorkerWorld B A) (job : WorkerJob) : WorkerWorld B A :=
  let seen :=
    match w.spsc.consumer with
    | .loadTail _ _ => w.spsc.accepted
    | _ => w.seen
  let w' := { w with spsc := w.spsc.pop, seen := seen }
  match w'.spsc.consumer with
  | .idle => w'.popped w.spsc.inHand job
  | _ => w'

/-- A step of `drain_batch`, and what follows its return. -/
def drain (w : WorkerWorld B A) (job : WorkerJob) (fills : Nat) : WorkerWorld B A :=
  match w.batch with
  | cmd :: batch =>
      let engine := w.engine.onOrder cmd
      { w with
        engine := engine
        batch := batch
        fed := w.fed ++ [cmd]
        call := .draining job (fills + engine.events.countP HpEvent.isFill) }
  | [] =>
      match job with
      | .runOnce => { w with call := .idle, returns := w.returns ++ [fills] }
      | .poll maxIdleSpins idle totalFills =>
          w.callPop (.poll maxIdleSpins idle (totalFills + fills))

/-- One step. -/
def act (w : WorkerWorld B A) : WorkerAct → WorkerWorld B A
  | .trySubmit cmd => { w with spsc := w.spsc.act (.tryPush cmd) }
  | .push => { w with spsc := w.spsc.push }
  | .runOnce => w.callPop .runOnce
  | .poll maxIdleSpins => w.callPop (.poll maxIdleSpins 0 0)
  | .pop =>
      match w.call with
      | .popping job => w.pop job
      | _ => w
  | .drain =>
      match w.call with
      | .draining job fills => w.drain job fills
      | _ => w

omit [LevelIndex B] [LevelIndex A] in
/-- A thread makes one call at a time. -/
def Allowed (w : WorkerWorld B A) : WorkerAct → Prop
  | .trySubmit _ => w.spsc.producer = .idle
  | .push => w.spsc.producer ≠ .idle
  | .runOnce => w.call = .idle
  | .poll _ => w.call = .idle
  | .pop => ∃ job, w.call = .popping job
  | .drain => ∃ job fills, w.call = .draining job fills

/-! ## The invariant -/

omit [LevelIndex B] [LevelIndex A] in
/-- How far `pop_n` is.  It takes all that was there when it loaded the tail. -/
def PopKept (w : WorkerWorld B A) : Consumer → Prop
  | .idle => False
  | .loadTail call _ => call = .popN w.spsc.ring.capacity
  | .read _ n _ => w.spsc.popped.length + n = w.seen.length
  | .storeHead _ n _ => w.spsc.popped.length + n = w.seen.length

omit [LevelIndex B] [LevelIndex A] in
/-- What was fed to the engine and what is still in the batch. -/
def CallKept (w : WorkerWorld B A) : WorkerCall → Prop
  | .idle => w.spsc.consumer = .idle ∧ w.fed = w.spsc.popped ∧ w.spsc.popped = w.seen
  | .popping _ => w.PopKept w.spsc.consumer ∧ w.fed = w.spsc.popped
  | .draining _ _ =>
      w.spsc.consumer = .idle ∧ w.fed ++ w.batch = w.spsc.popped ∧ w.spsc.popped = w.seen

/-- What holds inside every step. -/
structure Sound (start : UInt64) (w : WorkerWorld B A) : Prop where
  ring : w.spsc.Kept start
  seen : w.seen <+: w.spsc.accepted
  engine : w.engine = w.fed.foldl HpEngine.onOrder .withCapacity

/-- What every step keeps. -/
structure Kept (start : UInt64) (w : WorkerWorld B A) : Prop extends Sound start w where
  call : w.CallKept w.call

end WorkerWorld

namespace SpscWorld

variable {w : SpscWorld} {start : UInt64}

theorem Kept.toNat_capacity (h : w.Kept start) :
    w.ring.capacity.toNat = w.ring.mask.toNat + 1 := by
  have hsmall := h.small
  rw [SpscRing.capacity, UInt64.toNat_add]
  exact Nat.mod_eq_of_lt (by simp only [UInt64.toNat_one]; omega)

/-- A call for as many commands as the ring can have. -/
theorem Kept.callPop_capacity (h : w.Kept start) :
    w.callPop (.popN w.ring.capacity) =
      { w with consumer := .loadTail (.popN w.ring.capacity) w.ring.head } := by
  have hcap := h.toNat_capacity
  have hne : w.ring.capacity ≠ 0 := by
    intro hzero
    rw [hzero] at hcap
    exact absurd hcap (by simp)
  simp only [SpscWorld.callPop, if_neg hne]

theorem Kept.count_capacity (h : w.Kept start) :
    (PopCall.popN w.ring.capacity).count w.ring.head w.ring.tail =
      w.accepted.length - w.popped.length := by
  have hroom := h.room
  rw [PopCall.count, h.inFlight, h.toNat_capacity]
  omega

theorem push_consumer (w : SpscWorld) : w.push.consumer = w.consumer := by
  unfold push
  split
  next => rfl
  next => split <;> rfl
  next => rfl
  next => rfl

theorem push_popped (w : SpscWorld) : w.push.popped = w.popped := by
  unfold push
  split
  next => rfl
  next => split <;> rfl
  next => rfl
  next => rfl

theorem push_mask (w : SpscWorld) : w.push.ring.mask = w.ring.mask := by
  unfold push
  split
  next => rfl
  next => split <;> rfl
  next => rfl
  next => rfl

theorem accepted_push (w : SpscWorld) : w.accepted <+: w.push.accepted := by
  unfold push
  split
  next => exact List.prefix_refl _
  next => split <;> exact List.prefix_refl _
  next => exact List.prefix_refl _
  next => exact List.prefix_append ..

end SpscWorld

namespace WorkerWorld

variable {B A : Type} [LevelIndex B] [LevelIndex A] {w : WorkerWorld B A} {start : UInt64}

theorem kept_new {ringCap : Nat} (hcap : ringCap ≤ 2 ^ 63) (start : UInt64) :
    (new ringCap start : WorkerWorld B A).Kept start where
  ring := SpscWorld.kept_new hcap start
  seen := List.prefix_refl _
  engine := rfl
  call := ⟨rfl, rfl, rfl⟩

namespace Kept

/-- A step of the producer. -/
theorem produce (h : w.Kept start) {spsc : SpscWorld} (hring : spsc.Kept start)
    (hconsumer : spsc.consumer = w.spsc.consumer) (hpopped : spsc.popped = w.spsc.popped)
    (hmask : spsc.ring.mask = w.spsc.ring.mask) (haccepted : w.spsc.accepted <+: spsc.accepted) :
    ({ w with spsc := spsc } : WorkerWorld B A).Kept start where
  ring := hring
  seen := h.seen.trans haccepted
  engine := h.engine
  call := by
    have hcall := h.call
    show CallKept _ w.call
    cases hc : w.call with
    | idle =>
        rw [hc] at hcall
        exact ⟨hconsumer.trans hcall.1, hcall.2.1.trans hpopped.symm, hpopped.trans hcall.2.2⟩
    | draining job fills =>
        rw [hc] at hcall
        exact ⟨hconsumer.trans hcall.1, hcall.2.1.trans hpopped.symm, hpopped.trans hcall.2.2⟩
    | popping job =>
        rw [hc] at hcall
        refine ⟨?_, hcall.2.trans hpopped.symm⟩
        have hpop := hcall.1
        dsimp only
        rw [hconsumer]
        cases hk : w.spsc.consumer with
        | idle => simp only [PopKept, hk] at hpop
        | loadTail call head => simpa only [PopKept, hk, SpscRing.capacity, hmask] using hpop
        | read head n out => simpa only [PopKept, hk, hpopped] using hpop
        | storeHead head n out => simpa only [PopKept, hk, hpopped] using hpop

end Kept

theorem Sound.callPop (h : w.Sound start) (hfed : w.fed = w.spsc.popped) (job : WorkerJob) :
    (w.callPop job).Kept start where
  ring := by
    have hring := h.ring.callPop (.popN w.spsc.ring.capacity)
    exact hring
  seen := by
    simp only [WorkerWorld.callPop, h.ring.callPop_capacity]
    exact h.seen
  engine := h.engine
  call := by
    simp only [WorkerWorld.callPop, CallKept, h.ring.callPop_capacity]
    exact ⟨rfl, hfed⟩

/-- What was popped goes into the batch, or there was nothing and the job goes on. -/
theorem Sound.popped (h : w.Sound start) {out : List HpCommand}
    (hidle : w.spsc.consumer = .idle) (hfed : w.fed ++ out = w.spsc.popped)
    (hseen : w.spsc.popped = w.seen) (job : WorkerJob) : (w.popped out job).Kept start := by
  cases job with
  | runOnce => exact { h with call := ⟨hidle, hfed, hseen⟩ }
  | poll maxIdleSpins idle totalFills =>
      simp only [WorkerWorld.popped]
      split
      next hout =>
        rw [hout, List.append_nil] at hfed
        split
        · exact { h with call := ⟨hidle, hfed, hseen⟩ }
        · exact h.callPop hfed _
      next => exact { h with call := ⟨hidle, hfed, hseen⟩ }

namespace Kept

theorem loadTail (h : w.Kept start) {job : WorkerJob} (hcall : w.call = .popping job)
    (hfed : w.fed = w.spsc.popped) {head : UInt64}
    (hc : w.spsc.consumer = .loadTail (.popN w.spsc.ring.capacity) head) :
    (w.pop job).Kept start := by
  have hring := h.ring
  obtain rfl : head = w.spsc.ring.head := by
    simpa only [SpscWorld.ConsumerKept, hc] using hring.consumer
  have hcount := hring.count_capacity
  have hle := hring.popped.length_le
  have hpop := hring.pop
  simp only [WorkerWorld.pop, SpscWorld.pop, hc, hcount, SpscWorld.inHand] at hpop ⊢
  by_cases hn : w.spsc.accepted.length - w.spsc.popped.length = 0
  · simp only [if_pos hn] at hpop ⊢
    have hall : w.spsc.popped = w.spsc.accepted := hring.popped.eq_of_length (by omega)
    refine Sound.popped ?_ rfl ?_ hall job
    · exact ⟨hpop, List.prefix_refl _, h.engine⟩
    · simpa using hfed
  · simp only [if_neg hn] at hpop ⊢
    refine ⟨⟨hpop, List.prefix_refl _, h.engine⟩, ?_⟩
    dsimp only
    rw [hcall]
    exact ⟨by dsimp only [PopKept]; omega, hfed⟩

theorem read (h : w.Kept start) {job : WorkerJob} (hcall : w.call = .popping job)
    (hfed : w.fed = w.spsc.popped) {head : UInt64} {n : Nat} {out : List HpCommand}
    (hc : w.spsc.consumer = .read head n out) (hn : w.spsc.popped.length + n = w.seen.length) :
    (w.pop job).Kept start := by
  have hpop := h.ring.pop
  simp only [WorkerWorld.pop, SpscWorld.pop, hc] at hpop ⊢
  generalize hout : out ++ [w.spsc.ring.buf _] = out' at hpop ⊢
  by_cases hlt : out'.length < n
  · simp only [if_pos hlt] at hpop ⊢
    refine ⟨⟨hpop, h.seen, h.engine⟩, ?_⟩
    dsimp only
    rw [hcall]
    exact ⟨hn, hfed⟩
  · simp only [if_neg hlt] at hpop ⊢
    refine ⟨⟨hpop, h.seen, h.engine⟩, ?_⟩
    dsimp only
    rw [hcall]
    exact ⟨hn, hfed⟩

theorem storeHead (h : w.Kept start) {job : WorkerJob} (hfed : w.fed = w.spsc.popped)
    {head : UInt64} {n : Nat} {out : List HpCommand}
    (hc : w.spsc.consumer = .storeHead head n out)
    (hn : w.spsc.popped.length + n = w.seen.length) : (w.pop job).Kept start := by
  obtain ⟨-, hlen, hout⟩ : head = w.spsc.ring.head ∧ out.length = n ∧
      w.spsc.popped ++ out <+: w.spsc.accepted := by
    simpa only [SpscWorld.ConsumerKept, hc] using h.ring.consumer
  have hpop := h.ring.pop
  have hseen : w.spsc.popped ++ out = w.seen := by
    refine (List.prefix_of_prefix_length_le hout h.seen ?_).eq_of_length ?_
    · simp; omega
    · simp; omega
  simp only [WorkerWorld.pop, SpscWorld.pop, hc, SpscWorld.inHand] at hpop ⊢
  refine Sound.popped ?_ rfl ?_ hseen job
  · exact ⟨hpop, h.seen, h.engine⟩
  · dsimp only
    rw [hfed]

theorem pop (h : w.Kept start) {job : WorkerJob} (hcall : w.call = .popping job) :
    (w.pop job).Kept start := by
  obtain ⟨hpop, hfed⟩ : w.PopKept w.spsc.consumer ∧ w.fed = w.spsc.popped := by
    simpa only [CallKept, hcall] using h.call
  cases hc : w.spsc.consumer with
  | idle => simp only [PopKept, hc] at hpop
  | loadTail call head =>
      obtain rfl : call = .popN w.spsc.ring.capacity := by simpa only [PopKept, hc] using hpop
      exact h.loadTail hcall hfed hc
  | read head n out => exact h.read hcall hfed hc (by simpa only [PopKept, hc] using hpop)
  | storeHead head n out => exact h.storeHead hfed hc (by simpa only [PopKept, hc] using hpop)

theorem drain (h : w.Kept start) {job : WorkerJob} {fills : Nat}
    (hcall : w.call = .draining job fills) : (w.drain job fills).Kept start := by
  obtain ⟨hidle, hfed, hseen⟩ : w.spsc.consumer = .idle ∧ w.fed ++ w.batch = w.spsc.popped ∧
      w.spsc.popped = w.seen := by simpa only [CallKept, hcall] using h.call
  simp only [WorkerWorld.drain]
  split
  next cmd batch hbatch =>
    rw [hbatch] at hfed
    refine { h with engine := ?_, call := ⟨hidle, by simpa using hfed, hseen⟩ }
    dsimp only
    rw [List.foldl_concat, h.engine]
  next hbatch =>
    rw [hbatch, List.append_nil] at hfed
    cases job with
    | runOnce => exact { h with call := ⟨hidle, hfed, hseen⟩ }
    | poll maxIdleSpins idle totalFills => exact h.toSound.callPop hfed _

theorem act (h : w.Kept start) (a : WorkerAct) (ha : w.Allowed a) : (w.act a).Kept start := by
  cases a with
  | trySubmit cmd => exact h.produce (h.ring.tryPush cmd) rfl rfl rfl (List.prefix_refl _)
  | push =>
      exact h.produce h.ring.push (SpscWorld.push_consumer _) (SpscWorld.push_popped _)
        (SpscWorld.push_mask _) (SpscWorld.accepted_push _)
  | runOnce =>
      have hcall : w.call = .idle := ha
      have hkept := h.call
      rw [hcall] at hkept
      exact h.toSound.callPop hkept.2.1 _
  | poll maxIdleSpins =>
      have hcall : w.call = .idle := ha
      have hkept := h.call
      rw [hcall] at hkept
      exact h.toSound.callPop hkept.2.1 _
  | pop =>
      obtain ⟨job, hcall⟩ := ha
      simp only [WorkerWorld.act, hcall]
      exact h.pop hcall
  | drain =>
      obtain ⟨job, fills, hcall⟩ := ha
      simp only [WorkerWorld.act, hcall]
      exact h.drain hcall

/-- The engine has had the first of the commands accepted, in their order. -/
theorem fed_prefix (h : w.Kept start) : w.fed <+: w.spsc.accepted := by
  have hkept := h.call
  have hpopped := h.ring.popped
  cases hc : w.call with
  | idle =>
      rw [hc] at hkept
      rw [hkept.2.1]
      exact hpopped
  | popping job =>
      rw [hc] at hkept
      rw [hkept.2]
      exact hpopped
  | draining job fills =>
      rw [hc] at hkept
      rw [← hkept.2.1] at hpopped
      exact (List.prefix_append ..).trans hpopped

end Kept

end WorkerWorld

/-! ## Linearizability -/

/-- The counters wrap around with the first push.  The third one finds the ring full, and the
pop takes the two that are there. -/
def wrapRun : List SpscAct :=
  [.tryPush (.cancel 1), .push, .push, .push, .tryPush (.cancel 2), .push, .push, .push,
    .tryPush (.cancel 3), .push, .callPop (.popN 5), .pop, .pop, .pop, .pop]

end MatchCoreHp
