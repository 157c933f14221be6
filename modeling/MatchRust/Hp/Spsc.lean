import MatchRust.Hp.Types
import MatchRust.Lib.Counter
import MatchRust.Lib.Runs

/-!
# The command ring

One thread pushes commands into a ring and one thread pops them.  Each of them stores its
own counter and only loads the other's.  The counters are machine words and wrap around.

The calls are cut at every load, every access to a slot and every store, and the two
threads take their steps in any order.  The store of a counter is the last thing a call
does, and stands for its return.

Only the consumer makes room and only the producer fills it.  So what one thread has
loaded of the other's counter stays a safe bound, and while it accesses a slot the other
one has no access to it (`SpscWorld.Kept`).
-/

namespace MatchCoreHp

/-- The ring.  A slot is found by the low bits of a counter. -/
structure SpscRing where
  buf : Nat → HpCommand
  mask : UInt64
  /-- Next write index. -/
  tail : UInt64
  /-- Next read index. -/
  head : UInt64

namespace SpscRing

/-- The smallest power of two that is not less, for numbers from two on. -/
def nextPowerOfTwo (n : Nat) : Nat := 2 ^ (Nat.log2 (n - 1) + 1)

/-- A ring with this capacity, rounded up to a power of two.  The source starts the counters
at zero. -/
def withCapacity (cap : Nat) (start : UInt64) : SpscRing where
  buf _ := .cancel 0
  mask := UInt64.ofNat (nextPowerOfTwo (max cap 2) - 1)
  tail := start
  head := start

def capacity (ring : SpscRing) : UInt64 := ring.mask + 1

/-- A power of two that has its place in a word. -/
theorem withCapacity_mask {cap : Nat} (hcap : cap ≤ 2 ^ 63) (start : UInt64) :
    ∃ k ≤ 63, (withCapacity cap start).mask.toNat + 1 = 2 ^ k := by
  have hne : max cap 2 - 1 ≠ 0 := by omega
  have hlt : max cap 2 - 1 < 2 ^ 63 := by omega
  have hlog := (Nat.log2_lt hne).mpr hlt
  refine ⟨Nat.log2 (max cap 2 - 1) + 1, hlog, ?_⟩
  have hle : 2 ^ (Nat.log2 (max cap 2 - 1) + 1) ≤ 2 ^ 63 := Nat.pow_le_pow_right (by omega) hlog
  have hpos := Nat.two_pow_pos (Nat.log2 (max cap 2 - 1) + 1)
  have hword : 2 ^ (Nat.log2 (max cap 2 - 1) + 1) - 1 < 2 ^ 64 := by omega
  rw [withCapacity, nextPowerOfTwo, UInt64.toNat_ofNat_of_lt' hword]
  omega

end SpscRing

/-! ## The threads -/

/-- Where the producer stands. -/
inductive Producer where
  | idle
  /-- `try_push` has loaded the tail. -/
  | loadHead (cmd : HpCommand) (tail : UInt64)
  /-- There is room, and the slot is written. -/
  | write (cmd : HpCommand) (tail : UInt64)
  | storeTail (cmd : HpCommand) (tail : UInt64)

/-- A call of the consumer. -/
inductive PopCall where
  | tryPop
  | popN (max : UInt64)

/-- The number of commands that a call takes. -/
def PopCall.count (head tail : UInt64) : PopCall → Nat
  | .tryPop => if head = tail then 0 else 1
  | .popN max => min (tail - head).toNat max.toNat

/-- Where the consumer stands. -/
inductive Consumer where
  | idle
  /-- The call has loaded the head. -/
  | loadTail (call : PopCall) (head : UInt64)
  /-- It takes `n` commands, has read `out`, and the next slot is read. -/
  | read (head : UInt64) (n : Nat) (out : List HpCommand)
  | storeHead (head : UInt64) (n : Nat) (out : List HpCommand)

/-- The ring and its two threads. -/
structure SpscWorld where
  ring : SpscRing
  producer : Producer := .idle
  consumer : Consumer := .idle
  /-- The commands for which `try_push` returned `Ok`. -/
  accepted : List HpCommand := []
  /-- The commands that were popped. -/
  popped : List HpCommand := []
  /-- For each `Busy`, how many commands were not popped when the head was loaded. -/
  busy : List Nat := []

/-- What can happen next. -/
inductive SpscAct where
  /-- The producer calls `try_push`. -/
  | tryPush (cmd : HpCommand)
  /-- Its call goes on. -/
  | push
  /-- The consumer calls `try_pop` or `pop_n`. -/
  | callPop (call : PopCall)
  /-- Its call goes on. -/
  | pop

namespace SpscWorld

/-- Before the first call. -/
def new (cap : Nat) (start : UInt64) : SpscWorld where
  ring := SpscRing.withCapacity cap start

/-- A step of the producer in its call. -/
def push (w : SpscWorld) : SpscWorld :=
  match w.producer with
  | .idle => w
  | .loadHead cmd tail =>
      if w.ring.mask < tail - w.ring.head then
        { w with producer := .idle, busy := w.busy ++ [w.accepted.length - w.popped.length] }
      else { w with producer := .write cmd tail }
  | .write cmd tail =>
      { w with
        ring := { w.ring with
          buf := Function.update w.ring.buf (Counter.slot w.ring.mask tail) cmd }
        producer := .storeTail cmd tail }
  | .storeTail cmd tail =>
      { w with
        ring := { w.ring with tail := tail + 1 }
        producer := .idle
        accepted := w.accepted ++ [cmd] }

/-- The consumer calls `try_pop` or `pop_n`. -/
def callPop (w : SpscWorld) (call : PopCall) : SpscWorld :=
  match call with
  | .tryPop => { w with consumer := .loadTail call w.ring.head }
  | .popN max => if max = 0 then w else { w with consumer := .loadTail call w.ring.head }

/-- A step of the consumer in its call. -/
def pop (w : SpscWorld) : SpscWorld :=
  match w.consumer with
  | .idle => w
  | .loadTail call head =>
      let n := call.count head w.ring.tail
      { w with consumer := if n = 0 then .idle else .read head n [] }
  | .read head n out =>
      let idx := Counter.slot w.ring.mask (head + UInt64.ofNat out.length)
      let out := out ++ [w.ring.buf idx]
      { w with consumer := if out.length < n then .read head n out else .storeHead head n out }
  | .storeHead head n out =>
      { w with
        ring := { w.ring with head := head + UInt64.ofNat n }
        consumer := .idle
        popped := w.popped ++ out }

/-- One step. -/
def act (w : SpscWorld) : SpscAct → SpscWorld
  | .tryPush cmd => { w with producer := .loadHead cmd w.ring.tail }
  | .push => w.push
  | .callPop call => w.callPop call
  | .pop => w.pop

/-- A thread makes one call at a time. -/
def Allowed (w : SpscWorld) : SpscAct → Prop
  | .tryPush _ => w.producer = .idle
  | .push => w.producer ≠ .idle
  | .callPop _ => w.consumer = .idle
  | .pop => w.consumer ≠ .idle

/-- The slot that the producer writes. -/
def written (w : SpscWorld) : Option Nat :=
  match w.producer with
  | .write _ tail => some (Counter.slot w.ring.mask tail)
  | _ => none

/-- The slot that the consumer reads. -/
def readSlot (w : SpscWorld) : Option Nat :=
  match w.consumer with
  | .read head _ out => some (Counter.slot w.ring.mask (head + UInt64.ofNat out.length))
  | _ => none

/-- What a call in progress has read. -/
def inHand (w : SpscWorld) : List HpCommand :=
  match w.consumer with
  | .read _ _ out => out
  | .storeHead _ _ out => out
  | _ => []

/-! ## The invariant -/

/-- What the producer knows. -/
def ProducerKept (w : SpscWorld) : Producer → Prop
  | .idle => True
  | .loadHead _ tail => tail = w.ring.tail
  | .write _ tail =>
      tail = w.ring.tail ∧ w.accepted.length - w.popped.length < w.ring.mask.toNat + 1
  | .storeTail cmd tail =>
      tail = w.ring.tail ∧ w.accepted.length - w.popped.length < w.ring.mask.toNat + 1 ∧
        w.ring.buf (Counter.slot w.ring.mask tail) = cmd

/-- What the consumer knows. -/
def ConsumerKept (w : SpscWorld) : Consumer → Prop
  | .idle => True
  | .loadTail _ head => head = w.ring.head
  | .read head n out =>
      head = w.ring.head ∧ out.length < n ∧ w.popped.length + n ≤ w.accepted.length ∧
        w.popped ++ out <+: w.accepted
  | .storeHead head n out =>
      head = w.ring.head ∧ out.length = n ∧ w.popped ++ out <+: w.accepted

/-- What every step keeps. -/
structure Kept (start : UInt64) (w : SpscWorld) : Prop where
  /-- The capacity is a power of two. -/
  mask : ∃ k ≤ 63, w.ring.mask.toNat + 1 = 2 ^ k
  tail : w.ring.tail = Counter.value start w.accepted.length
  head : w.ring.head = Counter.value start w.popped.length
  popped : w.popped <+: w.accepted
  room : w.accepted.length ≤ w.popped.length + (w.ring.mask.toNat + 1)
  /-- The commands in flight are in their slots. -/
  slots : ∀ i cmd, w.popped.length ≤ i → w.accepted[i]? = some cmd →
    w.ring.buf (Counter.slot w.ring.mask (Counter.value start i)) = cmd
  producer : w.ProducerKept w.producer
  consumer : w.ConsumerKept w.consumer
  busy : ∀ n ∈ w.busy, n = w.ring.mask.toNat + 1

variable {w : SpscWorld} {start : UInt64}

theorem kept_new {cap : Nat} (hcap : cap ≤ 2 ^ 63) (start : UInt64) :
    (new cap start).Kept start where
  mask := SpscRing.withCapacity_mask hcap start
  tail := by simp [new, SpscRing.withCapacity, Counter.value]
  head := by simp [new, SpscRing.withCapacity, Counter.value]
  popped := List.prefix_refl _
  room := Nat.zero_le _
  slots _ _ _ h := nomatch h
  producer := trivial
  consumer := trivial
  busy _ h := absurd h List.not_mem_nil

namespace Kept

theorem small (h : w.Kept start) : w.ring.mask.toNat + 1 ≤ 2 ^ 63 := by
  obtain ⟨k, hk, hmask⟩ := h.mask
  rw [hmask]
  exact Nat.pow_le_pow_right (by decide) hk

/-- The difference of the counters is the number of commands in flight. -/
theorem inFlight (h : w.Kept start) :
    (w.ring.tail - w.ring.head).toNat = w.accepted.length - w.popped.length := by
  have hroom := h.room
  have hsmall := h.small
  rw [h.tail, h.head]
  exact Counter.toNat_value_sub h.popped.length_le (by omega)

/-- A slot in flight is not the one that is written next. -/
theorem slot_ne (h : w.Kept start) {i : Nat} (hlo : w.popped.length ≤ i)
    (hhi : i < w.accepted.length)
    (hroom : w.accepted.length - w.popped.length < w.ring.mask.toNat + 1) :
    Counter.slot w.ring.mask (Counter.value start i) ≠ Counter.slot w.ring.mask w.ring.tail := by
  obtain ⟨k, hk, hmask⟩ := h.mask
  rw [h.tail]
  exact Counter.slot_ne hmask (by omega) hhi (by omega)

theorem tryPush (h : w.Kept start) (cmd : HpCommand) : (w.act (.tryPush cmd)).Kept start :=
  { h with producer := rfl }

theorem loadHead (h : w.Kept start) {cmd : HpCommand} {tail : UInt64}
    (hp : w.producer = .loadHead cmd tail) : w.push.Kept start := by
  have htail : tail = w.ring.tail := by simpa [ProducerKept, hp] using h.producer
  have hfly := h.inFlight
  have hroom := h.room
  simp only [push, hp]
  split
  next hfull =>
    rw [htail, UInt64.lt_iff_toNat_lt, hfly] at hfull
    refine { h with producer := trivial, busy := ?_ }
    intro n hn
    rcases List.mem_append.mp hn with hn | hn
    · exact h.busy n hn
    · rw [List.mem_singleton.mp hn]
      dsimp only
      omega
  next hfree =>
    rw [htail, UInt64.lt_iff_toNat_lt, hfly] at hfree
    exact { h with producer := ⟨htail, by dsimp only; omega⟩ }

/-- A write changes no slot in flight. -/
theorem write (h : w.Kept start) {cmd : HpCommand} {tail : UInt64}
    (hp : w.producer = .write cmd tail) : w.push.Kept start := by
  obtain ⟨rfl, hroom⟩ : tail = w.ring.tail ∧ _ := by simpa only [ProducerKept, hp] using h.producer
  simp only [push, hp]
  refine { h with producer := ⟨rfl, hroom, Function.update_self ..⟩, slots := ?_ }
  intro i cmd' hi hget
  have hlt := (List.getElem?_eq_some_iff.mp hget).1
  exact (Function.update_of_ne (h.slot_ne hi hlt hroom) ..).trans (h.slots i cmd' hi hget)

theorem storeTail (h : w.Kept start) {cmd : HpCommand} {tail : UInt64}
    (hp : w.producer = .storeTail cmd tail) : w.push.Kept start := by
  obtain ⟨rfl, hroom, hslot⟩ : tail = w.ring.tail ∧ _ := by
    simpa only [ProducerKept, hp] using h.producer
  have hle := h.popped.length_le
  have hgrow : w.accepted <+: w.accepted ++ [cmd] := List.prefix_append ..
  simp only [push, hp]
  refine { h with
    tail := ?_
    popped := h.popped.trans hgrow
    room := ?_
    slots := ?_
    producer := trivial
    consumer := ?_ }
  · dsimp only
    rw [h.tail, List.length_append]
    exact Counter.value_add
  · simp only [List.length_append, List.length_singleton]
    omega
  · intro i cmd' hi hget
    dsimp only at hi hget ⊢
    rcases Nat.lt_or_ge i w.accepted.length with hlt | hge
    · rw [List.getElem?_append_left hlt] at hget
      exact h.slots i cmd' hi hget
    · have hlast := (List.getElem?_eq_some_iff.mp hget).1
      rw [List.length_append, List.length_singleton] at hlast
      obtain rfl : i = w.accepted.length := by omega
      rw [List.getElem?_concat_length] at hget
      rw [← h.tail, hslot]
      exact Option.some.inj hget
  · have hconsumer := h.consumer
    dsimp only
    cases hc : w.consumer with
    | idle => trivial
    | loadTail call head => simpa only [ConsumerKept, hc] using hconsumer
    | read head n out =>
        rw [hc] at hconsumer
        obtain ⟨hhead, hn, hle, hout⟩ := hconsumer
        exact ⟨hhead, hn, hle.trans hgrow.length_le, hout.trans hgrow⟩
    | storeHead head n out =>
        rw [hc] at hconsumer
        obtain ⟨hhead, hn, hout⟩ := hconsumer
        exact ⟨hhead, hn, hout.trans hgrow⟩

theorem push (h : w.Kept start) : w.push.Kept start := by
  cases hp : w.producer with
  | idle => simpa only [SpscWorld.push, hp] using h
  | loadHead cmd tail => exact h.loadHead hp
  | write cmd tail => exact h.write hp
  | storeTail cmd tail => exact h.storeTail hp

theorem callPop (h : w.Kept start) (call : PopCall) : (w.callPop call).Kept start := by
  cases call with
  | tryPop => exact { h with consumer := rfl }
  | popN max =>
      simp only [SpscWorld.callPop]
      split
      · exact h
      · exact { h with consumer := rfl }

/-- No call takes more than is in flight. -/
theorem count_le (h : w.Kept start) (call : PopCall) :
    w.popped.length + call.count w.ring.head w.ring.tail ≤ w.accepted.length := by
  have hle := h.popped.length_le
  cases call with
  | tryPop =>
      simp only [PopCall.count]
      split
      next => exact hle
      next hne =>
        have hlt : w.popped.length ≠ w.accepted.length := by
          intro heq
          rw [h.head, h.tail, heq] at hne
          exact hne rfl
        omega
  | popN max =>
      have hfly := h.inFlight
      simp only [PopCall.count]
      omega

theorem loadTail (h : w.Kept start) {call : PopCall} {head : UInt64}
    (hc : w.consumer = .loadTail call head) : w.pop.Kept start := by
  obtain rfl : head = w.ring.head := by simpa only [ConsumerKept, hc] using h.consumer
  have hcount := h.count_le call
  simp only [pop, hc]
  refine { h with consumer := ?_ }
  dsimp only
  split
  next => trivial
  next hne => exact ⟨rfl, Nat.pos_of_ne_zero hne, hcount, by simpa using h.popped⟩

theorem read (h : w.Kept start) {head : UInt64} {n : Nat} {out : List HpCommand}
    (hc : w.consumer = .read head n out) : w.pop.Kept start := by
  obtain ⟨rfl, hn, hle, hout⟩ : head = w.ring.head ∧ _ := by
    simpa only [ConsumerKept, hc] using h.consumer
  -- The next slot has the next command.
  obtain ⟨rest, hrest⟩ := hout
  have hlen := congrArg List.length hrest
  simp only [List.length_append] at hlen
  obtain ⟨cmd, rest, rfl⟩ := List.exists_cons_of_length_pos (l := rest) (by omega)
  have hget : w.accepted[w.popped.length + out.length]? = some cmd := by
    rw [← hrest, ← List.length_append]
    simp
  have hslot := h.slots _ cmd (Nat.le_add_right ..) hget
  rw [← Counter.value_add, ← h.head] at hslot
  have hnext : w.popped ++ (out ++ [cmd]) <+: w.accepted := ⟨rest, by simpa using hrest⟩
  simp only [pop, hc, hslot]
  refine { h with consumer := ?_ }
  dsimp only
  split
  next hlt => exact ⟨rfl, hlt, hle, hnext⟩
  next hge =>
    refine ⟨rfl, ?_, hnext⟩
    rw [List.length_append, List.length_singleton] at hge ⊢
    omega

theorem storeHead (h : w.Kept start) {head : UInt64} {n : Nat} {out : List HpCommand}
    (hc : w.consumer = .storeHead head n out) : w.pop.Kept start := by
  obtain ⟨rfl, rfl, hout⟩ : head = w.ring.head ∧ _ := by
    simpa only [ConsumerKept, hc] using h.consumer
  have hle : w.popped.length ≤ (w.popped ++ out).length := by simp
  have hroom := h.room
  simp only [pop, hc]
  refine { h with
    head := ?_
    popped := hout
    room := by dsimp only; omega
    slots := fun i cmd hi hget => h.slots i cmd (hle.trans hi) hget
    producer := ?_
    consumer := trivial }
  · dsimp only
    rw [h.head, List.length_append]
    exact Counter.value_add
  · have hproducer := h.producer
    dsimp only
    cases hp : w.producer with
    | idle => trivial
    | loadHead cmd tail => simpa only [ProducerKept, hp] using hproducer
    | write cmd tail =>
        rw [hp] at hproducer
        obtain ⟨htail, hfree⟩ := hproducer
        exact ⟨htail, by dsimp only; omega⟩
    | storeTail cmd tail =>
        rw [hp] at hproducer
        obtain ⟨htail, hfree, hslot⟩ := hproducer
        exact ⟨htail, by dsimp only; omega, hslot⟩

theorem pop (h : w.Kept start) : w.pop.Kept start := by
  cases hc : w.consumer with
  | idle => simpa only [SpscWorld.pop, hc] using h
  | loadTail call head => exact h.loadTail hc
  | read head n out => exact h.read hc
  | storeHead head n out => exact h.storeHead hc

theorem act (h : w.Kept start) (a : SpscAct) : (w.act a).Kept start := by
  cases a with
  | tryPush cmd => exact h.tryPush cmd
  | push => exact h.push
  | callPop call => exact h.callPop call
  | pop => exact h.pop

/-! ## What follows -/

/-- What was popped, with what is being popped, is in the order of the pushes. -/
theorem inHand_prefix (h : w.Kept start) : w.popped ++ w.inHand <+: w.accepted := by
  have hconsumer := h.consumer
  cases hc : w.consumer with
  | idle => simpa [inHand, hc] using h.popped
  | loadTail call head => simpa [inHand, hc] using h.popped
  | read head n out =>
      rw [hc] at hconsumer
      simpa only [inHand, hc] using hconsumer.2.2.2
  | storeHead head n out =>
      rw [hc] at hconsumer
      simpa only [inHand, hc] using hconsumer.2.2

/-- No slot is read while it is written. -/
theorem no_race (h : w.Kept start) {i j : Nat} (hi : w.written = some i)
    (hj : w.readSlot = some j) : i ≠ j := by
  have hproducer := h.producer
  have hconsumer := h.consumer
  cases hp : w.producer with
  | idle => simp [written, hp] at hi
  | loadHead cmd tail => simp [written, hp] at hi
  | storeTail cmd tail => simp [written, hp] at hi
  | write cmd tail =>
      cases hc : w.consumer with
      | idle => simp [readSlot, hc] at hj
      | loadTail call head => simp [readSlot, hc] at hj
      | storeHead head n out => simp [readSlot, hc] at hj
      | read head n out =>
          rw [hp] at hproducer
          rw [hc] at hconsumer
          obtain ⟨rfl, hroom⟩ := hproducer
          obtain ⟨rfl, hn, hle, -⟩ := hconsumer
          simp only [written, hp, Option.some.injEq] at hi
          simp only [readSlot, hc, Option.some.injEq, h.head, Counter.value_add] at hj
          rw [← hi, ← hj]
          exact (h.slot_ne (Nat.le_add_right ..) (by omega) hroom).symm

end Kept

end SpscWorld

end MatchCoreHp
