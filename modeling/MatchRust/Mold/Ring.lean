import MatchRust.Mold.Wire

/-!
# The ring of published messages

The publisher keeps its last messages in a ring of slots, and the retransmission
server reads them.  A message goes into the slot after the last one.  It is looked up
in the slot that its number gives, counted from the number of the first message ever
pushed, and found only if the slot has that number.

Both agree as long as the messages are pushed in the order of their numbers
(`FilledFrom`).  Then the ring has the last `capacity` messages and no others
(`ring_is_window`).  The publisher numbers from one.
-/

namespace MatchMoldUdp64

open Numbered

/-- A published message. -/
structure CachedMessage where
  seq : Nat
  payload : Payload
deriving DecidableEq

/-- The ring of the last messages. -/
structure MessageRingBuf where
  slots : List (Option CachedMessage)
  capacity : Nat
  writePos : Nat
  /-- The number of the first message. -/
  baseSeq : Option Nat
  /-- The lowest number that is still there. -/
  firstSeq : Option Nat
deriving DecidableEq

namespace MessageRingBuf

/-- An empty ring.  The source refuses a capacity of zero. -/
def new (capacity : Nat) : MessageRingBuf where
  slots := List.replicate capacity none
  capacity := capacity
  writePos := 0
  baseSeq := none
  firstSeq := none

/-- The slot of a number, counted from the first one. -/
def indexOf (ring : MessageRingBuf) (base seq : Nat) : Nat :=
  (seq + 2 ^ 64 - base) % 2 ^ 64 % ring.capacity

/-- Store a message, in place of the oldest one if the ring is full. -/
def push (ring : MessageRingBuf) (seq : Nat) (payload : Payload) : MessageRingBuf :=
  let firstSeq :=
    match ring.slots[ring.writePos]? with
    | some (some evicted) =>
        some ((ring.firstSeq.map fun f => max f (evicted.seq + 1)).getD (evicted.seq + 1))
    | _ => ring.firstSeq
  { ring with
    slots := ring.slots.set ring.writePos (some ⟨seq, payload⟩)
    writePos := (ring.writePos + 1) % ring.capacity
    baseSeq := ring.baseSeq.or (some seq)
    firstSeq := firstSeq.or (some seq) }

/-- The message in the slot of a number, if it has that number. -/
def lookup (ring : MessageRingBuf) (base seq : Nat) : Option CachedMessage :=
  match ring.slots[ring.indexOf base seq]? with
  | some (some m) => if m.seq = seq then some m else none
  | _ => none

/-- The message with a number.  An empty ring panics. -/
def get (ring : MessageRingBuf) (seq : Nat) : Option (Option CachedMessage) :=
  ring.baseSeq.map fun base => ring.lookup base seq

/-- The messages from a number on, up to the first that is missing. -/
def rangeLoop (ring : MessageRingBuf) (base : Nat) : Nat → Nat → List CachedMessage
  | 0, _ => []
  | n + 1, seq =>
      match ring.lookup base seq with
      | none => []
      | some m => m :: rangeLoop ring base n (seq + 1)

/-- At most `count` messages from a number on. -/
def getRange (ring : MessageRingBuf) (start count : Nat) : List CachedMessage :=
  match ring.baseSeq with
  | none => []
  | some base => ring.rangeLoop base (min (start + count) (2 ^ 64 - 1) - start) start

/-- The lowest number that was not dropped. -/
def evictionFloor (ring : MessageRingBuf) : Option Nat := ring.firstSeq

/-! ## Messages pushed in order -/

/-- The ring after these messages were pushed, numbered from `s`. -/
structure FilledFrom (s : Nat) (ring : MessageRingBuf) (msgs : List Payload) : Prop where
  pos : 0 < ring.capacity
  length : ring.slots.length = ring.capacity
  writePos : ring.writePos = msgs.length % ring.capacity
  baseSeq : ring.baseSeq = if msgs = [] then none else some s
  /-- The last messages are in their slots. -/
  here : ∀ k (p : Payload), msgs[k]? = some p → msgs.length ≤ k + ring.capacity →
    ring.slots[k % ring.capacity]? = some (some ⟨k + s, p⟩)
  /-- Nothing else is in a slot. -/
  only : ∀ i m, ring.slots[i]? = some (some m) → ∃ k p, msgs[k]? = some p ∧
    msgs.length ≤ k + ring.capacity ∧ i = k % ring.capacity ∧ m = ⟨k + s, p⟩

theorem filledFrom_new {capacity : Nat} (h : 0 < capacity) (s : Nat) :
    (new capacity).FilledFrom s [] where
  pos := h
  length := List.length_replicate
  writePos := (Nat.zero_mod capacity).symm
  baseSeq := rfl
  here k p hp := by simp at hp
  only i m hm := by
    have := List.mem_of_getElem? hm
    simp [new] at this

theorem mod_ne_of_lt {c k n : Nat} (hlt : k < n) (hclose : n < k + c) : k % c ≠ n % c := by
  intro h
  have hdvd : c ∣ n - k := (Nat.modEq_iff_dvd' hlt.le).mp h
  have := Nat.le_of_dvd (by omega) hdvd
  omega

section From

variable {s : Nat} {ring : MessageRingBuf} {msgs : List Payload}

theorem FilledFrom.writePos_lt (h : ring.FilledFrom s msgs) :
    ring.writePos < ring.slots.length := by
  rw [h.writePos, h.length]
  exact Nat.mod_lt _ h.pos

/-- The next message goes into its slot. -/
theorem FilledFrom.push (h : ring.FilledFrom s msgs) (payload : Payload) :
    (ring.push (msgs.length + s) payload).FilledFrom s (msgs ++ [payload]) := by
  have hlen : (msgs ++ [payload]).length = msgs.length + 1 := by simp
  refine ⟨h.pos, ?_, ?_, ?_, ?_, ?_⟩
  · simpa [MessageRingBuf.push] using h.length
  · show (ring.writePos + 1) % ring.capacity = _
    rw [h.writePos, hlen, Nat.mod_add_mod]
    rfl
  · show ring.baseSeq.or _ = _
    rw [h.baseSeq]
    cases msgs with
    | nil => simp
    | cons => rfl
  · intro k p hp hnear
    rw [hlen] at hnear
    show (ring.slots.set ring.writePos _)[k % ring.capacity]? = _
    have hk : k < msgs.length + 1 := hlen ▸ (List.getElem?_eq_some_iff.mp hp).1
    rcases Nat.lt_succ_iff_lt_or_eq.mp hk with hlt | rfl
    · have hne : ring.writePos ≠ k % ring.capacity := by
        rw [h.writePos]
        exact (mod_ne_of_lt hlt (by simpa [MessageRingBuf.push] using hnear)).symm
      rw [List.getElem?_set_ne hne]
      rw [List.getElem?_append_left hlt] at hp
      exact h.here k p hp (Nat.le_of_succ_le hnear)
    · rw [← h.writePos, List.getElem?_set_self h.writePos_lt]
      simp at hp
      rw [hp]
  · intro i m hm
    show ∃ k p, _ ∧ (msgs ++ [payload]).length ≤ k + ring.capacity ∧ i = k % ring.capacity ∧ _
    rw [hlen]
    have hpos := h.pos
    have hset : (ring.slots.set ring.writePos (some ⟨msgs.length + s, payload⟩))[i]? =
        some (some m) := hm
    rcases eq_or_ne ring.writePos i with rfl | hne
    · rw [List.getElem?_set_self h.writePos_lt] at hset
      refine ⟨msgs.length, payload, by simp, by omega, h.writePos, ?_⟩
      simpa using hset.symm
    · rw [List.getElem?_set_ne hne] at hset
      obtain ⟨k, p, hp, hnear, hi, rfl⟩ := h.only i m hset
      have hk := (List.getElem?_eq_some_iff.mp hp).1
      refine ⟨k, p, by rwa [List.getElem?_append_left hk], ?_, hi, rfl⟩
      -- the slot that was written is that of the message just dropped
      have hdropped : msgs.length ≠ k + ring.capacity := by
        intro heq
        apply hne
        rw [h.writePos, heq, Nat.add_mod_right, hi]
      omega

/-- Several messages in a row. -/
theorem FilledFrom.pushAll (h : ring.FilledFrom s msgs) (payloads : List Payload) :
    ((numbered (msgs.length + s) payloads).foldl (fun ring m => ring.push m.1 m.2) ring).FilledFrom
      s (msgs ++ payloads) := by
  induction payloads generalizing ring msgs with
  | nil => simpa using h
  | cons p payloads ih =>
      have hnext := ih (h.push p)
      rwa [List.length_append, List.append_assoc, List.length_singleton,
        Nat.add_right_comm msgs.length 1 s] at hnext

/-- A message is found exactly if it is one of the last ones. -/
theorem FilledFrom.lookup_eq (h : ring.FilledFrom s msgs) {seq : Nat} (hfrom : s ≤ seq)
    (hlt : seq < 2 ^ 64) :
    ring.lookup s seq =
      if msgs.length + s ≤ seq + ring.capacity then
        (msgs[seq - s]?).map fun p => ⟨seq, p⟩
      else none := by
  have hindex : ring.indexOf s seq = (seq - s) % ring.capacity := by
    have hmod : (seq + 2 ^ 64 - s) % 2 ^ 64 = seq - s := by omega
    rw [indexOf, hmod]
  rw [lookup, hindex]
  split
  next m hm =>
    obtain ⟨k, p, hp, hnear, hi, rfl⟩ := h.only _ m hm
    split
    next heq =>
      have hk : k + s = seq := heq
      have hsub : seq - s = k := by omega
      rw [if_pos (by omega), hsub, hp]
      simp only [Option.map_some, hk]
    next hne =>
      have hne : k + s ≠ seq := hne
      split
      next hlast =>
        cases hget : msgs[seq - s]? with
        | none => rfl
        | some q =>
            have hhere := h.here (seq - s) q hget (by omega)
            rw [hm] at hhere
            simp only [Option.some.injEq, CachedMessage.mk.injEq] at hhere
            omega
      next => rfl
  next hnone =>
    split
    next hlast =>
      cases hget : msgs[seq - s]? with
      | none => rfl
      | some q => exact absurd (h.here (seq - s) q hget (by omega)) (hnone _)
    next => rfl

/-- No number before the first one is found, wherever it wraps to. -/
theorem FilledFrom.lookup_below (h : ring.FilledFrom s msgs) {seq : Nat} (hlt : seq < s) :
    ring.lookup s seq = none := by
  rw [lookup]
  split
  next m hm =>
    obtain ⟨k, p, -, -, -, rfl⟩ := h.only _ m hm
    exact if_neg (show k + s ≠ seq by omega)
  next => rfl

end From

/-! ## The window of a ring -/

/-- Push messages numbered from `s` into a new ring. -/
def pushFrom (capacity s : Nat) (msgs : List Payload) : MessageRingBuf :=
  (numbered s msgs).foldl (fun ring m => ring.push m.1 m.2) (new capacity)

/-- The number is one of the last ones, of as many as the ring has slots. -/
def InWindow (capacity s : Nat) (msgs : List Payload) (q : Nat) : Prop :=
  s + (msgs.length - min msgs.length capacity) ≤ q ∧ q < s + msgs.length

theorem filledFrom_pushFrom {capacity : Nat} (hpos : 0 < capacity) (s : Nat)
    (msgs : List Payload) : (pushFrom capacity s msgs).FilledFrom s msgs := by
  have h := (filledFrom_new hpos s).pushAll msgs
  rwa [List.length_nil, Nat.zero_add, List.nil_append] at h

theorem capacity_foldl (ring : MessageRingBuf) (xs : List (Nat × Payload)) :
    (xs.foldl (fun ring m => ring.push m.1 m.2) ring).capacity = ring.capacity := by
  induction xs generalizing ring with
  | nil => rfl
  | cons x xs ih => exact ih _

theorem capacity_pushFrom (capacity s : Nat) (msgs : List Payload) :
    (pushFrom capacity s msgs).capacity = capacity := capacity_foldl _ _

section Window

variable {s : Nat} {ring : MessageRingBuf} {msgs : List Payload}

/-- A message of the window is found under its number. -/
theorem FilledFrom.lookup_inWindow (h : ring.FilledFrom s msgs) {q : Nat} (hq : q < 2 ^ 64)
    (hin : InWindow ring.capacity s msgs q) :
    ∃ p, msgs[q - s]? = some p ∧ ring.lookup s q = some ⟨q, p⟩ := by
  obtain ⟨hlo, hhi⟩ := hin
  have hget := List.getElem?_eq_getElem (show q - s < msgs.length by omega)
  refine ⟨_, hget, ?_⟩
  rw [h.lookup_eq (by omega) hq, if_pos (by omega), hget, Option.map_some]

/-- No other number is found. -/
theorem FilledFrom.lookup_outside (h : ring.FilledFrom s msgs) {q : Nat} (hq : q < 2 ^ 64)
    (hout : ¬ InWindow ring.capacity s msgs q) : ring.lookup s q = none := by
  rcases Nat.lt_or_ge q s with hlt | hge
  · exact h.lookup_below hlt
  rw [h.lookup_eq hge hq]
  split
  next hnear =>
    have hlate : msgs.length ≤ q - s := by
      by_contra hearly
      exact hout ⟨by omega, by omega⟩
    rw [List.getElem?_eq_none hlate, Option.map_none]
  next => rfl

/-- A range is read up to the first number that is not found. -/
theorem rangeLoop_eq (ring : MessageRingBuf) (base n seq : Nat) :
    ∃ k ≤ n, (∀ i < k, ring.lookup base (seq + i) ≠ none) ∧
      (k < n → ring.lookup base (seq + k) = none) ∧
      (ring.rangeLoop base n seq).map some = (List.range' seq k).map (ring.lookup base) := by
  induction n generalizing seq with
  | zero => exact ⟨0, le_rfl, by simp, by simp, rfl⟩
  | succ n ih =>
      rw [rangeLoop]
      cases hlook : ring.lookup base seq with
      | none => exact ⟨0, Nat.zero_le _, by simp, fun _ => hlook, rfl⟩
      | some m =>
          obtain ⟨k, hk, hfound, hstop, hmap⟩ := ih (seq + 1)
          refine ⟨k + 1, Nat.succ_le_succ hk, fun i hi => ?_, fun hlt => ?_, ?_⟩
          · cases i with
            | zero => simp [hlook]
            | succ i =>
                rw [← Nat.add_assoc, Nat.add_right_comm]
                exact hfound i (Nat.lt_of_succ_lt_succ hi)
          · rw [← Nat.add_assoc, Nat.add_right_comm]
            exact hstop (Nat.lt_of_succ_lt_succ hlt)
          · rw [List.map_cons, hmap, List.range'_succ, List.map_cons, hlook]

/-- The lowest number is that of the window. -/
theorem FilledFrom.firstSeq_push (h : ring.FilledFrom s msgs)
    (hfirst : ring.firstSeq =
      if msgs = [] then none else some (s + (msgs.length - ring.capacity))) (payload : Payload) :
    (ring.push (msgs.length + s) payload).firstSeq =
      some (s + (msgs.length + 1 - ring.capacity)) := by
  have hpos := h.pos
  rcases Nat.lt_or_ge msgs.length ring.capacity with hlt | hge
  · -- the slot is still free
    have hfree : ∀ m, ring.slots[ring.writePos]? ≠ some (some m) := by
      intro m hm
      obtain ⟨k, p, hp, -, hi, -⟩ := h.only _ m hm
      have hk := (List.getElem?_eq_some_iff.mp hp).1
      rw [h.writePos, Nat.mod_eq_of_lt hlt, Nat.mod_eq_of_lt (hk.trans hlt)] at hi
      omega
    have hsame : (ring.push (msgs.length + s) payload).firstSeq =
        ring.firstSeq.or (some (msgs.length + s)) := by
      simp only [MessageRingBuf.push]
    rw [hsame, hfirst]
    cases msgs with
    | nil =>
        have : 1 - ring.capacity = 0 := by omega
        simp [this]
    | cons p msgs =>
        have hnone : (p :: msgs).length + 1 - ring.capacity = 0 := by omega
        have hnone' : (p :: msgs).length - ring.capacity = 0 := by omega
        rw [hnone, hnone', if_neg (List.cons_ne_nil p msgs)]
        rfl
  · -- the slot has the oldest message
    have hne : msgs ≠ [] := List.ne_nil_of_length_pos (by omega)
    have hget := List.getElem?_eq_getElem (show msgs.length - ring.capacity < msgs.length by omega)
    have hslot : ring.writePos = (msgs.length - ring.capacity) % ring.capacity := by
      rw [h.writePos, Nat.mod_eq_sub_mod hge]
    have hold := h.here _ _ hget (by omega)
    rw [← hslot] at hold
    simp only [MessageRingBuf.push, hold, hfirst, if_neg hne, Option.map_some, Option.getD_some,
      Option.some_or]
    congr 1
    omega

/-- A range is the longest run of numbers of the window. -/
theorem FilledFrom.getRange_window (h : ring.FilledFrom s msgs)
    (hsmall : ∀ k < msgs.length, s + k < 2 ^ 64 - 1) {a : Nat} (ha : a < 2 ^ 64) (m : Nat) :
    ∃ k ≤ m, (∀ i < k, InWindow ring.capacity s msgs (a + i)) ∧
      (k < m → ¬ InWindow ring.capacity s msgs (a + k)) ∧
      (ring.getRange a m).map (fun x => (x.seq, some x.payload)) =
        (List.range' a k).map fun q => (q, msgs[q - s]?) := by
  by_cases hne : msgs = []
  · refine ⟨0, Nat.zero_le m, by simp, fun _ hin => ?_, ?_⟩
    · have := hin.1
      have := hin.2
      simp only [hne, List.length_nil] at *
      omega
    · rw [getRange, h.baseSeq, if_pos hne]
      rfl
  rw [getRange, h.baseSeq, if_neg hne]
  obtain ⟨k, hk, hfound, hstop, hmap⟩ :=
    ring.rangeLoop_eq s (min (a + m) (2 ^ 64 - 1) - a) a
  have hin : ∀ i < k, InWindow ring.capacity s msgs (a + i) := by
    intro i hi
    by_contra hout
    exact hfound i hi (h.lookup_outside (by omega) hout)
  refine ⟨k, by omega, hin, fun hlt hend => ?_, ?_⟩
  · rcases Nat.lt_or_ge k (min (a + m) (2 ^ 64 - 1) - a) with hloop | hloop
    · obtain ⟨p, -, hlook⟩ := h.lookup_inWindow (by omega) hend
      rw [hstop hloop] at hlook
      cases hlook
    · -- the loop ends before the largest number, which was not pushed
      have hlast := hsmall (a + k - s) (by have := hend.1; have := hend.2; omega)
      have := hend.1
      omega
  · have hpairs := congrArg (List.map fun x : Option CachedMessage =>
      (((x.map CachedMessage.seq).getD 0), x.map CachedMessage.payload)) hmap
    rw [List.map_map, List.map_map] at hpairs
    refine hpairs.trans (List.map_congr_left fun q hq => ?_)
    obtain ⟨i, hi, rfl⟩ := List.mem_range'.mp hq
    rw [Nat.one_mul]
    obtain ⟨p, hp, hlook⟩ := h.lookup_inWindow (by omega) (hin i hi)
    simp only [Function.comp_apply, hlook, hp, Option.map_some, Option.getD_some]

end Window

theorem firstSeq_pushFrom {capacity : Nat} (hpos : 0 < capacity) (s : Nat) (msgs : List Payload) :
    (pushFrom capacity s msgs).firstSeq =
      if msgs = [] then none else some (s + (msgs.length - capacity)) := by
  induction msgs using List.reverseRecOn with
  | nil => rfl
  | append_singleton msgs payload ih =>
      have hpush : pushFrom capacity s (msgs ++ [payload]) =
          (pushFrom capacity s msgs).push (msgs.length + s) payload := by
        rw [pushFrom, numbered_append, List.foldl_append, Nat.add_comm s]
        rfl
      have hfilled := filledFrom_pushFrom hpos s msgs
      rw [hpush, hfilled.firstSeq_push (by rwa [capacity_pushFrom]), capacity_pushFrom,
        if_neg (by simp), List.length_append, List.length_singleton]

/-- A ring of pushed messages is the window of the last ones.

* A message is found under its number if that is in the window, and no other number is found.
* A range is the longest run of numbers of the window, up to its count.
* The floor is the lowest number of the window. -/
theorem ring_is_window (capacity s : Nat) (hpos : 0 < capacity) (msgs : List Payload)
    (hsmall : ∀ k < msgs.length, s + k < 2 ^ 64 - 1) :
    (msgs ≠ [] → ∀ q < 2 ^ 64,
      (InWindow capacity s msgs q → ∃ p, msgs[q - s]? = some p ∧
        (pushFrom capacity s msgs).get q = some (some ⟨q, p⟩)) ∧
      (¬ InWindow capacity s msgs q → (pushFrom capacity s msgs).get q = some none)) ∧
    (∀ a < 2 ^ 64, ∀ m < 2 ^ 64, ∃ k ≤ m, (∀ i < k, InWindow capacity s msgs (a + i)) ∧
      (k < m → ¬ InWindow capacity s msgs (a + k)) ∧
      ((pushFrom capacity s msgs).getRange a m).map (fun x => (x.seq, some x.payload)) =
        (List.range' a k).map fun q => (q, msgs[q - s]?)) ∧
    (msgs ≠ [] → ∃ floor, (pushFrom capacity s msgs).evictionFloor = some floor ∧
      InWindow capacity s msgs floor ∧ ∀ q, InWindow capacity s msgs q → floor ≤ q) := by
  have hfilled := filledFrom_pushFrom hpos s msgs
  have hcap := capacity_pushFrom capacity s msgs
  refine ⟨fun hne q hq => ?_, fun a ha m _ => ?_, fun hne => ?_⟩
  · have hbase : (pushFrom capacity s msgs).baseSeq = some s := by
      rw [hfilled.baseSeq, if_neg hne]
    rw [get, hbase, Option.map_some]
    refine ⟨fun hin => ?_, fun hout => ?_⟩
    · obtain ⟨p, hp, hlook⟩ := hfilled.lookup_inWindow hq (by rwa [hcap])
      exact ⟨p, hp, congrArg some hlook⟩
    · exact congrArg some (hfilled.lookup_outside hq (by rwa [hcap]))
  · have hrange := hfilled.getRange_window hsmall ha m
    rwa [hcap] at hrange
  · have hlen : 0 < msgs.length := List.length_pos_iff.mpr hne
    refine ⟨s + (msgs.length - capacity), ?_, ⟨by omega, by omega⟩, fun q hq => ?_⟩
    · rw [evictionFloor, firstSeq_pushFrom hpos, if_neg hne]
    · have := hq.1
      omega

/-- Three messages from ten on in a ring with two slots: the last two are there. -/
theorem ring_is_window_two :
    (pushFrom 2 10 [[97], [98], [99]]).evictionFloor = some 11 ∧
      (pushFrom 2 10 [[97], [98], [99]]).get 12 = some (some ⟨12, [99]⟩) ∧
      (pushFrom 2 10 [[97], [98], [99]]).get 10 = some none := by
  obtain ⟨hget, -, -⟩ := ring_is_window 2 10 (by decide) [[97], [98], [99]] (by decide)
  have hget := hget (by simp)
  refine ⟨by decide, ?_, (hget 10 (by decide)).2 fun h => absurd h.1 (by decide)⟩
  obtain ⟨p, hp, hfound⟩ := (hget 12 (by decide)).1 ⟨by decide, by decide⟩
  cases hp
  exact hfound

end MessageRingBuf

end MatchMoldUdp64
