import MatchRust.Lib.Runs
import MatchRust.Mold.Endpoints

/-!
# Threads that share a publisher

Every call of the publisher locks the next number and the ring one after the other, and
releases the one before it takes the other.  Between two locks any other thread may go
on.  A thread is therefore in one of a few places inside a call (`Call`), and the
scheduler picks who goes on (`Act.resume`).

Two things can go wrong.  `publish_batch` reads the next number for the header of its
packet, and takes the numbers of its messages later.  If another call takes numbers in
between, the header is wrong.  And the ring finds a message by its number, but stores it
after the last one stored.  If a call stores its messages before another one with
smaller numbers does, neither is found.  `publisher_safe` says that nothing else goes
wrong, and `interleaved_calls` shows both.
-/

namespace MatchMoldUdp64

open Numbered

/-- Where a thread is inside a call. -/
inductive Call where
  | idle
  /-- `publish_batch` has read the next number and chosen its messages. -/
  | read (firstSeq : Nat) (msgs blocks : List Payload)
  /-- The messages have their numbers. -/
  | taken (firstSeq : Nat) (seqs : List Nat) (msgs blocks : List Payload)
  /-- The messages are in the ring. -/
  | stored (firstSeq : Nat) (seqs : List Nat) (blocks : List Payload)
  /-- `send_heartbeat` has read the next number. -/
  | beat (seq : Nat)
deriving DecidableEq

/-- The numbers of a call that has not stored its messages yet. -/
def Call.numbers : Call → List Nat
  | taken _ seqs _ _ => seqs
  | _ => []

/-- A datagram that was sent, and its messages with the numbers they were given. -/
structure SentPacket where
  bytes : List UInt8
  msgs : List (Nat × Payload)
deriving DecidableEq

/-- A publisher and the threads that call it. -/
structure Threads (Tid : Type) where
  pub : MoldPublisher
  calls : Tid → Call
  /-- All numbers given so far, with their messages, in the order in which they were given. -/
  assigned : List (Nat × Payload)
  sent : List SentPacket

/-- A thread starts a call, or goes on up to the next lock. -/
inductive Act (Tid : Type) where
  | publish (t : Tid) (payload : Payload)
  | publishBatch (t : Tid) (msgs : List Payload) (maxDatagramBytes : Nat)
  | sendHeartbeat (t : Tid)
  | resume (t : Tid)

namespace Threads

variable {Tid : Type} [DecidableEq Tid]

/-- A new publisher that nobody has called. -/
def init (session : List UInt8) (capacity : Nat) : Threads Tid :=
  ⟨MoldPublisher.new session capacity, fun _ => .idle, [], []⟩

/-- Put a thread to a place. -/
def setCall (w : Threads Tid) (t : Tid) (c : Call) : Threads Tid :=
  { w with calls := Function.update w.calls t c }

/-- Take the numbers of some messages. -/
def take (w : Threads Tid) (t : Tid) (firstSeq : Nat) (msgs blocks : List Payload) : Threads Tid :=
  let r := w.pub.allocSeqs blocks.length
  { w.setCall t (.taken firstSeq r.1 msgs blocks) with
    pub := r.2
    assigned := w.assigned ++ r.1.zip blocks }

/-- Go on up to the next lock, or to the end of the call. -/
def resume (w : Threads Tid) (t : Tid) : Threads Tid :=
  match w.calls t with
  | .idle => w
  | .read firstSeq msgs blocks => w.take t firstSeq msgs blocks
  | .taken firstSeq seqs msgs blocks =>
      { w.setCall t (.stored firstSeq seqs blocks) with pub := w.pub.pushAll (seqs.zip msgs) }
  | .stored firstSeq seqs blocks =>
      { w.setCall t .idle with
        sent := w.sent ++ [⟨packet w.pub.sessionId firstSeq blocks, seqs.zip blocks⟩] }
  | .beat seq =>
      { w.setCall t .idle with sent := w.sent ++ [⟨heartbeat w.pub.sessionId seq, []⟩] }

/-- Start a call.  A thread inside a call starts no other one. -/
def act (w : Threads Tid) : Act Tid → Threads Tid
  | .publish t payload =>
      if w.calls t = .idle then w.take t w.pub.nextSeq [payload] [payload] else w
  | .publishBatch t msgs maxDatagramBytes =>
      if w.calls t = .idle then
        if msgs = [] then w
        else
          let blocks := MoldPublisher.fitBlocks msgs maxDatagramBytes
          if blocks = [] then w else w.setCall t (.read w.pub.nextSeq msgs blocks)
      else w
  | .sendHeartbeat t => if w.calls t = .idle then w.setCall t (.beat w.pub.nextSeq) else w
  | .resume t => w.resume t

/-- What the threads should be able to rely on. -/
structure Safe (w : Threads Tid) : Prop where
  /-- The messages of a packet are numbered from the number in its header on. -/
  packets : ∀ s ∈ w.sent, ∃ header, DownstreamHeader.decode s.bytes = some header ∧
    s.msgs = numbered header.seq (s.msgs.map Prod.snd) ∧ ∀ m ∈ s.msgs, m ∈ w.assigned
  /-- No number is given twice. -/
  unique : (w.assigned.map Prod.fst).Nodup
  /-- When all calls have returned, the ring has the last messages. -/
  cached : (∀ t, w.calls t = .idle) →
    ∀ m ∈ w.assigned.drop (w.assigned.length - w.pub.cache.capacity),
      w.pub.cache.get m.1 = some (some ⟨m.1, m.2⟩)

/-- It is the turn of a thread to go on from a place.  A batch takes the numbers that it has
read.  No call stores its messages before another one that has smaller numbers. -/
def TurnOf (w : Threads Tid) (t : Tid) : Call → Prop
  | .read firstSeq _ blocks => w.pub.nextSeq = firstSeq ∧ w.pub.nextSeq + blocks.length < 2 ^ 64
  | .taken _ seqs _ _ => ∀ t', t' ≠ t → ∀ m ∈ (w.calls t').numbers, ∀ n ∈ seqs, n < m
  | _ => True

/-- Threads go on when it is their turn.  The numbers stay below `2 ^ 64`. -/
def InTurn (w : Threads Tid) : Act Tid → Prop
  | .publish _ _ => w.pub.nextSeq + 1 < 2 ^ 64
  | .resume t => w.TurnOf t (w.calls t)
  | _ => True

instance decidableTurnOf [Fintype Tid] (w : Threads Tid) (t : Tid) :
    ∀ c : Call, Decidable (w.TurnOf t c)
  | .read _ _ _ => inferInstanceAs (Decidable (_ ∧ _))
  | .taken _ seqs _ _ =>
      inferInstanceAs (Decidable (∀ t', t' ≠ t → ∀ m ∈ (w.calls t').numbers, ∀ n ∈ seqs, n < m))
  | .idle | .stored _ _ _ | .beat _ => inferInstanceAs (Decidable True)

instance decidableInTurn [Fintype Tid] (w : Threads Tid) : ∀ a : Act Tid, Decidable (w.InTurn a)
  | .publish _ _ => inferInstanceAs (Decidable (_ < _))
  | .resume t => inferInstanceAs (Decidable (w.TurnOf t (w.calls t)))
  | .publishBatch _ _ _ | .sendHeartbeat _ => inferInstanceAs (Decidable True)

/-! ## What is kept -/

/-- The messages have these numbers in the list of all messages. -/
def Placed (log : List Payload) (firstSeq : Nat) (blocks : List Payload) : Prop :=
  ∃ before after, log = before ++ blocks ++ after ∧ firstSeq = before.length + 1

theorem Placed.append {log blocks : List Payload} {firstSeq : Nat} (h : Placed log firstSeq blocks)
    (more : List Payload) : Placed (log ++ more) firstSeq blocks := by
  obtain ⟨before, after, rfl, rfl⟩ := h
  exact ⟨before, after ++ more, by simp [List.append_assoc], rfl⟩

theorem Placed.mem {log blocks : List Payload} {firstSeq : Nat} (h : Placed log firstSeq blocks) :
    ∀ m ∈ numbered firstSeq blocks, m ∈ numbered 1 log := by
  obtain ⟨before, after, rfl, rfl⟩ := h
  intro m hm
  rw [numbered_append, numbered_append, Nat.add_comm 1 before.length]
  exact List.mem_append_left _ (List.mem_append_right _ hm)

/-- What is known of a call, if so many messages are stored. -/
def CallSound (log : List Payload) (done : Nat) : Call → Prop
  | .idle => True
  | .read _ msgs blocks => blocks ≠ [] ∧ blocks <+: msgs
  | .taken firstSeq seqs msgs blocks => blocks ≠ [] ∧ blocks <+: msgs ∧
      seqs = List.range' firstSeq blocks.length ∧ Placed log firstSeq blocks ∧ done < firstSeq
  | .stored firstSeq seqs blocks => blocks ≠ [] ∧
      seqs = List.range' firstSeq blocks.length ∧ Placed log firstSeq blocks
  | .beat seq => seq < 2 ^ 64

theorem CallSound.append {log : List Payload} {done : Nat} {c : Call} (h : CallSound log done c)
    (more : List Payload) : CallSound (log ++ more) done c := by
  cases c with
  | idle => exact h
  | read firstSeq msgs blocks => exact h
  | taken firstSeq seqs msgs blocks =>
      obtain ⟨hne, hpre, hseqs, hplaced, hdone⟩ := h
      exact ⟨hne, hpre, hseqs, hplaced.append more, hdone⟩
  | stored firstSeq seqs blocks =>
      obtain ⟨hne, hseqs, hplaced⟩ := h
      exact ⟨hne, hseqs, hplaced.append more⟩
  | beat seq => exact h

/-- The numbers a call holds are those of messages in the list. -/
theorem CallSound.numbers_le {log : List Payload} {done : Nat} {c : Call}
    (h : CallSound log done c) {n : Nat} (hn : n ∈ c.numbers) : n ≤ log.length := by
  cases c with
  | taken firstSeq seqs msgs blocks =>
      obtain ⟨-, -, rfl, ⟨before, after, rfl, rfl⟩, -⟩ := h
      have := List.mem_range'_1.mp hn
      simp only [List.length_append]
      omega
  | idle => cases hn
  | read => cases hn
  | stored => cases hn
  | beat => cases hn

/-- More messages are stored, all of them before those of the call. -/
theorem CallSound.later {log : List Payload} {done done' : Nat} {c : Call}
    (h : CallSound log done c) (hlater : ∀ n ∈ c.numbers, done' < n) : CallSound log done' c := by
  cases c with
  | taken firstSeq seqs msgs blocks =>
      obtain ⟨hne, hpre, rfl, hplaced, -⟩ := h
      have hpos : 0 < blocks.length := List.length_pos_iff.mpr hne
      exact ⟨hne, hpre, rfl, hplaced,
        hlater firstSeq (List.mem_range'_1.mpr ⟨le_rfl, by omega⟩)⟩
  | idle => exact h
  | read => exact h
  | stored => exact h
  | beat => exact h

/-- All messages in the order of their numbers, and how many of them are stored. -/
structure Kept (w : Threads Tid) (log : List Payload) (done : Nat) : Prop where
  next : w.pub.nextSeq = log.length + 1
  small : log.length + 1 < 2 ^ 64
  assigned : w.assigned = numbered 1 log
  done_le : done ≤ log.length
  filled : w.pub.cache.FilledFrom 1 (log.take done)
  calls : ∀ t, CallSound log done (w.calls t)
  /-- A message that is not stored is held by one call. -/
  held : ∀ n, done < n → n ≤ log.length → ∃ t, n ∈ (w.calls t).numbers
  apart : ∀ t t' n, n ∈ (w.calls t).numbers → n ∈ (w.calls t').numbers → t = t'
  sent : ∀ s ∈ w.sent, ∃ header, DownstreamHeader.decode s.bytes = some header ∧
    s.msgs = numbered header.seq (s.msgs.map Prod.snd) ∧ ∀ m ∈ s.msgs, m ∈ w.assigned

variable {w : Threads Tid} {log : List Payload} {done : Nat} {t : Tid}

omit [DecidableEq Tid] in
theorem kept_init {session : List UInt8} {capacity : Nat} (h : 0 < capacity) :
    (init session capacity : Threads Tid).Kept [] 0 where
  next := rfl
  small := by decide
  assigned := rfl
  done_le := le_rfl
  filled := MessageRingBuf.filledFrom_new h 1
  calls t := trivial
  held n hlt hle := absurd hle (Nat.not_le.mpr hlt)
  apart t t' n hn := by cases hn
  sent s hs := by cases hs

theorem calls_setCall_self (w : Threads Tid) (t : Tid) (c : Call) :
    (w.setCall t c).calls t = c := by
  simp [setCall]

theorem calls_setCall_ne {t' : Tid} (h : t' ≠ t) (w : Threads Tid) (c : Call) :
    (w.setCall t c).calls t' = w.calls t' := by
  simp [setCall, h]

/-- The places of the threads are sound if that of the thread that went on is. -/
theorem callSound_setCall {c : Call} (h : ∀ t', t' ≠ t → CallSound log done (w.calls t'))
    (hc : CallSound log done c) (t' : Tid) : CallSound log done ((w.setCall t c).calls t') := by
  rcases eq_or_ne t' t with rfl | hne
  · rwa [calls_setCall_self]
  · rw [calls_setCall_ne hne]
    exact h t' hne

/-- A thread that holds no number before and after does not matter to the others. -/
theorem numbers_setCall {c : Call} (h : c.numbers = (w.calls t).numbers) (t' : Tid) :
    ((w.setCall t c).calls t').numbers = (w.calls t').numbers := by
  rcases eq_or_ne t' t with rfl | hne
  · rw [calls_setCall_self, h]
  · rw [calls_setCall_ne hne]

/-- A thread that holds no number any more is not among those that do. -/
theorem mem_numbers_of_setCall {c : Call} (hc : c.numbers = []) {t' : Tid} {n : Nat}
    (h : n ∈ ((w.setCall t c).calls t').numbers) : n ∈ (w.calls t').numbers := by
  rcases eq_or_ne t' t with rfl | hne
  · rw [calls_setCall_self, hc] at h
    cases h
  · rwa [calls_setCall_ne hne] at h

/-- A thread goes to another place, and leaves numbers and ring alone. -/
theorem Kept.setCall (h : w.Kept log done) {c : Call} (hc : CallSound log done c)
    (hnum : c.numbers = (w.calls t).numbers) : (w.setCall t c).Kept log done where
  next := h.next
  small := h.small
  assigned := h.assigned
  done_le := h.done_le
  filled := h.filled
  calls := callSound_setCall (fun t' _ => h.calls t') hc
  held n hlt hle := by
    obtain ⟨t', ht'⟩ := h.held n hlt hle
    exact ⟨t', by rwa [numbers_setCall hnum]⟩
  apart t₁ t₂ n h₁ h₂ := by
    rw [numbers_setCall hnum] at h₁ h₂
    exact h.apart t₁ t₂ n h₁ h₂
  sent := h.sent

omit [DecidableEq Tid] in
/-- A datagram is sent. -/
theorem Kept.send (h : w.Kept log done) {s : SentPacket}
    (hs : ∃ header, DownstreamHeader.decode s.bytes = some header ∧
      s.msgs = numbered header.seq (s.msgs.map Prod.snd) ∧ ∀ m ∈ s.msgs, m ∈ w.assigned) :
    ({ w with sent := w.sent ++ [s] } : Threads Tid).Kept log done where
  next := h.next
  small := h.small
  assigned := h.assigned
  done_le := h.done_le
  filled := h.filled
  calls := h.calls
  held := h.held
  apart := h.apart
  sent s' hs' := by
    rcases List.mem_append.mp hs' with hold | hnew
    · exact h.sent s' hold
    · rw [List.mem_singleton.mp hnew]
      exact hs

/-- A thread takes the next numbers for its messages. -/
theorem Kept.take (h : w.Kept log done) {msgs blocks : List Payload}
    (hidle : (w.calls t).numbers = []) (hne : blocks ≠ []) (hpre : blocks <+: msgs)
    (hsmall : w.pub.nextSeq + blocks.length < 2 ^ 64) :
    (w.take t w.pub.nextSeq msgs blocks).Kept (log ++ blocks) done := by
  have halloc := MoldPublisher.allocSeqs_eq hsmall
  have hzip := zip_range'_eq_numbered w.pub.nextSeq (List.prefix_refl blocks)
  have hplaced : Placed (log ++ blocks) w.pub.nextSeq blocks :=
    ⟨log, [], (List.append_nil _).symm, h.next⟩
  have hnew : ((w.take t w.pub.nextSeq msgs blocks).calls t).numbers =
      List.range' (log.length + 1) blocks.length := by
    rw [Threads.take, halloc, ← h.next]
    exact congrArg Call.numbers (calls_setCall_self _ _ _)
  have hold : ∀ t', t' ≠ t →
      (w.take t w.pub.nextSeq msgs blocks).calls t' = w.calls t' := fun t' ht' =>
    calls_setCall_ne ht' _ _
  constructor
  case next =>
    show (w.pub.allocSeqs blocks.length).2.nextSeq = _
    rw [halloc, List.length_append, h.next]
    exact Nat.add_right_comm _ _ _
  case small =>
    rw [h.next] at hsmall
    rw [List.length_append]
    omega
  case assigned =>
    show w.assigned ++ (w.pub.allocSeqs blocks.length).1.zip blocks = _
    rw [halloc, hzip, h.assigned, numbered_append, h.next, Nat.add_comm 1]
  case done_le =>
    rw [List.length_append]
    exact Nat.le_add_right_of_le h.done_le
  case filled =>
    rw [Threads.take, halloc, List.take_append_of_le_length h.done_le]
    exact h.filled
  case calls =>
    refine callSound_setCall (fun t' _ => (h.calls t').append blocks) ?_
    exact ⟨hne, hpre, by rw [halloc], hplaced, by rw [h.next]; exact Nat.lt_succ_of_le h.done_le⟩
  case held =>
    intro n hlt hle
    rcases Nat.lt_or_ge log.length n with hgt | hle'
    · refine ⟨t, ?_⟩
      rw [List.length_append] at hle
      rw [hnew, List.mem_range'_1]
      omega
    · obtain ⟨t', ht'⟩ := h.held n hlt hle'
      have hne' : t' ≠ t := by
        rintro rfl
        rw [hidle] at ht'
        cases ht'
      exact ⟨t', by rwa [hold t' hne']⟩
  case apart =>
    intro t₁ t₂ n h₁ h₂
    rcases eq_or_ne t₁ t with hne₁ | hne₁ <;> rcases eq_or_ne t₂ t with hne₂ | hne₂
    · rw [hne₁, hne₂]
    · subst hne₁
      rw [hnew, List.mem_range'_1] at h₁
      rw [hold t₂ hne₂] at h₂
      have := (h.calls t₂).numbers_le h₂
      omega
    · subst hne₂
      rw [hnew, List.mem_range'_1] at h₂
      rw [hold t₁ hne₁] at h₁
      have := (h.calls t₁).numbers_le h₁
      omega
    · rw [hold t₁ hne₁] at h₁
      rw [hold t₂ hne₂] at h₂
      exact h.apart t₁ t₂ n h₁ h₂
  case sent =>
    intro s hs
    obtain ⟨header, hdec, hmsgs, hmem⟩ := h.sent s hs
    exact ⟨header, hdec, hmsgs, fun m hm => List.mem_append_left _ (hmem m hm)⟩

omit [DecidableEq Tid] in
/-- The numbers a thread holds when it stores its messages are the next ones. -/
theorem Kept.firstSeq_eq (h : w.Kept log done) {firstSeq : Nat} {seqs : List Nat}
    {msgs blocks : List Payload} (hcall : w.calls t = .taken firstSeq seqs msgs blocks)
    (hturn : ∀ t', t' ≠ t → ∀ m ∈ (w.calls t').numbers, ∀ n ∈ seqs, n < m) :
    firstSeq = done + 1 := by
  have hsound := h.calls t
  rw [hcall] at hsound
  obtain ⟨hne, -, rfl, ⟨before, after, rfl, hfirst⟩, hdone⟩ := hsound
  have hpos : 0 < blocks.length := List.length_pos_iff.mpr hne
  obtain ⟨t', ht'⟩ := h.held (done + 1) (Nat.lt_succ_self done) (by
    simp only [List.length_append]
    omega)
  rcases eq_or_ne t' t with rfl | hother
  · rw [hcall] at ht'
    have := (List.mem_range'_1.mp ht').1
    omega
  · have := hturn t' hother _ ht' firstSeq (List.mem_range'_1.mpr ⟨le_rfl, by omega⟩)
    omega

/-- A thread stores its messages in its turn. -/
theorem Kept.store (h : w.Kept log done) {firstSeq : Nat} {seqs : List Nat}
    {msgs blocks : List Payload} (hcall : w.calls t = .taken firstSeq seqs msgs blocks)
    (hturn : ∀ t', t' ≠ t → ∀ m ∈ (w.calls t').numbers, ∀ n ∈ seqs, n < m) :
    ({ w.setCall t (.stored firstSeq seqs blocks) with
      pub := w.pub.pushAll (seqs.zip msgs) } : Threads Tid).Kept log (done + blocks.length) := by
  have hfirst := h.firstSeq_eq hcall hturn
  have hsound := h.calls t
  rw [hcall] at hsound
  obtain ⟨hne, hpre, rfl, hplaced, hdone⟩ := hsound
  have hpos : 0 < blocks.length := List.length_pos_iff.mpr hne
  obtain ⟨before, after, hlog, hbefore⟩ := hplaced
  have hlen : before.length = done := by omega
  constructor
  case next => exact h.next
  case small => exact h.small
  case assigned => exact h.assigned
  case done_le =>
    rw [hlog, List.length_append, List.length_append]
    omega
  case filled =>
    have htake : log.take done = before := by
      rw [hlog, List.append_assoc, List.take_left' hlen]
    have htake' : log.take (done + blocks.length) = before ++ blocks := by
      rw [hlog, List.take_left' (by rw [List.length_append, hlen])]
    have hfill := h.filled
    rw [htake] at hfill
    rw [htake', zip_range'_eq_numbered _ hpre, hbefore]
    exact hfill.pushAll blocks
  case calls =>
    refine callSound_setCall (fun t' ht' => ?_) ⟨hne, rfl, before, after, hlog, hbefore⟩
    exact (h.calls t').later fun m hm => hturn t' ht' m hm (done + blocks.length)
      (List.mem_range'_1.mpr ⟨by omega, by omega⟩)
  case held =>
    intro n hlt hle
    obtain ⟨t', ht'⟩ := h.held n (by omega) hle
    have hother : t' ≠ t := by
      rintro rfl
      rw [hcall] at ht'
      have := List.mem_range'_1.mp ht'
      omega
    refine ⟨t', ?_⟩
    show n ∈ ((w.setCall t _).calls t').numbers
    rwa [calls_setCall_ne hother]
  case apart =>
    intro t₁ t₂ n h₁ h₂
    exact h.apart t₁ t₂ n (mem_numbers_of_setCall rfl h₁) (mem_numbers_of_setCall rfl h₂)
  case sent => exact h.sent

/-! ## Runs -/

theorem Kept.resume (h : w.Kept log done) (t : Tid) (hturn : w.InTurn (.resume t)) :
    ∃ log' done', (w.resume t).Kept log' done' := by
  have hsound := h.calls t
  have hturn : w.TurnOf t (w.calls t) := hturn
  unfold Threads.resume
  cases hc : w.calls t with
  | idle => exact ⟨log, done, h⟩
  | read firstSeq msgs blocks =>
      rw [hc] at hsound hturn
      obtain ⟨rfl, hsmall⟩ := hturn
      exact ⟨_, _, h.take (by rw [hc]; rfl) hsound.1 hsound.2 hsmall⟩
  | taken firstSeq seqs msgs blocks =>
      rw [hc] at hturn
      exact ⟨_, _, h.store hc hturn⟩
  | stored firstSeq seqs blocks =>
      rw [hc] at hsound
      obtain ⟨hne, rfl, hplaced⟩ := hsound
      have hkept : (w.setCall t .idle).Kept log done := h.setCall trivial (by rw [hc]; rfl)
      have hlt : firstSeq < 2 ^ 64 := by
        obtain ⟨before, after, rfl, rfl⟩ := hplaced
        have hpos := List.length_pos_iff.mpr hne
        have hsmall := h.small
        simp only [List.length_append] at hsmall
        omega
      refine ⟨log, done, hkept.send ⟨_, decode_packet w.pub.sessionId hlt blocks, ?_, ?_⟩⟩
      · rw [zip_range'_eq_numbered _ (List.prefix_refl _), map_snd_numbered]
      · rw [zip_range'_eq_numbered _ (List.prefix_refl _), hkept.assigned]
        exact hplaced.mem
  | beat seq =>
      rw [hc] at hsound
      have hkept : (w.setCall t .idle).Kept log done := h.setCall trivial (by rw [hc]; rfl)
      refine ⟨log, done, hkept.send ⟨_, decode_heartbeat w.pub.sessionId hsound, rfl, ?_⟩⟩
      intro m hm
      cases hm

theorem Kept.act (h : w.Kept log done) (a : Act Tid) (hturn : w.InTurn a) :
    ∃ log' done', (w.act a).Kept log' done' := by
  cases a with
  | publish t payload =>
      simp only [Threads.act]
      split
      next hidle =>
        exact ⟨_, _, h.take (by rw [hidle]; rfl) (List.cons_ne_nil _ _) (List.prefix_refl _) hturn⟩
      next => exact ⟨log, done, h⟩
  | publishBatch t msgs maxDatagramBytes =>
      simp only [Threads.act]
      split
      next hidle =>
        split
        next => exact ⟨log, done, h⟩
        next =>
          split
          next => exact ⟨log, done, h⟩
          next hne =>
            refine ⟨log, done, h.setCall ⟨hne, MoldPublisher.fitBlocks_prefix _ _⟩ ?_⟩
            rw [hidle]
            rfl
      next => exact ⟨log, done, h⟩
  | sendHeartbeat t =>
      simp only [Threads.act]
      split
      next hidle =>
        refine ⟨log, done, h.setCall ?_ (by rw [hidle]; rfl)⟩
        show w.pub.nextSeq < 2 ^ 64
        rw [h.next]
        exact h.small
      next => exact ⟨log, done, h⟩
  | resume t => exact h.resume t hturn

omit [DecidableEq Tid] in
theorem Kept.safe (h : w.Kept log done) : w.Safe where
  packets := h.sent
  unique := by
    rw [h.assigned, List.nodup_iff_pairwise_ne, List.pairwise_map]
    exact (pairwise_numbered 1 log).imp fun hlt => hlt.ne
  cached hidle := by
    -- nobody holds a message, so all of them are stored
    have hall : log.take done = log := by
      refine List.take_of_length_le (Nat.not_lt.mp fun hlt => ?_)
      obtain ⟨t, ht⟩ := h.held (done + 1) (Nat.lt_succ_self done) hlt
      rw [hidle t] at ht
      cases ht
    have hfilled := h.filled
    rw [hall] at hfilled
    rintro ⟨seq, p⟩ hm
    rw [h.assigned, length_numbered, drop_numbered, mem_numbered, List.getElem?_drop] at hm
    obtain ⟨hle, hget⟩ := hm
    have hlt := (List.getElem?_eq_some_iff.mp hget).1
    have hsmall := h.small
    have hindex : log.length - w.pub.cache.capacity +
        (seq - (1 + (log.length - w.pub.cache.capacity))) = seq - 1 := by omega
    rw [hindex] at hget
    have hne : log ≠ [] := by
      rintro rfl
      simp at hget
    rw [MessageRingBuf.get, hfilled.baseSeq, if_neg hne, Option.map_some,
      hfilled.lookup_eq (by omega) (by omega), if_pos (by omega), hget]
    rfl

/-- If batches take the numbers they have read and messages are stored in the order of their
numbers, every run of any threads is safe. -/
theorem publisher_safe {Tid : Type} [DecidableEq Tid] {session : List UInt8} {capacity : Nat}
    (hcapacity : 0 < capacity) {w : Threads Tid}
    (h : Runs.Reachable act InTurn (init session capacity) w) : w.Safe := by
  have hkept : ∃ log done, w.Kept log done := by
    refine h.invariant (P := fun w => ∃ log done, w.Kept log done)
      ⟨[], 0, kept_init hcapacity⟩ fun s a _ ha hs => ?_
    obtain ⟨log, done, hs⟩ := hs
    exact hs.act a ha
  obtain ⟨log, done, hkept⟩ := hkept
  exact hkept.safe

/-- Two threads.  The second one publishes a message before the first one has stored its batch. -/
def inTurn : List (Act (Fin 2)) :=
  [.publishBatch 0 [[97], [98]] 0, .resume 0, .publish 1 [99], .resume 0, .resume 1, .resume 0,
    .sendHeartbeat 0, .resume 1, .resume 0]

theorem publisher_safe_in_turn :
    (inTurn.foldl act (init [83] 2)).Safe ∧
      (inTurn.foldl act (init [83] 2)).assigned = [(1, [97]), (2, [98]), (3, [99])] := by
  have hallowed : Runs.AllAllowed act InTurn (init [83] 2) inTurn := by decide +kernel
  exact ⟨publisher_safe (by decide) (Runs.Reachable.start.foldl hallowed), by decide +kernel⟩

/-- A batch whose header was read before another thread took the number. -/
def staleHeader : List (Act (Fin 2)) :=
  [.publishBatch 0 [[97]] 0, .publish 1 [98], .resume 0, .resume 1, .resume 0, .resume 1, .resume 0]

/-- Two messages that are stored in the wrong order. -/
def storedLate : List (Act (Fin 2)) :=
  [.publish 0 [97], .publish 1 [98], .resume 1, .resume 0, .resume 1, .resume 0]

theorem staleHeader_sent :
    SentPacket.mk (packet (packSession [83]) 1 [[97]]) [(2, [97])] ∈
      (staleHeader.foldl act (init [83] 4)).sent := by
  decide +kernel

/-- The batch has the number two, but one in the header of its packet.  The first of the messages
stored in the wrong order is not found, although the ring has room for four. -/
theorem interleaved_calls :
    (SentPacket.mk (packet (packSession [83]) 1 [[97]]) [(2, [97])] ∈
        (staleHeader.foldl act (init [83] 4)).sent ∧
      ¬ (staleHeader.foldl act (init [83] 4)).Safe) ∧
    ((∀ t, (storedLate.foldl act (init [83] 4)).calls t = .idle) ∧
      (1, [97]) ∈ (storedLate.foldl act (init [83] 4)).assigned ∧
      (storedLate.foldl act (init [83] 4)).pub.cache.get 1 = some none ∧
      ¬ (storedLate.foldl act (init [83] 4)).Safe) := by
  have hsent := staleHeader_sent
  have hidle : ∀ t, (storedLate.foldl act (init [83] 4)).calls t = .idle := by decide +kernel
  have hmiss : (storedLate.foldl act (init [83] 4)).pub.cache.get 1 = some none := by
    decide +kernel
  refine ⟨⟨hsent, fun hsafe => ?_⟩, hidle, by decide +kernel, hmiss, fun hsafe => ?_⟩
  · obtain ⟨header, hdec, hmsgs, -⟩ := hsafe.packets _ hsent
    rw [decode_packet _ (by decide)] at hdec
    cases hdec
    cases hmsgs
  · have hget := hsafe.cached hidle (1, [97]) (by decide +kernel)
    rw [hmiss] at hget
    cases hget

end Threads

end MatchMoldUdp64
