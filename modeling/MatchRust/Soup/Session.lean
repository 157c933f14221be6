import MatchRust.Lib.Numbered
import MatchRust.Lib.SortedMap
import MatchRust.Soup.Packet

/-!
# Sessions of client and server

The server numbers the messages of a session and keeps the last ones in a store.  A
client logs in with the number it expects next, and the server sends what it has from
there on.  The messages on the wire have no numbers.  The client counts them from the
number in the answer to its login.

Sequence numbers are 64-bit numbers in the source.
-/

namespace MatchSoupBinTcp

open Numbered

/-- What goes wrong in a session. -/
inductive SessionError where
  | notLoggedIn
  | alreadyLoggedIn
  | loginRejected (reason : UInt8)
  | sequenceGap (expected got : Nat)
  | unexpectedPacket (packetType : UInt8)
  | sessionTooLong
deriving DecidableEq

/-- What to do after a packet: packets to send, and whether to close the connection. -/
structure Actions where
  outbound : List Packet := []
  close : Bool := false
  heartbeatDeadline : Option Nat := none
deriving DecidableEq

/-! ## The server -/

/-- The session of the server. -/
structure ServerSession where
  sessionId : List UInt8
  /-- The number of the next message. -/
  nextSeq : Nat
  /-- The last messages, by their numbers. -/
  store : List (Nat × Payload)
  storeCapacity : Nat
  loggedIn : Bool
deriving DecidableEq

namespace ServerSession

/-- A session without messages. -/
def new (sessionId : List UInt8) (storeCapacity : Nat) : Except SessionError ServerSession :=
  if sessionLen < sessionId.length then .error .sessionTooLong
  else .ok ⟨sessionId, 1, [], storeCapacity, false⟩

/-- The number of the oldest message in the store. -/
def oldest (s : ServerSession) : Option Nat := s.store.head?.map Prod.fst

/-- The number of the message that the next one will drive out of the store. -/
def evicted (s : ServerSession) : Option Nat :=
  if s.storeCapacity ≤ s.store.length then s.oldest else none

/-- Add a message: its number. -/
def enqueue (s : ServerSession) (payload : Payload) : Nat × ServerSession :=
  let store :=
    match s.evicted with
    | some oldest => SortedMap.erase oldest s.store
    | none => s.store
  (s.nextSeq,
    { s with
      nextSeq := (s.nextSeq + 1) % 2 ^ 64
      store := SortedMap.insert s.nextSeq payload store })

/-- The number from which on the store can replay. -/
def storeStart (s : ServerSession) : Nat := s.oldest.getD s.nextSeq

/-- A message on the wire. -/
def sequencedPacket (payload : Payload) : Packet := ⟨PacketType.sequencedData, payload⟩

/-- The number at which a client starts that has asked for one. -/
def startFor (s : ServerSession) (requested : Nat) : Nat :=
  max (if requested = 0 ∨ s.nextSeq < requested then s.nextSeq else requested) s.storeStart

/-- Answer a login. -/
def handleLogin (s : ServerSession) (req : LoginRequest) :
    Except SessionError Actions × ServerSession :=
  if req.requestedSession ≠ [] ∧ req.requestedSession ≠ s.sessionId then
    (.ok { outbound := [loginRejected rejectSessionUnavailable], close := true }, s)
  else
    let start := s.startFor req.requestedSequence
    let replay :=
      if start < s.nextSeq then
        (s.store.filter fun m => start ≤ m.1).map fun m => sequencedPacket m.2
      else []
    (.ok { outbound := loginAccepted s.sessionId start :: replay }, { s with loggedIn := true })

/-- Handle a packet of the client.  Orders are left to the caller. -/
def handlePacket (s : ServerSession) (pkt : Packet) : Except SessionError Actions × ServerSession :=
  if pkt.packetType = PacketType.loginRequest then s.handleLogin pkt.parseLoginRequest
  else if pkt.packetType = PacketType.unsequencedData then (.ok {}, s)
  else if pkt.packetType = PacketType.clientHeartbeat then (.ok {}, s)
  else if pkt.packetType = PacketType.logoutRequest then (.ok { close := true }, s)
  else if pkt.packetType = PacketType.debug then (.ok {}, s)
  else (.error (.unexpectedPacket pkt.packetType), s)

end ServerSession

/-- No packet of the client touches the store. -/
theorem ServerSession.storeStart_handlePacket (s : ServerSession) (pkt : Packet) :
    (s.handlePacket pkt).2.storeStart = s.storeStart := by
  unfold ServerSession.handlePacket ServerSession.handleLogin
  split_ifs <;> rfl

/-- A login for the first session is granted by the second one. -/
def Grants (requested sessionId : List UInt8) : Prop :=
  sessionField requested = [] ∨ sessionField requested = sessionId

instance decidableGrants (requested sessionId : List UInt8) :
    Decidable (Grants requested sessionId) :=
  inferInstanceAs (Decidable (_ ∨ _))

/-! ## The client -/

/-- The session of the client. -/
structure ClientSession where
  sessionId : List UInt8
  /-- The number of the message that comes next. -/
  expectedSeq : Nat
  /-- The number in the answer to the login. -/
  startSeq : Nat
  loggedIn : Bool
  lastRxNs : Nat
deriving DecidableEq

namespace ClientSession

/-- A client that has not logged in. -/
def new (sessionId : List UInt8) : ClientSession := ⟨sessionId, 1, 0, false, 0⟩

/-- The request to log in, with the number that comes next. -/
def loginRequest (c : ClientSession) (username password : List UInt8) : Packet :=
  MatchSoupBinTcp.loginRequest username password c.sessionId c.expectedSeq

/-- Handle a packet of the server. -/
def handlePacket (c : ClientSession) (pkt : Packet) (nowNs : Nat) :
    Except SessionError Actions × ClientSession :=
  let c := { c with lastRxNs := nowNs }
  if pkt.packetType = PacketType.loginAccepted then
    let acc := pkt.parseLoginAccepted
    (.ok {}, { c with startSeq := acc.sequence, expectedSeq := acc.sequence, loggedIn := true })
  else if pkt.packetType = PacketType.loginRejected then
    (.error (.loginRejected pkt.parseLoginRejected), c)
  else if pkt.packetType = PacketType.sequencedData then
    if c.loggedIn = false then (.error .notLoggedIn, c)
    -- a message without bytes ends the session
    else if pkt.payload = [] then (.ok {}, { c with loggedIn := false })
    else (.ok {}, { c with expectedSeq := (c.expectedSeq + 1) % 2 ^ 64 })
  else if pkt.packetType = PacketType.serverHeartbeat then (.ok {}, c)
  else if pkt.packetType = PacketType.endOfSession then
    (.ok { close := true }, { c with loggedIn := false })
  else if pkt.packetType = PacketType.debug then (.ok {}, c)
  else (.error (.unexpectedPacket pkt.packetType), c)

variable {c : ClientSession} {nowNs : Nat}

theorem handlePacket_loginAccepted (session : List UInt8) {seq : Nat} (hseq : seq < 2 ^ 64) :
    c.handlePacket (loginAccepted session seq) nowNs =
      (.ok {}, { c with
        expectedSeq := seq, startSeq := seq, loggedIn := true, lastRxNs := nowNs }) := by
  have htype : (loginAccepted session seq).packetType = PacketType.loginAccepted := rfl
  simp only [handlePacket, htype, if_true, sequence_loginAccepted session hseq]

theorem handlePacket_sequencedData {payload : Payload} (hin : c.loggedIn = true)
    (hne : payload ≠ []) (hsmall : c.expectedSeq + 1 < 2 ^ 64) :
    c.handlePacket (ServerSession.sequencedPacket payload) nowNs =
      (.ok {}, { c with expectedSeq := c.expectedSeq + 1, lastRxNs := nowNs }) := by
  have hother : PacketType.sequencedData ≠ PacketType.loginAccepted ∧
      PacketType.sequencedData ≠ PacketType.loginRejected := by decide
  simp only [handlePacket, ServerSession.sequencedPacket, if_neg hother.1, if_neg hother.2, hin,
    if_true, Bool.true_eq_false, if_false, if_neg hne, Nat.mod_eq_of_lt hsmall]

end ClientSession

/-! ## The store -/

namespace ServerSession

/-- The store has all messages after the first `dropped` ones. -/
structure Stored (s : ServerSession) (msgs : List Payload) (dropped : Nat) : Prop where
  next : s.nextSeq = msgs.length + 1
  small : msgs.length + 1 < 2 ^ 64
  store : s.store = numbered (dropped + 1) (msgs.drop dropped)
  /-- The last message is there. -/
  last : msgs = [] ∧ dropped = 0 ∨ dropped < msgs.length

variable {s : ServerSession} {msgs : List Payload} {dropped : Nat}

theorem stored_new {sessionId : List UInt8} {storeCapacity : Nat}
    (h : new sessionId storeCapacity = .ok s) : s.Stored [] 0 := by
  unfold new at h
  split at h
  next => cases h
  next =>
    cases h
    exact ⟨rfl, by decide, rfl, Or.inl ⟨rfl, rfl⟩⟩

theorem Stored.dropped_le (h : s.Stored msgs dropped) : dropped ≤ msgs.length := by
  rcases h.last with ⟨rfl, rfl⟩ | hlt
  · exact le_rfl
  · exact hlt.le

theorem Stored.oldest_eq (h : s.Stored msgs dropped) :
    s.oldest = if msgs = [] then none else some (dropped + 1) := by
  rw [oldest, h.store]
  rcases h.last with ⟨rfl, rfl⟩ | hlt
  · rfl
  · have hne : msgs ≠ [] := by
      rintro rfl
      simp at hlt
    rw [if_neg hne, List.drop_eq_getElem_cons hlt]
    rfl

/-- The store can replay from the first message that was not dropped. -/
theorem Stored.storeStart_eq (h : s.Stored msgs dropped) : s.storeStart = dropped + 1 := by
  rw [storeStart, h.oldest_eq, h.next]
  rcases h.last with ⟨rfl, rfl⟩ | hlt
  · rfl
  · have hne : msgs ≠ [] := by
      rintro rfl
      simp at hlt
    rw [if_neg hne]
    rfl

/-- A message is added behind the others. -/
theorem insert_numbered (n : Nat) (xs : List Payload) (payload : Payload) :
    SortedMap.insert (n + xs.length) payload (numbered n xs) = numbered n (xs ++ [payload]) := by
  induction xs generalizing n with
  | nil => rfl
  | cons x xs ih =>
      have hstep := ih (n + 1)
      have hlen : n + 1 + xs.length = n + (x :: xs).length := by
        rw [List.length_cons]
        omega
      rw [hlen] at hstep
      rw [List.cons_append, numbered_cons, numbered_cons, ← hstep]
      simp [SortedMap.insert]

theorem erase_numbered (n : Nat) (x : Payload) (xs : List Payload) :
    SortedMap.erase n (numbered n (x :: xs)) = numbered (n + 1) xs := by
  rw [SortedMap.erase, numbered_cons, List.filter_cons_of_neg (by simp), List.filter_eq_self]
  intro m hm
  have := (lt_of_mem_numbered hm).1
  simp only [ne_eq, decide_eq_true_eq]
  omega

/-- A new message drives out the oldest one if the store is full. -/
theorem Stored.enqueue (h : s.Stored msgs dropped) (hsmall : msgs.length + 2 < 2 ^ 64)
    (payload : Payload) :
    (s.enqueue payload).2.Stored (msgs ++ [payload])
      (if s.evicted = none then dropped else dropped + 1) := by
  have hlen : (msgs ++ [payload]).length = msgs.length + 1 := by simp
  have hnext : (s.nextSeq + 1) % 2 ^ 64 = msgs.length + 2 := by
    rw [h.next, Nat.mod_eq_of_lt (by omega)]
  have hins : ∀ k, k ≤ msgs.length →
      SortedMap.insert s.nextSeq payload (numbered (k + 1) (msgs.drop k)) =
        numbered (k + 1) ((msgs ++ [payload]).drop k) := by
    intro k hk
    have hkey : s.nextSeq = k + 1 + (msgs.drop k).length := by
      rw [h.next, List.length_drop]
      omega
    rw [hkey, insert_numbered, List.drop_append_of_le_length hk]
  have hsplit : s.evicted = none ∨ s.evicted = some (dropped + 1) ∧ dropped < msgs.length := by
    rw [evicted, h.oldest_eq]
    rcases h.last with ⟨rfl, rfl⟩ | hlt
    · simp
    · have hne : msgs ≠ [] := by
        rintro rfl
        simp at hlt
      rw [if_neg hne]
      split
      next => exact Or.inr ⟨rfl, hlt⟩
      next => exact Or.inl rfl
  constructor
  case next =>
    rw [hlen]
    exact hnext
  case small =>
    rw [hlen]
    exact hsmall
  case store =>
    rcases hsplit with hnone | ⟨hsome, hlt⟩
    · simp only [ServerSession.enqueue, hnone, if_true, h.store]
      exact hins dropped h.dropped_le
    · simp only [ServerSession.enqueue, hsome, reduceCtorEq, if_false, h.store]
      rw [List.drop_eq_getElem_cons hlt, erase_numbered]
      exact hins (dropped + 1) hlt
  case last =>
    rw [hlen]
    rcases hsplit with hnone | ⟨hsome, hlt⟩
    · rw [if_pos hnone]
      exact Or.inr (Nat.lt_succ_of_le h.dropped_le)
    · rw [if_neg (by rw [hsome]; simp)]
      exact Or.inr (by omega)

/-- The number of a client that asks for a message that was sent or comes next. -/
theorem Stored.startFor_eq (h : s.Stored msgs dropped) {requested : Nat} (hpos : 0 < requested)
    (hle : requested ≤ msgs.length + 1) : s.startFor requested = max requested (dropped + 1) := by
  rw [startFor, h.storeStart_eq, h.next, if_neg (by omega)]

/-- The messages that are replayed from a number on. -/
theorem Stored.replay_eq (h : s.Stored msgs dropped) {start : Nat} (hge : dropped + 1 ≤ start) :
    (if start < s.nextSeq then
        (s.store.filter fun m => start ≤ m.1).map fun m => sequencedPacket m.2
      else []) = (msgs.drop (start - 1)).map sequencedPacket := by
  have hdrop : dropped + (start - (dropped + 1)) = start - 1 := by omega
  split
  next =>
    rw [h.store, filter_le_numbered hge, List.drop_drop, hdrop]
    have hcomp : (numbered start (msgs.drop (start - 1))).map (fun m => sequencedPacket m.2) =
        ((numbered start (msgs.drop (start - 1))).map Prod.snd).map sequencedPacket := by
      rw [List.map_map]
      rfl
    rw [hcomp, map_snd_numbered]
  next hge' =>
    rw [h.next] at hge'
    rw [List.drop_of_length_le (by omega)]
    rfl

/-- A login that is granted is answered with the messages from a number on. -/
theorem Stored.handlePacket_granted (h : s.Stored msgs dropped)
    {username password session : List UInt8} (hsession : Grants session s.sessionId) {seq : Nat}
    (hpos : 0 < seq) (hle : seq ≤ msgs.length + 1) :
    s.handlePacket (loginRequest username password session seq) =
      (.ok { outbound := loginAccepted s.sessionId (max seq (dropped + 1)) ::
          (msgs.drop (max seq (dropped + 1) - 1)).map sequencedPacket },
        { s with loggedIn := true }) := by
  have hseq := requestedSequence_loginRequest username password session
    (lt_of_le_of_lt hle h.small)
  have hfield := requestedSession_loginRequest username password session seq
  have hkeep : ¬ (sessionField session ≠ [] ∧ sessionField session ≠ s.sessionId) := by
    rcases hsession with hempty | hsame
    · exact fun hne => hne.1 hempty
    · exact fun hne => hne.2 hsame
  have htype : (loginRequest username password session seq).packetType =
      PacketType.loginRequest := rfl
  simp only [handlePacket, htype, if_true, handleLogin, hfield, hseq, if_neg hkeep,
    h.startFor_eq hpos hle, h.replay_eq (le_max_right seq (dropped + 1))]

/-- Another session is refused. -/
theorem handlePacket_refused {username password session : List UInt8}
    (hsession : ¬ Grants session s.sessionId) (seq : Nat) :
    s.handlePacket (loginRequest username password session seq) =
      (.ok { outbound := [loginRejected rejectSessionUnavailable], close := true }, s) := by
  have hfield := requestedSession_loginRequest username password session seq
  have hrefuse : sessionField session ≠ [] ∧ sessionField session ≠ s.sessionId :=
    not_or.mp hsession
  have htype : (loginRequest username password session seq).packetType =
      PacketType.loginRequest := rfl
  simp only [handlePacket, htype, if_true, handleLogin, hfield, if_pos hrefuse]

end ServerSession

end MatchSoupBinTcp
