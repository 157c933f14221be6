import MatchRust.Lib.Runs
import MatchRust.Soup.Session

/-!
# Client and server over connections

A client and a server exchange bytes over one connection after the other.  A connection
keeps the order of the bytes and delivers them in pieces of any size.  When it is cut,
the bytes on the way are lost, and so is what either side has read of a packet.  The
sessions stay.

The server sends every message on the connection that is logged in.  A login is answered
with what the store has, so a message may go over several connections.  The client counts
the messages it gets from the number in the answer.

`Aligned` says what the packets on the way to the client mean.  It holds as long as the
store still has the next message of the client when a login is answered
(`ServedInTime`).
-/

namespace MatchSoupBinTcp

open Numbered

/-- A connection. -/
structure Link where
  /-- Bytes on the way to the server, and bytes of a packet that it has read in part. -/
  toServer : List UInt8 := []
  serverBuf : List UInt8 := []
  /-- The same towards the client. -/
  toClient : List UInt8 := []
  clientBuf : List UInt8 := []
  /-- How often the client has asked to log in. -/
  logins : Nat := 0
  /-- The server has accepted a login. -/
  live : Bool := false
deriving DecidableEq

/-- The server sends packets. -/
def Link.send (l : Link) (pkts : List Packet) : Link :=
  { l with toClient := l.toClient ++ pkts.flatMap Packet.toBytes }

/-- What the client made of the answer to a login. -/
structure Answer where
  /-- The number it expected before. -/
  expected : Nat
  /-- The number in the answer. -/
  sequence : Nat
  result : Except SessionError Actions

/-- The client, with what it has got so far. -/
structure Receiver where
  client : ClientSession
  /-- The messages it has processed. -/
  processed : List Payload
  /-- The answers to its logins. -/
  answers : List Answer

/-- The client handles a packet. -/
def Receiver.receive (nowNs : Nat) (r : Receiver) (pkt : Packet) : Receiver :=
  let out := r.client.handlePacket pkt nowNs
  { client := out.2
    processed :=
      if pkt.packetType = PacketType.sequencedData ∧ out.1.isOk then r.processed ++ [pkt.payload]
      else r.processed
    answers :=
      if pkt.packetType = PacketType.loginAccepted then
        r.answers ++ [⟨r.client.expectedSeq, pkt.parseLoginAccepted.sequence, out.1⟩]
      else r.answers }

/-- The server handles a packet, and sends what it has to send. -/
def serve (s : ServerSession × Link) (pkt : Packet) : ServerSession × Link :=
  match s.1.handlePacket pkt with
  | (.ok a, server) =>
      let live := !a.close && (s.2.live || pkt.packetType == PacketType.loginRequest)
      (server, { s.2.send a.outbound with live := live })
  | (.error _, server) => (server, s.2)

/-- Client, server and the connection between them. -/
structure World where
  server : ServerSession
  receiver : Receiver
  link : Option Link
  /-- All messages that were ever enqueued. -/
  enqueued : List Payload

/-- What may happen. -/
inductive Act where
  | enqueue (payload : Payload)
  | connect
  | login (username password : List UInt8)
  /-- The server reads some bytes. -/
  | serverRead (n : Nat)
  /-- The client reads some bytes. -/
  | clientRead (n nowNs : Nat)
  | disconnect

namespace World

variable {once : Prop}

/-- A new session and a new client. -/
def init (server : ServerSession) (clientId : List UInt8) : World :=
  ⟨server, ⟨ClientSession.new clientId, [], []⟩, none, []⟩

/-- The bytes the server has when it reads. -/
def serverBytes (l : Link) (n : Nat) : List UInt8 := l.serverBuf ++ l.toServer.take n

/-- The bytes the client has when it reads. -/
def clientBytes (l : Link) (n : Nat) : List UInt8 := l.clientBuf ++ l.toClient.take n

/-- One step. -/
def act (w : World) : Act → World
  | .enqueue payload =>
      { w with
        server := (w.server.enqueue payload).2
        enqueued := w.enqueued ++ [payload]
        link := w.link.map fun l =>
          if l.live then l.send [ServerSession.sequencedPacket payload] else l }
  | .connect => { w with link := w.link.or (some {}) }
  | .login username password =>
      { w with
        link := w.link.map fun l =>
          { l with
            toServer := l.toServer ++ (w.receiver.client.loginRequest username password).toBytes
            logins := l.logins + 1 } }
  | .serverRead n =>
      match w.link with
      | none => w
      | some l =>
          let r := parseStream (serverBytes l n)
          let l := { l with
            toServer := l.toServer.drop n
            serverBuf := (serverBytes l n).drop r.2.1 }
          let s := r.1.foldl serve (w.server, l)
          { w with server := s.1, link := some s.2 }
  | .clientRead n nowNs =>
      match w.link with
      | none => w
      | some l =>
          let r := parseStream (clientBytes l n)
          { w with
            receiver := r.1.foldl (Receiver.receive nowNs) w.receiver
            link := some { l with
              toClient := l.toClient.drop n
              clientBuf := (clientBytes l n).drop r.2.1 } }
  | .disconnect => { w with link := none }

/-- Messages have at least one byte and fit into a packet, and their numbers do not overflow.
With `once` there is one login on a connection. -/
def Traffic (once : Prop) (w : World) : Act → Prop
  | .enqueue payload => payload ≠ [] ∧ payload.length ≤ 65534 ∧ w.server.nextSeq + 1 < 2 ^ 64
  | .login _ _ => once → ∀ l ∈ w.link, l.logins = 0
  | _ => True

/-- The server accepts the logins of the client. -/
def Granted (w : World) : Prop := Grants w.receiver.client.sessionId w.server.sessionId

instance decidableTraffic [Decidable once] (w : World) : ∀ a : Act, Decidable (Traffic once w a)
  | .enqueue _ => inferInstanceAs (Decidable (_ ∧ _ ∧ _))
  | .login _ _ => inferInstanceAs (Decidable (once → ∀ l ∈ w.link, l.logins = 0))
  | .connect | .serverRead _ | .clientRead _ _ | .disconnect => inferInstanceAs (Decidable True)

/-- When the server answers the first login on a connection, its store has the next message of
the client. -/
def ServedInTime (w : World) : Act → Prop
  | .serverRead n => ∀ l ∈ w.link, l.live = false → (parseStream (serverBytes l n)).1 ≠ [] →
      w.Granted → w.server.storeStart ≤ w.receiver.client.expectedSeq
  | _ => True

instance decidableServedInTime (w : World) : ∀ a : Act, Decidable (w.ServedInTime a)
  | .serverRead n =>
      have : Decidable w.Granted := decidableGrants _ _
      inferInstanceAs (Decidable (∀ l ∈ w.link, l.live = false →
        (parseStream (serverBytes l n)).1 ≠ [] → w.Granted →
        w.server.storeStart ≤ w.receiver.client.expectedSeq))
  | .enqueue _ | .connect | .login _ _ | .clientRead _ _ | .disconnect =>
      inferInstanceAs (Decidable True)

end World

/-! ## Packets on the way -/

/-- A packet of the server. -/
inductive Down where
  | accepted (seq : Nat)
  | rejected
  | data (payload : Payload)

/-- The packet on the wire. -/
def Down.packet (session : List UInt8) : Down → Packet
  | accepted seq => loginAccepted session seq
  | rejected => loginRejected rejectSessionUnavailable
  | data payload => ServerSession.sequencedPacket payload

/-- A login request of the client. -/
structure Up where
  username : List UInt8
  password : List UInt8
  seq : Nat

/-- The packet on the wire. -/
def Up.packet (session : List UInt8) (u : Up) : Packet :=
  loginRequest u.username u.password session u.seq

/-- Bytes that are read are those of the first packets, and the others are still to come. -/
theorem parseStream_items {γ : Type} (f : γ → Packet) {items : List γ}
    (hfits : ∀ a ∈ items, (f a).Fits) {buf later : List UInt8}
    (h : buf ++ later = (items.map f).flatMap Packet.toBytes) :
    ∃ done left, items = done ++ left ∧ (parseStream buf).1 = done.map f ∧
      buf.drop (parseStream buf).2.1 ++ later = (left.map f).flatMap Packet.toBytes := by
  have hgood : ∀ p ∈ items.map f, p.Fits := by
    intro p hp
    obtain ⟨a, ha, rfl⟩ := List.mem_map.mp hp
    exact hfits a ha
  obtain ⟨rest, hitems, hread, hrest⟩ := frames_packets.parse_prefix hgood h (le_refl buf.length)
  obtain ⟨done, left, rfl, hdone, rfl⟩ := List.map_eq_append_iff.mp hitems
  refine ⟨done, left, rfl, hdone.symm, ?_⟩
  have hend : ∀ a b : List UInt8, (a ++ b).drop ((a ++ b).length - b.length) = b := by simp
  have hdrop := hend ((Framing.parse nextPacket buf.length buf).1.flatMap Packet.toBytes)
    (Framing.parse nextPacket buf.length buf).2
  rw [hread] at hdrop
  show buf.drop (buf.length - (Framing.parse nextPacket buf.length buf).2.length) ++ later = _
  rw [hdrop, hrest]

/-- What the packets on the way to the client mean.  The client expects a number, and is logged
in or not.  A message has the number that is expected when it arrives, and an answer never
goes ahead of that number.  With `once` it does not go back either. -/
def Aligned (once : Prop) (msgs : List Payload) : Nat → Bool → List Down → Prop
  | expected, loggedIn, [] => expected = msgs.length + 1 ∧ loggedIn = true
  | expected, _, .accepted seq :: downs =>
      0 < seq ∧ seq ≤ expected ∧ (once → seq = expected) ∧ Aligned once msgs seq true downs
  | _, _, .rejected :: _ => False
  | expected, loggedIn, .data payload :: downs =>
      loggedIn = true ∧ msgs[expected - 1]? = some payload ∧
        Aligned once msgs (expected + 1) loggedIn downs

variable {once : Prop} {msgs : List Payload} {expected : Nat} {loggedIn : Bool} {downs : List Down}

/-- The messages from a number on, for a client that expects this number. -/
theorem aligned_replay {seq : Nat} (hpos : 0 < seq) (hle : seq ≤ msgs.length + 1) :
    Aligned once msgs seq true ((msgs.drop (seq - 1)).map Down.data) := by
  generalize hn : msgs.length + 1 - seq = n
  induction n generalizing seq with
  | zero =>
      rw [List.drop_of_length_le (by omega)]
      exact ⟨by omega, rfl⟩
  | succ n ih =>
      have hlt : seq - 1 < msgs.length := by omega
      rw [List.drop_eq_getElem_cons hlt, List.map_cons, Nat.sub_add_cancel hpos]
      have hrest := @ih (seq + 1) (Nat.succ_pos seq) (by omega) (by omega)
      rw [Nat.add_sub_cancel] at hrest
      exact ⟨rfl, List.getElem?_eq_getElem hlt, hrest⟩

/-- A new message is sent behind the others. -/
theorem Aligned.enqueue (h : Aligned once msgs expected loggedIn downs) (payload : Payload) :
    Aligned once (msgs ++ [payload]) expected loggedIn (downs ++ [.data payload]) := by
  induction downs generalizing expected loggedIn with
  | nil =>
      obtain ⟨rfl, rfl⟩ := h
      refine ⟨rfl, by simp, ?_, rfl⟩
      simp
  | cons d downs ih =>
      cases d with
      | accepted seq =>
          obtain ⟨hpos, hle, hsame, h⟩ := h
          exact ⟨hpos, hle, hsame, ih h⟩
      | rejected => exact h
      | data p =>
          obtain ⟨hin, hget, h⟩ := h
          refine ⟨hin, ?_, ih h⟩
          rw [List.getElem?_append_left (List.getElem?_eq_some_iff.mp hget).1]
          exact hget

/-- Another login on the same connection is answered behind the packets on the way. -/
theorem Aligned.relogin (hmany : ¬ once) (h : Aligned once msgs expected loggedIn downs) {seq : Nat}
    (hpos : 0 < seq) (hle : seq ≤ msgs.length + 1) :
    Aligned once msgs expected loggedIn
      (downs ++ .accepted seq :: (msgs.drop (seq - 1)).map Down.data) := by
  induction downs generalizing expected loggedIn with
  | nil =>
      obtain ⟨rfl, rfl⟩ := h
      exact ⟨hpos, hle, fun ho => absurd ho hmany, aligned_replay hpos hle⟩
  | cons d downs ih =>
      cases d with
      | accepted seq' =>
          obtain ⟨hpos', hle', hsame, h⟩ := h
          exact ⟨hpos', hle', hsame, ih h⟩
      | rejected => exact h
      | data p =>
          obtain ⟨hin, hget, h⟩ := h
          exact ⟨hin, hget, ih h⟩

/-- The packets on the way fit, if the messages do. -/
theorem Aligned.fits (hmsgs : ∀ p ∈ msgs, p.length ≤ 65534)
    (h : Aligned once msgs expected loggedIn downs) (session : List UInt8) :
    ∀ d ∈ downs, (d.packet session).Fits := by
  induction downs generalizing expected loggedIn with
  | nil =>
      intro d hd
      cases hd
  | cons d downs ih =>
      intro d' hd'
      cases d with
      | accepted seq =>
          rcases List.mem_cons.mp hd' with rfl | hd'
          · exact fits_loginAccepted session seq
          · exact ih h.2.2.2 d' hd'
      | rejected => exact h.elim
      | data p =>
          rcases List.mem_cons.mp hd' with rfl | hd'
          · exact hmsgs p (List.mem_of_getElem? h.2.1)
          · exact ih h.2.2 d' hd'

/-! ## The client reads -/

namespace Receiver

variable {r : Receiver} {nowNs : Nat} {session : List UInt8}

theorem receive_accepted {seq : Nat} (hseq : seq < 2 ^ 64) :
    r.receive nowNs (Down.packet session (.accepted seq)) =
      { client := { r.client with
          expectedSeq := seq, startSeq := seq, loggedIn := true, lastRxNs := nowNs }
        processed := r.processed
        answers := r.answers ++ [⟨r.client.expectedSeq, seq, .ok {}⟩] } := by
  simp only [receive, Down.packet, ClientSession.handlePacket_loginAccepted session hseq,
    sequence_loginAccepted session hseq]
  rfl

theorem receive_rejected :
    r.receive nowNs (Down.packet session .rejected) =
      { r with client := { r.client with lastRxNs := nowNs } } := by
  rfl

theorem receive_data {payload : Payload} (hin : r.client.loggedIn = true) (hne : payload ≠ [])
    (hsmall : r.client.expectedSeq + 1 < 2 ^ 64) :
    r.receive nowNs (Down.packet session (.data payload)) =
      { client := { r.client with
          expectedSeq := r.client.expectedSeq + 1, lastRxNs := nowNs }
        processed := r.processed ++ [payload]
        answers := r.answers } := by
  simp only [receive, Down.packet, ClientSession.handlePacket_sequencedData hin hne hsmall]
  rfl

/-- The client forgets nothing. -/
theorem receive_grows (r : Receiver) (nowNs : Nat) (pkts : List Packet) :
    r.processed <+: (pkts.foldl (receive nowNs) r).processed ∧
      r.answers <+: (pkts.foldl (receive nowNs) r).answers := by
  induction pkts generalizing r with
  | nil => exact ⟨List.prefix_refl _, List.prefix_refl _⟩
  | cons pkt pkts ih =>
      have hstep : r.processed <+: (r.receive nowNs pkt).processed ∧
          r.answers <+: (r.receive nowNs pkt).answers := by
        simp only [receive]
        constructor
        · split
          next => exact List.prefix_append _ _
          next => exact List.prefix_refl _
        · split
          next => exact List.prefix_append _ _
          next => exact List.prefix_refl _
      obtain ⟨hprocessed, hanswers⟩ := ih (r.receive nowNs pkt)
      exact ⟨hstep.1.trans hprocessed, hstep.2.trans hanswers⟩

/-- What is known of the client when these messages were enqueued. -/
structure Kept (once : Prop) (msgs : List Payload) (r : Receiver) : Prop where
  pos : 0 < r.client.expectedSeq
  le : r.client.expectedSeq ≤ msgs.length + 1
  /-- No answer went ahead of the client. -/
  answers : ∀ a ∈ r.answers, a.sequence ≤ a.expected
  processed : once → r.processed = msgs.take (r.client.expectedSeq - 1)

theorem Kept.enqueue (h : r.Kept once msgs) (payload : Payload) :
    r.Kept once (msgs ++ [payload]) := by
  have hle := h.le
  refine ⟨h.pos, ?_, h.answers, fun ho => ?_⟩
  · rw [List.length_append]
    omega
  · rw [List.take_append_of_le_length (by omega)]
    exact h.processed ho

/-- The client handles the next packet. -/
theorem Kept.receive (h : r.Kept once msgs) (hne : ∀ p ∈ msgs, p ≠ [])
    (hsmall : msgs.length + 1 < 2 ^ 64) {d : Down}
    (hal : Aligned once msgs r.client.expectedSeq r.client.loggedIn (d :: downs)) (nowNs : Nat)
    (session : List UInt8) :
    (r.receive nowNs (d.packet session)).Kept once msgs ∧
      Aligned once msgs (r.receive nowNs (d.packet session)).client.expectedSeq
        (r.receive nowNs (d.packet session)).client.loggedIn downs ∧
      (r.receive nowNs (d.packet session)).client.sessionId = r.client.sessionId := by
  have hle := h.le
  cases d with
  | accepted seq =>
      obtain ⟨hpos, hseq, hsame, hal⟩ := hal
      rw [receive_accepted (by omega)]
      refine ⟨⟨hpos, by simp only; omega, fun a ha => ?_, fun ho => ?_⟩, hal, rfl⟩
      · rcases List.mem_append.mp ha with hold | hnew
        · exact h.answers a hold
        · rw [List.mem_singleton.mp hnew]
          exact hseq
      · rw [hsame ho]
        exact h.processed ho
  | rejected => exact hal.elim
  | data payload =>
      obtain ⟨hin, hget, hal⟩ := hal
      have hpos := h.pos
      have hlt := (List.getElem?_eq_some_iff.mp hget).1
      rw [receive_data hin (hne payload (List.mem_of_getElem? hget)) (by omega)]
      refine ⟨⟨Nat.succ_pos _, by simp only; omega, h.answers, fun ho => ?_⟩, hal, rfl⟩
      have hsucc : r.client.expectedSeq + 1 - 1 = r.client.expectedSeq - 1 + 1 := by omega
      rw [hsucc, List.take_add_one, hget, ← h.processed ho]
      rfl

theorem Kept.receiveAll (h : r.Kept once msgs) (hne : ∀ p ∈ msgs, p ≠ [])
    (hsmall : msgs.length + 1 < 2 ^ 64) {done : List Down}
    (hal : Aligned once msgs r.client.expectedSeq r.client.loggedIn (done ++ downs)) (nowNs : Nat)
    (session : List UInt8) :
    ((done.map (Down.packet session)).foldl (Receiver.receive nowNs) r).Kept once msgs ∧
      Aligned once msgs
        ((done.map (Down.packet session)).foldl (Receiver.receive nowNs) r).client.expectedSeq
        ((done.map (Down.packet session)).foldl (Receiver.receive nowNs) r).client.loggedIn downs ∧
      ((done.map (Down.packet session)).foldl (Receiver.receive nowNs) r).client.sessionId =
        r.client.sessionId := by
  induction done generalizing r with
  | nil => exact ⟨h, hal, rfl⟩
  | cons d done ih =>
      obtain ⟨hkept, hal', hid⟩ := h.receive hne hsmall hal nowNs session
      obtain ⟨hkept', hal'', hid'⟩ := ih hkept hal'
      exact ⟨hkept', hal'', hid'.trans hid⟩

/-- Rejections change nothing but the time of the last packet. -/
theorem receive_rejections {done : List Down} (h : ∀ d ∈ done, d = .rejected) (nowNs : Nat)
    (session : List UInt8) :
    ∃ time, (done.map (Down.packet session)).foldl (receive nowNs) r =
      { r with client := { r.client with lastRxNs := time } } := by
  induction done generalizing r with
  | nil => exact ⟨r.client.lastRxNs, rfl⟩
  | cons d done ih =>
      have hd := h d List.mem_cons_self
      subst hd
      rw [List.map_cons, List.foldl_cons, receive_rejected]
      exact ih fun d hd => h d (List.mem_cons_of_mem _ hd)

theorem Kept.setTime (h : r.Kept once msgs) (time : Nat) :
    ({ r with client := { r.client with lastRxNs := time } } : Receiver).Kept once msgs :=
  ⟨h.pos, h.le, h.answers, h.processed⟩

end Receiver

/-! ## The server reads -/

section Serve

variable {s : ServerSession} {l : Link} {dropped : Nat} {session : List UInt8} {u : Up}

/-- The packets that answer a login. -/
def replyTo (msgs : List Payload) (seq : Nat) : List Down :=
  .accepted seq :: (msgs.drop (seq - 1)).map Down.data

theorem serve_granted (h : s.Stored msgs dropped) (hsession : Grants session s.sessionId)
    (hpos : 0 < u.seq) (hle : u.seq ≤ msgs.length + 1) :
    serve (s, l) (u.packet session) =
      ({ s with loggedIn := true },
        { l.send ((replyTo msgs (max u.seq (dropped + 1))).map (Down.packet s.sessionId)) with
          live := true }) := by
  have hmap : (msgs.drop (max u.seq (dropped + 1) - 1)).map ServerSession.sequencedPacket =
      ((msgs.drop (max u.seq (dropped + 1) - 1)).map Down.data).map (Down.packet s.sessionId) := by
    rw [List.map_map]
    rfl
  have hlive : (!false && (l.live || PacketType.loginRequest == PacketType.loginRequest)) = true :=
    by simp
  simp only [serve, Up.packet, h.handlePacket_granted hsession hpos hle, hmap]
  exact Prod.ext rfl (by simp only [replyTo, List.map_cons, Down.packet]; rw [← hlive]; rfl)

theorem serve_refused (hsession : ¬ Grants session s.sessionId) :
    serve (s, l) (u.packet session) =
      (s, { l.send ([Down.rejected].map (Down.packet s.sessionId)) with live := false }) := by
  simp only [serve, Up.packet, ServerSession.handlePacket_refused hsession]
  rfl

end Serve

end MatchSoupBinTcp
