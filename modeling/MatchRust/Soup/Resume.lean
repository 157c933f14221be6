import MatchRust.Soup.World

/-!
# Resumed sessions

Whatever is cut, a client that logs in again on a new connection goes on where it was.  The
messages it processes over all connections are the first ones that were enqueued, each once and
in order (`resume_exactly_once`), as long as the store keeps every message until the client has it.
With two logins on one connection it processes some twice (`login_twice_repeats`).

If it does not, the answer to a login starts at a later message.  The client takes the
number in the answer for its next one and does not notice that it has missed some, though
there is an error for that.  `loss_reported_iff` says when this happens.
-/

namespace MatchSoupBinTcp

/-! ## A connection -/

/-- What is known of a connection.  The lists are the packets on the way. -/
structure Conn (once : Prop) (msgs : List Payload) (granted : Prop) (r : Receiver) (l : Link)
    (downs : List Down) (ups : List Up) : Prop where
  /-- Before the first answer the client does not move. -/
  requests : ∀ u ∈ ups, 0 < u.seq ∧ u.seq ≤ msgs.length + 1 ∧
    (l.live = false → u.seq = r.client.expectedSeq)
  live : l.live = true →
    granted ∧ Aligned once msgs r.client.expectedSeq r.client.loggedIn downs
  dead : l.live = false → (∀ d ∈ downs, d = .rejected) ∧ (granted → downs = [])
  single : once → ups.length ≤ 1 ∧ (l.live = true → ups = []) ∧
    (l.logins = 0 → ups = [] ∧ l.live = false)

/-- The bytes of some packets. -/
def wire {γ : Type} (f : γ → Packet) (items : List γ) : List UInt8 :=
  (items.map f).flatMap Packet.toBytes

theorem wire_append {γ : Type} (f : γ → Packet) (xs ys : List γ) :
    wire f (xs ++ ys) = wire f xs ++ wire f ys := by
  rw [wire, List.map_append, List.flatMap_append]
  rfl

/-- Packets are sent behind others. -/
theorem wire_send {γ : Type} {f : γ → Packet} {xs : List γ} {buf flight : List UInt8}
    (h : buf ++ flight = wire f xs) (ys : List γ) :
    buf ++ (flight ++ wire f ys) = wire f (xs ++ ys) := by
  rw [wire_append, ← h, List.append_assoc]

variable {once granted : Prop} {msgs : List Payload} {r : Receiver} {l : Link} {downs : List Down}
  {ups : List Up}

theorem conn_new : Conn once msgs granted r {} [] [] where
  requests u hu := by cases hu
  live h := by cases h
  dead _ := ⟨fun d hd => (List.not_mem_nil hd).elim, fun _ => rfl⟩
  single _ := ⟨Nat.zero_le 1, fun _ => rfl, fun _ => ⟨rfl, rfl⟩⟩

/-- The packets on the way to the client fit into their length. -/
theorem Conn.fits (h : Conn once msgs granted r l downs ups) (hmsgs : ∀ p ∈ msgs, p.length ≤ 65534)
    (session : List UInt8) : ∀ d ∈ downs, (d.packet session).Fits := by
  cases hl : l.live with
  | true => exact (h.live hl).2.fits hmsgs session
  | false =>
      intro d hd
      rw [(h.dead hl).1 d hd]
      exact fits_loginRejected _

/-- A message is enqueued, and sent if the connection is logged in. -/
theorem Conn.enqueue (h : Conn once msgs granted r l downs ups) (payload : Payload) :
    Conn once (msgs ++ [payload]) granted r
      (if l.live then l.send [ServerSession.sequencedPacket payload] else l)
      (if l.live then downs ++ [.data payload] else downs) ups := by
  have hlive : ∀ pkts, (l.send pkts).live = l.live := fun _ => rfl
  have hreq : ∀ u ∈ ups, 0 < u.seq ∧ u.seq ≤ (msgs ++ [payload]).length + 1 ∧
      (l.live = false → u.seq = r.client.expectedSeq) := by
    intro u hu
    obtain ⟨hpos, hle, heq⟩ := h.requests u hu
    refine ⟨hpos, ?_, heq⟩
    rw [List.length_append]
    omega
  cases hl : l.live with
  | true =>
      simp only [if_true]
      refine ⟨fun u hu => ?_, fun _ => ?_, fun hdead => ?_, h.single⟩
      · rw [hlive]
        exact hreq u hu
      · exact ⟨(h.live hl).1, (h.live hl).2.enqueue payload⟩
      · rw [hlive, hl] at hdead
        cases hdead
  | false =>
      simp only [Bool.false_eq_true, if_false]
      exact ⟨hreq, fun hlive => absurd hlive (by rw [hl]; simp), h.dead, h.single⟩

/-- The client asks to log in. -/
theorem Conn.login (h : Conn once msgs granted r l downs ups) (hr : r.Kept once msgs)
    (honce : once → l.logins = 0) (username password bytes : List UInt8) :
    Conn once msgs granted r { l with toServer := bytes, logins := l.logins + 1 } downs
      (ups ++ [⟨username, password, r.client.expectedSeq⟩]) where
  requests u hu := by
    rcases List.mem_append.mp hu with hold | hnew
    · exact h.requests u hold
    · rw [List.mem_singleton.mp hnew]
      exact ⟨hr.pos, hr.le, fun _ => rfl⟩
  live := h.live
  dead := h.dead
  single ho := by
    obtain ⟨rfl, hl⟩ := (h.single ho).2.2 (honce ho)
    refine ⟨le_rfl, fun hlive => ?_, fun hzero => absurd hzero (Nat.succ_ne_zero _)⟩
    rw [show l.live = true from hlive] at hl
    cases hl

/-- The client reads some packets. -/
theorem Conn.clientRead {done : List Down} (h : Conn once msgs granted r l (done ++ downs) ups)
    (hr : r.Kept once msgs) (hne : ∀ p ∈ msgs, p ≠ []) (hsmall : msgs.length + 1 < 2 ^ 64)
    (nowNs : Nat) (session toClient clientBuf : List UInt8) :
    ((done.map (Down.packet session)).foldl (Receiver.receive nowNs) r).Kept once msgs ∧
      Conn once msgs granted ((done.map (Down.packet session)).foldl (Receiver.receive nowNs) r)
        { l with toClient := toClient, clientBuf := clientBuf } downs ups ∧
      ((done.map (Down.packet session)).foldl (Receiver.receive nowNs) r).client.sessionId =
        r.client.sessionId := by
  rcases Bool.eq_false_or_eq_true l.live with hl | hl
  · obtain ⟨hg, hal⟩ := h.live hl
    obtain ⟨hkept, hal', hid⟩ := hr.receiveAll hne hsmall hal nowNs session
    refine ⟨hkept, ⟨fun u hu => ?_, fun _ => ⟨hg, hal'⟩, fun hdead => ?_, h.single⟩, hid⟩
    · obtain ⟨hpos, hle, -⟩ := h.requests u hu
      exact ⟨hpos, hle, fun hdead => absurd (hl.symm.trans hdead) (by decide)⟩
    · exact absurd (hl.symm.trans hdead) (by decide)
  · obtain ⟨hall, hnone⟩ := h.dead hl
    obtain ⟨time, htime⟩ := @Receiver.receive_rejections r done
      (fun d hd => hall d (List.mem_append_left _ hd)) nowNs session
    rw [htime]
    refine ⟨hr.setTime time, ⟨h.requests, fun hlive => ?_, fun _ => ⟨fun d hd => ?_, fun hg => ?_⟩,
      h.single⟩, rfl⟩
    · exact absurd (hl.symm.trans hlive) (by decide)
    · exact hall d (List.mem_append_right _ hd)
    · exact (List.append_eq_nil_iff.mp (hnone hg)).2

/-- The server and a connection, with the packets on the way. -/
structure Joined (once : Prop) (msgs : List Payload) (dropped : Nat) (session : List UInt8)
    (r : Receiver) (s : ServerSession × Link) (downs : List Down) (ups : List Up) : Prop where
  stored : s.1.Stored msgs dropped
  conn : Conn once msgs (Grants session s.1.sessionId) r s.2 downs ups
  bytes : s.2.clientBuf ++ s.2.toClient = wire (Down.packet s.1.sessionId) downs

variable {dropped : Nat} {session : List UInt8} {s : ServerSession × Link} {u : Up}

theorem Conn.few (h : Conn once msgs granted r l downs (u :: ups)) (ho : once) : ups = [] := by
  have hlen := (h.single ho).1
  rw [List.length_cons] at hlen
  exact List.length_eq_zero_iff.mp (by omega)

/-- The server grants a login, on a connection where the client is not behind the store. -/
theorem Joined.grant (h : Joined once msgs dropped session r s downs (u :: ups))
    (hg : Grants session s.1.sessionId)
    (hserved : s.2.live = false → dropped + 1 ≤ r.client.expectedSeq) :
    Joined once msgs dropped session r (serve s (u.packet session))
        (downs ++ replyTo msgs (max u.seq (dropped + 1))) ups ∧
      (serve s (u.packet session)).2.live = true := by
  obtain ⟨hpos, hle, heq⟩ := h.conn.requests u List.mem_cons_self
  have hstart : max u.seq (dropped + 1) ≤ msgs.length + 1 :=
    max_le hle (Nat.succ_le_succ h.stored.dropped_le)
  have hpos' : 0 < max u.seq (dropped + 1) := lt_of_lt_of_le hpos (le_max_left _ _)
  have hstep := @serve_granted msgs s.1 s.2 dropped session u h.stored hg hpos hle
  rw [hstep]
  have hstored := h.stored
  refine ⟨⟨⟨hstored.next, hstored.small, hstored.store, hstored.last⟩, ?_,
    wire_send h.bytes _⟩, rfl⟩
  refine ⟨fun v hv => ?_, fun _ => ⟨hg, ?_⟩, fun hdead => ?_, fun ho => ?_⟩
  · obtain ⟨hvpos, hvle, -⟩ := h.conn.requests v (List.mem_cons_of_mem u hv)
    exact ⟨hvpos, hvle, fun hdead => by cases hdead⟩
  · rcases Bool.eq_false_or_eq_true s.2.live with hl | hl
    · have hmany : ¬ once := fun ho => List.cons_ne_nil u ups ((h.conn.single ho).2.1 hl)
      exact (h.conn.live hl).2.relogin hmany hpos' hstart
    · have hexp : max u.seq (dropped + 1) = r.client.expectedSeq := by
        rw [heq hl]
        exact max_eq_left (hserved hl)
      rw [hexp] at hpos' hstart ⊢
      rw [(h.conn.dead hl).2 hg]
      exact ⟨hpos', le_rfl, fun _ => rfl, aligned_replay hpos' hstart⟩
  · cases hdead
  · refine ⟨?_, fun _ => h.conn.few ho, fun hzero => ?_⟩
    · rw [h.conn.few ho]
      exact Nat.zero_le 1
    · exact absurd ((h.conn.single ho).2.2 hzero).1 (List.cons_ne_nil u ups)

/-- The server refuses a login. -/
theorem Joined.refuse (h : Joined once msgs dropped session r s downs (u :: ups))
    (hg : ¬ Grants session s.1.sessionId) :
    Joined once msgs dropped session r (serve s (u.packet session)) (downs ++ [Down.rejected])
      ups := by
  have hl : s.2.live = false := by
    rcases Bool.eq_false_or_eq_true s.2.live with hl | hl
    · exact absurd (h.conn.live hl).1 hg
    · exact hl
  have hstep := @serve_refused s.1 s.2 session u hg
  rw [hstep]
  refine ⟨h.stored, ?_, wire_send h.bytes [Down.rejected]⟩
  refine ⟨fun v hv => ?_, fun hlive => ?_, fun _ => ⟨fun d hd => ?_, fun hg' => absurd hg' hg⟩,
    fun ho => ?_⟩
  · obtain ⟨hvpos, hvle, hveq⟩ := h.conn.requests v (List.mem_cons_of_mem u hv)
    exact ⟨hvpos, hvle, fun _ => hveq hl⟩
  · cases hlive
  · rcases List.mem_append.mp hd with hold | hnew
    · exact (h.conn.dead hl).1 d hold
    · exact List.mem_singleton.mp hnew
  · refine ⟨?_, fun _ => h.conn.few ho, fun _ => ⟨h.conn.few ho, rfl⟩⟩
    rw [h.conn.few ho]
    exact Nat.zero_le 1

/-- What the server does about packets of the client only adds to the packets it sends. -/
structure Frame (s s' : ServerSession × Link) : Prop where
  storeStart : s'.1.storeStart = s.1.storeStart
  serverBuf : s'.2.serverBuf = s.2.serverBuf
  toServer : s'.2.toServer = s.2.toServer
  clientBuf : s'.2.clientBuf = s.2.clientBuf
  toClient : s.2.toClient <+: s'.2.toClient

theorem frame_serve (s : ServerSession × Link) (pkt : Packet) : Frame s (serve s pkt) := by
  have hstore := s.1.storeStart_handlePacket pkt
  rw [serve]
  split
  next a server heq =>
    rw [heq] at hstore
    exact ⟨hstore, rfl, rfl, rfl, List.prefix_append _ _⟩
  next err server heq =>
    rw [heq] at hstore
    exact ⟨hstore, rfl, rfl, rfl, List.prefix_refl _⟩

theorem frame_serveAll (s : ServerSession × Link) (pkts : List Packet) :
    Frame s (pkts.foldl serve s) := by
  induction pkts generalizing s with
  | nil => exact ⟨rfl, rfl, rfl, rfl, List.prefix_refl _⟩
  | cons p pkts ih =>
      have hfirst := frame_serve s p
      have hrest := ih (serve s p)
      exact ⟨hrest.storeStart.trans hfirst.storeStart, hrest.serverBuf.trans hfirst.serverBuf,
        hrest.toServer.trans hfirst.toServer, hrest.clientBuf.trans hfirst.clientBuf,
        hfirst.toClient.trans hrest.toClient⟩

/-- The server answers the logins it has read. -/
theorem Joined.serveAll {done : List Up}
    (h : Joined once msgs dropped session r s downs (done ++ ups))
    (hserved : s.2.live = false → done ≠ [] → Grants session s.1.sessionId →
      dropped + 1 ≤ r.client.expectedSeq) :
    ∃ downs', Joined once msgs dropped session r
      ((done.map (Up.packet session)).foldl serve s) downs' ups := by
  induction done generalizing s downs with
  | nil => exact ⟨downs, h⟩
  | cons u done ih =>
      by_cases hg : Grants session s.1.sessionId
      · obtain ⟨hnext, hlive⟩ := h.grant hg fun hl => hserved hl (List.cons_ne_nil u done) hg
        exact ih hnext fun hl => absurd (hlive.symm.trans hl) (by decide)
      · have hnext := h.refuse hg
        refine ih hnext fun _ _ hg' => absurd ?_ hg
        have hid : (serve s (u.packet session)).1.sessionId = s.1.sessionId := by
          have hstep := @serve_refused s.1 s.2 session u hg
          rw [hstep]
        rwa [hid] at hg'

/-! ## Runs -/

namespace World

variable {w : World}

/-- What is known after any steps in which logins were answered in time. -/
structure Kept (once : Prop) (w : World) : Prop where
  messages : ∀ p ∈ w.enqueued, p ≠ [] ∧ p.length ≤ 65534
  stored : ∃ dropped, w.server.Stored w.enqueued dropped
  receiver : w.receiver.Kept once w.enqueued
  link : ∀ l ∈ w.link, ∃ downs ups,
    Conn once w.enqueued w.Granted w.receiver l downs ups ∧
      l.clientBuf ++ l.toClient = wire (Down.packet w.server.sessionId) downs ∧
      l.serverBuf ++ l.toServer = wire (Up.packet w.receiver.client.sessionId) ups

theorem kept_init {sessionId clientId : List UInt8} {storeCapacity : Nat} {server : ServerSession}
    (h : ServerSession.new sessionId storeCapacity = .ok server) :
    (init server clientId).Kept once where
  messages p hp := by cases hp
  stored := ⟨0, ServerSession.stored_new h⟩
  receiver := ⟨Nat.one_pos, le_rfl, fun a ha => (List.not_mem_nil ha).elim, fun _ => rfl⟩
  link l hl := by cases hl

theorem Kept.enqueue (h : w.Kept once) {payload : Payload} (hne : payload ≠ [])
    (hlen : payload.length ≤ 65534) (hsmall : w.server.nextSeq + 1 < 2 ^ 64) :
    (w.act (.enqueue payload)).Kept once := by
  obtain ⟨dropped, hstored⟩ := h.stored
  constructor
  case messages =>
    intro p hp
    rcases List.mem_append.mp hp with hold | hnew
    · exact h.messages p hold
    · rw [List.mem_singleton.mp hnew]
      exact ⟨hne, hlen⟩
  case stored =>
    rw [hstored.next] at hsmall
    exact ⟨_, hstored.enqueue hsmall payload⟩
  case receiver => exact h.receiver.enqueue payload
  case link =>
    intro l' hl'
    obtain ⟨l, hl, rfl⟩ := Option.map_eq_some_iff.mp hl'
    obtain ⟨downs, ups, hconn, hdown, hup⟩ := h.link l hl
    refine ⟨_, ups, hconn.enqueue payload, ?_, ?_⟩
    · split
      next => exact wire_send hdown [Down.data payload]
      next => exact hdown
    · split
      next => exact hup
      next => exact hup

theorem Kept.connect (h : w.Kept once) : (w.act .connect).Kept once := by
  refine ⟨h.messages, h.stored, h.receiver, fun l hl => ?_⟩
  cases hw : w.link with
  | none =>
      have hnew : (w.link.or (some {})) = some l := hl
      rw [hw, Option.none_or, Option.some.injEq] at hnew
      subst hnew
      exact ⟨[], [], conn_new, rfl, rfl⟩
  | some l' =>
      have hold : (w.link.or (some {})) = some l := hl
      rw [hw, Option.some_or, ← hw] at hold
      exact h.link l hold

theorem Kept.login (h : w.Kept once) {username password : List UInt8}
    (honce : once → ∀ l ∈ w.link, l.logins = 0) : (w.act (.login username password)).Kept once := by
  refine ⟨h.messages, h.stored, h.receiver, fun l' hl' => ?_⟩
  obtain ⟨l, hl, rfl⟩ := Option.map_eq_some_iff.mp hl'
  obtain ⟨downs, ups, hconn, hdown, hup⟩ := h.link l hl
  have hone : wire (Up.packet w.receiver.client.sessionId)
      [⟨username, password, w.receiver.client.expectedSeq⟩] =
      (w.receiver.client.loginRequest username password).toBytes :=
    List.append_nil _
  refine ⟨downs, _, hconn.login h.receiver (fun ho => honce ho l hl) username password _, hdown, ?_⟩
  rw [← hone]
  exact wire_send hup _

/-- What the server has read when it reads some bytes. -/
theorem serverRead_items {l : Link} {ups : List Up} {session : List UInt8}
    (hup : l.serverBuf ++ l.toServer = wire (Up.packet session) ups) (n : Nat) :
    ∃ done left, ups = done ++ left ∧
      (parseStream (serverBytes l n)).1 = done.map (Up.packet session) ∧
      (serverBytes l n).drop (parseStream (serverBytes l n)).2.1 ++ l.toServer.drop n =
        wire (Up.packet session) left := by
  refine parseStream_items (Up.packet session) (fun u _ => fits_loginRequest _ _ _ _) ?_
  rw [serverBytes, List.append_assoc, List.take_append_drop]
  exact hup

/-- What the client has read when it reads some bytes. -/
theorem clientRead_items {l : Link} {session : List UInt8}
    (hfits : ∀ d ∈ downs, (d.packet session).Fits)
    (hdown : l.clientBuf ++ l.toClient = wire (Down.packet session) downs) (n : Nat) :
    ∃ done left, downs = done ++ left ∧
      (parseStream (clientBytes l n)).1 = done.map (Down.packet session) ∧
      (clientBytes l n).drop (parseStream (clientBytes l n)).2.1 ++ l.toClient.drop n =
        wire (Down.packet session) left := by
  refine parseStream_items (Down.packet session) hfits ?_
  rw [clientBytes, List.append_assoc, List.take_append_drop]
  exact hdown

theorem Kept.serverRead (h : w.Kept once) (n : Nat) (hserved : w.ServedInTime (.serverRead n)) :
    (w.act (.serverRead n)).Kept once := by
  cases hw : w.link with
  | none => simpa only [act, hw] using h
  | some l =>
      obtain ⟨dropped, hstored⟩ := h.stored
      obtain ⟨downs, ups, hconn, hdown, hup⟩ := h.link l hw
      obtain ⟨done, left, rfl, hparse, hrest⟩ := serverRead_items hup n
      have hjoined : Joined once w.enqueued dropped w.receiver.client.sessionId w.receiver
          (w.server, { l with
            toServer := l.toServer.drop n
            serverBuf := (serverBytes l n).drop (parseStream (serverBytes l n)).2.1 })
          downs (done ++ left) :=
        ⟨hstored, ⟨hconn.requests, hconn.live, hconn.dead, hconn.single⟩, hdown⟩
      obtain ⟨downs', hnext⟩ := hjoined.serveAll fun hl hne hg => by
        rw [← hstored.storeStart_eq]
        refine hserved l hw hl ?_ hg
        rw [hparse]
        simpa using hne
      have hframe := frame_serveAll (w.server, { l with
        toServer := l.toServer.drop n
        serverBuf := (serverBytes l n).drop (parseStream (serverBytes l n)).2.1 })
        (done.map (Up.packet w.receiver.client.sessionId))
      simp only [act, hw, hparse]
      refine ⟨h.messages, ⟨dropped, hnext.stored⟩, h.receiver, fun l' hl' => ?_⟩
      obtain rfl := Option.some.inj hl'
      refine ⟨downs', left, hnext.conn, hnext.bytes, ?_⟩
      rw [hframe.serverBuf, hframe.toServer]
      exact hrest

theorem Kept.clientRead (h : w.Kept once) (n nowNs : Nat) :
    (w.act (.clientRead n nowNs)).Kept once := by
  cases hw : w.link with
  | none => simpa only [act, hw] using h
  | some l =>
      obtain ⟨dropped, hstored⟩ := h.stored
      obtain ⟨downs, ups, hconn, hdown, hup⟩ := h.link l hw
      obtain ⟨done, left, rfl, hparse, hrest⟩ := clientRead_items
        (hconn.fits (fun p hp => (h.messages p hp).2) w.server.sessionId) hdown n
      obtain ⟨hkept, hconn', hid⟩ := hconn.clientRead h.receiver (fun p hp => (h.messages p hp).1)
        hstored.small nowNs w.server.sessionId (l.toClient.drop n)
        ((clientBytes l n).drop (parseStream (clientBytes l n)).2.1)
      simp only [act, hw, hparse]
      refine ⟨h.messages, ⟨dropped, hstored⟩, hkept, fun l' hl' => ?_⟩
      obtain rfl := Option.some.inj hl'
      refine ⟨left, ups, ?_, hrest, ?_⟩
      · simp only [Granted, hid]
        exact hconn'
      · rw [hid]
        exact hup

theorem Kept.act (h : w.Kept once) (a : Act) (ha : Traffic once w a) (hserved : w.ServedInTime a) :
    (w.act a).Kept once := by
  cases a with
  | enqueue payload => exact h.enqueue ha.1 ha.2.1 ha.2.2
  | connect => exact h.connect
  | login username password => exact h.login ha
  | serverRead n => exact h.serverRead n hserved
  | clientRead n nowNs => exact h.clientRead n nowNs
  | disconnect => exact ⟨h.messages, h.stored, h.receiver, fun l hl => by cases hl⟩

/-! ## Exactly once -/

/-- No message leaves the store before the client has processed it. -/
def NotEvicted (w : World) : Act → Prop
  | .enqueue _ => ∀ seq ∈ w.server.evicted, seq ≤ w.receiver.processed.length
  | _ => True

instance decidableNotEvicted (w : World) : ∀ a : Act, Decidable (w.NotEvicted a)
  | .enqueue _ =>
      inferInstanceAs (Decidable (∀ seq ∈ w.server.evicted, seq ≤ w.receiver.processed.length))
  | .connect | .login _ _ | .serverRead _ | .clientRead _ _ | .disconnect =>
      inferInstanceAs (Decidable True)

theorem Kept.expectedSeq_eq (h : w.Kept True) :
    w.receiver.client.expectedSeq = w.receiver.processed.length + 1 := by
  have hpos := h.receiver.pos
  have hle := h.receiver.le
  rw [h.receiver.processed trivial, List.length_take]
  omega

theorem frame_serverRead (w : World) (n : Nat) :
    (w.act (.serverRead n)).server.storeStart = w.server.storeStart ∧
      (w.act (.serverRead n)).receiver = w.receiver := by
  cases hw : w.link with
  | none => simp only [act, hw, and_self]
  | some l =>
      simp only [act, hw]
      exact ⟨(frame_serveAll _ _).storeStart, trivial⟩

theorem frame_clientRead (w : World) (n nowNs : Nat) :
    (w.act (.clientRead n nowNs)).server = w.server ∧
      w.receiver.processed <+: (w.act (.clientRead n nowNs)).receiver.processed := by
  cases hw : w.link with
  | none => simp only [act, hw, List.prefix_refl, and_self]
  | some l =>
      simp only [act, hw]
      exact ⟨trivial, (w.receiver.receive_grows nowNs _).1⟩

/-- The store always has the next message of the client, or there is none. -/
theorem Kept.storeStart_le (h : w.Kept True) (a : Act) (ha : Traffic True w a)
    (hkeep : w.NotEvicted a) (hle : w.server.storeStart ≤ w.receiver.client.expectedSeq)
    (hnext : (w.act a).Kept True) :
    (w.act a).server.storeStart ≤ (w.act a).receiver.client.expectedSeq := by
  cases a with
  | enqueue payload =>
      obtain ⟨dropped, hstored⟩ := h.stored
      have hsmall := ha.2.2
      rw [hstored.next] at hsmall
      have hexp := h.expectedSeq_eq
      show (w.server.enqueue payload).2.storeStart ≤ w.receiver.client.expectedSeq
      rw [(hstored.enqueue hsmall payload).storeStart_eq]
      rw [hstored.storeStart_eq] at hle
      split
      next => exact hle
      next hsome =>
        obtain ⟨seq, hseq⟩ := Option.ne_none_iff_exists'.mp hsome
        have hold := hkeep seq hseq
        have hoff : seq = dropped + 1 := by
          have heq := hstored.oldest_eq
          rw [ServerSession.evicted] at hseq
          split at hseq
          next =>
            rw [heq] at hseq
            split at hseq
            next => cases hseq
            next => exact (Option.some.inj hseq).symm
          next => cases hseq
        omega
  | connect => exact hle
  | login username password => exact hle
  | serverRead n =>
      rw [(frame_serverRead w n).1, (frame_serverRead w n).2]
      exact hle
  | clientRead n nowNs =>
      have hgrow := (frame_clientRead w n nowNs).2.length_le
      rw [hnext.expectedSeq_eq, (frame_clientRead w n nowNs).1]
      rw [h.expectedSeq_eq] at hle
      omega
  | disconnect => exact hle

theorem servedInTime_of_le (hle : w.server.storeStart ≤ w.receiver.client.expectedSeq) (a : Act) :
    w.ServedInTime a := by
  cases a with
  | serverRead n => exact fun _ _ _ _ _ => hle
  | enqueue | connect | login | clientRead | disconnect => trivial

/-- Over all connections the client processes the first messages that were enqueued, each once and
in order, and it expects the one after them. -/
theorem resume_exactly_once {sessionId clientId : List UInt8} {storeCapacity : Nat}
    {server : ServerSession} (hnew : ServerSession.new sessionId storeCapacity = .ok server)
    {w : World} (h : Runs.Reachable act (fun w a => Traffic True w a ∧ w.NotEvicted a)
      (init server clientId) w) :
    w.receiver.processed <+: w.enqueued ∧
      w.receiver.client.expectedSeq = w.receiver.processed.length + 1 := by
  have hinv : w.Kept True ∧ w.server.storeStart ≤ w.receiver.client.expectedSeq := by
    refine h.invariant (P := fun w => w.Kept True ∧
      w.server.storeStart ≤ w.receiver.client.expectedSeq) ⟨kept_init hnew, ?_⟩ ?_
    · show server.storeStart ≤ 1
      rw [(ServerSession.stored_new hnew).storeStart_eq]
    · rintro w a - ⟨ha, hkeep⟩ ⟨hkept, hle⟩
      have hnext := hkept.act a ha (servedInTime_of_le hle a)
      exact ⟨hnext, hkept.storeStart_le a ha hkeep hle hnext⟩
  refine ⟨?_, hinv.1.expectedSeq_eq⟩
  rw [hinv.1.receiver.processed trivial]
  exact List.take_prefix _ _

/-- The connection is cut inside the first message, and the client logs in again. -/
def cutInside : List Act :=
  [.enqueue [1], .connect, .login [117] [112], .serverRead 100, .clientRead 36 0, .enqueue [2],
    .disconnect, .connect, .login [117] [112], .serverRead 20, .serverRead 100, .enqueue [3],
    .clientRead 39 1, .clientRead 2 2]

theorem resume_exactly_once_cut :
    ServerSession.new [83] 4 = .ok ⟨[83], 1, [], 4, false⟩ ∧
      (cutInside.foldl act (init ⟨[83], 1, [], 4, false⟩ [83])).receiver.processed = [[1], [2]] ∧
      (cutInside.foldl act (init ⟨[83], 1, [], 4, false⟩ [83])).receiver.client.expectedSeq =
        3 := by
  have hallowed : Runs.AllAllowed act (fun w a => Traffic True w a ∧ w.NotEvicted a)
      (init ⟨[83], 1, [], 4, false⟩ [83]) cutInside := by decide +kernel
  have hprocessed : (cutInside.foldl act (init ⟨[83], 1, [], 4, false⟩ [83])).receiver.processed =
      [[1], [2]] := by decide +kernel
  have hnew : ServerSession.new [83] 4 = .ok ⟨[83], 1, [], 4, false⟩ := rfl
  have h := resume_exactly_once hnew (Runs.Reachable.start.foldl hallowed)
  exact ⟨hnew, hprocessed, by rw [h.2, hprocessed]; rfl⟩

/-- The client logs in twice on one connection before it reads the answers. -/
def loggedInTwice : List Act :=
  [.enqueue [1], .connect, .login [117] [112], .login [117] [112], .serverRead 98, .clientRead 74 0]

/-- The server does not look whether the connection is logged in, and sends the message again. -/
theorem login_twice_repeats :
    Runs.AllAllowed act (fun w a => Traffic False w a ∧ w.NotEvicted a)
        (init ⟨[83], 1, [], 4, false⟩ [83]) loggedInTwice ∧
      (loggedInTwice.foldl act (init ⟨[83], 1, [], 4, false⟩ [83])).receiver.processed =
        [[1], [1]] ∧
      ¬ (loggedInTwice.foldl act (init ⟨[83], 1, [], 4, false⟩ [83])).receiver.processed <+:
        (loggedInTwice.foldl act (init ⟨[83], 1, [], 4, false⟩ [83])).enqueued := by
  decide +kernel

/-! ## Loss -/

/-- The client reports that messages are missing when the answer to a login starts beyond the
number it expects. -/
def LossReported (w : World) : Prop :=
  ∀ a ∈ w.receiver.answers, a.expected < a.sequence →
    a.result = .error (.sequenceGap a.expected a.sequence)

theorem Kept.lossReported (h : w.Kept once) : w.LossReported := fun a ha hlt =>
  absurd (h.receiver.answers a ha) (Nat.not_le.mpr hlt)

/-- A buffer that starts with a packet is read from this packet on. -/
theorem parseStream_append {p : Packet} (hp : p.Fits) (rest : List UInt8) :
    ∃ pkts, (parseStream (p.toBytes ++ rest)).1 = p :: pkts := by
  have hlen : (p.toBytes ++ rest).length = p.payload.length + 2 + rest.length + 1 := by
    rw [List.length_append, hp.length_toBytes]
    omega
  rw [parseStream, hlen, frames_packets.parse_append hp]
  exact ⟨_, rfl⟩

/-- The answer to a login that comes too late starts at the oldest message. -/
theorem Kept.lateAnswer (h : w.Kept once) {l : Link} (hw : w.link = some l)
    (hlive : l.live = false) {n : Nat} (hread : (parseStream (serverBytes l n)).1 ≠ [])
    (hg : w.Granted) (hlate : w.receiver.client.expectedSeq < w.server.storeStart) :
    ∃ l' rest, (w.act (.serverRead n)).link = some l' ∧ l'.clientBuf = [] ∧
      l'.toClient =
        (Down.packet w.server.sessionId (.accepted w.server.storeStart)).toBytes ++ rest := by
  obtain ⟨dropped, hstored⟩ := h.stored
  obtain ⟨downs, ups, hconn, hdown, hup⟩ := h.link l hw
  obtain ⟨done, left, rfl, hparse, -⟩ := serverRead_items hup n
  cases done with
  | nil => exact absurd hparse hread
  | cons u done =>
      obtain ⟨hpos, hle, heq⟩ := hconn.requests u List.mem_cons_self
      -- nothing else is on the way, for the connection is not logged in
      rw [(hconn.dead hlive).2 hg] at hdown
      have hempty : l.clientBuf ++ l.toClient = [] := hdown
      obtain ⟨hbuf, hflight⟩ := List.append_eq_nil_iff.mp hempty
      have hstart : max u.seq (dropped + 1) = w.server.storeStart := by
        rw [hstored.storeStart_eq] at hlate ⊢
        rw [heq hlive]
        exact max_eq_right hlate.le
      let l₀ : Link := { l with
        toServer := l.toServer.drop n
        serverBuf := (serverBytes l n).drop (parseStream (serverBytes l n)).2.1 }
      have hfirst := serve_granted (l := l₀) hstored hg hpos hle
      rw [hstart] at hfirst
      have hframe := frame_serveAll (serve (w.server, l₀) (u.packet w.receiver.client.sessionId))
        (done.map (Up.packet w.receiver.client.sessionId))
      rw [hfirst] at hframe
      obtain ⟨extra, hextra⟩ := hframe.toClient
      simp only [World.act, hw, hparse, List.map_cons, List.foldl_cons]
      rw [hfirst]
      refine ⟨_, wire (Down.packet w.server.sessionId)
        ((w.enqueued.drop (w.server.storeStart - 1)).map Down.data) ++ extra, rfl,
        hframe.clientBuf.trans hbuf, ?_⟩
      rw [← hextra, ← List.append_assoc]
      congr 1
      show l.toClient ++ _ = _
      rw [hflight]
      rfl

/-- A login that is granted too late makes the client skip messages without a report. -/
theorem Kept.unreported (h : w.Kept once) {l : Link} (hw : w.link = some l)
    (hlive : l.live = false) {n : Nat} (hread : (parseStream (serverBytes l n)).1 ≠ [])
    (hg : w.Granted) (hlate : w.receiver.client.expectedSeq < w.server.storeStart) :
    ∃ k, ¬ ((w.act (.serverRead n)).act (.clientRead k 0)).LossReported := by
  obtain ⟨l', rest, hl', hbuf, hflight⟩ := h.lateAnswer hw hlive hread hg hlate
  obtain ⟨dropped, hstored⟩ := h.stored
  have hsmall : w.server.storeStart < 2 ^ 64 := by
    rw [hstored.storeStart_eq]
    exact lt_of_le_of_lt (Nat.succ_le_succ hstored.dropped_le) hstored.small
  have hbytes : clientBytes l' l'.toClient.length =
      (Down.packet w.server.sessionId (.accepted w.server.storeStart)).toBytes ++ rest := by
    rw [clientBytes, hbuf, List.take_length, List.nil_append, hflight]
  obtain ⟨pkts, hpkts⟩ := parseStream_append
    (show (Down.packet w.server.sessionId (.accepted w.server.storeStart)).Fits from
      fits_loginAccepted _ _) rest
  refine ⟨l'.toClient.length, fun hloss => ?_⟩
  have hanswer : ⟨w.receiver.client.expectedSeq, w.server.storeStart, .ok {}⟩ ∈
      ((w.act (.serverRead n)).act (.clientRead l'.toClient.length 0)).receiver.answers := by
    have hgrow := ((w.receiver.receive 0
      (Down.packet w.server.sessionId (.accepted w.server.storeStart))).receive_grows 0 pkts).2
    have hkeep := (frame_serverRead w n).2
    generalize w.act (.serverRead n) = w' at hl' hkeep ⊢
    simp only [World.act, hl', hbytes, hkeep, hpkts, List.foldl_cons]
    rw [Receiver.receive_accepted hsmall] at hgrow ⊢
    exact hgrow.subset (List.mem_append_right _ List.mem_cons_self)
  exact absurd (hloss _ hanswer hlate) (by simp)

/-- In every run in which logins are answered in time, no loss goes unreported.  The next answer
keeps it so exactly if it comes in time. -/
theorem loss_reported_iff {sessionId clientId : List UInt8} {storeCapacity : Nat}
    {server : ServerSession} (hnew : ServerSession.new sessionId storeCapacity = .ok server)
    {w : World} (h : Runs.Reachable act (fun w a => Traffic False w a ∧ w.ServedInTime a)
      (init server clientId) w) :
    w.LossReported ∧
      ∀ n, (∀ k nowNs, ((w.act (.serverRead n)).act (.clientRead k nowNs)).LossReported) ↔
        w.ServedInTime (.serverRead n) := by
  have hkept : w.Kept False :=
    h.invariant (kept_init hnew) fun w a _ ha hw => hw.act a ha.1 ha.2
  refine ⟨hkept.lossReported, fun n =>
    ⟨fun hall l hl hlive hread hg => ?_, fun hserved k nowNs => ?_⟩⟩
  · by_contra hlate
    obtain ⟨k, hk⟩ := hkept.unreported hl hlive hread hg (Nat.not_le.mp hlate)
    exact hk (hall k 0)
  · exact ((hkept.serverRead n hserved).clientRead k nowNs).lossReported

/-- A store for one message.  The client logs in twice on a connection, then two messages are
enqueued while it is away. -/
def awayTooLong : List Act :=
  [.enqueue [1], .connect, .login [117] [112], .serverRead 100, .login [117] [112], .serverRead 100,
    .clientRead 100 0, .disconnect, .enqueue [2], .enqueue [3], .connect, .login [117] [112]]

theorem loss_reported_iff_away :
    (awayTooLong.foldl act (init ⟨[83], 1, [], 1, false⟩ [83])).LossReported ∧
      ¬ ∀ k nowNs, (((awayTooLong.foldl act (init ⟨[83], 1, [], 1, false⟩ [83])).act
        (.serverRead 100)).act (.clientRead k nowNs)).LossReported := by
  have hallowed : Runs.AllAllowed act (fun w a => Traffic False w a ∧ w.ServedInTime a)
      (init ⟨[83], 1, [], 1, false⟩ [83]) awayTooLong := by decide +kernel
  have hnew : ServerSession.new [83] 1 = .ok ⟨[83], 1, [], 1, false⟩ := rfl
  have h := loss_reported_iff hnew (Runs.Reachable.start.foldl hallowed)
  have hlate : ¬ (awayTooLong.foldl act (init ⟨[83], 1, [], 1, false⟩ [83])).ServedInTime
      (.serverRead 100) := by decide +kernel
  exact ⟨h.1, fun hall => hlate ((h.2 100).mp hall)⟩

/-- The client gets the first message and is cut off.  Two more are enqueued, and the store has
room for one. -/
def secondDropped : List Act :=
  [.enqueue [1], .connect, .login [117] [112], .serverRead 100, .clientRead 100 0, .disconnect,
    .enqueue [2], .enqueue [3], .connect, .login [117] [112], .serverRead 100, .clientRead 100 1]

/-- The client has processed the first message and expects the second one.  The answer to its login
starts at the third one, and handling it succeeds. -/
theorem loss_unreported :
    (secondDropped.foldl act (init ⟨[83], 1, [], 1, false⟩ [83])).receiver.answers.map
        (fun a => (a.expected, a.sequence, a.result.isOk)) = [(1, 1, true), (2, 3, true)] ∧
      (secondDropped.foldl act (init ⟨[83], 1, [], 1, false⟩ [83])).receiver.processed =
        [[1], [3]] ∧
      ¬ (secondDropped.foldl act (init ⟨[83], 1, [], 1, false⟩ [83])).LossReported := by
  have hanswers : (secondDropped.foldl act
      (init ⟨[83], 1, [], 1, false⟩ [83])).receiver.answers.map
        (fun a => (a.expected, a.sequence, a.result.isOk)) = [(1, 1, true), (2, 3, true)] := by
    decide +kernel
  refine ⟨hanswers, by decide +kernel, fun hloss => ?_⟩
  have hmem : (2, 3, true) ∈ (secondDropped.foldl act
      (init ⟨[83], 1, [], 1, false⟩ [83])).receiver.answers.map
        (fun a => (a.expected, a.sequence, a.result.isOk)) := by
    rw [hanswers]
    exact List.mem_cons_of_mem _ List.mem_cons_self
  obtain ⟨a, ha, heq⟩ := List.mem_map.mp hmem
  simp only [Prod.mk.injEq] at heq
  obtain ⟨hexpected, hsequence, hok⟩ := heq
  rw [hloss a ha (by omega)] at hok
  cases hok

end World

end MatchSoupBinTcp
