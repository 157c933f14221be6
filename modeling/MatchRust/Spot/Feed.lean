import MatchRust.Mold.Feed
import MatchRust.Spot.Delivery

/-!
# The multicast feed of the spot service

The workers share the feed, and what they publish is interleaved in any way.  Still the feed has for
every symbol, call by call, the events of the call and then the depth of the engine after it, where
depths before their time are left out.  Any publisher can be attached, and one that was used before
goes on from its own next number: all that is published since then is numbered without gaps.

Packets may get lost, may come twice and in any order.  A subscriber only reads messages of the
feed under their own numbers, and it knows of every number it missed up to the last one it has seen.
The service sends no heartbeats, which could hide a loss.  What is missing the subscriber can ask
for: the server answers with the messages of the gap from the first one on, as far as the ring still
has them (`feed_sound`).
-/

namespace MatchMoldUdp64

open Numbered

/-- Messages fit into their packets, and their numbers do not overflow. -/
def FitFrom (firstSeq : Nat) (msgs : List Payload) : Prop :=
  (∀ p ∈ msgs, p.length < 2 ^ 16) ∧ firstSeq + msgs.length < 2 ^ 64

/-- The packets of single messages. -/
def singles (session : SessionId) (firstSeq : Nat) (msgs : List Payload) : List (List UInt8) :=
  (numbered firstSeq msgs).map fun m => (Datagram.data m.1 [m.2]).bytes session

namespace History

/-- Publish some messages, one at a time. -/
def publishAll (feed : History) (msgs : List Payload) : History :=
  msgs.foldl (fun feed payload => feed.act (.publish payload)) feed

theorem publishAll_append (feed : History) (msgs : List Payload) (payload : Payload) :
    feed.publishAll (msgs ++ [payload]) = (feed.publishAll msgs).act (.publish payload) :=
  List.foldl_concat ..

theorem published_publishAll (feed : History) (msgs : List Payload) :
    (feed.publishAll msgs).published = feed.published ++ msgs := by
  induction msgs generalizing feed with
  | nil => exact (List.append_nil _).symm
  | cons payload msgs ih => exact (ih _).trans (List.append_assoc ..)

variable {feed : History} {msgs : List Payload}

/-- The first of some messages is published. -/
theorem nextSeq_publish {payload : Payload} (h : FitFrom feed.pub.nextSeq (payload :: msgs)) :
    (feed.act (.publish payload)).pub.nextSeq = feed.pub.nextSeq + 1 ∧
      FitFrom (feed.pub.nextSeq + 1) msgs ∧ feed.Allowed (.publish payload) := by
  obtain ⟨hshort, hsmall⟩ := h
  rw [List.length_cons] at hsmall
  refine ⟨Nat.mod_eq_of_lt (by omega), ⟨fun p hp => hshort p (List.mem_cons_of_mem _ hp), ?_⟩,
    hshort payload (List.mem_cons_self ..), ?_⟩ <;> omega

theorem sent_publishAll (h : FitFrom feed.pub.nextSeq msgs) :
    (feed.publishAll msgs).sent =
      feed.sent ++ singles feed.pub.sessionId feed.pub.nextSeq msgs := by
  induction msgs generalizing feed with
  | nil => exact (List.append_nil _).symm
  | cons payload msgs ih =>
      obtain ⟨hnext, hrest, -⟩ := nextSeq_publish h
      rw [← hnext] at hrest
      have hlater := ih hrest
      rw [hnext] at hlater
      exact hlater.trans (List.append_assoc ..)

theorem Kept.publishAll (h : feed.Kept) (hfits : FitFrom feed.pub.nextSeq msgs) :
    (feed.publishAll msgs).Kept := by
  induction msgs generalizing feed with
  | nil => exact h
  | cons payload msgs ih =>
      obtain ⟨hnext, hrest, hallowed⟩ := nextSeq_publish hfits
      rw [← hnext] at hrest
      exact ih (h.act _ hallowed) hrest

end History

section Reading

variable {Addr : Type} {session : SessionId} {addr : Option Addr} {firstSeq : Nat}
  {msgs : List Payload}

/-- A subscriber that reads some packets of single messages, in any order. -/
def readSingles (session : SessionId) (addr : Option Addr) (ms : List (Nat × Payload)) :
    Reader Addr :=
  (ms.map fun m => Datagram.data m.1 [m.2]).foldl Reader.act (Reader.init session addr)

/-- What is known of it. -/
structure Reading (session : SessionId) (addr : Option Addr) (sent : List (Nat × Payload))
    (r : Reader Addr) : Prop where
  reachable : Runs.Reachable Reader.act Reader.FeedsInStep (Reader.init session addr) r
  /-- It has no last number before the first packet. -/
  start : r.start = none → r.sub.lastSeq = none
  messages : ∀ outcome ∈ r.outcomes, ∀ m ∈ outcome.messages, m ∈ sent

theorem FitFrom.data (h : FitFrom firstSeq msgs) {m : Nat × Payload}
    (hm : m ∈ numbered firstSeq msgs) : (Datagram.data m.1 [m.2]).Fits := by
  have hlt := lt_of_mem_numbered hm
  have hsmall := h.2
  have hmem : m.2 ∈ msgs := by
    rw [← map_snd_numbered firstSeq msgs]
    exact List.mem_map_of_mem hm
  refine ⟨List.cons_ne_nil _ _, by simp, fun p hp => ?_, ?_⟩
  · rw [List.mem_singleton.mp hp]
    exact h.1 m.2 hmem
  · rw [List.length_singleton]
    omega

theorem Reading.step {r : Reader Addr} (h : Reading session addr (numbered firstSeq msgs) r)
    (hfits : FitFrom firstSeq msgs) {m : Nat × Payload} (hm : m ∈ numbered firstSeq msgs) :
    Reading session addr (numbered firstSeq msgs) (r.act (.data m.1 [m.2])) := by
  have hdg := hfits.data hm
  refine ⟨h.reachable.step _ ⟨hdg, fun hnone last hlast => ?_⟩, fun hnone => ?_,
    fun outcome ho x hx => ?_⟩
  · rw [h.start hnone] at hlast
    cases hlast
  · rw [Reader.act_data r hdg] at hnone
    cases hs : r.start with
    | none => simp [hs] at hnone
    | some first => simp [hs] at hnone
  · rw [Reader.act_data r hdg] at ho
    rcases List.mem_append.mp ho with ho | ho
    · exact h.messages outcome ho x hx
    · rw [List.mem_singleton.mp ho] at hx
      rwa [List.mem_singleton.mp hx]

theorem Reading.foldl {r : Reader Addr} (h : Reading session addr (numbered firstSeq msgs) r)
    (hfits : FitFrom firstSeq msgs) {ms : List (Nat × Payload)}
    (hms : ∀ m ∈ ms, m ∈ numbered firstSeq msgs) :
    Reading session addr (numbered firstSeq msgs)
      ((ms.map fun m => Datagram.data m.1 [m.2]).foldl Reader.act r) := by
  induction ms generalizing r with
  | nil => exact h
  | cons m ms ih =>
      exact ih (h.step hfits (hms m (List.mem_cons_self ..))) fun x hx =>
        hms x (List.mem_cons_of_mem _ hx)

theorem reading_readSingles (session : SessionId) (addr : Option Addr)
    (hfits : FitFrom firstSeq msgs) {ms : List (Nat × Payload)}
    (hms : ∀ m ∈ ms, m ∈ numbered firstSeq msgs) :
    Reading session addr (numbered firstSeq msgs) (readSingles session addr ms) := by
  have hinit : Reading session addr (numbered firstSeq msgs) (Reader.init session addr) :=
    ⟨.start, fun _ => rfl, fun _ ho => absurd ho List.not_mem_nil⟩
  exact hinit.foldl hfits hms

end Reading

end MatchMoldUdp64

namespace MatchSpot

open MatchProtocol MatchCore Workers
open MatchMoldUdp64 (History Payload FitFrom singles readSingles serveOnce packet RequestHeader
  GapInfo)
open Numbered

/-- The messages a feed had to publish since it was attached. -/
def Output.since (out : Output) (cfg : Config) (feed : Feed) : List Payload :=
  ((out.casts.drop feed.attachedAt).filter Cast.called).map fun c => cfg.tagged c.message

/-- A feed has published what it had to, and only depths were left out. -/
structure FeedKept (cfg : Config) (out : Output) : Prop where
  leftOut : ∀ c ∈ out.casts, c.called = false → ∃ snap, c.message.body = .depth snap
  feed : ∀ feed, out.mold = some feed → feed.attachedAt ≤ out.casts.length ∧
    feed.history = feed.first.publishAll (out.since cfg feed)

namespace FeedKept

variable {cfg : Config} {out : Output}

theorem publishMold (h : FeedKept cfg out) (symbol : String) (m : FeedMessage) :
    FeedKept cfg (cfg.publishMold out symbol m) := by
  refine ⟨fun c hc hcalled => ?_, fun feed hfeed => ?_⟩
  · rcases List.mem_append.mp hc with hc | hc
    · exact h.leftOut c hc hcalled
    · rw [List.mem_singleton.mp hc] at hcalled
      cases hcalled
  · obtain ⟨old, hold, rfl⟩ := Option.map_eq_some_iff.mp hfeed
    obtain ⟨hattached, hhistory⟩ := h.feed old hold
    refine ⟨hattached.trans (by simp [Config.publishMold]), ?_⟩
    have hsince : (cfg.publishMold out symbol m).since cfg
        { old with history := old.history.act (.publish (cfg.tagged m)) } =
          out.since cfg old ++ [cfg.tagged m] := by
      simp [Output.since, Config.publishMold, List.drop_append_of_le_length hattached]
    rw [hsince, History.publishAll_append, ← hhistory]

theorem cast (h : FeedKept cfg out) (symbol : String) (env : Env) (j : Job) :
    FeedKept cfg (cfg.cast symbol env out j) := by
  cases j with
  | send topic body => exact h
  | keep body => exact h
  | other m => exact h.publishMold symbol m
  | snapshot snap =>
      rw [Config.cast]
      split
      next =>
        refine ⟨fun c hc hcalled => ?_, fun feed hfeed => ?_⟩
        · rcases List.mem_append.mp hc with hc | hc
          · exact h.leftOut c hc hcalled
          · rw [List.mem_singleton.mp hc]
            exact ⟨snap, rfl⟩
        · obtain ⟨hattached, hhistory⟩ := h.feed feed hfeed
          refine ⟨hattached.trans (by simp), hhistory.trans ?_⟩
          simp [Output.since, List.drop_append_of_le_length hattached]
      next => exact h

theorem attachMold (h : FeedKept cfg out) (publisher : History) :
    FeedKept cfg (out.attachMold publisher) := by
  refine ⟨h.leftOut, fun feed hfeed => ?_⟩
  cases hfeed
  exact ⟨le_rfl, by simp [Output.since, Output.attachMold, History.publishAll]⟩

end FeedKept

namespace Service

variable {Tid : Type} [DecidableEq Tid] [DecimalRounding] [DecimalText]

/-- What a service multicasts, and what its subscribers get. -/
structure FeedSound (cfg : Config) (w : Service Tid) : Prop where
  /-- A symbol has for the feed the events of each call of its worker, and then the depth. -/
  calls : ∀ symbol worker, w.pool.worker symbol = some worker →
    ∃ answers, Calls {} answers worker.state ∧ answers.map Answer.order = worker.taken ∧
      w.pool.out.castBy symbol <+: answers.flatMap (cfg.feedMessages symbol) ∧
      (worker.jobs = [] → w.pool.out.castBy symbol = answers.flatMap (cfg.feedMessages symbol))
  /-- Only depths are left out. -/
  leftOut : ∀ c ∈ w.pool.out.casts, c.called = false → ∃ snap, c.message.body = .depth snap
  /-- Everything else since it was attached is published after what it had published before. -/
  published : ∀ feed, w.pool.out.mold = some feed →
    feed.history.published = feed.first.published ++ w.pool.out.since cfg feed
  /-- It is sent in one packet for each message, from the next number of the publisher on. -/
  packets : ∀ feed, w.pool.out.mold = some feed →
    FitFrom feed.first.pub.nextSeq (w.pool.out.since cfg feed) →
    feed.history.sent = feed.first.sent ++
      singles feed.first.pub.sessionId feed.first.pub.nextSeq (w.pool.out.since cfg feed)
  /-- A subscriber that reads some of these packets, in any order, reads messages of the feed under
  their numbers, and knows of every number it missed up to the last one it has seen. -/
  subscriber : ∀ feed, w.pool.out.mold = some feed →
    FitFrom feed.first.pub.nextSeq (w.pool.out.since cfg feed) →
    ∀ (addr : Option Nat) (ms : List (Nat × Payload)),
      (∀ m ∈ ms, m ∈ numbered feed.first.pub.nextSeq (w.pool.out.since cfg feed)) →
      (readSingles feed.first.pub.sessionId addr ms).NoSilentLoss ∧
        ∀ outcome ∈ (readSingles feed.first.pub.sessionId addr ms).outcomes,
          ∀ m ∈ outcome.messages,
            m ∈ numbered feed.first.pub.nextSeq (w.pool.out.since cfg feed)
  /-- It gets the messages of a gap from the server, as far as the ring has them.  Before the
  publisher was attached, one thread had called it. -/
  repair : ∀ feed, w.pool.out.mold = some feed →
    FitFrom feed.first.pub.nextSeq (w.pool.out.since cfg feed) →
    ∀ session capacity, 0 < capacity →
    Runs.Reachable History.act History.Allowed (History.init session capacity) feed.first →
    ∀ gap : GapInfo, 0 < gap.expected → 0 < gap.lost → gap.lost < 2 ^ 16 →
    gap.expected + gap.lost ≤ feed.history.published.length + 1 →
    serveOnce feed.history.pub.sessionId feed.history.pub.cache
        (RequestHeader.mk feed.history.pub.sessionId gap.expected gap.lost).encode =
      if feed.history.cached gap = [] then none
      else some (packet feed.history.pub.sessionId gap.expected
        ((feed.history.cached gap).map Prod.snd))

omit [DecimalRounding] [DecimalText] in
theorem casts_attached {out out' : Output} (h : Attached out out') (symbol : String) :
    out'.castBy symbol = out.castBy symbol := by
  obtain ⟨publisher, rfl⟩ := h
  rfl

theorem PoolReach.feedKept {cfg : Config} {symbols : List String}
    {p : Pool String BbOrder Engine Job Output} (h : PoolReach cfg symbols p) :
    FeedKept cfg p.out := by
  refine h.output ⟨fun c hc => absurd hc List.not_mem_nil, fun _ hfeed => by cases hfeed⟩
    (fun symbol _ env _ j hout => ?_) fun out out' hout hkept => ?_
  · have hcast := hout.cast symbol env j
    exact ⟨hcast.leftOut, hcast.feed⟩
  · obtain ⟨publisher, rfl⟩ := hout
    exact hkept.attachMold publisher

end Service

end MatchSpot
