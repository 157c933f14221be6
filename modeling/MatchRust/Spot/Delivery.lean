import MatchRust.Core.Resting
import MatchRust.Core.Symbols
import MatchRust.Spot.Service

/-!
# Delivery of the spot service

What the workers of the spot service send, with any failures of the sink and of Redis.  A worker
makes one call for each order it takes, and every call returns (`Calls`).  The market gets the
announcement of an order and all its events, and the order module those events that do not concern
robots only, every one of them once and in order.  An event in which a user takes part goes to both,
on topics without the suffix.  A message the sink did not take is kept for a retry (`events_told`).
-/

namespace MatchSpot

open MatchProtocol MatchCore Workers
open MatchContract (PushOrder pushEvent)
open MatchMoldUdp64 (History)

/-! ## Calls of an engine -/

section Calls

variable [DecimalRounding]

/-- A call of an engine: its order, the events, and the engine after it. -/
structure Answer where
  order : BbOrder
  events : List MatchEvent
  engine : Engine

/-- Calls in a row, from an engine to an engine. -/
inductive Calls : Engine → List Answer → Engine → Prop
  | nil (engine : Engine) : Calls engine [] engine
  | cons {engine last : Engine} {a : Answer} {answers : List Answer}
      (h : engine.onOrder a.order = some (a.engine, a.events))
      (hrest : Calls a.engine answers last) : Calls engine (a :: answers) last

/-- The fills of a call are fills of its order. -/
theorem takerUserType_onOrder {engine next : Engine} {o : BbOrder} {evs : List MatchEvent}
    (hinv : EngineInv engine) (hlive : Live o) (h : engine.onOrder o = some (next, evs)) :
    ∀ f ∈ fillsOf evs, f.takerUserType = o.type := by
  rcases onBook_cases (hinv o.symbolKey) hlive (onOrder_some h).1 with
    ⟨hnone, -⟩ | ⟨side, -, -, -, -, rfl⟩
  · intro f hf
    rw [hnone] at hf
    cases hf
  · obtain ⟨S, crosses, cap, -, hmade⟩ := settle_sweeps side o
      ((engine.books o.symbolKey).entries side) ((engine.books o.symbolKey).entries side.opp)
    obtain ⟨status, hfills⟩ := hmade.reports
    intro f hf
    rw [hfills] at hf
    obtain ⟨x, -, rfl⟩ := List.mem_map.mp hf
    rfl

namespace Calls

variable {engine last : Engine} {answers : List Answer}

/-- Calls in a row are a run of the engine. -/
theorem trace (h : Calls engine answers last) :
    engine.trace (answers.map Answer.order) = some (last, answers.map Answer.events) := by
  induction h with
  | nil => rfl
  | cons h _ ih => exact Engine.trace_cons h ih

/-- All calls with accepted orders return. -/
theorem exists_of_accepted {os : List BbOrder} (hinv : EngineInv engine)
    (hacc : ∀ o ∈ os, o.Accepted) :
    ∃ answers last, Calls engine answers last ∧ answers.map Answer.order = os ∧
      ∀ a ∈ answers, ∀ f ∈ fillsOf a.events, f.takerUserType = a.order.type := by
  induction os generalizing engine with
  | nil => exact ⟨[], engine, .nil engine, rfl, fun a ha => absurd ha List.not_mem_nil⟩
  | cons o os ih =>
      have hlive := Live.of_accepted (hacc o (List.mem_cons_self ..))
      obtain ⟨next, evs, hon, hnext⟩ := engineInv_onOrder hinv hlive
      obtain ⟨answers, last, hcalls, hos, htypes⟩ :=
        ih hnext fun x hx => hacc x (List.mem_cons_of_mem _ hx)
      refine ⟨⟨o, evs, next⟩ :: answers, last, .cons hon hcalls, congrArg (o :: ·) hos, ?_⟩
      intro a ha
      rcases List.mem_cons.mp ha with rfl | ha
      · exact takerUserType_onOrder hinv hlive hon
      · exact htypes a ha

/-- What a worker that makes these calls notes down. -/
theorem run_answer (h : Calls engine answers last) :
    Log.run Config.answer engine (answers.map Answer.order) =
      (answers.map fun a => (a.order, some (a.events, a.engine)), last) := by
  induction h with
  | nil => rfl
  | @cons engine last a answers h _ ih =>
      have hstep : Config.answer engine a.order = (some (a.events, a.engine), a.engine) := by
        rw [Config.answer, h]
      rw [List.map_cons, Log.run, hstep, ih]
      rfl

end Calls

end Calls

/-! ## What a call has to show -/

/-- What a message shows to the market. -/
def toMarket : Topic → Body → List (Bool × Body)
  | .pushMarket _ mmSuffix, body => [(mmSuffix, body)]
  | _, _ => []

/-- What a message shows to the order module. -/
def toOrders : Topic → Body → List (Bool × Body)
  | .pushOrder _ mmSuffix, body => [(mmSuffix, body)]
  | _, _ => []

/-- The depths a message shows to a topic. -/
def toDepths (topic t : Topic) : Body → List HandicapDepthData
  | .depth snap => if t = topic then [snap] else []
  | _ => []

/-- A topic of a symbol, or of all of them. -/
def Topic.isOf (symbol : String) : Topic → Bool
  | .pushOrder key _ | .pushMarket key _ => key = symbol
  | .noDeal | .deeps => true

/-- The topic of a message that is not one of a symbol. -/
def astray (symbol : String) (topic : Topic) (_ : Body) : List Topic :=
  if topic.isOf symbol then [] else [topic]

/-- What a job has to show to the feed. -/
def toFeed : Job → List FeedMessage
  | .other m => [m]
  | .snapshot snap => [⟨msgTagDepth, .depth snap⟩]
  | _ => []

namespace Config

variable (cfg : Config)

/-- The bodies of an order for the market, each with whether its topic has the suffix. -/
def marketMessages (a : Answer) : List (Bool × Body) :=
  (if announces a.order then [(false, .entrust a.order)] else []) ++
    a.events.map fun ev => (cfg.mmSuffix a.order ev, .push (pushEvent cfg.display ev))

/-- The bodies of an order for the order module. -/
def orderMessages (a : Answer) : List (Bool × Body) :=
  (a.events.filter (shouldSendOrderPush a.order)).map fun ev =>
    (cfg.mmSuffix a.order ev, .push (pushEvent cfg.display ev))

/-- The messages of an order for the feed: the events, and then the depth. -/
def feedMessages [DecimalText] (symbol : String) (a : Answer) : List FeedMessage :=
  a.events.map (fun ev => ⟨msgTagFillOrder, .push (pushEvent cfg.display ev)⟩) ++
    [⟨msgTagDepth, .depth (handicapDepth symbol a.engine)⟩]

section Jobs

variable [DecimalText] (symbol : String) (a : Answer)

/-- The jobs of an order show what its announcement, its events and its depth show. -/
theorem flatMap_handleOrderResult {W : Type} (f : Job → List W) :
    (cfg.handleOrderResult symbol a.order a.events a.engine).flatMap f =
      (if announces a.order then f (.send (.pushMarket a.order.symbolKey false) (.entrust a.order))
        else []) ++ a.events.flatMap (fun ev => (cfg.sendOneEvent symbol a.order ev).flatMap f) ++
        f (.snapshot (handicapDepth symbol a.engine)) := by
  rw [handleOrderResult, List.flatMap_append, List.flatMap_append, List.flatMap_assoc,
    List.flatMap_singleton]
  split
  next => rw [List.flatMap_singleton]
  next => rfl

theorem jobs_toMarket :
    (cfg.handleOrderResult symbol a.order a.events a.engine).flatMap (Outbox.Job.shows toMarket) =
      cfg.marketMessages a := by
  have hevent : ∀ ev, (cfg.sendOneEvent symbol a.order ev).flatMap (Outbox.Job.shows toMarket) =
      [(cfg.mmSuffix a.order ev, .push (pushEvent cfg.display ev))] := by
    intro ev
    rw [sendOneEvent]
    split
    next => rfl
    next => rfl
  simp only [flatMap_handleOrderResult, hevent, ← List.map_eq_flatMap]
  exact List.append_nil _

theorem jobs_toOrders :
    (cfg.handleOrderResult symbol a.order a.events a.engine).flatMap (Outbox.Job.shows toOrders) =
      cfg.orderMessages a := by
  have hevents : a.events.flatMap (fun ev =>
      (cfg.sendOneEvent symbol a.order ev).flatMap (Outbox.Job.shows toOrders)) =
      cfg.orderMessages a := by
    rw [orderMessages]
    induction a.events with
    | nil => rfl
    | cons ev events ih =>
        rw [List.flatMap_cons, ih, sendOneEvent]
        split
        next h => rw [List.filter_cons_of_pos h]; rfl
        next h => rw [List.filter_cons_of_neg h]; rfl
  rw [flatMap_handleOrderResult, hevents]
  simp [Outbox.Job.shows, toOrders]

theorem jobs_toFeed :
    (cfg.handleOrderResult symbol a.order a.events a.engine).flatMap toFeed =
      cfg.feedMessages symbol a := by
  have hevent : ∀ ev, (cfg.sendOneEvent symbol a.order ev).flatMap toFeed =
      [⟨msgTagFillOrder, .push (pushEvent cfg.display ev)⟩] := by
    intro ev
    rw [sendOneEvent]
    split
    next => rfl
    next => rfl
  simp only [flatMap_handleOrderResult, hevent, ← List.map_eq_flatMap]
  simp [toFeed, feedMessages]

/-- The messages of an order of the symbol go to topics of it. -/
theorem jobs_astray (ha : a.order.symbolKey = symbol) :
    (cfg.handleOrderResult symbol a.order a.events a.engine).flatMap
      (Outbox.Job.shows (astray symbol)) = [] := by
  have hevent : ∀ ev, (cfg.sendOneEvent symbol a.order ev).flatMap
      (Outbox.Job.shows (astray symbol)) = [] := by
    intro ev
    rw [sendOneEvent]
    split
    next => simp [Outbox.Job.shows, astray, Topic.isOf]
    next => simp [Outbox.Job.shows, astray, Topic.isOf]
  rw [flatMap_handleOrderResult]
  simp [hevent, Outbox.Job.shows, astray, Topic.isOf, ha]

theorem jobs_toDepths (topic : Topic) :
    (cfg.handleOrderResult symbol a.order a.events a.engine).flatMap
      (Outbox.Job.shows (toDepths topic)) = [] := by
  have hevent : ∀ ev, (cfg.sendOneEvent symbol a.order ev).flatMap
      (Outbox.Job.shows (toDepths topic)) = [] := by
    intro ev
    rw [sendOneEvent]
    split
    next => rfl
    next => rfl
  rw [flatMap_handleOrderResult]
  simp [hevent, Outbox.Job.shows, toDepths]

theorem jobsFor_toDepths (o : BbOrder) (ans : Option (List MatchEvent × Engine)) (topic : Topic) :
    (cfg.jobsFor symbol o ans).flatMap (Outbox.Job.shows (toDepths topic)) = [] := by
  cases ans with
  | none => rfl
  | some ans => exact cfg.jobs_toDepths symbol ⟨o, ans.1, ans.2⟩ topic

omit [DecimalText] in
theorem messages_toDepths {topic : Topic} (ht : topic = .noDeal ∨ topic = .deeps)
    (snap : HandicapDepthData) :
    (cfg.outbox.messages snap).flatMap (Outbox.Job.shows (toDepths topic)) = [snap] := by
  rcases ht with rfl | rfl
  · simp [outbox, Outbox.Job.shows, toDepths]
  · simp [outbox, Outbox.Job.shows, toDepths]

theorem jobs_snapshots :
    (cfg.handleOrderResult symbol a.order a.events a.engine).flatMap Outbox.Job.snapshots =
      [handicapDepth symbol a.engine] := by
  have hevent : ∀ ev, (cfg.sendOneEvent symbol a.order ev).flatMap Outbox.Job.snapshots = [] := by
    intro ev
    rw [sendOneEvent]
    split
    next => rfl
    next => rfl
  rw [flatMap_handleOrderResult]
  simp [hevent, Outbox.Job.snapshots]

end Jobs

theorem fresh_jobsFor [DecimalText] (symbol : String) (o : BbOrder)
    (ans : Option (List MatchEvent × Engine)) : Outbox.Fresh (cfg.jobsFor symbol o ans) := by
  cases ans with
  | none => exact Outbox.fresh_of_plain fun _ hj => absurd hj List.not_mem_nil
  | some ans =>
      refine Outbox.fresh_concat _ (fun j hj => ?_) (handicapDepth symbol ans.2)
      rcases List.mem_append.mp hj with hj | hj
      · split at hj
        next =>
          rw [List.mem_singleton.mp hj]
          trivial
        next => cases hj
      · obtain ⟨ev, -, hj⟩ := List.mem_flatMap.mp hj
        rw [sendOneEvent] at hj
        rcases List.mem_append.mp hj with hj | hj
        · rcases List.mem_pair.mp hj with rfl | rfl
          · trivial
          · trivial
        · split at hj
          next =>
            rw [List.mem_singleton.mp hj]
            trivial
          next => cases hj

end Config

/-! ## All workers -/

/-- What a symbol had for the feed, depths before their time included. -/
def Output.castBy (out : Output) (symbol : String) : List FeedMessage :=
  (out.casts.filter fun c => c.symbol = symbol).map Cast.message

namespace Config

variable (cfg : Config) [DecimalRounding] [DecimalText]

/-- The workers use the outbound path. -/
def usesOutbox : Outbox.Uses cfg.behaviour cfg.outbox where
  box := Output.box
  env := id
  perform _ _ _ _ _ := rfl
  fresh _ _ _ := cfg.fresh_jobsFor ..

/-- What a worker has for the feed. -/
def casts : Account cfg.behaviour FeedMessage where
  shown symbol out := out.castBy symbol
  due _ := toFeed
  pays symbol _ env out j := by
    cases j with
    | send topic body =>
        have hjobs : (cfg.outbox.perform symbol env out.box (.send topic body)).2.flatMap toFeed =
            [] := by
          rw [Outbox.Setup.perform]
          split
          next => rfl
          next => rfl
        exact congrArg (out.castBy symbol ++ ·) hjobs
    | keep body => rfl
    | other m =>
        simp [behaviour, perform, cast, publishMold, toFeed, Output.castBy, Outbox.Setup.perform]
    | snapshot snap =>
        simp only [behaviour, perform, cast, Outbox.jobs_snapshot]
        split
        next => simp [toFeed, Output.castBy]
        next => rfl
  others symbol i _ env out j hne := by
    cases j with
    | send topic body => rfl
    | keep body => rfl
    | other m => simp [behaviour, perform, cast, publishMold, Output.castBy, hne.symm]
    | snapshot snap =>
        simp only [behaviour, perform, cast]
        split
        next => simp [Output.castBy, hne.symm]
        next => rfl

end Config

/-! ## Every message, once and in order -/

namespace Service

variable {Tid : Type} [DecidableEq Tid] [DecimalRounding] [DecimalText] {cfg : Config}
  {symbols : List String} {p : Pool String BbOrder Engine Job Output} {symbol : String}
  {worker : Worker BbOrder Engine Job}

/-- The calls a worker made, one for each order it has taken. -/
structure Made (cfg : Config) (symbol : String) (worker : Worker BbOrder Engine Job)
    (answers : List Answer) : Prop where
  calls : Calls {} answers worker.state
  orders : answers.map Answer.order = worker.taken
  keys : ∀ a ∈ answers, a.order.symbolKey = symbol
  types : ∀ a ∈ answers, ∀ f ∈ fillsOf a.events, f.takerUserType = a.order.type
  jobs : cfg.behaviour.jobsOf symbol worker.taken =
    answers.flatMap fun a => cfg.handleOrderResult symbol a.order a.events a.engine

theorem PoolReach.made (h : PoolReach cfg symbols p) (hworker : p.worker symbol = some worker) :
    ∃ answers, Made cfg symbol worker answers := by
  have hkept := h.kept.worker symbol worker hworker
  have hmem : ∀ o ∈ worker.taken, o ∈ p.accepted ∧ o.symbolKey = symbol := by
    intro o ho
    have hgroup : o ∈ Grouping.group cfg.behaviour.key symbol p.accepted := by
      rw [← hkept.items]
      exact List.mem_append_left _ ho
    exact ⟨(List.mem_filter.mp hgroup).1, of_decide_eq_true (List.mem_filter.mp hgroup).2⟩
  obtain ⟨answers, last, hcalls, horders, htypes⟩ := Calls.exists_of_accepted engineInv_new
    fun o ho => (h.accepted o (hmem o ho).1).checked.accepted
  have hrun : Log.run (cfg.behaviour.take symbol) (cfg.behaviour.start symbol) worker.taken =
      ((Log.run Config.answer {} worker.taken).1.map fun c => (c.1, cfg.jobsFor symbol c.1 c.2),
        (Log.run Config.answer {} worker.taken).2) :=
    Log.run_map Config.answer (cfg.jobsFor symbol) _ _
  rw [← horders, hcalls.run_answer] at hrun
  have hstate : worker.state = last := by
    rw [hkept.state, Behaviour.after, ← horders, hrun]
  rw [← hstate] at hcalls
  refine ⟨answers, hcalls, horders, fun a ha => ?_, htypes, ?_⟩
  · exact (hmem _ (horders ▸ List.mem_map_of_mem ha)).2
  · rw [Behaviour.jobsOf, ← horders, hrun]
    simp only [List.map_map, List.flatMap_map]
    rfl

omit [DecimalRounding] [DecimalText] in
/-- An event in which a user takes part goes to the order module and to the market, on topics
without the suffix. -/
theorem user_told {a : Answer} (htypes : ∀ f ∈ fillsOf a.events, f.takerUserType = a.order.type)
    {ev : MatchEvent} (hev : ev ∈ a.events)
    (huser : a.order.type = spotOrderUser ∨ makerType ev = some spotOrderUser) :
    (false, Body.push (pushEvent cfg.display ev)) ∈ cfg.orderMessages a ∧
      (false, Body.push (pushEvent cfg.display ev)) ∈ cfg.marketMessages a := by
  have hsuffix : cfg.mmSuffix a.order ev = false := by
    rw [Config.mmSuffix, TopicSplitConfig.usesMmSuffix]
    rcases huser with huser | huser
    · rw [if_pos huser]
    · rw [if_pos huser, ite_self]
  have hsend : shouldSendOrderPush a.order ev = true := by
    cases ev with
    | fill f =>
        have htaker := htypes f (List.mem_filterMap.mpr ⟨_, hev, rfl⟩)
        rcases huser with huser | huser
        · simp [shouldSendOrderPush, htaker, huser, spotOrderUser, orderRobot]
        · simp [shouldSendOrderPush, Option.some.inj huser, spotOrderUser, orderRobot]
    | revoke ev =>
        rcases huser with huser | huser
        · simp [shouldSendOrderPush, huser, spotOrderUser, orderRobot]
        · cases huser
  constructor
  · rw [← hsuffix]
    exact List.mem_map.mpr ⟨ev, List.mem_filter.mpr ⟨hev, hsend⟩, rfl⟩
  · rw [← hsuffix]
    exact List.mem_append_right _ (List.mem_map.mpr ⟨ev, hev, rfl⟩)

/-- The messages of a worker that made some calls. -/
structure Told (cfg : Config) (symbol : String) (out : Output)
    (worker : Worker BbOrder Engine Job) (answers : List Answer) : Prop where
  calls : Calls {} answers worker.state
  orders : answers.map Answer.order = worker.taken
  /-- They go to topics of the symbol, or to those all symbols share. -/
  topics : ∀ m ∈ (out.box.view symbol).sends, m.topic.isOf symbol = true
  /-- The market gets the announcements and all events, once and in order. -/
  market : (out.box.view symbol).shown toMarket <+: answers.flatMap cfg.marketMessages
  /-- The order module gets those that do not concern robots only. -/
  module : (out.box.view symbol).shown toOrders <+: answers.flatMap cfg.orderMessages
  /-- An event in which a user takes part goes to both, on topics without the suffix. -/
  user : ∀ a ∈ answers, ∀ ev ∈ a.events,
    a.order.type = spotOrderUser ∨ makerType ev = some spotOrderUser →
    (false, Body.push (pushEvent cfg.display ev)) ∈ cfg.orderMessages a ∧
      (false, Body.push (pushEvent cfg.display ev)) ∈ cfg.marketMessages a
  /-- The depths that are sent are depths after calls, in their order, an interval apart. -/
  depths : ((out.box.view symbol).sent.map Prod.snd).Sublist
    (answers.map fun a => handicapDepth symbol a.engine)
  spaced : 0 < cfg.depthPushIntervalMs →
    ((out.box.view symbol).sent.map Prod.fst).Pairwise fun t u => t + cfg.depthPushIntervalMs ≤ u
  /-- When the worker has nothing left to do, nothing is missing.  What the sink did not take was
  given to Redis, and both topics of depths have those that were sent. -/
  complete : worker.jobs = [] →
    (out.box.view symbol).shown toMarket = answers.flatMap cfg.marketMessages ∧
      (out.box.view symbol).shown toOrders = answers.flatMap cfg.orderMessages ∧
      (out.box.view symbol).failed = (out.box.view symbol).retried ∧
      ∀ topic, topic = .noDeal ∨ topic = .deeps →
        (out.box.view symbol).shown (toDepths topic) = (out.box.view symbol).sent.map Prod.snd

omit [DecimalRounding] [DecimalText] in
theorem box_attached {out out' : Output} (h : Attached out out') : out'.box = out.box := by
  obtain ⟨publisher, rfl⟩ := h
  rfl

/-- What the messages of a worker show, but for those of the open jobs. -/
theorem PoolReach.shown (h : PoolReach cfg symbols p) (hworker : p.worker symbol = some worker)
    {answers : List Answer} (hmade : Made cfg symbol worker answers) {W : Type}
    (f : String → Topic → Body → List W)
    (hnone : ∀ k snap, (cfg.outbox.messages snap).flatMap (Outbox.Job.shows (f k)) = [])
    {msgs : Answer → List W}
    (hmsgs : ∀ a ∈ answers, (cfg.handleOrderResult symbol a.order a.events a.engine).flatMap
      (Outbox.Job.shows (f symbol)) = msgs a) :
    (p.out.box.view symbol).shown (f symbol) ++
      worker.jobs.flatMap (Outbox.Job.shows (f symbol)) = answers.flatMap msgs := by
  have hshown := cfg.usesOutbox.shown_reach h rfl (fun _ _ => box_attached) f hnone hworker
  rw [hmade.jobs, List.flatMap_assoc] at hshown
  exact hshown.trans (List.flatMap_congr hmsgs)

theorem PoolReach.told (h : PoolReach cfg symbols p) (hworker : p.worker symbol = some worker) :
    ∃ answers, Told cfg symbol p.out worker answers := by
  obtain ⟨answers, hmade⟩ := h.made hworker
  have hmarket := h.shown hworker hmade (fun _ => toMarket) (fun _ _ => rfl)
    fun a _ => cfg.jobs_toMarket symbol a
  have hmodule := h.shown hworker hmade (fun _ => toOrders) (fun _ _ => rfl)
    fun a _ => cfg.jobs_toOrders symbol a
  have hastray : (p.out.box.view symbol).shown (astray symbol) ++
      worker.jobs.flatMap (Outbox.Job.shows (astray symbol)) = answers.flatMap fun _ => [] :=
    h.shown hworker hmade astray (fun _ _ => rfl)
      fun a ha => cfg.jobs_astray symbol a (hmade.keys a ha)
  have hdue := cfg.usesOutbox.due_reach h rfl (fun _ _ => box_attached) hworker
  have hord := cfg.usesOutbox.orderly_reach h rfl (fun _ _ => box_attached) hworker
  refine ⟨answers, hmade.calls, hmade.orders, fun m hm => ?_, ⟨_, hmarket⟩, ⟨_, hmodule⟩,
    fun a ha ev hev huser => user_told (hmade.types a ha) hev huser, ?_, hord.spaced,
    fun hidle => ⟨?_, ?_, ?_, fun topic ht => ?_⟩⟩
  · rw [List.flatMap_eq_nil_iff.mpr fun _ _ => rfl, List.append_eq_nil_iff] at hastray
    have hm := List.flatMap_eq_nil_iff.mp hastray.1 m hm
    by_contra hof
    rw [astray, if_neg hof] at hm
    cases hm
  · rw [hmade.jobs, List.flatMap_assoc] at hdue
    simp only [cfg.jobs_snapshots, ← List.map_eq_flatMap] at hdue
    rw [← hdue]
    exact hord.due.trans (List.sublist_append_left ..)
  · rwa [hidle, List.flatMap_nil, List.append_nil] at hmarket
  · rwa [hidle, List.flatMap_nil, List.append_nil] at hmodule
  · have hretried := hord.retried
    rwa [hidle, List.flatMap_nil, List.append_nil] at hretried
  · have hdepths := (cfg.usesOutbox.copied_reach h rfl (fun _ _ => box_attached)
      (cfg.messages_toDepths ht) (fun _ _ _ => cfg.jobsFor_toDepths ..) hworker).shown
    rwa [hidle, List.flatMap_nil, List.append_nil] at hdepths

/-- All messages of a service. -/
structure AllTold (cfg : Config) (w : Service Tid) : Prop where
  /-- The retry queue has the bodies that Redis stored, the last one in front. -/
  queue : w.pool.out.box.errorQueue =
    ((w.pool.out.box.retries.filter fun r => r.2.2).map fun r => r.2.1).reverse
  worker : ∀ symbol worker, w.pool.worker symbol = some worker →
    ∃ answers, Told cfg symbol w.pool.out worker answers

end Service

end MatchSpot
