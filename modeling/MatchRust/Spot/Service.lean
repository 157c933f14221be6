import MatchRust.Contract.Service
import MatchRust.Mold.Repair
import MatchRust.Spot.Depth

/-!
# The spot service

Threads of the message source hand orders to a router.  It checks and converts them and puts them
into the queue of their symbol, and it drops nothing as a duplicate.  A worker for each symbol gives
the orders of its queue to a decimal engine of its own.

Every event of an order is a message of its own.  It goes to the market, to the multicast feed if
there is one, and to the order module unless only robots are concerned.  Messages without a user go
to topics with a suffix, if the market is set up so.  Before its events an order is announced to
the market, and after them comes the depth, unless the last one was sent a short while ago.  A
message that fails is kept in Redis for a retry.

As in the contract service, the steps of all threads and workers may come in any order.  The feed is
used under a lock that is held for a whole message, so a message of the feed is one step.  A feed
may be attached at any time, and the queues may be shut down: then no order gets a queue any more,
and the workers stop once they have done what is left.  Logs and counters are left out, and how a
body is written as bytes is a parameter.
-/

namespace MatchSpot

open MatchProtocol MatchCore DecimalText Workers
open MatchContract (PushOrder pushEvent InboundError inboundError)
open MatchMoldUdp64 (History)

/-! ## Messages -/

/-- The handicap depth of a symbol. -/
structure HandicapDepthData where
  symbolKey : String
  bids : List DepthLevel
  asks : List DepthLevel
  buySumAllEntrustNumber : String
  sellSumAllEntrustNumber : String

/-- The content of a message. -/
inductive Body where
  /-- An order that is announced. -/
  | entrust (order : BbOrder)
  | push (push : PushOrder)
  | depth (snap : HandicapDepthData)

/-- The topics.  The flag is the suffix for market makers. -/
inductive Topic where
  | pushOrder (symbolKey : String) (mmSuffix : Bool)
  | pushMarket (symbolKey : String) (mmSuffix : Bool)
  | noDeal
  | deeps
deriving DecidableEq

/-- A message of the feed. -/
structure FeedMessage where
  tag : UInt8
  body : Body

/-- Which topics are split. -/
structure TopicSplitConfig where
  topicEnable : Bool := false
  topicCoinMarkets : List String := []

/-- Whether a message goes to the topic with the suffix. -/
def TopicSplitConfig.usesMmSuffix (split : TopicSplitConfig) (coinMarket : String)
    (takerType : Int) (makerType : Option Int) : Bool :=
  if takerType = spotOrderUser then false
  else if makerType = some spotOrderUser then false
  else if split.topicEnable then true
  else split.topicCoinMarkets.any fun m => m == coinMarket

/-- The type of the maker of an event. -/
def makerType : MatchEvent → Option Int
  | .fill ev => some ev.makerUserType
  | .revoke _ => none

/-- Whether an event goes to the order module. -/
def shouldSendOrderPush (taker : BbOrder) : MatchEvent → Bool
  | .fill ev => !(ev.takerUserType == orderRobot && ev.makerUserType == orderRobot)
  | .revoke _ => taker.type != orderRobot

/-- The tag of a fill or a revoke in the feed. -/
def msgTagFillOrder : UInt8 := 1
/-- The tag of a depth in the feed. -/
def msgTagDepth : UInt8 := 2

/-- The levels of a depth. -/
def spotNoDealNumber : Nat := 25

/-- The depth of a symbol. -/
def handicapDepth [DecimalText] (symbol : String) (engine : Engine) : HandicapDepthData :=
  let bids := buildDepthLevels (restingOrders engine symbol .buy) spotNoDealNumber
  let asks := buildDepthLevels (restingOrders engine symbol .sell) spotNoDealNumber
  { symbolKey := symbol
    bids := bids.1
    asks := asks.1
    buySumAllEntrustNumber := text bids.2
    sellSumAllEntrustNumber := text asks.2 }

/-! ## Workers -/

/-- How a service is set up. -/
structure Config where
  queueCapacity : Nat
  redis : Bool
  depthPushIntervalMs : Nat
  topicSplit : TopicSplitConfig
  /-- The decimal parser of the decimal package. -/
  parseDecimal : String → Option BigDecimal
  toLowercase : String → String
  /-- The text of a decimal in an event. -/
  display : BigDecimal → String
  /-- The bytes of a body. -/
  serialize : Body → List UInt8

/-- What a worker has to do for an order.  What is not a message of a topic or a depth is a message
of the feed. -/
abbrev Job := Outbox.Job Topic Body HandicapDepthData FeedMessage

/-- What the environment has to do with a job. -/
abbrev Env := Outbox.Env String Topic Body

namespace Config

variable (cfg : Config)

/-- Whether an event of an order goes to topics with the suffix. -/
def mmSuffix (taker : BbOrder) (ev : MatchEvent) : Bool :=
  cfg.topicSplit.usesMmSuffix taker.coinMarket taker.type (makerType ev)

/-- The jobs of an event. -/
def sendOneEvent (symbol : String) (taker : BbOrder) (ev : MatchEvent) : List Job :=
  let body := Body.push (pushEvent cfg.display ev)
  [.send (.pushMarket symbol (cfg.mmSuffix taker ev)) body, .other ⟨msgTagFillOrder, body⟩] ++
    if shouldSendOrderPush taker ev then [.send (.pushOrder symbol (cfg.mmSuffix taker ev)) body]
    else []

/-- Whether an order is announced to the market. -/
def announces (o : BbOrder) : Bool :=
  o.orderStatus ≠ orderStatusRevoke ∧ o.orderForm ≠ orderFormMarketPrice

/-- The jobs of an order. -/
def handleOrderResult [DecimalText] (symbol : String) (o : BbOrder) (events : List MatchEvent)
    (engine : Engine) : List Job :=
  (if announces o then [.send (.pushMarket o.symbolKey false) (.entrust o)] else []) ++
    events.flatMap (cfg.sendOneEvent symbol o) ++ [.snapshot (handicapDepth symbol engine)]

/-- How messages are sent.  A depth goes to two topics and to the feed. -/
def outbox : Outbox.Setup Topic Body HandicapDepthData FeedMessage where
  interval := cfg.depthPushIntervalMs
  store := cfg.redis
  messages snap :=
    [.send .noDeal (.depth snap), .send .deeps (.depth snap), .other ⟨msgTagDepth, .depth snap⟩]
  plain := by simp [Outbox.Job.Plain]

end Config

/-- What goes to the feed. -/
structure Cast where
  /-- The symbol of the worker. -/
  symbol : String
  message : FeedMessage
  /-- Whether it went there, or was a depth before its time. -/
  called : Bool

/-- A feed that is attached. -/
structure Feed where
  history : History
  /-- What it was when it was attached. -/
  first : History
  /-- How many casts there were then. -/
  attachedAt : Nat

/-- The outbound path, and what became of what it was given. -/
structure Output where
  box : Outbox.Box String Topic Body HandicapDepthData := {}
  /-- The feed, once it is attached. -/
  mold : Option Feed := none
  casts : List Cast := []

namespace Config

variable (cfg : Config)

/-- The bytes of a message of the feed. -/
def tagged (m : FeedMessage) : List UInt8 := m.tag :: cfg.serialize m.body

/-- Send a message to the feed. -/
def publishMold (out : Output) (symbol : String) (m : FeedMessage) : Output :=
  { out with
    mold := out.mold.map fun feed =>
      { feed with history := feed.history.act (.publish (cfg.tagged m)) }
    casts := out.casts ++ [⟨symbol, m, true⟩] }

/-- What a job does to the feed. -/
def cast (symbol : String) (env : Env) (out : Output) : Job → Output
  | .other m => cfg.publishMold out symbol m
  | .snapshot snap =>
      if cfg.outbox.throttled out.box env.now symbol then
        { out with casts := out.casts ++ [⟨symbol, ⟨msgTagDepth, .depth snap⟩, false⟩] }
      else out
  | _ => out

/-- Do a job of the worker of a symbol. -/
def perform (symbol : String) (env : Env) (out : Output) (j : Job) : Output × List Job :=
  let r := cfg.outbox.perform symbol env out.box j
  ({ cfg.cast symbol env out j with box := r.1 }, r.2)

variable [DecimalRounding] [DecimalText]

/-- What an engine answers to an order, none if it does not return, and the next engine. -/
def answer (engine : Engine) (o : BbOrder) : Option (List MatchEvent × Engine) × Engine :=
  match engine.onOrder o with
  | none => (none, engine)
  | some (engine, events) => (some (events, engine), engine)

/-- The jobs of an order, none if the engine did not return. -/
def jobsFor (symbol : String) (o : BbOrder) : Option (List MatchEvent × Engine) → List Job
  | none => []
  | some (events, engine) => cfg.handleOrderResult symbol o events engine

/-- The symbol workers. -/
def behaviour : Behaviour String BbOrder Engine Job Output Env where
  key := BbOrder.symbolKey
  start _ := {}
  take symbol engine o :=
    let r := answer engine o
    (cfg.jobsFor symbol o r.1, r.2)
  perform symbol _ env out job := cfg.perform symbol env out job

omit [DecimalRounding] [DecimalText] in
/-- The places of a queue. -/
def capacity : Nat := max cfg.queueCapacity 1

omit [DecimalRounding] [DecimalText] in
/-- Check and convert a payload. -/
def takeIn (mq : MqOrder) : Option BbOrder :=
  if checkMqOrderSpot mq then typeConvertSpot cfg.toLowercase cfg.parseDecimal mq else none

end Config

/-! ## The service -/

/-- Where the call of a thread stands. -/
inductive Call where
  | idle
  /-- `enqueue`, before the queue is looked up. -/
  | lookup (o : BbOrder)
  /-- `enqueue`, with a sender of the queue. -/
  | send (o : BbOrder)

/-- The order a call is about. -/
def Call.order : Call → Option BbOrder
  | .lookup o | .send o => some o
  | .idle => none

/-- The service. -/
structure Service (Tid : Type) where
  pool : Pool String BbOrder Engine Job Output
  /-- Whether the queues were shut down. -/
  shut : Bool := false
  call : Tid → Call := fun _ => .idle
  /-- The errors that were returned. -/
  errors : List InboundError := []

/-- The steps of the service. -/
inductive Act (Tid : Type) where
  /-- A thread of the message source has an order. -/
  | order (t : Tid) (mq : MqOrder)
  /-- The next step of the call of a thread. -/
  | resume (t : Tid)
  /-- The next step of the worker of a symbol. -/
  | work (symbol : String) (env : Env)
  /-- A publisher, which may have been used before, is attached. -/
  | attachMold (publisher : History)
  | shutdownQueues

/-- A feed is attached in place of the one there is. -/
def Output.attachMold (out : Output) (publisher : History) : Output :=
  { out with mold := some ⟨publisher, publisher, out.casts.length⟩ }

namespace Service

variable {Tid : Type} [DecidableEq Tid] [DecimalRounding] [DecimalText] (cfg : Config)

/-- A service with a queue and a worker for each of some symbols. -/
def new (symbols : List String) : Service Tid where
  pool := Pool.new cfg.behaviour symbols {}

omit [DecimalRounding] [DecimalText] in
/-- A call goes on elsewhere. -/
def setCall (w : Service Tid) (t : Tid) (c : Call) : Service Tid :=
  { w with call := Function.update w.call t c }

/-- The next step of a call. -/
def resume (w : Service Tid) (t : Tid) : Service Tid :=
  match w.call t with
  | .idle => w
  | .lookup o =>
      if !w.shut && (w.pool.worker o.symbolKey).isSome then w.setCall t (.send o)
      else { w.setCall t .idle with errors := w.errors ++ [.missingQueue o.symbolKey] }
  | .send o =>
      match w.pool.offer cfg.behaviour cfg.capacity o with
      | .error e => { w.setCall t .idle with errors := w.errors ++ [inboundError o.symbolKey e] }
      | .ok pool => { w.setCall t .idle with pool := pool }

/-- One step. -/
def act (w : Service Tid) : Act Tid → Service Tid
  | .order t mq =>
      match w.call t, cfg.takeIn mq with
      | .idle, some o => w.setCall t (.lookup o)
      | _, _ => w
  | .resume t => w.resume cfg t
  | .work symbol env => { w with pool := w.pool.work cfg.behaviour symbol env }
  | .attachMold publisher =>
      { w with pool := { w.pool with out := w.pool.out.attachMold publisher } }
  | .shutdownQueues => { w with shut := true }

/-- The service after some steps. -/
def run (symbols : List String) (acts : List (Act Tid)) : Service Tid :=
  acts.foldl (act cfg) (new cfg symbols)

/-! ## What a step does -/

variable {cfg}

/-- What a step can do. -/
inductive Stepped (cfg : Config) (w : Service Tid) : Service Tid → Prop
  | same : Stepped cfg w w
  | work (symbol : String) (env : Env) :
      Stepped cfg w { w with pool := w.pool.work cfg.behaviour symbol env }
  | attach (publisher : History) :
      Stepped cfg w { w with pool := { w.pool with out := w.pool.out.attachMold publisher } }
  | shut : Stepped cfg w { w with shut := true }
  | order {t : Tid} {mq : MqOrder} {o : BbOrder} (hcall : w.call t = .idle)
      (ho : cfg.takeIn mq = some o) : Stepped cfg w (w.setCall t (.lookup o))
  | found {t : Tid} {o : BbOrder} (hcall : w.call t = .lookup o) (hshut : w.shut = false) :
      Stepped cfg w (w.setCall t (.send o))
  | missing {t : Tid} {o : BbOrder} (hcall : w.call t = .lookup o) :
      Stepped cfg w { w.setCall t .idle with errors := w.errors ++ [.missingQueue o.symbolKey] }
  | sent {t : Tid} {o : BbOrder} {pool : Pool String BbOrder Engine Job Output}
      (hcall : w.call t = .send o)
      (hpool : w.pool.offer cfg.behaviour cfg.capacity o = .ok pool) :
      Stepped cfg w { w.setCall t .idle with pool := pool }
  | refused {t : Tid} {o : BbOrder} {e : Refusal} (hcall : w.call t = .send o)
      (hpool : w.pool.offer cfg.behaviour cfg.capacity o = .error e) :
      Stepped cfg w
        { w.setCall t .idle with errors := w.errors ++ [inboundError o.symbolKey e] }

theorem stepped_resume (w : Service Tid) (t : Tid) : Stepped cfg w (w.resume cfg t) := by
  rw [resume]
  split
  next => exact .same
  next o hcall =>
    split
    next h =>
      rw [Bool.and_eq_true, Bool.not_eq_true'] at h
      exact .found hcall h.1
    next => exact .missing hcall
  next o hcall =>
    split
    next e hpool => exact .refused hcall hpool
    next pool hpool => exact .sent hcall hpool

theorem stepped (w : Service Tid) (a : Act Tid) : Stepped cfg w (w.act cfg a) := by
  cases a with
  | order t mq =>
      rw [act]
      split
      next o hcall ho => exact .order hcall ho
      next => exact .same
  | resume t => exact stepped_resume w t
  | work symbol env => exact .work symbol env
  | attachMold publisher => exact .attach publisher
  | shutdownQueues => exact .shut

/-- What every step keeps holds after any steps. -/
theorem foldl_invariant {P : Service Tid → Prop} {w : Service Tid} (h : P w)
    (hstep : ∀ w w', Stepped cfg w w' → P w → P w') (acts : List (Act Tid)) :
    P (acts.foldl (act cfg) w) := by
  induction acts generalizing w with
  | nil => exact h
  | cons a acts ih => exact ih (hstep _ _ (stepped w a) h)

omit [DecimalRounding] [DecimalText] in
theorem call_setCall {w : Service Tid} {t u : Tid} {c : Call} :
    (w.setCall t c).call u = if u = t then c else w.call u := Function.update_apply ..

/-! ## Queues -/

/-- An order that passed the checks. -/
def TakenIn (cfg : Config) (o : BbOrder) : Prop := ∃ mq, cfg.takeIn mq = some o

/-- The calls are about orders that passed the checks. -/
def CallsSound (cfg : Config) (call : Tid → Call) : Prop :=
  ∀ t o, (call t).order = some o → TakenIn cfg o

omit [DecimalRounding] [DecimalText] in
theorem CallsSound.setCall {w : Service Tid} (h : CallsSound cfg w.call) {t : Tid} {c : Call}
    (hc : ∀ o, c.order = some o → TakenIn cfg o) : CallsSound cfg (w.setCall t c).call := by
  intro u o ho
  rw [call_setCall] at ho
  split at ho
  next => exact hc o ho
  next => exact h u o ho

theorem CallsSound.step {w w' : Service Tid} (h : CallsSound cfg w.call)
    (hstep : Stepped cfg w w') : CallsSound cfg w'.call := by
  cases hstep with
  | same | work | attach | shut => exact h
  | order hcall ho =>
      refine h.setCall fun o' ho' => ?_
      cases ho'
      exact ⟨_, ho⟩
  | @found t o hcall =>
      refine h.setCall fun o' ho' => h t o' ?_
      rw [hcall]
      exact ho'
  | missing | sent | refused => exact h.setCall fun o' ho' => by cases ho'

/-- What happens to the outbound path besides the jobs: a feed is attached. -/
def Attached (out out' : Output) : Prop := ∃ publisher, out' = out.attachMold publisher

/-- The queues and workers a service can reach. -/
def PoolReach (cfg : Config) (symbols : List String) :
    Pool String BbOrder Engine Job Output → Prop :=
  Pool.Reach cfg.behaviour cfg.capacity symbols {} (TakenIn cfg) Attached

theorem PoolReach.step {symbols : List String} {w w' : Service Tid}
    (h : PoolReach cfg symbols w.pool) (hcalls : CallsSound cfg w.call)
    (hstep : Stepped cfg w w') : PoolReach cfg symbols w'.pool := by
  cases hstep with
  | work symbol env => exact .work h symbol env
  | attach publisher => exact .other h ⟨publisher, rfl⟩
  | sent hcall hpool => exact .offer h (hcalls _ _ (by rw [hcall]; rfl)) hpool
  | same | shut | order | found | missing | refused => exact h

theorem poolReach_foldl {symbols : List String} {w : Service Tid}
    (h : PoolReach cfg symbols w.pool) (hcalls : CallsSound cfg w.call) (acts : List (Act Tid)) :
    PoolReach cfg symbols (acts.foldl (act cfg) w).pool :=
  (foldl_invariant (P := fun w => CallsSound cfg w.call ∧ PoolReach cfg symbols w.pool) ⟨hcalls, h⟩
    (fun _ _ hstep h => ⟨h.1.step hstep, h.2.step h.1 hstep⟩) acts).2

theorem callsSound_run (symbols : List String) (acts : List (Act Tid)) :
    CallsSound cfg (run cfg symbols acts).call :=
  foldl_invariant (P := fun w => CallsSound cfg w.call) (fun _ _ h => by cases h)
    (fun _ _ hstep h => h.step hstep) acts

theorem poolReach_run (symbols : List String) (acts : List (Act Tid)) :
    PoolReach cfg symbols (run cfg symbols acts).pool := by
  have hnew : PoolReach cfg symbols (new cfg symbols : Service Tid).pool := .new
  exact poolReach_foldl hnew (fun _ _ h => by cases h) acts

omit [DecimalRounding] [DecimalText] in
theorem TakenIn.checked {o : BbOrder} (h : TakenIn cfg o) :
    o.Checked spotTypes spotOrderForms Option.isSome := by
  obtain ⟨mq, hmq⟩ := h
  rw [Config.takeIn] at hmq
  split at hmq
  next hcheck => exact checked_of_typeConvertSpot hcheck hmq
  next => cases hmq

end Service

end MatchSpot
