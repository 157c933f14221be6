import MatchRust.Contract.Outbound
import MatchRust.Hp.Adapter
import MatchRust.Lib.Outbox
import MatchRust.Protocol.Validate

/-!
# The contract service

Threads hand orders to a router.  Those of the message source call `handle_mq_order`, and the one
that starts the service calls `handle_restore_order` for every open order it finds in the
database.  Both check and convert the payload and put the order into the queue of its symbol.  In
between, `handle_mq_order` drops an order that was restored at the start already: one whose number
was restored for its symbol, or whose number is not above the largest restored one.  These numbers
are forgotten after a while (`clear`).  A worker for each symbol takes the orders of its queue,
gives them to an engine of its own and sends what the engine answers.

The calls are taken apart into what they do at once: a critical section of a mutex, a load, a store
or a compare-and-swap of an atomic, a `try_send`, a message, an entry of the retry queue.  All these
steps of all threads and workers may come in any order.  A worker's engine is the decimal one or the
fixed-point one, or anything else that answers orders (`Matcher`).

The map of restored numbers has an entry for a symbol only with a number in it, so it is a set of
pairs here.  A queue is closed only when the service ends, and that is left out, as are logs,
counters and the texts of bodies.
-/

namespace MatchContract

open MatchProtocol Workers
open MatchCore (MatchEvent Engine)
open MatchCoreHp (SymbolScale HpEvent HpEngine LevelIndex parseUnsigned i64Max fromBbOrder)

/-! ## Startup duplicates -/

/-- Parse a signed 64-bit integer: an optional sign and one digit or more. -/
def parseI64 (s : String) : Option Int :=
  match s.toList with
  | '-' :: rest =>
      if rest.head? = some '+' then none
      else (parseUnsigned (2 ^ 63) rest).map fun n => -(n : Int)
  | l => (parseUnsigned i64Max.toNat l).map fun n => (n : Int)

/-- What the service remembers of the orders it restored. -/
structure StartQueueState where
  /-- The restored numbers, each with its symbol. -/
  restored : Finset (String × String) := ∅
  /-- The largest of them. -/
  bigNo : Int := 0
  /-- Whether duplicates are looked for. -/
  active : Bool := true

namespace StartQueueState

/-- Whether a number is not above the largest one. -/
def reached (bigNo : Int) (trustOrderNo : String) : Bool :=
  0 < bigNo && (parseI64 trustOrderNo).any fun n => n ≤ bigNo

/-- Remember a restored order. -/
def recordRestored (q : StartQueueState) (symbolKey trustOrderNo : String) : StartQueueState :=
  let q : StartQueueState := { q with restored := insert (symbolKey, trustOrderNo) q.restored }
  match parseI64 trustOrderNo with
  | none => q
  | some n => if q.bigNo < n then { q with bigNo := n } else q

/-- Forget the restored orders. -/
def clear (_ : StartQueueState) : StartQueueState where
  restored := ∅
  bigNo := 0
  active := false

/-- Whether an order is dropped as a duplicate. -/
def shouldDedupe (q : StartQueueState) (o : BbOrder) : Bool :=
  if !q.active then false
  else if o.orderStatus = orderStatusRevoke then false
  else if q.restored = ∅ then false
  else if (o.symbolKey, o.trustOrderNo) ∈ q.restored then true
  else reached q.bigNo o.trustOrderNo

end StartQueueState

/-! ## Workers -/

/-- An engine as a symbol worker uses it. -/
structure Matcher (E : Type) where
  /-- The engine a worker starts with. -/
  new : E
  /-- The payloads an order of a symbol gives rise to, none if it is skipped, and the engine. -/
  onOrder : String → E → BbOrder → Option (List PushOrder) × E
  /-- The depth of a symbol. -/
  depth : String → E → DepthSnapshot

/-- The payloads and the depth after an order, none if it is skipped, and the next engine. -/
def Matcher.answer {E : Type} (m : Matcher E) (symbol : String) (engine : E) (o : BbOrder) :
    Option (List PushOrder × DepthSnapshot) × E :=
  let r := m.onOrder symbol engine o
  (r.1.map fun batch => (batch, m.depth symbol r.2), r.2)

/-- The decimal engine.  A call that does not return is skipped. -/
def coreMatcher [DecimalRounding] (display levelText : BigDecimal → String) : Matcher Engine where
  new := {}
  onOrder _ engine o :=
    match engine.onOrder o with
    | none => (none, engine)
    | some (engine, events) => (some (pushBatch display events), engine)
  depth := coreDepth levelText

/-- The fixed-point engine.  An order that cannot be converted is skipped. -/
def hpMatcher {B A : Type} [LevelIndex B] [LevelIndex A] (display : BigDecimal → String)
    (scale : SymbolScale) : Matcher (HpEngine B A) where
  new := HpEngine.new
  onOrder symbol engine o :=
    match fromBbOrder display scale o with
    | .error _ => (none, engine)
    | .ok cmd =>
        let engine := engine.onOrder cmd
        (some (hpPushBatch symbol scale engine.events), engine)
  depth symbol engine := hpDepth symbol scale engine

/-- What a worker has to do for an order its engine answered. -/
abbrev Job := Outbox.Job Topic Body DepthSnapshot Empty

/-- The outbound path, and what became of what it was given. -/
abbrev Output := Outbox.Box String Topic Body DepthSnapshot

/-- What the environment has to do with a job. -/
abbrev Env := Outbox.Env String Topic Body

/-- How messages are sent.  A depth goes to two topics. -/
def outbox (redis : Bool) (depthPushIntervalMs : Nat) :
    Outbox.Setup Topic Body DepthSnapshot Empty where
  interval := depthPushIntervalMs
  store := redis
  messages snap := [.send .noDeal (.depth snap), .send .deeps (.depth snap)]
  plain snap j hj := by
    rcases List.mem_pair.mp hj with rfl | rfl
    · trivial
    · trivial

/-- The jobs of an order: its payloads to both topics, if there are any, and the depth. -/
def jobsFor : Option (List PushOrder × DepthSnapshot) → List Job
  | none => []
  | some ([], snap) => [.snapshot snap]
  | some (batch, snap) =>
      [.send .pushOrder (.orders batch), .send .pushMarket (.orders batch), .snapshot snap]

/-! ## A worker alone -/

section Alone

variable {redis : Bool} {interval : Nat} {symbol : String} {env : Env}

/-- What the environment answers to the outbound path. -/
def network (env : Env) : Network where
  accepts m := env.accepts m.symbolKey m.topic m.body
  stores := env.stores

/-- The outbound path. -/
def path (redis : Bool) (interval : Nat) (out : Output) : Outbound where
  redis := redis
  depthPushIntervalMs := interval
  lastDepthPushMs := out.last
  sends := out.sends.map fun m => ⟨m.topic, m.key, m.body⟩
  errorQueue := out.errorQueue

/-- Jobs done in a row, each in its turn. -/
inductive Does (redis : Bool) (interval : Nat) (symbol : String) (env : Env) :
    Output → List Job → Output → List Job → Prop
  | done (out : Output) (jobs : List Job) : Does redis interval symbol env out jobs out jobs
  | job {out out' out'' : Output} {j : Job} {new jobs jobs' : List Job}
      (hj : (outbox redis interval).perform symbol env out j = (out', new))
      (h : Does redis interval symbol env out' (new ++ jobs) out'' jobs') :
      Does redis interval symbol env out (j :: jobs) out'' jobs'

namespace Does

theorem trans {out₁ out₂ out₃ : Output} {jobs₁ jobs₂ jobs₃ : List Job}
    (h : Does redis interval symbol env out₁ jobs₁ out₂ jobs₂)
    (h' : Does redis interval symbol env out₂ jobs₂ out₃ jobs₃) :
    Does redis interval symbol env out₁ jobs₁ out₃ jobs₃ := by
  induction h with
  | done => exact h'
  | job hj _ ih => exact .job hj (ih h')

/-- A message, and its retry if it fails, is a `send` of the outbound path. -/
theorem send (redis : Bool) (interval : Nat) (symbol : String) (env : Env) (out : Output)
    (topic : Topic) (body : Body) (jobs : List Job) :
    ∃ out', Does redis interval symbol env out (.send topic body :: jobs) out' jobs ∧
      path redis interval out' =
        (path redis interval out).send (network env) topic symbol body := by
  cases haccepts : env.accepts symbol topic body with
  | true =>
      refine ⟨_, .job (by rw [Outbox.Setup.perform, haccepts]) (.done ..), ?_⟩
      simp [Outbound.send, network, path, haccepts]
  | false =>
      refine ⟨_, .job (by rw [Outbox.Setup.perform, haccepts]) (.job rfl (.done ..)), ?_⟩
      cases hstored : redis && env.stores body with
      | true => simp [Outbound.send, Outbound.onSendFail, network, path, outbox, haccepts, hstored]
      | false =>
          simp [Outbound.send, Outbound.onSendFail, network, path, outbox, haccepts, hstored]

/-- The decision on the depth, and the depth, is `maybe_push_depth`. -/
theorem depth (redis : Bool) (interval : Nat) (symbol : String) (env : Env) (out : Output)
    (snap : DepthSnapshot) : ∃ out', Does redis interval symbol env out [.snapshot snap] out' [] ∧
      path redis interval out' =
        (path redis interval out).maybePushSnapshot (network env) env.now symbol snap := by
  by_cases hthrottled : (path redis interval out).throttled env.now symbol = true
  · refine ⟨_, .job (if_pos hthrottled) (.done ..), ?_⟩
    rw [Outbound.maybePushSnapshot, if_pos hthrottled]
    rfl
  · obtain ⟨out₁, hstep, hpath₁⟩ : ∃ out₁, (outbox redis interval).perform symbol env out
          (.snapshot snap) =
        (out₁, [.send .noDeal (.depth snap), .send .deeps (.depth snap)]) ∧
        path redis interval out₁ =
          if 0 < interval then
            { path redis interval out with
              lastDepthPushMs := Function.update out.last symbol (some env.now) }
          else path redis interval out := by
      refine ⟨_, if_neg hthrottled, ?_⟩
      by_cases hpos : 0 < interval
      · simp [path, outbox, hpos]
      · simp [path, outbox, hpos]
    obtain ⟨out₂, h₂, hpath₂⟩ :=
      send redis interval symbol env out₁ .noDeal (.depth snap) [.send .deeps (.depth snap)]
    obtain ⟨out₃, h₃, hpath₃⟩ := send redis interval symbol env out₂ .deeps (.depth snap) []
    refine ⟨out₃, .job hstep (h₂.trans h₃), ?_⟩
    rw [Outbound.maybePushSnapshot, if_neg hthrottled, hpath₃, hpath₂, hpath₁]
    rfl

/-- The jobs of an order are what the outbound path does with its payloads and its depth. -/
theorem answer (out : Output) (batch : List PushOrder) (snap : DepthSnapshot) :
    ∃ out', Does redis interval symbol env out (jobsFor (some (batch, snap))) out' [] ∧
      path redis interval out' = (if batch.isEmpty then path redis interval out else
        (path redis interval out).sendPushOrders (network env) symbol batch).maybePushSnapshot
          (network env) env.now symbol snap := by
  cases batch with
  | nil => exact depth redis interval symbol env out snap
  | cons push batch =>
      obtain ⟨out₁, h₁, hpath₁⟩ := send redis interval symbol env out .pushOrder
        (.orders (push :: batch)) [.send .pushMarket (.orders (push :: batch)), .snapshot snap]
      obtain ⟨out₂, h₂, hpath₂⟩ := send redis interval symbol env out₁ .pushMarket
        (.orders (push :: batch)) [.snapshot snap]
      obtain ⟨out₃, h₃, hpath₃⟩ := depth redis interval symbol env out₂ snap
      refine ⟨out₃, (h₁.trans h₂).trans h₃, ?_⟩
      rw [hpath₃, hpath₂, hpath₁]
      rfl

/-- A worker that is alone does what `handle_events` does. -/
theorem handleEvents (out : Output) (display levelText : BigDecimal → String)
    (events : List MatchEvent) (engine : Engine) :
    ∃ out', Does redis interval symbol env out
        (jobsFor (some (pushBatch display events, coreDepth levelText symbol engine))) out' [] ∧
      path redis interval out' = (path redis interval out).handleEvents (network env) display
        levelText env.now symbol events engine :=
  answer ..

/-- So does a worker of the fixed-point engine. -/
theorem handleHpEvents {B A : Type} [LevelIndex B] [LevelIndex A] (out : Output)
    (scale : SymbolScale) (events : List HpEvent) (engine : HpEngine B A) :
    ∃ out', Does redis interval symbol env out
        (jobsFor (some (hpPushBatch symbol scale events, hpDepth symbol scale engine))) out' [] ∧
      path redis interval out' = (path redis interval out).handleHpEvents (network env) env.now
        symbol events engine scale :=
  answer ..

end Does

end Alone

/-! ## The service -/

/-- How a service is set up. -/
structure Config (E : Type) where
  queueCapacity : Nat
  redis : Bool
  depthPushIntervalMs : Nat
  matcher : Matcher E
  /-- The decimal parser of the decimal package. -/
  parseDecimal : String → Option BigDecimal
  toLowercase : String → String

namespace Config

variable {E : Type} (cfg : Config E)

/-- The places of a queue. -/
def capacity : Nat := max cfg.queueCapacity 1

/-- The symbol workers. -/
def behaviour : Behaviour String BbOrder E Job Output Env where
  key := BbOrder.symbolKey
  start _ := cfg.matcher.new
  take symbol engine o :=
    let r := cfg.matcher.answer symbol engine o
    (jobsFor r.1, r.2)
  perform symbol _ := (outbox cfg.redis cfg.depthPushIntervalMs).perform symbol

/-- Check and convert a payload. -/
def takeIn (mq : MqOrder) : Option BbOrder :=
  if checkMqOrder mq then typeConvert cfg.toLowercase cfg.parseDecimal mq else none

end Config

/-- The errors of the router. -/
inductive InboundError where
  | missingQueue (symbol : String)
  | enqueue (reason : String)
deriving DecidableEq

/-- Why an order of a symbol was not put into a queue. -/
def inboundError (symbol : String) : Refusal → InboundError
  | .missing => .missingQueue symbol
  | .full => .enqueue "channel full"

/-- Where the call of a thread stands. -/
inductive Call where
  | idle
  /-- `should_dedupe`, before the flag is read. -/
  | flag (o : BbOrder)
  /-- `should_dedupe`, before the lock of the restored numbers is taken. -/
  | lookup (o : BbOrder)
  /-- `should_dedupe`, with the lock, before the largest number is loaded. -/
  | compare (o : BbOrder)
  /-- `handle_mq_order`, before `enqueue`. -/
  | send (o : BbOrder)
  /-- `handle_restore_order`, before `enqueue`. -/
  | restore (o : BbOrder)
  /-- `record_restored`, before the number is inserted. -/
  | insert (o : BbOrder)
  /-- `record_restored`, before the largest number is loaded. -/
  | load (n : Int)
  /-- `record_restored`, before a compare-and-swap of the largest number. -/
  | swap (n cur : Int)
  /-- `clear`, before the numbers are forgotten. -/
  | forget
  /-- `clear`, before the largest number is reset. -/
  | zero
  /-- `clear`, before the flag is reset. -/
  | deactivate

/-- The service. -/
structure Service (Tid E : Type) where
  pool : Pool String BbOrder E Job Output
  start : StartQueueState := {}
  /-- The thread that has the lock of the restored numbers, while it needs it for more than one
  step. -/
  lock : Option Tid := none
  call : Tid → Call := fun _ => .idle
  /-- The errors that were returned. -/
  errors : List InboundError := []
  /-- The orders whose number was recorded. -/
  recorded : List BbOrder := []
  /-- The orders accepted from the message source. -/
  consumed : List BbOrder := []
  /-- The orders dropped as duplicates. -/
  dropped : List BbOrder := []
  /-- Whether `clear` was called. -/
  clearing : Bool := false

/-- The steps of the service. -/
inductive Act (Tid : Type) where
  /-- A thread of the message source has an order. -/
  | order (t : Tid) (mq : MqOrder)
  /-- An order is restored. -/
  | restore (t : Tid) (mq : MqOrder)
  /-- The time to forget restored orders has come. -/
  | clear (t : Tid)
  /-- The next step of the call of a thread. -/
  | resume (t : Tid)
  /-- The next step of the worker of a symbol. -/
  | work (symbol : String) (env : Env)

namespace Service

variable {Tid E : Type} [DecidableEq Tid] (cfg : Config E)

/-- A service with a queue and a worker for each of some symbols. -/
def new (symbols : List String) : Service Tid E where
  pool := Pool.new cfg.behaviour symbols {}

/-- A call goes on elsewhere. -/
def setCall (w : Service Tid E) (t : Tid) (c : Call) : Service Tid E :=
  { w with call := Function.update w.call t c }

/-- Start a call, if the thread has none and the order passes the checks. -/
def begin (w : Service Tid E) (t : Tid) (mq : MqOrder) (first : BbOrder → Call) : Service Tid E :=
  match w.call t, cfg.takeIn mq with
  | .idle, some o => w.setCall t (first o)
  | _, _ => w

/-- The next step of a call. -/
def resume (w : Service Tid E) (t : Tid) : Service Tid E :=
  match w.call t with
  | .idle => w
  | .flag o =>
      w.setCall t
        (if w.start.active ∧ o.orderStatus ≠ orderStatusRevoke then .lookup o else .send o)
  | .lookup o =>
      if w.lock.isSome then w
      else if w.start.restored = ∅ then w.setCall t (.send o)
      else if (o.symbolKey, o.trustOrderNo) ∈ w.start.restored then
        { w.setCall t .idle with dropped := w.dropped ++ [o] }
      else { w.setCall t (.compare o) with lock := some t }
  | .compare o =>
      if StartQueueState.reached w.start.bigNo o.trustOrderNo then
        { w.setCall t .idle with lock := none, dropped := w.dropped ++ [o] }
      else { w.setCall t (.send o) with lock := none }
  | .send o =>
      match w.pool.offer cfg.behaviour cfg.capacity o with
      | .error e => { w.setCall t .idle with errors := w.errors ++ [inboundError o.symbolKey e] }
      | .ok pool => { w.setCall t .idle with pool := pool, consumed := w.consumed ++ [o] }
  | .restore o =>
      match w.pool.offer cfg.behaviour cfg.capacity o with
      | .error e => { w.setCall t .idle with errors := w.errors ++ [inboundError o.symbolKey e] }
      | .ok pool => { w.setCall t (.insert o) with pool := pool }
  | .insert o =>
      if w.lock.isSome then w
      else
        { w.setCall t ((parseI64 o.trustOrderNo).elim .idle .load) with
          start := { w.start with
            restored := Insert.insert (o.symbolKey, o.trustOrderNo) w.start.restored }
          recorded := w.recorded ++ [o] }
  | .load n => w.setCall t (if w.start.bigNo < n then .swap n w.start.bigNo else .idle)
  | .swap n cur =>
      if w.start.bigNo = cur then
        { w.setCall t .idle with start := { w.start with bigNo := n } }
      else w.setCall t (if w.start.bigNo < n then .swap n w.start.bigNo else .idle)
  | .forget =>
      if w.lock.isSome then w
      else { w.setCall t .zero with start := { w.start with restored := ∅ } }
  | .zero => { w.setCall t .deactivate with start := { w.start with bigNo := 0 } }
  | .deactivate => { w.setCall t .idle with start := { w.start with active := false } }

/-- One step. -/
def act (w : Service Tid E) : Act Tid → Service Tid E
  | .order t mq => w.begin cfg t mq .flag
  | .restore t mq => w.begin cfg t mq .restore
  | .clear t =>
      match w.call t with
      | .idle => { w.setCall t .forget with clearing := true }
      | _ => w
  | .resume t => w.resume cfg t
  | .work symbol env => { w with pool := w.pool.work cfg.behaviour symbol env }

/-- The service after some steps. -/
def run (symbols : List String) (acts : List (Act Tid)) : Service Tid E :=
  acts.foldl (act cfg) (new cfg symbols)

/-! ## What a step does -/

variable {cfg}

/-- What a step can do. -/
inductive Stepped (cfg : Config E) (w : Service Tid E) : Service Tid E → Prop
  | same : Stepped cfg w w
  | work (symbol : String) (env : Env) :
      Stepped cfg w { w with pool := w.pool.work cfg.behaviour symbol env }
  | order {t : Tid} {mq : MqOrder} {o : BbOrder} (hcall : w.call t = .idle)
      (ho : cfg.takeIn mq = some o) : Stepped cfg w (w.setCall t (.flag o))
  | restore {t : Tid} {mq : MqOrder} {o : BbOrder} (hcall : w.call t = .idle)
      (ho : cfg.takeIn mq = some o) : Stepped cfg w (w.setCall t (.restore o))
  | clear {t : Tid} (hcall : w.call t = .idle) :
      Stepped cfg w { w.setCall t .forget with clearing := true }
  | unchecked {t : Tid} {o : BbOrder} (hcall : w.call t = .flag o)
      (hoff : w.start.active = false ∨ o.orderStatus = orderStatusRevoke) :
      Stepped cfg w (w.setCall t (.send o))
  | checked {t : Tid} {o : BbOrder} (hcall : w.call t = .flag o) (hon : w.start.active = true)
      (hnew : o.orderStatus ≠ orderStatusRevoke) : Stepped cfg w (w.setCall t (.lookup o))
  | nothing {t : Tid} {o : BbOrder} (hcall : w.call t = .lookup o) (hlock : w.lock = none)
      (hempty : w.start.restored = ∅) : Stepped cfg w (w.setCall t (.send o))
  | found {t : Tid} {o : BbOrder} (hcall : w.call t = .lookup o) (hlock : w.lock = none)
      (hmem : (o.symbolKey, o.trustOrderNo) ∈ w.start.restored) :
      Stepped cfg w { w.setCall t .idle with dropped := w.dropped ++ [o] }
  | unknown {t : Tid} {o : BbOrder} (hcall : w.call t = .lookup o) (hlock : w.lock = none)
      (hmem : (o.symbolKey, o.trustOrderNo) ∉ w.start.restored) :
      Stepped cfg w { w.setCall t (.compare o) with lock := some t }
  | low {t : Tid} {o : BbOrder} (hcall : w.call t = .compare o)
      (hlow : StartQueueState.reached w.start.bigNo o.trustOrderNo = true) :
      Stepped cfg w { w.setCall t .idle with lock := none, dropped := w.dropped ++ [o] }
  | high {t : Tid} {o : BbOrder} (hcall : w.call t = .compare o)
      (hhigh : StartQueueState.reached w.start.bigNo o.trustOrderNo = false) :
      Stepped cfg w { w.setCall t (.send o) with lock := none }
  | sent {t : Tid} {o : BbOrder} {pool : Pool String BbOrder E Job Output}
      (hcall : w.call t = .send o)
      (hpool : w.pool.offer cfg.behaviour cfg.capacity o = .ok pool) :
      Stepped cfg w { w.setCall t .idle with pool := pool, consumed := w.consumed ++ [o] }
  | refused {t : Tid} {o : BbOrder} {e : Refusal}
      (hcall : w.call t = .send o ∨ w.call t = .restore o)
      (hpool : w.pool.offer cfg.behaviour cfg.capacity o = .error e) :
      Stepped cfg w
        { w.setCall t .idle with errors := w.errors ++ [inboundError o.symbolKey e] }
  | restored {t : Tid} {o : BbOrder} {pool : Pool String BbOrder E Job Output}
      (hcall : w.call t = .restore o)
      (hpool : w.pool.offer cfg.behaviour cfg.capacity o = .ok pool) :
      Stepped cfg w { w.setCall t (.insert o) with pool := pool }
  | inserted {t : Tid} {o : BbOrder} (hcall : w.call t = .insert o) (hlock : w.lock = none) :
      Stepped cfg w
        { w.setCall t ((parseI64 o.trustOrderNo).elim .idle .load) with
          start := { w.start with
            restored := Insert.insert (o.symbolKey, o.trustOrderNo) w.start.restored }
          recorded := w.recorded ++ [o] }
  | atLeast {t : Tid} {n : Int} (hcall : w.call t = .load n ∨ ∃ cur, w.call t = .swap n cur)
      (hle : n ≤ w.start.bigNo) : Stepped cfg w (w.setCall t .idle)
  | tries {t : Tid} {n : Int} (hcall : w.call t = .load n ∨ ∃ cur, w.call t = .swap n cur)
      (hlt : w.start.bigNo < n) : Stepped cfg w (w.setCall t (.swap n w.start.bigNo))
  | raised {t : Tid} {n : Int} (hcall : w.call t = .swap n w.start.bigNo) :
      Stepped cfg w { w.setCall t .idle with start := { w.start with bigNo := n } }
  | forgot {t : Tid} (hcall : w.call t = .forget) (hlock : w.lock = none) :
      Stepped cfg w { w.setCall t .zero with start := { w.start with restored := ∅ } }
  | zeroed {t : Tid} (hcall : w.call t = .zero) :
      Stepped cfg w { w.setCall t .deactivate with start := { w.start with bigNo := 0 } }
  | deactivated {t : Tid} (hcall : w.call t = .deactivate) :
      Stepped cfg w { w.setCall t .idle with start := { w.start with active := false } }

/-- A mutex that is taken blocks, the step is repeated later. -/
theorem stepped_of_lock {w w' : Service Tid E} (h : w.lock = none → Stepped cfg w w') :
    Stepped cfg w (if w.lock.isSome then w else w') := by
  split
  next => exact .same
  next hlock => exact h (Option.not_isSome_iff_eq_none.mp hlock)

theorem stepped_resume (w : Service Tid E) (t : Tid) : Stepped cfg w (w.resume cfg t) := by
  rw [resume]
  split
  next => exact .same
  next o hcall =>
    split
    next h => exact .checked hcall h.1 h.2
    next h =>
      rw [not_and_or, Bool.not_eq_true, not_not] at h
      exact .unchecked hcall h
  next o hcall =>
    refine stepped_of_lock fun hlock => ?_
    split
    next hempty => exact .nothing hcall hlock hempty
    next =>
      split
      next hmem => exact .found hcall hlock hmem
      next hmem => exact .unknown hcall hlock hmem
  next o hcall =>
    split
    next hlow => exact .low hcall hlow
    next hhigh => exact .high hcall (Bool.not_eq_true _ ▸ hhigh)
  next o hcall =>
    split
    next e hpool => exact .refused (.inl hcall) hpool
    next pool hpool => exact .sent hcall hpool
  next o hcall =>
    split
    next e hpool => exact .refused (.inr hcall) hpool
    next pool hpool => exact .restored hcall hpool
  next o hcall => exact stepped_of_lock fun hlock => .inserted hcall hlock
  next n hcall =>
    split
    next hlt => exact .tries (.inl hcall) hlt
    next hle => exact .atLeast (.inl hcall) (not_lt.mp hle)
  next n cur hcall =>
    split
    next heq =>
      subst heq
      exact .raised hcall
    next =>
      split
      next hlt => exact .tries (.inr ⟨cur, hcall⟩) hlt
      next hle => exact .atLeast (.inr ⟨cur, hcall⟩) (not_lt.mp hle)
  next hcall => exact stepped_of_lock fun hlock => .forgot hcall hlock
  next hcall => exact .zeroed hcall
  next hcall => exact .deactivated hcall

theorem stepped (w : Service Tid E) (a : Act Tid) : Stepped cfg w (w.act cfg a) := by
  cases a with
  | order t mq =>
      rw [act, begin]
      split
      next o hcall ho => exact .order hcall ho
      next => exact .same
  | restore t mq =>
      rw [act, begin]
      split
      next o hcall ho => exact .restore hcall ho
      next => exact .same
  | clear t =>
      rw [act]
      split
      next hcall => exact .clear hcall
      next => exact .same
  | resume t => exact stepped_resume w t
  | work symbol env => exact .work symbol env

/-- What every step keeps holds after any steps. -/
theorem foldl_invariant {P : Service Tid E → Prop} {w : Service Tid E} (h : P w)
    (hstep : ∀ w w', Stepped cfg w w' → P w → P w') (acts : List (Act Tid)) :
    P (acts.foldl (act cfg) w) := by
  induction acts generalizing w with
  | nil => exact h
  | cons a acts ih => exact ih (hstep _ _ (stepped w a) h)

/-- What holds of a new service and is kept by every step holds after any steps. -/
theorem run_invariant {P : Service Tid E → Prop} {symbols : List String}
    (hnew : P (new cfg symbols)) (hstep : ∀ w w', Stepped cfg w w' → P w → P w')
    (acts : List (Act Tid)) : P (run cfg symbols acts) := foldl_invariant hnew hstep acts

/-- The call of a thread after another one, or the same, moved on. -/
theorem call_setCall {w : Service Tid E} {t u : Tid} {c : Call} :
    (w.setCall t c).call u = if u = t then c else w.call u := Function.update_apply ..

/-! ## A call alone -/

variable {w : Service Tid E} {t : Tid}

/-- Steps of one thread in a row. -/
def Resumes (cfg : Config E) (t : Tid) : Service Tid E → Service Tid E → Prop :=
  Relation.ReflTransGen fun w w' => w.resume cfg t = w'

/-- A thread that is alone drops an order if `should_dedupe` says so, and else goes on with it. -/
theorem resumes_shouldDedupe {o : BbOrder} (hcall : w.call t = .flag o) (hlock : w.lock = none) :
    ∃ w', Resumes cfg t w w' ∧ w'.start = w.start ∧ w'.lock = none ∧
      if w.start.shouldDedupe o then w'.call t = .idle ∧ w'.dropped = w.dropped ++ [o]
      else w'.call t = .send o ∧ w'.dropped = w.dropped := by
  by_cases hon : w.start.active = true ∧ o.orderStatus ≠ orderStatusRevoke
  · by_cases hempty : w.start.restored = ∅
    · refine ⟨_, .head rfl (.single rfl), ?_⟩
      simp [resume, setCall, hcall, hlock, hon, hempty, StartQueueState.shouldDedupe]
    · by_cases hmem : (o.symbolKey, o.trustOrderNo) ∈ w.start.restored
      · refine ⟨_, .head rfl (.single rfl), ?_⟩
        simp [resume, setCall, hcall, hlock, hon, hempty, hmem, StartQueueState.shouldDedupe]
      · refine ⟨_, .head rfl (.head rfl (.single rfl)), ?_⟩
        cases hreached : StartQueueState.reached w.start.bigNo o.trustOrderNo with
        | true =>
            simp [resume, setCall, hcall, hlock, hon, hempty, hmem, hreached,
              StartQueueState.shouldDedupe]
        | false =>
            simp [resume, setCall, hcall, hlock, hon, hempty, hmem, hreached,
              StartQueueState.shouldDedupe]
  · refine ⟨_, .single rfl, ?_⟩
    have hoff : w.start.shouldDedupe o = false := by
      simp only [StartQueueState.shouldDedupe]
      grind
    simp [resume, setCall, hcall, hlock, hon, hoff]

/-- A thread that is alone records an order as `record_restored` does. -/
theorem resumes_recordRestored {o : BbOrder} (hcall : w.call t = .insert o)
    (hlock : w.lock = none) :
    ∃ w', Resumes cfg t w w' ∧ w'.start = w.start.recordRestored o.symbolKey o.trustOrderNo ∧
      w'.lock = none ∧ w'.call t = .idle := by
  cases hnumber : parseI64 o.trustOrderNo with
  | none =>
      refine ⟨_, .single rfl, ?_⟩
      simp [resume, hcall, hlock, hnumber, setCall, StartQueueState.recordRestored]
  | some n =>
      by_cases hlt : w.start.bigNo < n
      · refine ⟨_, .head rfl (.head rfl (.single rfl)), ?_⟩
        simp [resume, hcall, hlock, hnumber, hlt, setCall, StartQueueState.recordRestored]
      · refine ⟨_, .head rfl (.single rfl), ?_⟩
        simp [resume, hcall, hlock, hnumber, hlt, setCall, StartQueueState.recordRestored]

/-- A thread that is alone forgets the restored orders as `clear` does. -/
theorem resumes_clear (hcall : w.call t = .forget) (hlock : w.lock = none) :
    ∃ w', Resumes cfg t w w' ∧ w'.start = w.start.clear ∧ w'.lock = none ∧ w'.call t = .idle := by
  refine ⟨_, .head rfl (.head rfl (.single rfl)), ?_⟩
  simp [resume, hcall, hlock, setCall, StartQueueState.clear]

end Service

end MatchContract
