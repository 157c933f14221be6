import MatchRust.Contract.Service
import MatchRust.Core.Symbols

/-!
# Routing of the contract service

Whatever the threads and workers do, the orders a worker has taken and those that wait for it are
the accepted orders of its symbol, in the order they were accepted, and its engine is the one that
took the same orders alone (`orders_routed`).  Every accepted order passed the checks.

With the decimal engine, the workers together are one engine that takes all accepted orders in the
order they were accepted.  A worker that empties its queue has the book of that engine, and has
answered every order as that engine does (`workers_refine_engine`).
-/

namespace MatchContract

open MatchProtocol Workers
open MatchCore (Engine EngineInv MatchEvent symbolEvents trace_symbol trace_accepted)

/-- The order a call is about. -/
def Call.order : Call → Option BbOrder
  | .flag o | .lookup o | .compare o | .send o | .restore o | .insert o => some o
  | .idle | .load _ | .swap _ _ | .forget | .zero | .deactivate => none

/-- The answers to the orders of a symbol, and the engine they lead to. -/
def Matcher.trace {E : Type} (m : Matcher E) (symbol : String) (os : List BbOrder) :
    List (BbOrder × Option (List PushOrder × DepthSnapshot)) × E :=
  Log.run (m.answer symbol) m.new os

namespace Service

variable {Tid E : Type} [DecidableEq Tid] {cfg : Config E} {symbols : List String}
  {w w' : Service Tid E}

/-! ## What a step does to the queues -/

/-- An order that passed the checks. -/
def TakenIn (cfg : Config E) (o : BbOrder) : Prop := ∃ mq, cfg.takeIn mq = some o

/-- The calls are about orders that passed the checks. -/
def CallsSound (cfg : Config E) (call : Tid → Call) : Prop :=
  ∀ t o, (call t).order = some o → TakenIn cfg o

theorem CallsSound.setCall (h : CallsSound cfg w.call) {t : Tid} {c : Call}
    (hc : ∀ o, c.order = some o → TakenIn cfg o) : CallsSound cfg (w.setCall t c).call := by
  intro u o ho
  rw [call_setCall] at ho
  split at ho
  next => exact hc o ho
  next => exact h u o ho

/-- A call goes on with the order it was about, or with none. -/
theorem CallsSound.goOn (h : CallsSound cfg w.call) {t : Tid} {c : Call}
    (hc : ∀ o, c.order = some o → (w.call t).order = some o) :
    CallsSound cfg (w.setCall t c).call := h.setCall fun o ho => h t o (hc o ho)

theorem CallsSound.step (h : CallsSound cfg w.call) (hstep : Stepped cfg w w') :
    CallsSound cfg w'.call := by
  cases hstep with
  | same => exact h
  | work => exact h
  | order hcall ho =>
      refine h.setCall fun o' ho' => ?_
      cases ho'
      exact ⟨_, ho⟩
  | restore hcall ho =>
      refine h.setCall fun o' ho' => ?_
      cases ho'
      exact ⟨_, ho⟩
  | @inserted t o hcall =>
      refine h.setCall fun o' ho' => ?_
      cases hn : parseI64 o.trustOrderNo with
      | none =>
          rw [hn] at ho'
          cases ho'
      | some n =>
          rw [hn] at ho'
          cases ho'
  | unchecked hcall | checked hcall | nothing hcall | unknown hcall | high hcall
  | restored hcall =>
      refine h.goOn fun o' ho' => ?_
      rw [hcall]
      exact ho'
  | _ => exact h.setCall fun o' ho' => by cases ho'

/-- The queues and workers a service can reach. -/
def PoolReach (cfg : Config E) (symbols : List String) : Pool String BbOrder E Job Output → Prop :=
  Pool.Reach cfg.behaviour cfg.capacity symbols {} (TakenIn cfg) fun _ _ => False

/-- A step offers an order that passed the checks, or is a step of a worker, or does nothing to the
queues. -/
theorem PoolReach.step (h : PoolReach cfg symbols w.pool) (hcalls : CallsSound cfg w.call)
    (hstep : Stepped cfg w w') : PoolReach cfg symbols w'.pool := by
  cases hstep with
  | work symbol env => exact .work h symbol env
  | sent hcall hpool | restored hcall hpool =>
      exact .offer h (hcalls _ _ (by rw [hcall]; rfl)) hpool
  | _ => exact h

theorem poolReach_run (symbols : List String) (acts : List (Act Tid)) :
    PoolReach cfg symbols (run cfg symbols acts).pool := by
  have h : CallsSound cfg (run cfg symbols acts).call ∧
      PoolReach cfg symbols (run cfg symbols acts).pool :=
    run_invariant (P := fun w => CallsSound cfg w.call ∧ PoolReach cfg symbols w.pool)
      ⟨fun _ _ h => (by cases h), .new⟩
      (fun _ _ hstep h => ⟨h.1.step hstep, h.2.step h.1 hstep⟩) acts
  exact h.2

/-! ## Every order once, in order -/

theorem run_take (symbol : String) (os : List BbOrder) :
    Log.run (cfg.behaviour.take symbol) (cfg.behaviour.start symbol) os =
      ((cfg.matcher.trace symbol os).1.map fun c => (c.1, jobsFor c.2),
        (cfg.matcher.trace symbol os).2) :=
  Log.run_map (cfg.matcher.answer symbol) (fun _ => jobsFor) _ os

theorem after_eq (symbol : String) (os : List BbOrder) :
    cfg.behaviour.after symbol os = (cfg.matcher.trace symbol os).2 := by
  rw [Behaviour.after, run_take]

/-- The orders of a service are where they belong. -/
structure Routed (cfg : Config E) (symbols : List String) (w : Service Tid E) : Prop where
  /-- Every accepted order passed the checks and has a worker. -/
  accepted : ∀ o ∈ w.pool.accepted, o.Checked types orderForms gearPositive ∧ 0 < o.trustPrice ∧
    o.symbolKey ∈ symbols
  /-- A worker has taken and keeps waiting the accepted orders of its symbol, in their order. -/
  orders : ∀ symbol worker, w.pool.worker symbol = some worker →
    worker.taken ++ worker.queue = w.pool.accepted.filter fun o => o.symbolKey = symbol
  /-- Its queue has no more orders than it has room for. -/
  bounded : ∀ symbol worker, w.pool.worker symbol = some worker →
    worker.queue.length ≤ cfg.capacity
  /-- Its engine took the orders it has taken, and nothing else. -/
  engine : ∀ symbol worker, w.pool.worker symbol = some worker →
    worker.state = (cfg.matcher.trace symbol worker.taken).2

theorem kept_run (acts : List (Act Tid)) :
    (run cfg symbols acts).pool.Kept cfg.behaviour cfg.capacity symbols :=
  (poolReach_run symbols acts).kept

theorem taken_append_queue (acts : List (Act Tid)) {symbol : String} {worker : Worker BbOrder E Job}
    (h : (run cfg symbols acts).pool.worker symbol = some worker) :
    worker.taken ++ worker.queue =
      (run cfg symbols acts).pool.accepted.filter fun o => o.symbolKey = symbol :=
  ((kept_run acts).worker symbol worker h).items

theorem engine_eq (acts : List (Act Tid)) {symbol : String} {worker : Worker BbOrder E Job}
    (h : (run cfg symbols acts).pool.worker symbol = some worker) :
    worker.state = (cfg.matcher.trace symbol worker.taken).2 := by
  rw [((kept_run acts).worker symbol worker h).state, after_eq]

/-- Accepted orders passed the checks. -/
theorem takenIn_run (acts : List (Act Tid)) :
    ∀ o ∈ (run cfg symbols acts).pool.accepted, TakenIn cfg o :=
  (poolReach_run symbols acts).accepted

theorem TakenIn.checked {o : BbOrder} (h : TakenIn cfg o) :
    o.Checked types orderForms gearPositive ∧ 0 < o.trustPrice := by
  obtain ⟨mq, hmq⟩ := h
  rw [Config.takeIn] at hmq
  split at hmq
  next hcheck => exact checked_of_typeConvert hcheck hmq
  next => cases hmq

theorem orders_routed (symbols : List String) (acts : List (Act Tid)) :
    Routed cfg symbols (run cfg symbols acts) where
  accepted o ho :=
    have h := (takenIn_run acts o ho).checked
    ⟨h.1, h.2, (kept_run acts).known o ho⟩
  orders _ _ h := taken_append_queue acts h
  bounded symbol worker h := ((kept_run acts).worker symbol worker h).bounded
  engine _ _ h := engine_eq acts h

end Service

/-! ## One engine -/

section Core

variable [DecimalRounding] (display levelText : BigDecimal → String)

/-- The answers of the decimal engine to orders it returns on. -/
theorem coreMatcher_run {engine last : Engine} {os : List BbOrder} {evs : List (List MatchEvent)}
    (symbol : String) (h : engine.trace os = some (last, evs)) :
    (Log.run ((coreMatcher display levelText).answer symbol) engine os).2 = last ∧
      (Log.run ((coreMatcher display levelText).answer symbol) engine os).1.flatMap
        (fun c => (c.2.map Prod.fst).getD []) = evs.flatMap (pushBatch display) := by
  induction os generalizing engine evs with
  | nil =>
      cases h
      exact ⟨rfl, rfl⟩
  | cons o os ih =>
      obtain ⟨next, first, rest, hon, htr, rfl⟩ := Engine.trace_cons_eq h
      obtain ⟨hlast, hpush⟩ := ih htr
      have hcall : (coreMatcher display levelText).answer symbol engine o =
          (some (pushBatch display first, coreDepth levelText symbol next), next) := by
        simp only [Matcher.answer, coreMatcher, hon]
        rfl
      simp only [Log.run, hcall, List.flatMap_cons]
      exact ⟨hlast, congrArg (pushBatch display first ++ ·) hpush⟩

/-- A service whose workers use the decimal engine. -/
def coreConfig (queueCapacity : Nat) (redis : Bool) (depthPushIntervalMs : Nat)
    (parseDecimal : String → Option BigDecimal) (toLowercase : String → String) :
    Config Engine where
  queueCapacity := queueCapacity
  redis := redis
  depthPushIntervalMs := depthPushIntervalMs
  matcher := coreMatcher display levelText
  parseDecimal := parseDecimal
  toLowercase := toLowercase

variable {Tid : Type} [DecidableEq Tid] (queueCapacity : Nat) (redis : Bool)
  (depthPushIntervalMs : Nat) (parseDecimal : String → Option BigDecimal)
  (toLowercase : String → String) (symbols : List String) (acts : List (Act Tid))

/-- One engine takes all accepted orders of a service, as they were accepted.  A worker that
empties its queue has the book of that engine, and has answered as it did. -/
def RefinesEngine (w : Service Tid Engine) : Prop :=
  ∃ one evs, Engine.trace {} w.pool.accepted = some (one, evs) ∧ EngineInv one ∧
    ∀ symbol worker, w.pool.worker symbol = some worker →
      ∃ done left drained, Engine.trace {} worker.taken = some (worker.state, done) ∧
        worker.state.trace worker.queue = some (drained, left) ∧
        drained.books symbol = one.books symbol ∧
        done ++ left = symbolEvents symbol w.pool.accepted evs

/-- The workers together are one engine. -/
theorem workers_refine_engine :
    RefinesEngine (Service.run (coreConfig display levelText queueCapacity redis
      depthPushIntervalMs parseDecimal toLowercase) symbols acts) := by
  obtain ⟨one, evs, htr, hinv, -⟩ := trace_accepted MatchCore.engineInv_new
    fun o ho => (Service.takenIn_run acts o ho).checked.1.accepted
  refine ⟨one, evs, htr, hinv, fun symbol worker hworker => ?_⟩
  have hempty : ({} : Engine).books symbol = ({} : Engine).books symbol := rfl
  obtain ⟨drained, hdrained, hbook⟩ := trace_symbol hempty htr
  rw [← Service.taken_append_queue acts hworker] at hdrained
  obtain ⟨mid, done, left, hdone, hleft, hevs⟩ := Engine.trace_append_eq hdrained
  have hmid : worker.state = mid := by
    rw [Service.engine_eq acts hworker]
    exact (coreMatcher_run display levelText symbol hdone).1
  rw [hmid]
  exact ⟨done, left, drained, hdone, hleft, hbook, hevs.symm⟩

end Core

end MatchContract
