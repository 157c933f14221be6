import MatchRust.Spot.Delivery

/-!
# Shutting the spot service down

`shutdown_queues` takes the queues away from the router.  A thread that looked its queue up before
may still put its order into it.  Once no thread is about to, no order is accepted any more, and a
worker needs a bounded number of steps to do what is left.  Then it has answered all accepted orders
of its symbol as one engine for all symbols does, and has sent every message (`shutdown_drains`).
-/

namespace MatchSpot

open MatchProtocol MatchCore Workers

namespace Service

variable {Tid : Type} [DecidableEq Tid] [DecimalRounding] [DecimalText] {cfg : Config}
  {symbols : List String} {symbol : String} {worker : Worker BbOrder Engine Job}
  {w : Service Tid}

/-- The queues are shut down, and no thread has a sender left. -/
def Closed (w : Service Tid) : Prop := w.shut = true ∧ ∀ t o, w.call t ≠ .send o

/-- A step of the worker of a symbol. -/
def works (symbol : String) : Act Tid → Bool
  | .work s _ => s = symbol
  | _ => false

omit [DecimalRounding] [DecimalText] in
theorem Closed.setCall (h : Closed w) {t : Tid} {c : Call} (hc : ∀ o, c ≠ .send o) :
    Closed (w.setCall t c) := by
  refine ⟨h.1, fun u o ho => ?_⟩
  rw [call_setCall] at ho
  split at ho
  next => exact hc o ho
  next => exact h.2 u o ho

theorem Closed.step {w' : Service Tid} (h : Closed w) (hstep : Stepped cfg w w') :
    Closed w' ∧ w'.pool.accepted = w.pool.accepted := by
  cases hstep with
  | same | attach => exact ⟨h, rfl⟩
  | work symbol env => exact ⟨h, Pool.accepted_work ..⟩
  | shut => exact ⟨⟨rfl, h.2⟩, rfl⟩
  | order | missing => exact ⟨h.setCall fun _ => Call.noConfusion, rfl⟩
  | found hcall hshut =>
      rw [h.1] at hshut
      cases hshut
  | sent hcall => exact absurd hcall (h.2 _ _)
  | refused hcall => exact absurd hcall (h.2 _ _)

/-- Other steps leave a worker alone. -/
theorem Closed.worker_act (h : Closed w) {a : Act Tid} (ha : works symbol a = false) :
    (w.act cfg a).pool.worker symbol = w.pool.worker symbol := by
  cases a with
  | order t mq =>
      rw [act]
      split
      next => rfl
      next => rfl
  | resume t =>
      rw [act, resume]
      split
      next => rfl
      next =>
        split
        next => rfl
        next => rfl
      next o hcall => exact absurd hcall (h.2 t o)
  | work s env =>
      have hne : s ≠ symbol := of_decide_eq_false ha
      exact Pool.worker_work_ne hne.symm env
  | attachMold publisher => rfl
  | shutdownQueues => rfl

/-- A worker that gets enough steps does all that is left. -/
theorem Closed.finishes (h : Closed w) (hworker : w.pool.worker symbol = some worker)
    (later : List (Act Tid))
    (hsteps : cfg.usesOutbox.cost.need symbol worker.state worker.jobs worker.queue ≤
      (later.filter (works symbol)).length) :
    ∃ worker', (later.foldl (act cfg) w).pool.worker symbol = some worker' ∧ worker'.Idle := by
  induction later generalizing w worker with
  | nil => exact ⟨worker, hworker, cfg.usesOutbox.cost.idle_of_need (Nat.le_zero.mp hsteps)⟩
  | cons a later ih =>
      have hnext : Closed (w.act cfg a) := (h.step (stepped w a)).1
      rw [List.foldl_cons]
      cases ha : works symbol a with
      | false =>
          rw [List.filter_cons_of_neg (by simp [ha])] at hsteps
          exact ih hnext ((h.worker_act ha).trans hworker) hsteps
      | true =>
          rw [List.filter_cons_of_pos ha, List.length_cons] at hsteps
          cases a with
          | work s env =>
              obtain rfl := of_decide_eq_true ha
              obtain ⟨worker', hworker', -, hneed⟩ := cfg.usesOutbox.cost.work hworker env
              exact ih hnext hworker' (by omega)
          | order | resume | attachMold | shutdownQueues => cases ha

/-- A service that is shut down does what is left, as one engine would. -/
structure Drains (cfg : Config) (symbols : List String) (w : Service Tid) : Prop where
  /-- No order is accepted any more. -/
  accepted : Closed w → ∀ later : List (Act Tid),
    (later.foldl (act cfg) w).pool.accepted = w.pool.accepted
  /-- A worker that gets enough steps has nothing left to do, whatever happens meanwhile.  It has
  taken all accepted orders of its symbol, has answered them as one engine for all symbols does,
  and every message was sent. -/
  finishes : Closed w → ∃ one evs, Engine.trace {} w.pool.accepted = some (one, evs) ∧
    ∀ symbol ∈ symbols, ∃ n, ∀ later : List (Act Tid),
      n ≤ (later.filter (works symbol)).length →
      ∃ worker answers, (later.foldl (act cfg) w).pool.worker symbol = some worker ∧
        worker.jobs = [] ∧ worker.queue = [] ∧
        Told cfg symbol (later.foldl (act cfg) w).pool.out worker answers ∧
        worker.taken = (w.pool.accepted.filter fun o => o.symbolKey = symbol) ∧
        answers.map Answer.events = symbolEvents symbol w.pool.accepted evs ∧
        worker.state.books symbol = one.books symbol

/-- Shutting down loses nothing. -/
theorem shutdown_drains (cfg : Config) (symbols : List String) (acts : List (Act Tid)) :
    Drains cfg symbols (run cfg symbols acts) := by
  have hreach : PoolReach cfg symbols (run cfg symbols acts).pool := poolReach_run symbols acts
  have haccepted : Closed (run cfg symbols acts) → ∀ later : List (Act Tid),
      (later.foldl (act cfg) (run cfg symbols acts)).pool.accepted =
        (run cfg symbols acts).pool.accepted := fun hclosed later =>
    (foldl_invariant
      (P := fun w => Closed w ∧ w.pool.accepted = (run cfg symbols acts).pool.accepted)
      ⟨hclosed, rfl⟩ (fun _ _ hstep h => ⟨(h.1.step hstep).1, (h.1.step hstep).2.trans h.2⟩)
      later).2
  refine ⟨haccepted, fun hclosed => ?_⟩
  obtain ⟨one, evs, htrace, -⟩ := trace_accepted engineInv_new
    fun o ho => (hreach.accepted o ho).checked.accepted
  refine ⟨one, evs, htrace, fun symbol hsymbol => ?_⟩
  obtain ⟨worker, hworker⟩ := Option.isSome_iff_exists.mp ((hreach.kept.present symbol).mpr hsymbol)
  refine ⟨cfg.usesOutbox.cost.need symbol worker.state worker.jobs worker.queue,
    fun later hlater => ?_⟩
  obtain ⟨worker', hworker', hjobs, hqueue⟩ := hclosed.finishes hworker later hlater
  have hreach' := poolReach_foldl hreach (callsSound_run symbols acts) later
  obtain ⟨answers, htold⟩ := hreach'.told hworker'
  have htaken : worker'.taken =
      (run cfg symbols acts).pool.accepted.filter fun o => o.symbolKey = symbol := by
    have hitems := (hreach'.kept.worker symbol worker' hworker').items
    rwa [hqueue, List.append_nil, haccepted hclosed] at hitems
  have hempty : ({} : Engine).books symbol = ({} : Engine).books symbol := rfl
  obtain ⟨last, hlast, hbook⟩ := trace_symbol hempty htrace
  have hcalls := htold.calls.trace
  rw [htold.orders, htaken, hlast, Option.some.injEq, Prod.mk.injEq] at hcalls
  obtain ⟨rfl, hevents⟩ := hcalls
  exact ⟨worker', answers, hworker', hjobs, hqueue, htold, htaken, hevents.symm, hbook⟩

end Service

end MatchSpot
