import MatchRust.Lib.Grouping
import MatchRust.Lib.Log

/-!
# Keyed workers

A pool has a worker for each of some keys.  An item is offered to the worker of its key and
waits in the queue of that worker, if there is such a worker and its queue has room.  A worker
takes the items of its queue one after the other.  An item changes the state of the worker and
leaves jobs, and the next item is taken when all jobs are done.  Jobs are done against an
output that all workers share, and the environment has a say in what they do.

Offers and the steps of the workers may come in any order.  Still a worker has taken and keeps
waiting exactly the accepted items of its key, in the order they were accepted, and its state is
that of a machine which applied the taken ones (`Kept`).  What the workers show in the output is
counted by an `Account`: it says what a job still has to show, and that doing a job pays exactly
that.  Then what is shown for a key, and what its open jobs still have to show, is what the
jobs of the taken items had to show, whatever the other workers did in between
(`Pool.Reach.balanced`).  A property of one worker and of what the output has of its key is kept by
all steps if the jobs of that worker keep it (`Local`).  A worker whose jobs cost more than those
that take their place finishes (`Cost.work`).
-/

namespace Workers

open Grouping

variable {κ α σ J O N : Type}

/-- What the workers do. -/
structure Behaviour (κ α σ J O N : Type) where
  /-- The key of an item. -/
  key : α → κ
  /-- The state a worker starts in. -/
  start : κ → σ
  /-- An item that is taken: the jobs it leaves, and the next state. -/
  take : κ → σ → α → List J × σ
  /-- A job that is done: the output, and the jobs to do in its place. -/
  perform : κ → σ → N → O → J → O × List J

/-- A worker and its queue. -/
structure Worker (α σ J : Type) where
  queue : List α
  /-- The items taken so far. -/
  taken : List α
  state : σ
  /-- What is left to do for the last item taken. -/
  jobs : List J

/-- The workers, and the output they share. -/
structure Pool (κ α σ J O : Type) where
  worker : κ → Option (Worker α σ J)
  out : O
  /-- The items accepted so far. -/
  accepted : List α

/-- Why an item is not accepted. -/
inductive Refusal where
  | missing
  | full
deriving DecidableEq

section Steps

variable [DecidableEq κ] (b : Behaviour κ α σ J O N)

/-- A pool with a worker for each of some keys. -/
def Pool.new (keys : List κ) (out : O) : Pool κ α σ J O where
  worker k := if k ∈ keys then some ⟨[], [], b.start k, []⟩ else none
  out := out
  accepted := []

/-- Replace the worker of a key. -/
def Pool.setWorker (p : Pool κ α σ J O) (k : κ) (w : Worker α σ J) : Pool κ α σ J O :=
  { p with worker := Function.update p.worker k (some w) }

/-- Offer an item to the worker of its key, whose queue has room for `capacity` items. -/
def Pool.offer (capacity : Nat) (p : Pool κ α σ J O) (a : α) : Except Refusal (Pool κ α σ J O) :=
  match p.worker (b.key a) with
  | none => .error .missing
  | some w =>
      if w.queue.length < capacity then
        .ok { p.setWorker (b.key a) { w with queue := w.queue ++ [a] } with
          accepted := p.accepted ++ [a] }
      else .error .full

/-- A step of the worker of a key: its next job, or else the next item of its queue. -/
def Pool.work (p : Pool κ α σ J O) (k : κ) (n : N) : Pool κ α σ J O :=
  match p.worker k with
  | none => p
  | some w =>
      match w.jobs with
      | j :: jobs =>
          let r := b.perform k w.state n p.out j
          { p.setWorker k { w with jobs := r.2 ++ jobs } with out := r.1 }
      | [] =>
          match w.queue with
          | [] => p
          | a :: queue =>
              let r := b.take k w.state a
              p.setWorker k
                { queue := queue, taken := w.taken ++ [a], state := r.2, jobs := r.1 }

/-! ## What a step does -/

variable {b} {p p' : Pool κ α σ J O}

/-- An accepted item waits at the end of the queue of its key. -/
theorem Pool.offer_ok {capacity : Nat} {a : α} (h : p.offer b capacity a = .ok p') :
    ∃ w, p.worker (b.key a) = some w ∧ w.queue.length < capacity ∧
      p' = { p.setWorker (b.key a) { w with queue := w.queue ++ [a] } with
        accepted := p.accepted ++ [a] } := by
  rw [Pool.offer] at h
  split at h
  next => cases h
  next w hw =>
    split at h
    next hroom =>
      cases h
      exact ⟨w, hw, hroom, rfl⟩
    next => cases h

/-- A step of a worker does nothing, or a job, or takes an item. -/
theorem Pool.work_cases {P : Pool κ α σ J O → Prop} {k : κ} {n : N} (hidle : P p)
    (hjob : ∀ w j jobs, p.worker k = some w → w.jobs = j :: jobs →
      P { p.setWorker k { w with jobs := (b.perform k w.state n p.out j).2 ++ jobs } with
        out := (b.perform k w.state n p.out j).1 })
    (hitem : ∀ w a queue, p.worker k = some w → w.jobs = [] → w.queue = a :: queue →
      P (p.setWorker k
        { queue := queue, taken := w.taken ++ [a], state := (b.take k w.state a).2,
          jobs := (b.take k w.state a).1 })) : P (p.work b k n) := by
  rw [Pool.work]
  split
  next => exact hidle
  next w hw =>
    split
    next j jobs hjobs => exact hjob w j jobs hw hjobs
    next hjobs =>
      split
      next => exact hidle
      next a queue hqueue => exact hitem w a queue hw hjobs hqueue

theorem Pool.accepted_work (p : Pool κ α σ J O) (k : κ) (n : N) :
    (p.work b k n).accepted = p.accepted :=
  Pool.work_cases (P := fun q => q.accepted = p.accepted) rfl (fun _ _ _ _ _ => rfl)
    fun _ _ _ _ _ _ => rfl

theorem Pool.setWorker_worker (k : κ) (w : Worker α σ J) :
    (p.setWorker k w).worker = Function.update p.worker k (some w) := rfl

/-- The workers of a pool after one of them was replaced. -/
theorem Pool.worker_setWorker {k j : κ} {w v : Worker α σ J}
    (h : (p.setWorker k w).worker j = some v) :
    (j = k ∧ v = w) ∨ (j ≠ k ∧ p.worker j = some v) := by
  rw [Pool.setWorker_worker] at h
  rcases eq_or_ne j k with rfl | hne
  · rw [Function.update_self] at h
    exact .inl ⟨rfl, (Option.some.inj h).symm⟩
  · rw [Function.update_of_ne hne] at h
    exact .inr ⟨hne, h⟩

theorem Pool.isSome_setWorker {k : κ} {w v : Worker α σ J} (h : p.worker k = some v) (j : κ) :
    ((p.setWorker k w).worker j).isSome = (p.worker j).isSome := by
  rw [Pool.setWorker_worker]
  rcases eq_or_ne j k with rfl | hne
  · rw [Function.update_self, h]
    rfl
  · rw [Function.update_of_ne hne]

/-- The workers of a new pool have nothing to do. -/
theorem Pool.worker_new {keys : List κ} {out : O} {k : κ} {w : Worker α σ J}
    (h : (Pool.new b keys out).worker k = some w) : w = ⟨[], [], b.start k, []⟩ := by
  have h' : (if k ∈ keys then some ⟨[], [], b.start k, []⟩ else none) = some w := h
  split at h'
  next => exact (Option.some.inj h').symm
  next => cases h'

end Steps

/-! ## Items -/

section Items

variable (b : Behaviour κ α σ J O N)

/-- The jobs some items leave, taken one after the other by a new worker. -/
def Behaviour.jobsOf (k : κ) (items : List α) : List J :=
  (Log.run (b.take k) (b.start k) items).1.flatMap Prod.snd

/-- The state they lead to. -/
def Behaviour.after (k : κ) (items : List α) : σ := (Log.run (b.take k) (b.start k) items).2

theorem Behaviour.jobsOf_append_one (k : κ) (items : List α) (a : α) :
    b.jobsOf k (items ++ [a]) = b.jobsOf k items ++ (b.take k (b.after k items) a).1 := by
  simp [Behaviour.jobsOf, Behaviour.after, Log.run_append, Log.run]

theorem Behaviour.after_append_one (k : κ) (items : List α) (a : α) :
    b.after k (items ++ [a]) = (b.take k (b.after k items) a).2 := by
  simp [Behaviour.after, Log.run_append, Log.run]

variable [DecidableEq κ]

/-- A worker has the accepted items of its key, in their order, and the state of those it has
taken. -/
structure Worker.Kept (capacity : Nat) (k : κ) (accepted : List α) (w : Worker α σ J) : Prop where
  /-- Nothing is lost, taken twice or overtaken. -/
  items : w.taken ++ w.queue = group b.key k accepted
  /-- The queue is bounded. -/
  bounded : w.queue.length ≤ capacity
  /-- The state is that of a worker that took the same items alone. -/
  state : w.state = b.after k w.taken

/-- There is a worker for each key, with its items, and every accepted item has a worker. -/
structure Pool.Kept (capacity : Nat) (keys : List κ) (p : Pool κ α σ J O) : Prop where
  present : ∀ k, (p.worker k).isSome = true ↔ k ∈ keys
  worker : ∀ k w, p.worker k = some w → w.Kept b capacity k p.accepted
  known : ∀ a ∈ p.accepted, b.key a ∈ keys

variable {b} {capacity : Nat} {keys : List κ} {p p' : Pool κ α σ J O}

theorem Pool.kept_new (keys : List κ) (out : O) : (Pool.new b keys out).Kept b capacity keys := by
  refine ⟨fun k => ?_, fun k w hw => ?_, fun a ha => absurd ha List.not_mem_nil⟩
  · have hnew : (Pool.new b keys out).worker k =
        if k ∈ keys then some ⟨[], [], b.start k, []⟩ else none := rfl
    rw [hnew]
    split
    next hk => exact iff_of_true rfl hk
    next hk => exact iff_of_false Bool.false_ne_true hk
  · rw [Pool.worker_new hw]
    exact ⟨rfl, Nat.zero_le _, rfl⟩

/-- The worker of a key is replaced by one that has its items. -/
theorem Pool.Kept.setWorker (h : p.Kept b capacity keys) {k : κ} {w v : Worker α σ J}
    (hv : p.worker k = some v) (hw : w.Kept b capacity k p.accepted) :
    (p.setWorker k w).Kept b capacity keys := by
  refine ⟨fun j => ?_, fun j u hu => ?_, h.known⟩
  · rw [Pool.isSome_setWorker hv]
    exact h.present j
  · rcases Pool.worker_setWorker hu with ⟨rfl, rfl⟩ | ⟨-, hu⟩
    · exact hw
    · exact h.worker j u hu

theorem Pool.Kept.offer (h : p.Kept b capacity keys) {a : α}
    (ha : p.offer b capacity a = .ok p') : p'.Kept b capacity keys := by
  obtain ⟨w, hw, hroom, rfl⟩ := Pool.offer_ok ha
  have hkept := h.worker _ w hw
  refine ⟨fun j => ?_, fun k v hv => ?_, fun c hc => ?_⟩
  · exact (congrArg (· = true) (Pool.isSome_setWorker hw j)).to_iff.trans (h.present j)
  · rcases Pool.worker_setWorker hv with ⟨rfl, rfl⟩ | ⟨hne, hv⟩
    · refine ⟨?_, ?_, hkept.state⟩
      · rw [group_append, ← hkept.items, group_cons_self, group_nil, List.append_assoc]
      · rw [List.length_append]
        exact hroom
    · have hv' := h.worker k v hv
      refine ⟨?_, hv'.bounded, hv'.state⟩
      rw [hv'.items, group_append, group_cons_ne hne.symm, group_nil, List.append_nil]
  · rcases List.mem_append.mp hc with hc | hc
    · exact h.known c hc
    · rw [List.mem_singleton.mp hc, ← h.present, hw]
      rfl

theorem Pool.Kept.work (h : p.Kept b capacity keys) (k : κ) (n : N) :
    (p.work b k n).Kept b capacity keys := by
  refine Pool.work_cases h (fun w j jobs hw hjobs => ?_) (fun w a queue hw hjobs hqueue => ?_)
  · obtain ⟨hitems, hbounded, hstate⟩ := h.worker k w hw
    have hset := h.setWorker (w := { w with jobs := (b.perform k w.state n p.out j).2 ++ jobs }) hw
      ⟨hitems, hbounded, hstate⟩
    exact ⟨hset.present, hset.worker, hset.known⟩
  · obtain ⟨hitems, hbounded, hstate⟩ := h.worker k w hw
    rw [hqueue] at hitems hbounded
    refine h.setWorker hw ⟨?_, (Nat.le_succ _).trans hbounded, ?_⟩
    · rw [List.append_assoc]
      exact hitems
    · rw [Behaviour.after_append_one, ← hstate]

end Items

/-! ## What is shown -/

/-- What jobs show in the output for a key: a job pays what it has to show, at once or through
the jobs that take its place. -/
structure Account (b : Behaviour κ α σ J O N) (W : Type) where
  /-- What the output shows for a key. -/
  shown : κ → O → List W
  /-- What a job of a key has to show. -/
  due : κ → J → List W
  /-- A job pays what it has to show. -/
  pays : ∀ k s n o j, shown k (b.perform k s n o j).1 ++ (b.perform k s n o j).2.flatMap (due k) =
    shown k o ++ due k j
  /-- A job of another key shows nothing for this one. -/
  others : ∀ k i s n o j, i ≠ k → shown i (b.perform k s n o j).1 = shown i o

/-! ## One worker -/

/-- A property of what the output has of a key, and of the items taken and the open jobs of its
worker, which its jobs and the items it takes keep. -/
structure Local (b : Behaviour κ α σ J O N) (V : Type) where
  /-- What the output has of a key. -/
  view : κ → O → V
  holds : κ → V → List α → List J → Prop
  /-- A job of another key changes nothing of this one. -/
  others : ∀ k i s n o j, i ≠ k → view i (b.perform k s n o j).1 = view i o
  job : ∀ k s n o taken j jobs, holds k (view k o) taken (j :: jobs) →
    holds k (view k (b.perform k s n o j).1) taken ((b.perform k s n o j).2 ++ jobs)
  item : ∀ k v taken a, holds k v taken [] →
    holds k v (taken ++ [a]) (b.take k (b.after k taken) a).1

section Locals

variable [DecidableEq κ] {b : Behaviour κ α σ J O N} {V : Type} (l : Local b V) {capacity : Nat}
  {keys : List κ} {p p' : Pool κ α σ J O}

/-- The property holds of every worker. -/
def Local.Everywhere (p : Pool κ α σ J O) : Prop :=
  ∀ k w, p.worker k = some w → l.holds k (l.view k p.out) w.taken w.jobs

theorem Local.everywhere_new (keys : List κ) {out : O}
    (h : ∀ k, l.holds k (l.view k out) [] []) : l.Everywhere (Pool.new b keys out) := by
  intro k w hw
  rw [Pool.worker_new hw]
  exact h k

variable {l}

theorem Local.Everywhere.offer (h : l.Everywhere p) {a : α} (ha : p.offer b capacity a = .ok p') :
    l.Everywhere p' := by
  obtain ⟨w, hw, -, rfl⟩ := Pool.offer_ok ha
  intro k v hv
  rcases Pool.worker_setWorker hv with ⟨rfl, rfl⟩ | ⟨-, hv⟩
  · exact h _ w hw
  · exact h k v hv

theorem Local.Everywhere.work (h : l.Everywhere p) (hkept : p.Kept b capacity keys) (k : κ)
    (n : N) : l.Everywhere (p.work b k n) := by
  refine Pool.work_cases h (fun w j jobs hw hjobs i v hv => ?_)
    (fun w a queue hw hjobs hqueue i v hv => ?_)
  · rcases Pool.worker_setWorker hv with ⟨rfl, rfl⟩ | ⟨hne, hv⟩
    · have hold := h i w hw
      rw [hjobs] at hold
      exact l.job i w.state n p.out w.taken j jobs hold
    · have hold := h i v hv
      rw [← l.others k i w.state n p.out j hne] at hold
      exact hold
  · rcases Pool.worker_setWorker hv with ⟨rfl, rfl⟩ | ⟨-, hv⟩
    · have hold := h i w hw
      rw [hjobs] at hold
      have hitem := l.item i _ w.taken a hold
      rwa [← (hkept.worker i w hw).state] at hitem
    · exact h i v hv

variable {W : Type}

/-- What is shown for a key, and what is still due, is what the jobs of the taken items had to
show. -/
def Account.toLocal (acc : Account b W) : Local b (List W) where
  view := acc.shown
  holds k v taken jobs :=
    v ++ jobs.flatMap (acc.due k) = (b.jobsOf k taken).flatMap (acc.due k)
  others := acc.others
  job k s n o taken j jobs h := by
    rw [List.flatMap_append, ← List.append_assoc, acc.pays, List.append_assoc]
    exact h
  item k v taken a h := by
    rw [Behaviour.jobsOf_append_one, List.flatMap_append, ← h, List.flatMap_nil, List.append_nil]

end Locals

/-! ## Runs -/

/-- The pools that offers and steps of the workers lead to.  Only some items are offered, and the
output may change by itself, as `R` says. -/
inductive Pool.Reach [DecidableEq κ] (b : Behaviour κ α σ J O N) (capacity : Nat) (keys : List κ)
    (out : O) (ok : α → Prop) (R : O → O → Prop) : Pool κ α σ J O → Prop
  | new : Reach b capacity keys out ok R (Pool.new b keys out)
  | offer {p p' : Pool κ α σ J O} {a : α} (h : Reach b capacity keys out ok R p) (ha : ok a)
      (hp : p.offer b capacity a = .ok p') : Reach b capacity keys out ok R p'
  | work {p : Pool κ α σ J O} (h : Reach b capacity keys out ok R p) (k : κ) (n : N) :
      Reach b capacity keys out ok R (p.work b k n)
  | other {p : Pool κ α σ J O} (h : Reach b capacity keys out ok R p) {o : O} (ho : R p.out o) :
      Reach b capacity keys out ok R { p with out := o }

namespace Pool.Reach

variable [DecidableEq κ] {b : Behaviour κ α σ J O N} {capacity : Nat} {keys : List κ} {out : O}
  {ok : α → Prop} {R : O → O → Prop} {p : Pool κ α σ J O}

theorem kept (h : Reach b capacity keys out ok R p) : p.Kept b capacity keys := by
  induction h with
  | new => exact Pool.kept_new keys out
  | offer _ _ hp ih => exact ih.offer hp
  | work _ k n ih => exact ih.work k n
  | other _ _ ih => exact ⟨ih.present, ih.worker, ih.known⟩

theorem accepted (h : Reach b capacity keys out ok R p) : ∀ a ∈ p.accepted, ok a := by
  induction h with
  | new => exact fun a ha => absurd ha List.not_mem_nil
  | offer _ ha hp ih =>
      obtain ⟨w, -, -, rfl⟩ := Pool.offer_ok hp
      intro c hc
      rcases List.mem_append.mp hc with hc | hc
      · exact ih c hc
      · rwa [List.mem_singleton.mp hc]
  | work _ k n ih => rwa [Pool.accepted_work]
  | other _ _ ih => exact ih

/-- What holds of the output at the start and is kept by all jobs holds always. -/
theorem output (h : Reach b capacity keys out ok R p) {P : O → Prop} (hnew : P out)
    (hjob : ∀ k s n o j, P o → P (b.perform k s n o j).1) (hR : ∀ o o', R o o' → P o → P o') :
    P p.out := by
  induction h with
  | new => exact hnew
  | offer _ _ hp ih =>
      obtain ⟨w, -, -, rfl⟩ := Pool.offer_ok hp
      exact ih
  | work _ k n ih =>
      exact Pool.work_cases (P := fun q => P q.out) ih (fun w j _ _ _ => hjob k w.state n _ j ih)
        fun _ _ _ _ _ _ => ih
  | other _ ho ih => exact hR _ _ ho ih

theorem everywhere (h : Reach b capacity keys out ok R p) {V : Type} (l : Local b V)
    (hnew : ∀ k, l.holds k (l.view k out) [] [])
    (hR : ∀ o o', R o o' → ∀ k, l.view k o' = l.view k o) : l.Everywhere p := by
  induction h with
  | new => exact l.everywhere_new keys hnew
  | offer _ _ hp ih => exact ih.offer hp
  | work h k n ih => exact ih.work h.kept k n
  | other _ ho ih =>
      intro k w hw
      rw [hR _ _ ho]
      exact ih k w hw

/-- The output shows, for every worker, what the jobs of the taken items had to show, but for
what the open jobs still have to. -/
theorem balanced (h : Reach b capacity keys out ok R p) {W : Type} (acc : Account b W)
    (hnew : ∀ k, acc.shown k out = [])
    (hR : ∀ o o', R o o' → ∀ k, acc.shown k o' = acc.shown k o) {k : κ} {w : Worker α σ J}
    (hw : p.worker k = some w) :
    acc.shown k p.out ++ w.jobs.flatMap (acc.due k) = (b.jobsOf k w.taken).flatMap (acc.due k) :=
  h.everywhere acc.toLocal (fun k => congrArg (· ++ []) (hnew k)) hR k w hw

end Pool.Reach

/-! ## Workers that finish -/

/-- What jobs cost, in steps: a job costs more than the jobs that take its place. -/
structure Cost (b : Behaviour κ α σ J O N) where
  cost : J → Nat
  pos : ∀ j, 0 < cost j
  drops : ∀ k s n o j, ((b.perform k s n o j).2.map cost).sum < cost j

section Finish

variable {b : Behaviour κ α σ J O N} (c : Cost b)

/-- The steps a worker needs at most to do some jobs and to take and do some items. -/
def Cost.need (k : κ) (s : σ) (jobs : List J) : List α → Nat
  | [] => (jobs.map c.cost).sum
  | a :: items =>
      (jobs.map c.cost).sum + 1 + Cost.need k (b.take k s a).2 (b.take k s a).1 items

theorem Cost.need_eq (k : κ) (s : σ) (jobs : List J) (items : List α) :
    c.need k s jobs items = (jobs.map c.cost).sum + c.need k s [] items := by
  cases items with
  | nil => rfl
  | cons a items => simp only [Cost.need, List.map_nil, List.sum_nil, Nat.zero_add, Nat.add_assoc]

/-- A worker without anything to do. -/
def Worker.Idle (w : Worker α σ J) : Prop := w.jobs = [] ∧ w.queue = []

theorem Cost.idle_of_need {k : κ} {w : Worker α σ J}
    (h : c.need k w.state w.jobs w.queue = 0) : w.Idle := by
  rw [c.need_eq] at h
  constructor
  · cases hjobs : w.jobs with
    | nil => rfl
    | cons j jobs =>
        have := c.pos j
        rw [hjobs, List.map_cons, List.sum_cons] at h
        omega
  · cases hqueue : w.queue with
    | nil => rfl
    | cons a queue =>
        rw [hqueue, Cost.need] at h
        omega

variable [DecidableEq κ] {p : Pool κ α σ J O}

/-- A step of a worker brings it closer to its end. -/
theorem Cost.work {k : κ} {w : Worker α σ J} (hw : p.worker k = some w) (n : N) :
    ∃ w', (p.work b k n).worker k = some w' ∧ w'.taken ++ w'.queue = w.taken ++ w.queue ∧
      c.need k w'.state w'.jobs w'.queue ≤ c.need k w.state w.jobs w.queue - 1 := by
  obtain ⟨queue, taken, state, jobs⟩ := w
  cases jobs with
  | cons j jobs =>
      have hstep : (p.work b k n).worker k =
          some ⟨queue, taken, state, (b.perform k state n p.out j).2 ++ jobs⟩ := by
        simp only [Pool.work, hw]
        exact Function.update_self ..
      have hneed : c.need k state ((b.perform k state n p.out j).2 ++ jobs) queue ≤
          c.need k state (j :: jobs) queue - 1 := by
        have hdrop := c.drops k state n p.out j
        rw [c.need_eq, c.need_eq k state (j :: jobs), List.map_append, List.sum_append,
          List.map_cons, List.sum_cons]
        omega
      exact ⟨_, hstep, rfl, hneed⟩
  | nil =>
      cases queue with
      | nil => exact ⟨_, by simp only [Pool.work, hw], rfl, Nat.zero_le _⟩
      | cons a queue =>
          have hstep : (p.work b k n).worker k =
              some ⟨queue, taken ++ [a], (b.take k state a).2, (b.take k state a).1⟩ := by
            simp only [Pool.work, hw]
            exact Function.update_self ..
          refine ⟨_, hstep, List.append_assoc .., ?_⟩
          simp only [Cost.need, List.map_nil, List.sum_nil]
          omega

/-- A step of another worker does not touch a worker. -/
theorem Pool.worker_work_ne {k i : κ} (hne : i ≠ k) (n : N) :
    (p.work b k n).worker i = p.worker i :=
  Pool.work_cases (P := fun q => q.worker i = p.worker i) rfl
    (fun _ _ _ _ _ => Function.update_of_ne hne _ _)
    fun _ _ _ _ _ _ => Function.update_of_ne hne _ _

end Finish

end Workers
