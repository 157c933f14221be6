import MatchRust.Lib.Workers

/-!
# Outboxes

Workers that send their messages through an outbox.  The sink may refuse a message.  Its body is
then kept for a retry, if the store takes it.  A snapshot is sent only if the last one of the same
key was sent long enough ago.  What else the workers do does not matter here (`Uses`).

What is said of one key is said of what the outbox has of it (`View`), which only the worker of that
key changes.  Messages are sent once and in the order of the jobs (`Uses.shown`), whatever is
refused.  What the sink refused is given to the store right after, snapshots are sent in order and
far enough apart (`Orderly`), and their messages are those of the snapshots that were sent
(`Copied`).
-/

namespace Outbox

open Workers

variable {K T B S X W : Type}

/-- What a worker has to do. -/
inductive Job (T B S X : Type) where
  /-- Send a body to a topic. -/
  | send (topic : T) (body : B)
  /-- Keep a body that was not sent for a retry. -/
  | keep (body : B)
  /-- Send a snapshot, if it is time. -/
  | snapshot (snap : S)
  /-- Something else. -/
  | other (x : X)

namespace Job

/-- A job that is no retry and no snapshot. -/
def Plain : Job T B S X → Prop
  | .send .. | .other _ => True
  | .keep _ | .snapshot _ => False

/-- The bodies a job has to keep. -/
def keeps : Job T B S X → List B
  | .keep body => [body]
  | _ => []

/-- The snapshots a job has to decide on. -/
def snapshots : Job T B S X → List S
  | .snapshot snap => [snap]
  | _ => []

/-- What a job has to show of its message. -/
def shows (f : T → B → List W) : Job T B S X → List W
  | .send topic body => f topic body
  | _ => []

theorem Plain.keeps_eq_nil {j : Job T B S X} (h : j.Plain) : j.keeps = [] := by
  cases j with
  | keep => exact h.elim
  | _ => rfl

theorem Plain.snapshots_eq_nil {j : Job T B S X} (h : j.Plain) : j.snapshots = [] := by
  cases j with
  | snapshot => exact h.elim
  | _ => rfl

end Job

/-- A message, the key of the worker that sent it, and whether the sink took it. -/
structure Sent (K T B : Type) where
  key : K
  topic : T
  body : B
  taken : Bool

/-- An outbox, and what became of what it was given. -/
structure Box (K T B S : Type) where
  /-- When the last snapshot of a key was sent. -/
  last : K → Option Nat := fun _ => none
  /-- The bodies in the store, the last one in front. -/
  errorQueue : List B := []
  /-- The messages given to the sink. -/
  sends : List (Sent K T B) := []
  /-- The bodies that were to be kept, with their key and whether the store took them. -/
  retries : List (K × B × Bool) := []
  /-- The snapshots that were due, with their key. -/
  due : List (K × S) := []
  /-- The snapshots that were sent, with their key and the time. -/
  sent : List (K × Nat × S) := []

/-- What the environment has to do with a job. -/
structure Env (K T B : Type) where
  now : Nat
  /-- Whether the sink takes a message of a key. -/
  accepts : K → T → B → Bool
  /-- Whether the store takes a body. -/
  stores : B → Bool

/-- How an outbox is set up. -/
structure Setup (T B S X : Type) where
  /-- The time between two snapshots of a key, if there is one. -/
  interval : Nat
  /-- Whether there is a store. -/
  store : Bool
  /-- What is to be done to send a snapshot. -/
  messages : S → List (Job T B S X)
  plain : ∀ snap, ∀ j ∈ messages snap, j.Plain

namespace Setup

variable (s : Setup T B S X)

/-- Whether the last snapshot of a key was sent a short while ago. -/
def throttled (box : Box K T B S) (now : Nat) (k : K) : Bool :=
  0 < s.interval && (box.last k).any fun prev => now - prev < s.interval

end Setup

/-! ## One key -/

/-- What an outbox has of a key. -/
structure View (K T B S : Type) where
  sends : List (Sent K T B)
  retried : List B
  due : List S
  sent : List (Nat × S)
  last : Option Nat

/-- What the messages of a key show. -/
def View.shown (v : View K T B S) (f : T → B → List W) : List W :=
  v.sends.flatMap fun m => f m.topic m.body

/-- The bodies of a key the sink did not take. -/
def View.failed (v : View K T B S) : List B :=
  (v.sends.filter fun m => !m.taken).map Sent.body

/-! ## The order of jobs -/

/-- Only the first job is a retry, and only the last one a snapshot. -/
def Tidy (jobs : List (Job T B S X)) : Prop :=
  jobs.Pairwise fun j j' => j.snapshots = [] ∧ j'.keeps = []

/-- The jobs of an item: there is no retry, and only the last one is a snapshot. -/
def Fresh (jobs : List (Job T B S X)) : Prop := Tidy jobs ∧ jobs.flatMap Job.keeps = []

variable {jobs : List (Job T B S X)}

theorem fresh_of_plain (h : ∀ j ∈ jobs, j.Plain) : Fresh jobs := by
  refine ⟨List.pairwise_of_forall_mem_list fun j hj j' hj' => ?_, ?_⟩
  · exact ⟨(h j hj).snapshots_eq_nil, (h j' hj').keeps_eq_nil⟩
  · rw [List.flatMap_eq_nil_iff]
    exact fun j hj => (h j hj).keeps_eq_nil

theorem fresh_concat (jobs : List (Job T B S X)) (h : ∀ j ∈ jobs, j.Plain) (snap : S) :
    Fresh (jobs ++ [.snapshot snap]) := by
  obtain ⟨htidy, hkeeps⟩ := fresh_of_plain h
  refine ⟨List.pairwise_append.mpr ⟨htidy, List.pairwise_singleton .., fun j hj j' hj' => ?_⟩, ?_⟩
  · rw [List.mem_singleton.mp hj']
    exact ⟨(h j hj).snapshots_eq_nil, rfl⟩
  · rw [List.flatMap_append, hkeeps]
    rfl

/-- Behind the first job there is no retry. -/
theorem Tidy.tail {j : Job T B S X} (h : Tidy (j :: jobs)) : Fresh jobs := by
  obtain ⟨hhead, htail⟩ := List.pairwise_cons.mp h
  refine ⟨htail, ?_⟩
  rw [List.flatMap_eq_nil_iff]
  exact fun j' hj' => (hhead j' hj').2

/-- Behind a snapshot there is no job. -/
theorem Tidy.snapshot {snap : S} (h : Tidy (.snapshot snap :: jobs)) : jobs = [] := by
  cases jobs with
  | nil => rfl
  | cons j jobs => cases ((List.pairwise_cons.mp h).1 j (List.mem_cons_self ..)).1

/-- A retry in front of jobs without one. -/
theorem Fresh.keep (h : Fresh jobs) (body : B) : Tidy (.keep body :: jobs) :=
  List.pairwise_cons.mpr ⟨fun j hj => ⟨rfl, List.flatMap_eq_nil_iff.mp h.2 j hj⟩, h.1⟩

/-- The jobs after a message: the others, and a retry in front if it was refused. -/
theorem Fresh.sent (h : Fresh jobs) (taken : Bool) (body : B) :
    Tidy ((if taken then [] else [.keep body]) ++ jobs) := by
  cases taken with
  | true => exact h.1
  | false => exact h.keep body

variable {s : Setup T B S X}

/-- What an outbox has of a key, and what its worker still has to do, agree. -/
structure Orderly (s : Setup T B S X) (v : View K T B S) (jobs : List (Job T B S X)) : Prop where
  tidy : Tidy jobs
  /-- What was refused was given to the store, or will be next. -/
  retried : v.failed = v.retried ++ jobs.flatMap Job.keeps
  /-- The snapshots that are sent are some of those that are due, in their order. -/
  due : (v.sent.map Prod.snd).Sublist v.due
  /-- They are all of them, if there is no interval. -/
  every : s.interval = 0 → v.sent.map Prod.snd = v.due
  spaced : 0 < s.interval → (v.sent.map Prod.fst).Pairwise fun t u => t + s.interval ≤ u
  last : 0 < s.interval → v.last = (v.sent.map Prod.fst).getLast?

namespace Orderly

variable {v : View K T B S} {k : K}

theorem send {topic : T} {body : B} (h : Orderly s v (.send topic body :: jobs)) (taken : Bool) :
    Orderly s { v with sends := v.sends ++ [⟨k, topic, body, taken⟩] }
      ((if taken then [] else [.keep body]) ++ jobs) := by
  have hfresh := h.tidy.tail
  refine ⟨hfresh.sent taken body, ?_, h.due, h.every, h.spaced, h.last⟩
  have hretried : v.failed = v.retried := by
    rw [h.retried, List.flatMap_cons, hfresh.2]
    exact List.append_nil _
  rw [View.failed] at hretried
  cases taken with
  | true => simp [View.failed, hretried, hfresh.2]
  | false => simp [View.failed, hretried, hfresh.2, Job.keeps]

theorem keep {body : B} (h : Orderly s v (.keep body :: jobs)) :
    Orderly s { v with retried := v.retried ++ [body] } jobs := by
  refine ⟨h.tidy.tail.1, ?_, h.due, h.every, h.spaced, h.last⟩
  have hretried := h.retried
  rw [List.flatMap_cons, ← List.append_assoc] at hretried
  exact hretried

/-- The time of one more snapshot, an interval after the last one. -/
theorem spaced_append {interval now : Nat} {times : List Nat}
    (hspaced : times.Pairwise fun t u => t + interval ≤ u)
    (hlast : ∀ prev ∈ times.getLast?, prev + interval ≤ now) :
    (times ++ [now]).Pairwise fun t u => t + interval ≤ u := by
  refine List.pairwise_append.mpr ⟨hspaced, List.pairwise_singleton .., fun t ht u hu => ?_⟩
  rw [List.mem_singleton.mp hu]
  obtain ⟨times, last, rfl⟩ : ∃ l a, times = l ++ [a] :=
    ⟨_, _, (List.dropLast_append_getLast (List.ne_nil_of_mem ht)).symm⟩
  have hle := hlast last (by simp)
  rcases List.mem_append.mp ht with ht | ht
  · have := (List.pairwise_append.mp hspaced).2.2 t ht last (List.mem_singleton_self _)
    omega
  · rwa [List.mem_singleton.mp ht]

/-- It is not time for the snapshot. -/
theorem early {snap : S} (h : Orderly s v [.snapshot snap]) (hpos : 0 < s.interval) :
    Orderly s { v with due := v.due ++ [snap] } ([] : List (Job T B S X)) :=
  ⟨.nil, h.retried, h.due.trans (List.sublist_append_left ..), fun hzero => by omega, h.spaced,
    h.last⟩

/-- The snapshot is sent. -/
theorem snapshot {snap : S} (h : Orderly s v [.snapshot snap]) {now : Nat}
    (htime : 0 < s.interval → ∀ prev ∈ v.last, prev + s.interval ≤ now) :
    Orderly s
      { v with
        due := v.due ++ [snap]
        sent := v.sent ++ [(now, snap)]
        last := if 0 < s.interval then some now else v.last } (s.messages snap) := by
  have hfresh := fresh_of_plain (s.plain snap)
  refine ⟨hfresh.1, ?_, ?_, fun hzero => ?_, fun hpos => ?_, fun hpos => ?_⟩
  · have hretried := h.retried
    rw [hfresh.2]
    exact hretried
  · rw [List.map_append]
    exact h.due.append (List.Sublist.refl _)
  · rw [List.map_append]
    exact congrArg (· ++ [snap]) (h.every hzero)
  · rw [List.map_append]
    refine spaced_append (h.spaced hpos) fun prev hprev => htime hpos prev ?_
    rwa [h.last hpos]
  · rw [if_pos hpos]
    simp

theorem item (h : Orderly s v ([] : List (Job T B S X))) (hfresh : Fresh jobs) :
    Orderly s v jobs := by
  refine ⟨hfresh.1, ?_, h.due, h.every, h.spaced, h.last⟩
  rw [hfresh.2]
  exact h.retried

end Orderly

/-- The messages of a key show the snapshots that were sent, or will next. -/
structure Copied (g : T → B → List S) (v : View K T B S) (jobs : List (Job T B S X)) : Prop where
  tidy : Tidy jobs
  shown : v.shown g ++ jobs.flatMap (Job.shows g) = v.sent.map Prod.snd

/-! ## What a job does -/

variable [DecidableEq K]

/-- Do a job of the worker of a key. -/
def Setup.perform (s : Setup T B S X) (k : K) (env : Env K T B) (box : Box K T B S) :
    Job T B S X → Box K T B S × List (Job T B S X)
  | .send topic body =>
      let taken := env.accepts k topic body
      ({ box with sends := box.sends ++ [⟨k, topic, body, taken⟩] },
        if taken then [] else [.keep body])
  | .keep body =>
      let stored := s.store && env.stores body
      ({ box with
          errorQueue := if stored then body :: box.errorQueue else box.errorQueue
          retries := box.retries ++ [(k, body, stored)] }, [])
  | .snapshot snap =>
      let due := box.due ++ [(k, snap)]
      if s.throttled box env.now k then ({ box with due := due }, [])
      else
        ({ box with
            due := due
            last := if 0 < s.interval then Function.update box.last k (some env.now) else box.last
            sent := box.sent ++ [(k, env.now, snap)] }, s.messages snap)
  | .other _ => (box, [])

/-- What an outbox has of a key. -/
def Box.view (box : Box K T B S) (k : K) : View K T B S where
  sends := box.sends.filter fun m => m.key = k
  retried := (box.retries.filter fun r => r.1 = k).map fun r => r.2.1
  due := (box.due.filter fun d => d.1 = k).map Prod.snd
  sent := (box.sent.filter fun d => d.1 = k).map Prod.snd
  last := box.last k

section Views

variable (s : Setup T B S X) (k : K) (env : Env K T B) (box : Box K T B S)

theorem view_send (topic : T) (body : B) :
    (s.perform k env box (.send topic body)).1.view k =
      { box.view k with
        sends := (box.view k).sends ++ [⟨k, topic, body, env.accepts k topic body⟩] } := by
  simp [Setup.perform, Box.view]

theorem view_keep (body : B) : (s.perform k env box (.keep body)).1.view k =
    { box.view k with retried := (box.view k).retried ++ [body] } := by
  simp [Setup.perform, Box.view]

theorem view_snapshot (snap : S) : (s.perform k env box (.snapshot snap)).1.view k =
    if s.throttled box env.now k then { box.view k with due := (box.view k).due ++ [snap] }
    else
      { box.view k with
        due := (box.view k).due ++ [snap]
        sent := (box.view k).sent ++ [(env.now, snap)]
        last := if 0 < s.interval then some env.now else (box.view k).last } := by
  rw [Setup.perform]
  split
  next => simp [Box.view]
  next =>
    split
    next => simp [Box.view]
    next => simp [Box.view]

theorem jobs_snapshot (snap : S) : (s.perform k env box (.snapshot snap)).2 =
    if s.throttled box env.now k then [] else s.messages snap := by
  rw [Setup.perform]
  split
  next => rfl
  next => rfl

/-- A job changes nothing of another key. -/
theorem view_perform_ne {i : K} (hne : i ≠ k) (j : Job T B S X) :
    (s.perform k env box j).1.view i = box.view i := by
  cases j with
  | send topic body => simp [Setup.perform, Box.view, hne.symm]
  | keep body => simp [Setup.perform, Box.view, hne.symm]
  | snapshot snap =>
      rw [Setup.perform]
      split
      next => simp [Box.view, hne.symm]
      next =>
        split
        next => simp [Box.view, hne.symm, Function.update_of_ne hne]
        next => simp [Box.view, hne.symm]
  | other x => rfl

/-- A job shows what it has to, if the messages of snapshots show nothing. -/
theorem shown_perform {f : T → B → List W}
    (hnone : ∀ snap, (s.messages snap).flatMap (Job.shows f) = []) (j : Job T B S X) :
    ((s.perform k env box j).1.view k).shown f ++
        (s.perform k env box j).2.flatMap (Job.shows f) =
      (box.view k).shown f ++ j.shows f := by
  cases j with
  | send topic body =>
      have hjobs : (s.perform k env box (.send topic body)).2.flatMap (Job.shows f) = [] := by
        rw [Setup.perform]
        split
        next => rfl
        next => rfl
      rw [hjobs, view_send]
      simp [View.shown, Job.shows]
  | keep body => rfl
  | snapshot snap =>
      rw [view_snapshot, jobs_snapshot]
      split
      next => rfl
      next => exact congrArg (_ ++ ·) (hnone snap)
  | other x => rfl

theorem due_perform (j : Job T B S X) :
    ((s.perform k env box j).1.view k).due ++ (s.perform k env box j).2.flatMap Job.snapshots =
      (box.view k).due ++ j.snapshots := by
  cases j with
  | send topic body =>
      rw [Setup.perform]
      split
      next => rfl
      next => rfl
  | keep body => rfl
  | snapshot snap =>
      have hmessages : (s.messages snap).flatMap Job.snapshots = [] := by
        rw [List.flatMap_eq_nil_iff]
        exact fun j hj => (s.plain snap j hj).snapshots_eq_nil
      rw [view_snapshot, jobs_snapshot]
      split
      next => exact List.append_nil _
      next => exact (congrArg ((box.view k).due ++ [snap] ++ ·) hmessages).trans (List.append_nil _)
  | other x => rfl

end Views

theorem Orderly.step {box : Box K T B S} (k : K) (env : Env K T B) {j : Job T B S X}
    (h : Orderly s (box.view k) (j :: jobs)) :
    Orderly s ((s.perform k env box j).1.view k) ((s.perform k env box j).2 ++ jobs) := by
  cases j with
  | send topic body =>
      rw [view_send]
      exact h.send _
  | keep body =>
      rw [view_keep]
      exact h.keep
  | snapshot snap =>
      obtain rfl := h.tidy.snapshot
      rw [view_snapshot, List.append_nil, jobs_snapshot]
      split
      next hthrottled =>
        refine h.early ?_
        rw [Setup.throttled, Bool.and_eq_true, decide_eq_true_eq] at hthrottled
        exact hthrottled.1
      next htime =>
        refine h.snapshot fun hpos prev hprev => ?_
        by_contra hlt
        refine htime ?_
        rw [Setup.throttled, Bool.and_eq_true, decide_eq_true_eq]
        refine ⟨hpos, ?_⟩
        rw [show box.last k = some prev from hprev, Option.any_some, decide_eq_true_eq]
        omega
  | other x => exact ⟨h.tidy.tail.1, h.retried, h.due, h.every, h.spaced, h.last⟩

namespace Copied

variable {g : T → B → List S} {box : Box K T B S}

theorem step (k : K) (env : Env K T B)
    (hmessages : ∀ snap, (s.messages snap).flatMap (Job.shows g) = [snap]) {j : Job T B S X}
    (h : Copied g (box.view k) (j :: jobs)) :
    Copied g ((s.perform k env box j).1.view k) ((s.perform k env box j).2 ++ jobs) := by
  have hshown := h.shown
  cases j with
  | send topic body =>
      rw [view_send]
      refine ⟨h.tidy.tail.sent _ body, ?_⟩
      rw [Setup.perform, List.flatMap_append]
      rw [List.flatMap_cons, ← List.append_assoc] at hshown
      split
      next => simpa [View.shown, Job.shows] using hshown
      next => simpa [View.shown, Job.shows] using hshown
  | keep body =>
      rw [view_keep]
      exact ⟨h.tidy.tail.1, hshown⟩
  | snapshot snap =>
      obtain rfl := h.tidy.snapshot
      rw [view_snapshot, List.append_nil, jobs_snapshot]
      split
      next => exact ⟨.nil, hshown⟩
      next =>
        refine ⟨(fresh_of_plain (s.plain snap)).1, ?_⟩
        rw [hmessages, List.map_append, ← hshown]
        exact congrArg (· ++ [snap]) (List.append_nil _).symm
  | other x => exact ⟨h.tidy.tail.1, hshown⟩

end Copied

/-! ## All workers -/

variable {α σ O N : Type} {b : Behaviour K α σ (Job T B S X) O N}

/-- Workers that use an outbox, which is a part of their output. -/
structure Uses (b : Behaviour K α σ (Job T B S X) O N) (s : Setup T B S X) where
  box : O → Box K T B S
  env : N → Env K T B
  perform : ∀ k st n o j, (box (b.perform k st n o j).1, (b.perform k st n o j).2) =
    s.perform k (env n) (box o) j
  fresh : ∀ k st a, Fresh (b.take k st a).1

namespace Uses

variable (u : Uses b s) {k : K} {st : σ} {n : N} {o : O} {j : Job T B S X}

theorem box_perform (k : K) (st : σ) (n : N) (o : O) (j : Job T B S X) :
    u.box (b.perform k st n o j).1 = (s.perform k (u.env n) (u.box o) j).1 :=
  congrArg Prod.fst (u.perform k st n o j)

theorem jobs_perform (k : K) (st : σ) (n : N) (o : O) (j : Job T B S X) :
    (b.perform k st n o j).2 = (s.perform k (u.env n) (u.box o) j).2 :=
  congrArg Prod.snd (u.perform k st n o j)

theorem view_others {k i : K} (st : σ) (n : N) (o : O) (j : Job T B S X) (hne : i ≠ k) :
    (u.box (b.perform k st n o j).1).view i = (u.box o).view i := by
  rw [u.box_perform]
  exact view_perform_ne s k (u.env n) (u.box o) hne j

/-- What messages show of their worker, if those of snapshots show nothing. -/
def shown (f : K → T → B → List W)
    (hnone : ∀ k snap, (s.messages snap).flatMap (Job.shows (f k)) = []) : Account b W where
  shown k o := ((u.box o).view k).shown (f k)
  due k := Job.shows (f k)
  pays k st n o j := by
    rw [u.box_perform, u.jobs_perform]
    exact shown_perform s k (u.env n) (u.box o) (hnone k) j
  others k i st n o j hne := congrArg (View.shown · (f i)) (u.view_others st n o j hne)

/-- The snapshots that are due. -/
def due : Account b S where
  shown k o := ((u.box o).view k).due
  due _ := Job.snapshots
  pays k st n o j := by
    rw [u.box_perform, u.jobs_perform]
    exact due_perform s k (u.env n) (u.box o) j
  others k i st n o j hne := congrArg View.due (u.view_others st n o j hne)

/-- Every worker is orderly. -/
def orderly : Local b (View K T B S) where
  view k o := (u.box o).view k
  holds _ v _ := Orderly s v
  others k i st n o j hne := u.view_others st n o j hne
  job k st n o taken j jobs h := by
    rw [u.box_perform, u.jobs_perform]
    exact h.step k (u.env n)
  item k v taken a h := h.item (u.fresh k (b.after k taken) a)

/-- Snapshots are copied to the messages that show them. -/
def copied {g : T → B → List S}
    (hmessages : ∀ snap, (s.messages snap).flatMap (Job.shows g) = [snap])
    (hnone : ∀ k st a, (b.take k st a).1.flatMap (Job.shows g) = []) :
    Local b (View K T B S) where
  view k o := (u.box o).view k
  holds _ v _ := Copied g v
  others k i st n o j hne := u.view_others st n o j hne
  job k st n o taken j jobs h := by
    rw [u.box_perform, u.jobs_perform]
    exact h.step k (u.env n) hmessages
  item k v taken a h := by
    refine ⟨(u.fresh k (b.after k taken) a).1, ?_⟩
    rw [hnone]
    exact h.shown

/-- The jobs of an outbox cost a step each, and one more for a message that may be refused. -/
def cost : Cost b where
  cost
    | .send .. => 2
    | .keep _ | .other _ => 1
    | .snapshot snap => 2 * (s.messages snap).length + 1
  pos j := by cases j <;> exact Nat.succ_pos _
  drops k st n o j := by
    rw [u.jobs_perform]
    cases j with
    | send topic body =>
        rw [Setup.perform]
        split
        next => exact Nat.two_pos
        next => exact Nat.one_lt_two
    | keep body => exact Nat.one_pos
    | snapshot snap =>
        rw [Setup.perform]
        split
        next => exact Nat.succ_pos _
        next =>
          refine Nat.lt_succ_of_le ((List.sum_le_card_nsmul _ 2 fun c hc => ?_).trans ?_)
          · obtain ⟨j, hj, rfl⟩ := List.mem_map.mp hc
            have hplain := s.plain snap j hj
            cases j with
            | send topic body => exact le_rfl
            | other x => exact Nat.one_le_ofNat
            | keep body => exact hplain.elim
            | snapshot snap => exact hplain.elim
          · rw [List.length_map, smul_eq_mul, mul_comm]
    | other x => exact Nat.one_pos

section Reached

variable {capacity : Nat} {keys : List K} {out : O} {ok : α → Prop} {R : O → O → Prop}
  {p : Pool K α σ (Job T B S X) O} (h : Pool.Reach b capacity keys out ok R p)
  (hout : u.box out = {}) (hR : ∀ o o', R o o' → u.box o' = u.box o)

include h hout hR

/-- The store has the bodies it took, the last one in front. -/
theorem errorQueue_eq : (u.box p.out).errorQueue =
    (((u.box p.out).retries.filter fun r => r.2.2).map fun r => r.2.1).reverse := by
  refine h.output (P := fun o => (u.box o).errorQueue =
    (((u.box o).retries.filter fun r => r.2.2).map fun r => r.2.1).reverse) (by rw [hout]; rfl)
    (fun k st n o j ho => ?_) fun o o' hR' ho => by rw [hR o o' hR']; exact ho
  rw [u.box_perform]
  cases j with
  | send topic body => exact ho
  | keep body =>
      rw [Setup.perform]
      cases s.store && (u.env n).stores body with
      | true => simp [ho]
      | false => simp [ho]
  | snapshot snap =>
      rw [Setup.perform]
      split
      next => exact ho
      next => exact ho
  | other x => exact ho

theorem shown_reach (f : K → T → B → List W)
    (hnone : ∀ k snap, (s.messages snap).flatMap (Job.shows (f k)) = [])
    {w : Worker α σ (Job T B S X)} (hw : p.worker k = some w) :
    ((u.box p.out).view k).shown (f k) ++ w.jobs.flatMap (Job.shows (f k)) =
      (b.jobsOf k w.taken).flatMap (Job.shows (f k)) :=
  h.balanced (u.shown f hnone) (fun k => congrArg (fun box => (Box.view box k).shown (f k)) hout)
    (fun o o' hR' k => congrArg (fun box => (Box.view box k).shown (f k)) (hR o o' hR')) hw

theorem due_reach {w : Worker α σ (Job T B S X)} (hw : p.worker k = some w) :
    ((u.box p.out).view k).due ++ w.jobs.flatMap Job.snapshots =
      (b.jobsOf k w.taken).flatMap Job.snapshots :=
  h.balanced u.due (fun k => congrArg (fun box => (Box.view box k).due) hout)
    (fun o o' hR' k => congrArg (fun box => (Box.view box k).due) (hR o o' hR')) hw

theorem orderly_reach {w : Worker α σ (Job T B S X)} (hw : p.worker k = some w) :
    Orderly s ((u.box p.out).view k) w.jobs := by
  refine h.everywhere u.orderly (fun k => ?_) (fun o o' hR' k => ?_) k w hw
  · have hnew : Orderly s (({} : Box K T B S).view k) [] :=
      ⟨.nil, rfl, .slnil, fun _ => rfl, fun _ => .nil, fun _ => rfl⟩
    rwa [← hout] at hnew
  · exact congrArg (Box.view · k) (hR o o' hR')

theorem copied_reach {g : T → B → List S}
    (hmessages : ∀ snap, (s.messages snap).flatMap (Job.shows g) = [snap])
    (hnone : ∀ k st a, (b.take k st a).1.flatMap (Job.shows g) = [])
    {w : Worker α σ (Job T B S X)} (hw : p.worker k = some w) :
    Copied g ((u.box p.out).view k) w.jobs := by
  refine h.everywhere (u.copied hmessages hnone) (fun k => ?_) (fun o o' hR' k => ?_) k w hw
  · have hnew : Copied g (({} : Box K T B S).view k) ([] : List (Job T B S X)) := ⟨.nil, rfl⟩
    rwa [← hout] at hnew
  · exact congrArg (Box.view · k) (hR o o' hR')

end Reached

end Uses

end Outbox
