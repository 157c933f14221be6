import Mathlib

/-!
# Machines that apply a log

A machine takes an entry and its state to an output and the next state.  Its run
over a log is the list of the entries with their outputs, and the state at the end.

Two logs are related by leaving entries out.  `run_filter` leaves out entries that
a part of the state does not depend on.  `run_keepFirst` leaves out entries whose
key came before, for a machine that ignores a key it has seen.  In both cases the
outputs of the entries that stay are the same, one by one.
-/

namespace Log

variable {σ α β κ : Type} (step : σ → α → β × σ)

/-- Apply the entries of a log one after the other. -/
def run (s : σ) : List α → List (α × β) × σ
  | [] => ([], s)
  | a :: log =>
      let r := step s a
      let rest := run r.2 log
      ((a, r.1) :: rest.1, rest.2)

theorem run_append (s : σ) (log more : List α) :
    run step s (log ++ more) =
      ((run step s log).1 ++ (run step (run step s log).2 more).1,
        (run step (run step s log).2 more).2) := by
  induction log generalizing s with
  | nil => rfl
  | cons a log ih => simp [run, ih]

/-- What every step keeps holds at the end of a run. -/
theorem run_invariant {P : σ → Prop} (hstep : ∀ s a, P s → P (step s a).2) {s : σ} (h : P s)
    (log : List α) : P (run step s log).2 := by
  induction log generalizing s with
  | nil => exact h
  | cons a log ih => exact ih (hstep s a h)

/-- A machine that reports something else of its outputs. -/
theorem run_map {γ : Type} (f : α → β → γ) (s : σ) (log : List α) :
    run (fun s a => (f a (step s a).1, (step s a).2)) s log =
      ((run step s log).1.map fun c => (c.1, f c.1 c.2), (run step s log).2) := by
  induction log generalizing s with
  | nil => rfl
  | cons a log ih => simp [run, ih]

/-! ## Entries that do not matter -/

/-- A part of the state that the entries outside `p` do not touch, and that
determines the outputs of the entries inside, is the same without the others. -/
theorem run_filter {p : α → Bool} {R : σ → σ → Prop}
    (hskip : ∀ s t a, p a = false → R s t → R (step s a).2 t)
    (hkeep : ∀ s t a, p a = true → R s t →
      (step s a).1 = (step t a).1 ∧ R (step s a).2 (step t a).2)
    {s t : σ} (h : R s t) (log : List α) :
    (run step t (log.filter p)).1 = (run step s log).1.filter (fun x => p x.1) ∧
      R (run step s log).2 (run step t (log.filter p)).2 := by
  induction log generalizing s t with
  | nil => exact ⟨rfl, h⟩
  | cons a log ih =>
      cases hp : p a with
      | false =>
          simp only [run, List.filter_cons, hp, Bool.false_eq_true, if_false]
          exact ih (hskip s t a hp h)
      | true =>
          obtain ⟨hout, hR⟩ := hkeep s t a hp h
          simp only [run, List.filter_cons, hp, if_true, hout]
          exact ⟨congrArg _ (ih hR).1, (ih hR).2⟩

/-! ## Repeated keys -/

variable [DecidableEq κ]

/-- The entries whose key is new, given the keys that came before. -/
def keepFirst (key : α → κ) (seen : List κ) : List α → List α
  | [] => []
  | a :: log =>
      if key a ∈ seen then keepFirst key seen log
      else a :: keepFirst key (key a :: seen) log

/-- A machine that ignores the keys it has seen (`S`) runs as on the first entry of each key. -/
theorem run_keepFirst {key : α → κ} {S : σ → κ → Prop}
    (hskip : ∀ s a, S s (key a) → (step s a).2 = s)
    (hseen : ∀ s a k, ¬ S s (key a) → (S (step s a).2 k ↔ k = key a ∨ S s k))
    {s : σ} {seen : List κ} (h : ∀ k, k ∈ seen ↔ S s k) (log : List α) :
    run step s (keepFirst key seen log) =
      (keepFirst (fun x => key x.1) seen (run step s log).1, (run step s log).2) := by
  induction log generalizing s seen with
  | nil => rfl
  | cons a log ih =>
      simp only [run, keepFirst]
      split
      next hmem => rw [hskip s a ((h _).mp hmem), ih h]
      next hmem =>
        have hnew : ∀ k, k ∈ key a :: seen ↔ S (step s a).2 k := by
          intro k
          rw [List.mem_cons, h, hseen s a k (fun hs => hmem ((h _).mpr hs))]
        simp only [run, ih hnew]

end Log
