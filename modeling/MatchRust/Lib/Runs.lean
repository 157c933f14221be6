import Mathlib

/-!
# Runs of a system

A system has actions, each allowed in some states only.  Its runs start in one state
and take one allowed action after the other.  What is said of every run is said of
every state reached, so the states carry whatever history a statement needs.

Invariants are proved one action at a time (`Reachable.invariant`), and may use that
the state before the action was reached.
-/

namespace Runs

variable {σ α : Type} {act : σ → α → σ} {allowed allowed' : σ → α → Prop} {start s : σ}

/-- The states reached by allowed actions. -/
inductive Reachable (act : σ → α → σ) (allowed : σ → α → Prop) (start : σ) : σ → Prop
  | start : Reachable act allowed start start
  | step {s : σ} (h : Reachable act allowed start s) (a : α) (ha : allowed s a) :
      Reachable act allowed start (act s a)

/-- What holds at the start and is kept by every allowed action holds in every state reached. -/
theorem Reachable.invariant {P : σ → Prop} (hstart : P start)
    (hstep : ∀ s a, Reachable act allowed start s → allowed s a → P s → P (act s a))
    (h : Reachable act allowed start s) : P s := by
  induction h with
  | start => exact hstart
  | step h a ha ih => exact hstep _ a h ha ih

/-- Allowing more reaches more. -/
theorem Reachable.mono (hle : ∀ s a, allowed s a → allowed' s a)
    (h : Reachable act allowed start s) : Reachable act allowed' start s := by
  induction h with
  | start => exact .start
  | step _ a ha ih => exact .step ih a (hle _ a ha)

/-! ## Given actions -/

/-- Every action of a list is allowed when its turn comes. -/
def AllAllowed (act : σ → α → σ) (allowed : σ → α → Prop) (s : σ) : List α → Prop
  | [] => True
  | a :: as => allowed s a ∧ AllAllowed act allowed (act s a) as

instance decidableAllAllowed [∀ s a, Decidable (allowed s a)] :
    ∀ (s : σ) (as : List α), Decidable (AllAllowed act allowed s as)
  | _, [] => inferInstanceAs (Decidable True)
  | s, a :: as =>
      have := decidableAllAllowed (act s a) as
      inferInstanceAs (Decidable (allowed s a ∧ AllAllowed act allowed (act s a) as))

theorem allAllowed_append {as as' : List α} :
    AllAllowed act allowed s (as ++ as') ↔
      AllAllowed act allowed s as ∧ AllAllowed act allowed (as.foldl act s) as' := by
  induction as generalizing s with
  | nil => simp [AllAllowed]
  | cons a as ih =>
      rw [List.cons_append, AllAllowed, AllAllowed, ih, and_assoc]
      rfl

theorem Reachable.foldl (h : Reachable act allowed start s) {as : List α}
    (has : AllAllowed act allowed s as) : Reachable act allowed start (as.foldl act s) := by
  induction as generalizing s with
  | nil => exact h
  | cons a as ih => exact ih (.step h a has.1) has.2

end Runs
