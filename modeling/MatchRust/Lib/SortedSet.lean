import Mathlib.Data.List.Sort
import Mathlib.Order.Compare

/-!
# Ordered sets

An ordered set over a comparator `cmp`, as the list of its elements in
ascending order.  `insert` and `take` search the list in the direction the
comparator gives: they pass the elements below the one they look for, and stop
at the first that is equal or above.  An equal element blocks an insertion, as
it does in a search tree.

The comparator need not be lawful everywhere.  The lemmas ask that it decides
the order of a rank `rank : α → κ` between the element at hand and the elements
of the list (`Ranks`), which is all a search uses.  Under that condition
`insert` is the ordered insertion of Mathlib.
-/

namespace SortedSet

variable {α : Type*}

section Operations

variable (cmp : α → α → Ordering)

/-- Insert `x`, and say whether the set changed.  An element that compares
equal to `x` is kept and `x` is dropped. -/
def insert (x : α) : List α → Bool × List α
  | [] => (true, [x])
  | y :: ys =>
      match cmp x y with
      | .lt => (true, x :: y :: ys)
      | .eq => (false, y :: ys)
      | .gt => ((insert x ys).1, y :: (insert x ys).2)

/-- Remove and return the element that compares equal to `key`. -/
def take (key : α) : List α → Option α × List α
  | [] => (none, [])
  | y :: ys =>
      match cmp key y with
      | .lt => (none, y :: ys)
      | .eq => (some y, ys)
      | .gt => ((take key ys).1, y :: (take key ys).2)

end Operations

section Lemmas

variable {cmp : α → α → Ordering}

/-- An element below the head goes to the front. -/
theorem insert_cons_of_lt {x y : α} {ys : List α} (h : cmp x y = .lt) :
    insert cmp x (y :: ys) = (true, x :: y :: ys) := by
  simp [insert, h]

/-- An element below every other goes to the front. -/
theorem insert_of_forall_lt {x : α} {l : List α} (h : ∀ y ∈ l, cmp x y = .lt) :
    insert cmp x l = (true, x :: l) := by
  cases l with
  | nil => rfl
  | cons y ys => exact insert_cons_of_lt (h y (List.mem_cons_self ..))

/-- The search of `take` passes the elements below the key. -/
theorem take_append {key y : α} {l₁ l₂ : List α} (hgt : ∀ z ∈ l₁, cmp key z = .gt)
    (heq : cmp key y = .eq) : take cmp key (l₁ ++ y :: l₂) = (some y, l₁ ++ l₂) := by
  induction l₁ with
  | nil => simp [take, heq]
  | cons z l₁ ih =>
      have hz := hgt z (List.mem_cons_self ..)
      have ih' := ih fun w hw => hgt w (List.mem_cons_of_mem _ hw)
      simp [take, hz, ih']

/-- An element that compares equal blocks the insertion, also behind those that
are below. -/
theorem insert_append {x y : α} {l₁ l₂ : List α} (hgt : ∀ z ∈ l₁, cmp x z = .gt)
    (heq : cmp x y = .eq) : insert cmp x (l₁ ++ y :: l₂) = (false, l₁ ++ y :: l₂) := by
  induction l₁ with
  | nil => simp [insert, heq]
  | cons z l₁ ih =>
      have hz := hgt z (List.mem_cons_self ..)
      have ih' := ih fun w hw => hgt w (List.mem_cons_of_mem _ hw)
      simp [insert, hz, ih']

/-- A removal leaves the other elements in their order. -/
theorem take_sublist (key : α) (l : List α) : (take cmp key l).2.Sublist l := by
  induction l with
  | nil => exact List.Sublist.slnil
  | cons y ys ih =>
      cases h : cmp key y with
      | lt => simp [take, h]
      | eq => simp [take, h]
      | gt => simpa [take, h] using ih

variable {κ : Type*} [LinearOrder κ] (rank : α → κ)

/-- `cmp` decides the order of the ranks between `x` and the members of `l`, and
none of them has the rank of `x`. -/
def Ranks (cmp : α → α → Ordering) (x : α) (l : List α) : Prop :=
  ∀ y ∈ l, (cmp x y).Compares (rank x) (rank y) ∧ rank x ≠ rank y

theorem Ranks.tail {x y : α} {l : List α} (h : Ranks rank cmp x (y :: l)) : Ranks rank cmp x l :=
  fun z hz => h z (List.mem_cons_of_mem _ hz)

/-- Where the comparator decides the ranks, insertion is ordered insertion. -/
theorem insert_eq_orderedInsert {x : α} {l : List α} (h : Ranks rank cmp x l) :
    insert cmp x l = (true, l.orderedInsert (fun a b => rank a ≤ rank b) x) := by
  induction l with
  | nil => rfl
  | cons y l ih =>
      obtain ⟨hc, hne⟩ := h y (List.mem_cons_self ..)
      have ih' := ih (Ranks.tail rank h)
      cases hxy : cmp x y with
      | lt =>
          rw [hxy] at hc
          have hle : rank x ≤ rank y := le_of_lt hc
          simp [insert, hxy, List.orderedInsert_cons, hle]
      | eq =>
          rw [hxy] at hc
          exact absurd hc hne
      | gt =>
          rw [hxy] at hc
          have hnle : ¬ rank x ≤ rank y := not_le_of_gt hc
          simp [insert, hxy, List.orderedInsert_cons, hnle, ih']

/-- Ordered insertion of an element at or below every other. -/
theorem orderedInsert_eq_cons {x : α} {l : List α} (h : ∀ y ∈ l, rank x ≤ rank y) :
    l.orderedInsert (fun a b => rank a ≤ rank b) x = x :: l := by
  cases l with
  | nil => rfl
  | cons y l => rw [List.orderedInsert_cons, if_pos (h y (List.mem_cons_self ..))]

/-- Ordered insertion keeps a list strictly sorted, at a rank the list lacks. -/
theorem pairwise_orderedInsert {x : α} {l : List α} (hl : l.Pairwise fun a b => rank a < rank b)
    (hx : ∀ y ∈ l, rank x ≠ rank y) :
    (l.orderedInsert (fun a b => rank a ≤ rank b) x).Pairwise fun a b => rank a < rank b := by
  induction l with
  | nil => simp
  | cons y l ih =>
      obtain ⟨hy, hl'⟩ := List.pairwise_cons.mp hl
      have hxy := hx y (List.mem_cons_self ..)
      rw [List.orderedInsert_cons]
      split
      next hle =>
        have hlt : rank x < rank y := lt_of_le_of_ne hle hxy
        refine List.pairwise_cons.mpr ⟨fun z hz => ?_, hl⟩
        cases List.mem_cons.mp hz with
        | inl h => exact h ▸ hlt
        | inr h => exact hlt.trans (hy z h)
      next hnle =>
        have hlt : rank y < rank x := lt_of_not_ge hnle
        refine List.pairwise_cons.mpr ⟨fun z hz => ?_, ?_⟩
        · cases (List.mem_orderedInsert _).mp hz with
          | inl h => exact h ▸ hlt
          | inr h => exact hy z h
        · exact ih hl' fun z hz => hx z (List.mem_cons_of_mem _ hz)

/-- An ordered insertion commutes with a map, if both compare the new element
alike. -/
theorem map_orderedInsert {β : Type*} {r : α → α → Prop} {s : β → β → Prop} [DecidableRel r]
    [DecidableRel s] (f : α → β) {x : α} {l : List α} (h : ∀ y ∈ l, r x y ↔ s (f x) (f y)) :
    (l.orderedInsert r x).map f = (l.map f).orderedInsert s (f x) := by
  induction l with
  | nil => rfl
  | cons y l ih =>
      have hy := h y (List.mem_cons_self ..)
      rw [List.map_cons, List.orderedInsert_cons, List.orderedInsert_cons]
      by_cases hr : r x y
      · rw [if_pos hr, if_pos (hy.mp hr), List.map_cons, List.map_cons]
      · rw [if_neg hr, if_neg (hy.not.mp hr), List.map_cons,
          ih fun z hz => h z (List.mem_cons_of_mem _ hz)]

end Lemmas

end SortedSet
