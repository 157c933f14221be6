import MatchRust.Lib.SortedSet

/-!
# Search trees

A search tree over a comparator, and the search for a key from its root.  A
node with several elements, as a B-tree has them, is a chain of nodes to the
right: its search, too, passes the elements below the key one by one and goes
down before the first that is above.

Which way a search goes depends only on how the key compares with the elements.
If the key cuts them in order (`Cut`), first those below it, then at most one
that is equal, then those above, every tree of these elements answers as the
list does, whatever its shape (`find_eq_take`).
-/

namespace SortedSet

variable {α : Type*}

/-! ## Strict orders -/

/-- A comparator is a strict total order on a set: equal at one element only,
opposite in its two directions, and transitive. -/
structure StrictOrderOn (cmp : α → α → Ordering) (s : Set α) : Prop where
  eq_iff : ∀ a ∈ s, ∀ b ∈ s, cmp a b = .eq ↔ a = b
  swap : ∀ a ∈ s, ∀ b ∈ s, cmp b a = (cmp a b).swap
  trans : ∀ a ∈ s, ∀ b ∈ s, ∀ c ∈ s, cmp a b = .lt → cmp b c = .lt → cmp a c = .lt

section Rank

variable {κ : Type*} [LinearOrder κ] {rank : α → κ} {cmp : α → α → Ordering} {s : Set α}

/-- A comparator that decides a rank, which no two elements share, is a strict
total order. -/
theorem StrictOrderOn.of_rank (hinj : s.InjOn rank)
    (h : ∀ a ∈ s, ∀ b ∈ s, (cmp a b).Compares (rank a) (rank b)) : StrictOrderOn cmp s where
  eq_iff a ha b hb := by
    rw [(h a ha b hb).eq_eq]
    exact hinj.eq_iff ha hb
  swap a ha b hb := by
    have hab := h a ha b hb
    have hba := h b hb a ha
    cases hc : cmp a b with
    | lt => exact hba.eq_gt.mpr (hab.eq_lt.mp hc)
    | eq => exact hba.eq_eq.mpr (hab.eq_eq.mp hc).symm
    | gt => exact hba.eq_lt.mpr (hab.eq_gt.mp hc)
  trans a ha b hb c hc hab hbc := by
    have h₁ := (h a ha b hb).eq_lt.mp hab
    have h₂ := (h b hb c hc).eq_lt.mp hbc
    exact (h a ha c hc).eq_lt.mpr (h₁.trans h₂)

end Rank

/-! ## Cuts -/

section Cut

variable {cmp : α → α → Ordering} {key : α}

/-- A key cuts a list: what stands before an element that is not above the key
is below it. -/
def Cut (cmp : α → α → Ordering) (key : α) (l : List α) : Prop :=
  l.Pairwise fun a b => cmp key a = .gt ∨ cmp key b = .lt

/-- A key that is compared by rank cuts a list that is sorted by rank. -/
theorem Cut.of_rank {κ : Type*} [LinearOrder κ] {rank : α → κ} {k : κ} {l : List α}
    (hl : l.Pairwise fun a b => rank a < rank b)
    (h : ∀ a ∈ l, (cmp key a).Compares k (rank a)) : Cut cmp key l := by
  refine hl.imp_of_mem fun {a b} ha hb hab => ?_
  rcases lt_or_ge (rank a) k with hk | hk
  · exact Or.inl ((h a ha).eq_gt.mpr hk)
  · exact Or.inr ((h b hb).eq_lt.mpr (hk.trans_lt hab))

/-- The search of a list passes what is below the key. -/
theorem take_append_of_gt {l₁ : List α} (l₂ : List α) (h : ∀ z ∈ l₁, cmp key z = .gt) :
    (take cmp key (l₁ ++ l₂)).1 = (take cmp key l₂).1 := by
  induction l₁ with
  | nil => rfl
  | cons z l₁ ih =>
      have hz := h z (List.mem_cons_self ..)
      have ih' := ih fun w hw => h w (List.mem_cons_of_mem _ hw)
      simp [take, hz, ih']

/-- The search of a list ends at an element above the key. -/
theorem take_append_of_lt (l₁ : List α) {y : α} (l₂ : List α) (h : cmp key y = .lt) :
    (take cmp key (l₁ ++ y :: l₂)).1 = (take cmp key l₁).1 := by
  induction l₁ with
  | nil => simp [take, h]
  | cons z l₁ ih => cases hz : cmp key z <;> simp [take, hz, ih]

end Cut

/-! ## Trees -/

/-- A binary search tree. -/
inductive SearchTree (α : Type*) where
  | leaf
  | node (left : SearchTree α) (x : α) (right : SearchTree α)

namespace SearchTree

/-- The elements in order. -/
def toList : SearchTree α → List α
  | leaf => []
  | node left x right => left.toList ++ x :: right.toList

/-- Search for the element that compares equal to a key. -/
def find (cmp : α → α → Ordering) (key : α) : SearchTree α → Option α
  | leaf => none
  | node left x right =>
      match cmp key x with
      | .lt => left.find cmp key
      | .eq => some x
      | .gt => right.find cmp key

/-- Where the key cuts the elements, a tree of any shape finds what the list of
them has. -/
theorem find_eq_take {cmp : α → α → Ordering} {key : α} {t : SearchTree α}
    (h : Cut cmp key t.toList) : t.find cmp key = (take cmp key t.toList).1 := by
  induction t with
  | leaf => rfl
  | node left x right ihl ihr =>
      obtain ⟨hl, hxr, hcross⟩ := List.pairwise_append.mp h
      have hr := (List.pairwise_cons.mp hxr).2
      -- Unless the element is above the key, all that is left of it is below.
      have hleft : cmp key x ≠ .lt → ∀ z ∈ left.toList, cmp key z = .gt := fun hx z hz =>
        (hcross z hz x (List.mem_cons_self ..)).resolve_right hx
      cases hx : cmp key x with
      | lt =>
          rw [toList, take_append_of_lt _ _ hx, ← ihl hl]
          simp [find, hx]
      | eq =>
          rw [toList, take_append (hleft (by simp [hx])) hx]
          simp [find, hx]
      | gt =>
          rw [toList, take_append_of_gt _ (hleft (by simp [hx]))]
          simp [find, take, hx, ihr hr]

end SearchTree

end SortedSet
