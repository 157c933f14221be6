import Mathlib

/-!
# Sorted association lists

An ordered map is the list of its entries, with strictly growing keys.  Lookup,
insertion and removal are the operations of an ordered map, and iterating over
the map is walking the list.

The entries are what the operations are specified by.  `get_eq_some` and the two
`mem` lemmas turn every statement about a map into one about membership.  A type
that nests ordered maps in itself has to write the list out, so there is no name
for the type of maps here.
-/

namespace SortedMap

variable {κ α : Type} [LinearOrder κ]

/-- The keys grow. -/
def Sorted (m : List (κ × α)) : Prop := m.Pairwise fun p q => p.1 < q.1

/-- The value of a key. -/
def get (k : κ) : List (κ × α) → Option α
  | [] => none
  | (x, a) :: m => if k = x then some a else get k m

/-- Set the value of a key. -/
def insert (k : κ) (a : α) : List (κ × α) → List (κ × α)
  | [] => [(k, a)]
  | (x, b) :: m =>
      if k < x then (k, a) :: (x, b) :: m
      else if k = x then (k, a) :: m
      else (x, b) :: insert k a m

/-- Remove a key. -/
def erase (k : κ) (m : List (κ × α)) : List (κ × α) := m.filter fun p => p.1 ≠ k

variable {m : List (κ × α)} {k x : κ} {a b : α}

theorem Sorted.tail {p : κ × α} (h : Sorted (p :: m)) : Sorted m := h.of_cons

theorem Sorted.head_lt {p q : κ × α} (h : Sorted (p :: m)) (hq : q ∈ m) : p.1 < q.1 :=
  List.rel_of_pairwise_cons h hq

theorem sorted_nil : Sorted ([] : List (κ × α)) := List.Pairwise.nil

/-- A key has the value that stands beside it. -/
theorem get_eq_some (h : Sorted m) : get k m = some a ↔ (k, a) ∈ m := by
  induction m with
  | nil => simp [get]
  | cons p m ih =>
      obtain ⟨y, b⟩ := p
      rw [get, List.mem_cons, Prod.mk.injEq]
      split
      next hk =>
        subst hk
        have hnot : (k, a) ∉ m := fun hm => lt_irrefl k (h.head_lt hm)
        simp [hnot, eq_comm]
      next hk => simp [hk, ih h.tail]

theorem get_eq_none (h : Sorted m) : get k m = none ↔ ∀ a, (k, a) ∉ m := by
  rw [Option.eq_none_iff_forall_ne_some]
  exact forall_congr' fun a => not_congr (get_eq_some h)

/-- A sorted map has one value for a key. -/
theorem Sorted.unique (h : Sorted m) (ha : (k, a) ∈ m) (hb : (k, b) ∈ m) : a = b :=
  Option.some.inj (((get_eq_some h).mpr ha).symm.trans ((get_eq_some h).mpr hb))

theorem mem_insert (h : Sorted m) :
    (x, b) ∈ insert k a m ↔ x = k ∧ b = a ∨ x ≠ k ∧ (x, b) ∈ m := by
  induction m with
  | nil => simp [insert]
  | cons p m ih =>
      obtain ⟨y, c⟩ := p
      rw [insert]
      split
      next hlt =>
        -- The key is smaller than all keys of the map.
        have hne : (x, b) ∈ (y, c) :: m → x ≠ k := by
          rintro hm rfl
          rcases List.mem_cons.mp hm with he | hm
          · exact hlt.ne (congrArg Prod.fst he)
          · exact (hlt.trans (h.head_lt hm)).ne rfl
        rw [List.mem_cons, Prod.mk.injEq]
        exact or_congr_right ⟨fun hm => ⟨hne hm, hm⟩, And.right⟩
      next hlt =>
        split
        next hk =>
          subst hk
          have hne : (x, b) ∈ m → x ≠ k := fun hm => (h.head_lt hm).ne'
          rw [List.mem_cons, List.mem_cons, Prod.mk.injEq, Prod.mk.injEq]
          constructor
          · rintro (hx | hm)
            · exact Or.inl hx
            · exact Or.inr ⟨hne hm, Or.inr hm⟩
          · rintro (hx | ⟨hx, hm | hm⟩)
            · exact Or.inl hx
            · exact absurd hm.1 hx
            · exact Or.inr hm
        next hk =>
          rw [List.mem_cons, List.mem_cons, ih h.tail, Prod.mk.injEq]
          constructor
          · rintro (⟨rfl, rfl⟩ | hx | hx)
            · exact Or.inr ⟨Ne.symm hk, Or.inl ⟨rfl, rfl⟩⟩
            · exact Or.inl hx
            · exact Or.inr ⟨hx.1, Or.inr hx.2⟩
          · rintro (hx | ⟨hx, hm | hm⟩)
            · exact Or.inr (Or.inl hx)
            · exact Or.inl hm
            · exact Or.inr (Or.inr ⟨hx, hm⟩)

theorem sorted_insert (h : Sorted m) : Sorted (insert k a m) := by
  induction m with
  | nil => exact List.pairwise_singleton ..
  | cons p m ih =>
      obtain ⟨y, c⟩ := p
      rw [insert]
      split
      next hlt =>
        refine List.pairwise_cons.mpr ⟨fun q hq => ?_, h⟩
        rcases List.mem_cons.mp hq with rfl | hq
        · exact hlt
        · exact hlt.trans (h.head_lt hq)
      next hlt =>
        split
        next hk =>
          subst hk
          exact List.pairwise_cons.mpr ⟨fun q hq => h.head_lt hq, h.tail⟩
        next hk =>
          refine List.pairwise_cons.mpr ⟨fun q hq => ?_, ih h.tail⟩
          rcases (mem_insert h.tail).mp hq with ⟨hq, -⟩ | ⟨-, hq⟩
          · rw [hq]
            exact lt_of_le_of_ne (not_lt.mp hlt) (Ne.symm hk)
          · exact h.head_lt hq

theorem insert_ne_nil (k : κ) (a : α) (m : List (κ × α)) : insert k a m ≠ [] := by
  cases m with
  | nil => simp [insert]
  | cons p m =>
      rw [insert]
      split_ifs <;> simp

theorem mem_erase : (x, b) ∈ erase k m ↔ x ≠ k ∧ (x, b) ∈ m := by
  rw [erase, List.mem_filter, decide_eq_true_eq, and_comm]

theorem sorted_erase (h : Sorted m) : Sorted (erase k m) := h.filter _

end SortedMap
