import Mathlib

/-!
# Numbered messages

A sender numbers its messages one after the other.  `numbered n xs` is the list of
messages `xs` with their numbers, the first of which is `n`.  Windows, gaps and replays
are parts of such a list, cut out by position or by number.
-/

namespace Numbered

variable {α : Type}

/-- Number the messages of a list. -/
def numbered : Nat → List α → List (Nat × α)
  | _, [] => []
  | n, a :: xs => (n, a) :: numbered (n + 1) xs

@[simp] theorem numbered_nil (n : Nat) : numbered n ([] : List α) = [] := rfl

@[simp] theorem numbered_cons (n : Nat) (a : α) (xs : List α) :
    numbered n (a :: xs) = (n, a) :: numbered (n + 1) xs := rfl

@[simp] theorem length_numbered (n : Nat) (xs : List α) : (numbered n xs).length = xs.length := by
  induction xs generalizing n with
  | nil => rfl
  | cons a xs ih => simp [ih]

theorem numbered_append (n : Nat) (xs ys : List α) :
    numbered n (xs ++ ys) = numbered n xs ++ numbered (n + xs.length) ys := by
  induction xs generalizing n with
  | nil => rfl
  | cons a xs ih => simp [ih, Nat.add_right_comm, Nat.add_assoc]

@[simp] theorem map_snd_numbered (n : Nat) (xs : List α) : (numbered n xs).map Prod.snd = xs := by
  induction xs generalizing n with
  | nil => rfl
  | cons a xs ih => simp [ih]

theorem map_fst_numbered (n : Nat) (xs : List α) :
    (numbered n xs).map Prod.fst = List.range' n xs.length := by
  induction xs generalizing n with
  | nil => rfl
  | cons a xs ih => simp [ih, List.range'_succ]

/-- Consecutive numbers, given to the first messages of a list one by one. -/
theorem zip_range'_eq_numbered (n : Nat) {xs ys : List α} (h : xs <+: ys) :
    (List.range' n xs.length).zip ys = numbered n xs := by
  obtain ⟨rest, rfl⟩ := h
  induction xs generalizing n with
  | nil => simp
  | cons a xs ih => simp [List.range'_succ, ih]

/-- A message has a number if it stands at that position. -/
theorem mem_numbered {n s : Nat} {a : α} {xs : List α} :
    (s, a) ∈ numbered n xs ↔ n ≤ s ∧ xs[s - n]? = some a := by
  induction xs generalizing n with
  | nil => simp
  | cons b xs ih =>
      rw [numbered_cons, List.mem_cons, ih, Prod.mk.injEq]
      rcases Nat.lt_trichotomy s n with h | rfl | h
      · simp [Nat.not_le.mpr h, Nat.not_le.mpr (Nat.lt_succ_of_lt h), h.ne]
      · simp [eq_comm]
      · have hsub : s - n = s - (n + 1) + 1 := by omega
        simp [hsub, h.ne', Nat.succ_le_of_lt h, h.le]

/-- The numbers of consecutive messages are below the next number. -/
theorem lt_of_mem_numbered {n : Nat} {r : Nat × α} {xs : List α} (h : r ∈ numbered n xs) :
    n ≤ r.1 ∧ r.1 < n + xs.length := by
  obtain ⟨s, a⟩ := r
  obtain ⟨hle, hget⟩ := mem_numbered.mp h
  have hlt := (List.getElem?_eq_some_iff.mp hget).1
  exact ⟨hle, by omega⟩

theorem pairwise_numbered (n : Nat) (xs : List α) :
    (numbered n xs).Pairwise fun r q => r.1 < q.1 := by
  induction xs generalizing n with
  | nil => exact List.Pairwise.nil
  | cons a xs ih => exact List.Pairwise.cons (fun r hr => (lt_of_mem_numbered hr).1) (ih (n + 1))

theorem drop_numbered (n k : Nat) (xs : List α) :
    (numbered n xs).drop k = numbered (n + k) (xs.drop k) := by
  induction k generalizing n xs with
  | zero => simp
  | succ k ih =>
      cases xs with
      | nil => simp
      | cons a xs =>
          rw [numbered_cons, List.drop_succ_cons, ih, List.drop_succ_cons]
          congr 1
          omega

theorem take_numbered (n k : Nat) (xs : List α) :
    (numbered n xs).take k = numbered n (xs.take k) := by
  induction xs generalizing n k with
  | nil => simp
  | cons a xs ih =>
      cases k with
      | zero => rfl
      | succ k => simp [ih]

/-- The first messages of a numbered list are numbered from the same number on. -/
theorem numbered_map_snd_of_prefix {n : Nat} {rs : List (Nat × α)} {xs : List α}
    (h : rs <+: numbered n xs) : numbered n (rs.map Prod.snd) = rs := by
  rw [List.prefix_iff_eq_take.mp h, take_numbered, map_snd_numbered]

/-! ## Parts by number -/

theorem filter_lt_numbered (n b : Nat) (xs : List α) :
    (numbered n xs).filter (fun r => r.1 < b) = numbered n (xs.take (b - n)) := by
  induction xs generalizing n with
  | nil => simp
  | cons a xs ih =>
      rw [numbered_cons, List.filter_cons, ih]
      by_cases h : n < b
      · have hsub : b - n = b - (n + 1) + 1 := by omega
        simp [h, hsub]
      · have hsub : b - n = 0 := by omega
        have hsub' : b - (n + 1) = 0 := by omega
        simp [h, hsub, hsub']

theorem filter_le_numbered {n a : Nat} (h : n ≤ a) (xs : List α) :
    (numbered n xs).filter (fun r => a ≤ r.1) = numbered a (xs.drop (a - n)) := by
  have hall : ∀ xs : List α, (numbered a xs).filter (fun r => a ≤ r.1) = numbered a xs := by
    intro xs
    exact List.filter_eq_self.mpr fun r hr => by simpa using (lt_of_mem_numbered hr).1
  induction xs generalizing n with
  | nil => simp
  | cons x xs ih =>
      rcases h.lt_or_eq with hlt | rfl
      · have hsub : a - n = a - (n + 1) + 1 := by omega
        rw [numbered_cons, List.filter_cons, ih hlt, hsub, List.drop_succ_cons]
        simp [hlt]
      · rw [hall, Nat.sub_self, List.drop_zero]

/-- The messages with a number in a range. -/
theorem filter_numbered {n a : Nat} (h : n ≤ a) (b : Nat) (xs : List α) :
    (numbered n xs).filter (fun r => a ≤ r.1 ∧ r.1 < b) =
      numbered a ((xs.drop (a - n)).take (b - a)) := by
  have hsplit : (numbered n xs).filter (fun r => a ≤ r.1 ∧ r.1 < b) =
      ((numbered n xs).filter (fun r => a ≤ r.1)).filter (fun r => r.1 < b) := by
    rw [List.filter_filter]
    exact List.filter_congr fun r _ => by simp [Bool.and_comm]
  rw [hsplit, filter_le_numbered h, filter_lt_numbered]

end Numbered
