import Mathlib.Algebra.BigOperators.Group.List.Basic
import Mathlib.Algebra.Group.Hom.Defs
import Mathlib.Data.List.Basic
import Mathlib.Data.List.Nodup
import Mathlib.Data.List.Pairwise

/-!
# Groups of a list that is ordered by a key

A list whose keys are ordered falls into one run for each key.  Concatenating
the runs in the order of the keys gives the list back.  The order on keys is
any asymmetric relation, and the list only has to respect it.

`keys` are the keys of a list, each once, and `totals` adds up a value over the
elements of each key.  Both commute with maps, and `totals` says what one more
element at the end of the list changes.
-/

namespace Grouping

variable {α κ : Type*} [DecidableEq κ]

/-- The elements of a key. -/
def group (key : α → κ) (k : κ) (l : List α) : List α := l.filter fun a => key a = k

/-- The elements of the other keys. -/
def others (key : α → κ) (k : κ) (l : List α) : List α := l.filter fun a => key a ≠ k

variable {key : α → κ} {k : κ} {a : α}

@[simp] theorem group_nil : group key k [] = [] := rfl

theorem group_cons_self (a : α) (l : List α) :
    group key (key a) (a :: l) = a :: group key (key a) l := by
  simp [group]

theorem group_cons_ne (h : key a ≠ k) (l : List α) : group key k (a :: l) = group key k l := by
  simp [group, h]

theorem others_cons_self (a : α) (l : List α) :
    others key (key a) (a :: l) = others key (key a) l := by
  simp [others]

theorem others_cons_ne (h : key a ≠ k) (l : List α) :
    others key k (a :: l) = a :: others key k l := by
  simp [others, h]

theorem group_append (k : κ) (l l' : List α) :
    group key k (l ++ l') = group key k l ++ group key k l' := List.filter_append ..

theorem mem_group {l : List α} : a ∈ group key k l ↔ a ∈ l ∧ key a = k := by
  simp [group]

theorem mem_others {l : List α} : a ∈ others key k l ↔ a ∈ l ∧ key a ≠ k := by
  simp [others]

/-- A group is not changed by taking out another one. -/
theorem group_others {j : κ} (h : j ≠ k) (l : List α) :
    group key j (others key k l) = group key j l := by
  rw [group, group, others, List.filter_filter]
  refine List.filter_congr fun a _ => ?_
  by_cases ha : key a = j
  · simp [ha, h]
  · simp [ha]

/-- A key in front of which no other comes has its elements in front. -/
theorem group_append_others {l : List α} (h : l.Pairwise fun a b => key b = k → key a = k) :
    group key k l ++ others key k l = l := by
  induction l with
  | nil => rfl
  | cons a l ih =>
      obtain ⟨ha, hl⟩ := List.pairwise_cons.mp h
      by_cases hk : key a = k
      · subst hk
        rw [group_cons_self, others_cons_self, List.cons_append, ih hl]
      · have hnone : group key k l = [] := by
          refine List.filter_eq_nil_iff.mpr fun b hb hbk => ?_
          exact hk (ha b hb (of_decide_eq_true hbk))
        have hl' := ih hl
        rw [hnone, List.nil_append] at hl'
        rw [group_cons_ne hk, others_cons_ne hk, hnone, hl']
        rfl

/-- The runs of a list, in the order of the keys, are the list. -/
theorem flatMap_group {lt : κ → κ → Prop} (hasymm : ∀ a b, lt a b → ¬ lt b a) {ks : List κ}
    {l : List α} (hks : ks.Pairwise lt) (hl : l.Pairwise fun a b => ¬ lt (key b) (key a))
    (hmem : ∀ a ∈ l, key a ∈ ks) : ks.flatMap (fun k => group key k l) = l := by
  induction ks generalizing l with
  | nil =>
      cases l with
      | nil => rfl
      | cons a l => cases hmem a (List.mem_cons_self ..)
  | cons k ks ih =>
      obtain ⟨hk, hks⟩ := List.pairwise_cons.mp hks
      have hfront : l.Pairwise fun a b => key b = k → key a = k := by
        refine hl.imp_of_mem fun {a b} ha _ hab hbk => ?_
        cases List.mem_cons.mp (hmem a ha) with
        | inl h => exact h
        | inr h => exact absurd (hk _ h) (hbk ▸ hab)
      have hrest : ks.flatMap (fun j => group key j l) =
          ks.flatMap (fun j => group key j (others key k l)) := by
        refine List.flatMap_congr fun j hj => (group_others (fun h => ?_) l).symm
        have hlt := hk j hj
        rw [h] at hlt
        exact hasymm k k hlt hlt
      have hsub : (others key k l).Pairwise fun a b => ¬ lt (key b) (key a) :=
        hl.sublist List.filter_sublist
      rw [List.flatMap_cons, hrest, ih hks hsub, group_append_others hfront]
      intro a ha
      obtain ⟨hal, hak⟩ := mem_others.mp ha
      exact (List.mem_cons.mp (hmem a hal)).resolve_left hak

/-! ## Keys and totals -/

/-- The keys of a list, each where it occurs first. -/
def keys (key : α → κ) : List α → List κ
  | [] => []
  | a :: l => key a :: (keys key l).filter fun k => k ≠ key a

theorem mem_keys {l : List α} : k ∈ keys key l ↔ ∃ a ∈ l, key a = k := by
  induction l with
  | nil => simp [keys]
  | cons a l ih =>
      rw [keys, List.mem_cons, List.mem_filter, ih]
      by_cases hk : k = key a
      · simp [hk]
      · simp [hk, Ne.symm hk]

theorem nodup_keys (key : α → κ) (l : List α) : (keys key l).Nodup := by
  induction l with
  | nil => exact List.nodup_nil
  | cons a l ih => exact List.nodup_cons.mpr ⟨by simp, ih.filter _⟩

/-- The keys of an ordered list are in order. -/
theorem pairwise_keys {lt : κ → κ → Prop} (hconn : ∀ a b, a ≠ b → ¬ lt b a → lt a b) {l : List α}
    (hl : l.Pairwise fun a b => ¬ lt (key b) (key a)) : (keys key l).Pairwise lt := by
  induction l with
  | nil => exact List.Pairwise.nil
  | cons a l ih =>
      obtain ⟨ha, hl⟩ := List.pairwise_cons.mp hl
      refine List.pairwise_cons.mpr ⟨fun k hk => ?_, (ih hl).filter _⟩
      obtain ⟨hk, hne⟩ := List.mem_filter.mp hk
      obtain ⟨b, hb, rfl⟩ := mem_keys.mp hk
      exact hconn _ _ (Ne.symm (of_decide_eq_true hne)) (ha b hb)

/-- A further element adds its key, unless it is there. -/
theorem keys_concat (key : α → κ) (l : List α) (a : α) :
    keys key (l ++ [a]) = if key a ∈ keys key l then keys key l else keys key l ++ [key a] := by
  induction l with
  | nil => simp [keys]
  | cons b l ih =>
      rw [List.cons_append, keys, ih, keys]
      by_cases hb : key a = key b
      · have hmem : key a ∈ key b :: (keys key l).filter fun k => k ≠ key b := by simp [hb]
        rw [if_pos hmem]
        split
        next => rfl
        next => simp [hb]
      · by_cases hl : key a ∈ keys key l
        · rw [if_pos hl, if_pos (by simp [hb, hl])]
        · rw [if_neg hl, if_neg (by simp [hb, hl])]
          simp [hb]

/-- In an ordered list, a key that comes again is the last one. -/
theorem keys_eq_concat {lt : κ → κ → Prop} (hconn : ∀ a b, a ≠ b → ¬ lt b a → lt a b) {l : List α}
    (hl : (l ++ [a]).Pairwise fun a b => ¬ lt (key b) (key a)) (h : key a ∈ keys key l) :
    ∃ ks, keys key l = ks ++ [key a] := by
  obtain ⟨hl, -, hlast⟩ := List.pairwise_append.mp hl
  have hsorted := pairwise_keys hconn hl
  rcases List.eq_nil_or_concat' (keys key l) with hnil | ⟨ks, k, hks⟩
  · rw [hnil] at h
    cases h
  · rw [hks] at h hsorted
    rcases List.mem_append.mp h with hmem | hmem
    · obtain ⟨b, hb, rfl⟩ := mem_keys.mp (hks ▸ List.mem_append_right _ (List.mem_singleton_self k))
      have hlt := (List.pairwise_append.mp hsorted).2.2 _ hmem _ (List.mem_singleton_self _)
      exact absurd hlt (hlast b hb a (List.mem_singleton_self a))
    · exact ⟨ks, by rw [hks, List.mem_singleton.mp hmem]⟩

/-- Lists without a common key. -/
theorem keys_append {l l' : List α} (h : ∀ b ∈ l', key b ∉ keys key l) :
    keys key (l ++ l') = keys key l ++ keys key l' := by
  induction l with
  | nil => rfl
  | cons a l ih =>
      have hne : ∀ b ∈ l', key b ≠ key a := by
        intro b hb he
        exact h b hb (by rw [keys, he]; exact List.mem_cons_self)
      have htail : ∀ b ∈ l', key b ∉ keys key l := by
        intro b hb hmem
        refine h b hb ?_
        rw [keys]
        exact List.mem_cons_of_mem _ (List.mem_filter.mpr ⟨hmem, by simpa using hne b hb⟩)
      have hkeep : (keys key l').filter (fun k => k ≠ key a) = keys key l' := by
        refine List.filter_eq_self.mpr fun k hk => ?_
        obtain ⟨b, hb, rfl⟩ := mem_keys.mp hk
        simpa using hne b hb
      rw [List.cons_append, keys, ih htail, List.filter_append, hkeep, keys, List.cons_append]

theorem keys_map {β : Type*} (f : β → α) (l : List β) :
    keys key (l.map f) = keys (fun b => key (f b)) l := by
  induction l with
  | nil => rfl
  | cons b l ih => rw [List.map_cons, keys, keys, ih]

theorem group_map {β : Type*} (f : β → α) (l : List β) :
    group key k (l.map f) = (group (fun b => key (f b)) k l).map f := List.filter_map ..

theorem keys_comp {ι : Type*} [DecidableEq ι] {φ : κ → ι} (hφ : Function.Injective φ)
    (l : List α) : keys (fun a => φ (key a)) l = (keys key l).map φ := by
  induction l with
  | nil => rfl
  | cons a l ih =>
      rw [keys, keys, List.map_cons, ih, List.filter_map]
      simp [Function.comp_def, hφ.eq_iff]

theorem group_comp {ι : Type*} [DecidableEq ι] {φ : κ → ι} (hφ : Function.Injective φ) (k : κ)
    (l : List α) : group (fun a => φ (key a)) (φ k) l = group key k l := by
  simp [group, hφ.eq_iff]

section Totals

variable {Q : Type*} [AddCommMonoid Q] {val : α → Q}

/-- The sum of a value over the elements of a key. -/
def total (key : α → κ) (val : α → Q) (l : List α) (k : κ) : Q := ((group key k l).map val).sum

/-- The keys of a list with their totals. -/
def totals (key : α → κ) (val : α → Q) (l : List α) : List (κ × Q) :=
  (keys key l).map fun k => (k, total key val l k)

theorem total_concat_self (l : List α) (a : α) :
    total key val (l ++ [a]) (key a) = total key val l (key a) + val a := by
  simp [total, group_append, group_cons_self]

theorem total_concat_ne (h : key a ≠ k) (l : List α) :
    total key val (l ++ [a]) k = total key val l k := by
  simp [total, group_append, group_cons_ne h]

theorem total_of_not_mem {l : List α} (h : k ∉ keys key l) : total key val l k = 0 := by
  have hnone : group key k l = [] := by
    refine List.filter_eq_nil_iff.mpr fun b hb hbk => h (mem_keys.mpr ⟨b, hb, ?_⟩)
    exact of_decide_eq_true hbk
  rw [total, hnone, List.map_nil, List.sum_nil]

/-- An element of a new key. -/
theorem totals_concat_new (val : α → Q) {l : List α} (h : key a ∉ keys key l) :
    totals key val (l ++ [a]) = totals key val l ++ [(key a, val a)] := by
  rw [totals, keys_concat, if_neg h, List.map_append, List.map_singleton, total_concat_self,
    total_of_not_mem h, zero_add, totals]
  refine congrArg (· ++ _) (List.map_congr_left fun k hk => ?_)
  rw [total_concat_ne fun he => h (by rw [he]; exact hk)]

/-- An element of the last key. -/
theorem totals_concat_last (val : α → Q) {l : List α} {ks : List κ}
    (h : keys key l = ks ++ [key a]) :
    totals key val l = ks.map (fun k => (k, total key val l k)) ++
        [(key a, total key val l (key a))] ∧
      totals key val (l ++ [a]) = ks.map (fun k => (k, total key val l k)) ++
        [(key a, total key val l (key a) + val a)] := by
  have hnot : ∀ k ∈ ks, key a ≠ k := by
    rintro k hk rfl
    have hnd := nodup_keys key l
    rw [h] at hnd
    exact (List.nodup_append.mp hnd).2.2 _ hk _ (List.mem_singleton_self _) rfl
  refine ⟨by rw [totals, h]; simp, ?_⟩
  rw [totals, keys_concat, if_pos (by simp [h]), h, List.map_append, List.map_singleton,
    total_concat_self]
  refine congrArg (· ++ _) (List.map_congr_left fun k hk => ?_)
  rw [total_concat_ne (hnot k hk)]

theorem total_append (l l' : List α) (k : κ) :
    total key val (l ++ l') k = total key val l k + total key val l' k := by
  rw [total, group_append, List.map_append, List.sum_append, total, total]

/-- Lists without a common key. -/
theorem totals_append {l l' : List α} (h : ∀ b ∈ l', key b ∉ keys key l) :
    totals key val (l ++ l') = totals key val l ++ totals key val l' := by
  rw [totals, keys_append h, List.map_append, totals, totals]
  congr 1
  · refine List.map_congr_left fun k hk => ?_
    have hnot : k ∉ keys key l' := by
      intro hk'
      obtain ⟨b, hb, rfl⟩ := mem_keys.mp hk'
      exact h b hb hk
    rw [total_append, total_of_not_mem hnot, add_zero]
  · refine List.map_congr_left fun k hk => ?_
    obtain ⟨b, hb, rfl⟩ := mem_keys.mp hk
    rw [total_append, total_of_not_mem (h b hb), zero_add]

theorem totals_congr {val' : α → Q} {l : List α} (h : ∀ a ∈ l, val a = val' a) :
    totals key val l = totals key val' l := by
  refine List.map_congr_left fun k _ => ?_
  rw [total, total, List.map_congr_left fun a ha => h a (mem_group.mp ha).1]

theorem totals_map {β : Type*} (f : β → α) (l : List β) :
    totals key val (l.map f) = totals (fun b => key (f b)) (fun b => val (f b)) l := by
  simp [totals, total, keys_map, group_map, Function.comp_def]

/-- Totals commute with an injective map of the keys and a homomorphism of the
values. -/
theorem totals_comp {ι R : Type*} [DecidableEq ι] [AddCommMonoid R] {φ : κ → ι}
    (hφ : Function.Injective φ) (g : Q →+ R) (l : List α) :
    totals (fun a => φ (key a)) (fun a => g (val a)) l =
      (totals key val l).map fun p => (φ p.1, g p.2) := by
  rw [totals, totals, keys_comp hφ, List.map_map, List.map_map]
  refine List.map_congr_left fun k _ => ?_
  simp only [Function.comp_apply, total, group_comp hφ, map_list_sum, List.map_map]
  rfl

end Totals

end Grouping
