import Mathlib.Data.List.Basic
import Mathlib.Data.List.Nodup
import Mathlib.Data.List.Count

/-!
# Slots with a free list

A slab keeps values in numbered slots and reuses the numbers.  Identifiers
start at one.  A removed value leaves an empty slot whose identifier goes onto
a stack of free ones, and the next insertion pops that stack before it adds a
slot.

The stack and the count of values are redundant with the slots.  The structure
carries what makes them agree: the stack has no duplicates and holds exactly
the identifiers of the empty slots.  The lemmas then describe each operation by
what `get` returns afterwards, and nothing else is needed of a slab.
-/

/-- The content of the slot with this identifier. -/
def Slab.slotAt {α : Type} (slots : List (Option α)) (id : Nat) : Option α :=
  if id = 0 then none else (slots[id - 1]?).join

/-- Values in numbered slots, with a stack of free identifiers. -/
structure Slab (α : Type) where
  /-- The slots, the first one of identifier one. -/
  slots : List (Option α)
  /-- The identifiers of empty slots, the next to be used first. -/
  free : List Nat
  /-- The number of values. -/
  live : Nat
  /-- No identifier is free twice. -/
  free_nodup : free.Nodup
  /-- The free identifiers are those of the empty slots. -/
  mem_free : ∀ id, id ∈ free ↔ 0 < id ∧ id ≤ slots.length ∧ Slab.slotAt slots id = none
  /-- The number of values is that of the occupied slots. -/
  live_eq : live = slots.countP Option.isSome

namespace Slab

variable {α : Type}

/-! ## Slots -/

theorem slotAt_succ (slots : List (Option α)) (i : Nat) :
    slotAt slots (i + 1) = (slots[i]?).join := by
  simp [slotAt]

@[simp] theorem slotAt_zero (slots : List (Option α)) : slotAt slots 0 = none := rfl

theorem slotAt_set {slots : List (Option α)} {i : Nat} (hi : i < slots.length) (v : Option α)
    (id : Nat) :
    slotAt (slots.set i v) id = if id = i + 1 then v else slotAt slots id := by
  cases id with
  | zero => simp
  | succ j =>
      rw [slotAt_succ, slotAt_succ, List.getElem?_set]
      by_cases h : i = j
      · simp [h ▸ hi, h]
      · simp [h, Ne.symm h]

theorem slotAt_append (slots : List (Option α)) (v : Option α) (id : Nat) :
    slotAt (slots ++ [v]) id = if id = slots.length + 1 then v else slotAt slots id := by
  cases id with
  | zero => simp
  | succ j =>
      rw [slotAt_succ, slotAt_succ]
      rcases Nat.lt_trichotomy j slots.length with h | h | h
      · rw [List.getElem?_append_left h, if_neg (by omega)]
      · simp [h]
      · rw [List.getElem?_eq_none (by simp; omega), List.getElem?_eq_none (by omega),
          if_neg (by omega)]

/-- An occupied slot is one of the slots. -/
theorem slotAt_eq_some {slots : List (Option α)} {id : Nat} {a : α}
    (h : slotAt slots id = some a) :
    0 < id ∧ id ≤ slots.length ∧ slots[id - 1]? = some (some a) := by
  cases id with
  | zero => cases h
  | succ i =>
      rw [slotAt_succ, Option.join_eq_some_iff] at h
      obtain ⟨hi, -⟩ := List.getElem?_eq_some_iff.mp h
      exact ⟨Nat.succ_pos i, hi, h⟩

/-- Filling an empty slot makes one more occupied slot. -/
theorem countP_fill {slots : List (Option α)} {i : Nat} (h : slots[i]? = some none) (a : α) :
    (slots.set i (some a)).countP Option.isSome = slots.countP Option.isSome + 1 := by
  induction slots generalizing i with
  | nil => cases h
  | cons s slots ih =>
      cases i with
      | zero =>
          cases Option.some.inj h
          simp
      | succ i =>
          rw [List.set_cons_succ, List.countP_cons, List.countP_cons, ih h]
          omega

/-- Emptying an occupied slot makes one occupied slot less. -/
theorem countP_clear {slots : List (Option α)} {i : Nat} {a : α} (h : slots[i]? = some (some a)) :
    (slots.set i none).countP Option.isSome + 1 = slots.countP Option.isSome := by
  induction slots generalizing i with
  | nil => cases h
  | cons s slots ih =>
      cases i with
      | zero =>
          cases Option.some.inj h
          simp
      | succ i =>
          have := ih h
          rw [List.set_cons_succ, List.countP_cons, List.countP_cons]
          omega

/-- Replacing the content of an occupied slot keeps the number of those. -/
theorem countP_replace {slots : List (Option α)} {i : Nat} {a : α}
    (h : slots[i]? = some (some a)) (b : α) :
    (slots.set i (some b)).countP Option.isSome = slots.countP Option.isSome := by
  induction slots generalizing i with
  | nil => cases h
  | cons s slots ih =>
      cases i with
      | zero =>
          cases Option.some.inj h
          simp
      | succ i => rw [List.set_cons_succ, List.countP_cons, List.countP_cons, ih h]

/-! ## Operations -/

/-- No slots. -/
def empty : Slab α where
  slots := []
  free := []
  live := 0
  free_nodup := List.nodup_nil
  mem_free := fun id => by simp; omega
  live_eq := rfl

/-- The value of an identifier. -/
def get (s : Slab α) (id : Nat) : Option α := slotAt s.slots id

theorem slot_of_free {s : Slab α} {id : Nat} (h : id ∈ s.free) :
    id - 1 < s.slots.length ∧ s.slots[id - 1]? = some none := by
  obtain ⟨hpos, hle, hnone⟩ := (s.mem_free id).mp h
  have hlt : id - 1 < s.slots.length := by omega
  refine ⟨hlt, ?_⟩
  obtain ⟨i, rfl⟩ : ∃ i, id = i + 1 := ⟨id - 1, by omega⟩
  rw [slotAt_succ] at hnone
  rw [Nat.add_sub_cancel] at hlt ⊢
  rw [List.getElem?_eq_getElem hlt] at hnone ⊢
  exact congrArg some hnone

/-- The identifier the next insertion uses. -/
def nextId (s : Slab α) : Nat :=
  match s.free with
  | id :: _ => id
  | [] => s.slots.length + 1

theorem nextId_of_free {s : Slab α} {id : Nat} {free : List Nat} (h : s.free = id :: free) :
    s.nextId = id := by
  rw [nextId, h]

theorem nextId_of_full {s : Slab α} (h : s.free = []) : s.nextId = s.slots.length + 1 := by
  rw [nextId, h]

/-- Insert a value that may record its identifier. -/
def insert (s : Slab α) (mk : Nat → α) : Slab α :=
  match hf : s.free with
  | id :: free =>
      { slots := s.slots.set (id - 1) (some (mk id))
        free := free
        live := s.live + 1
        free_nodup := (List.nodup_cons.mp (hf ▸ s.free_nodup)).2
        mem_free := by
          intro i
          have hid : id ∈ s.free := hf ▸ List.mem_cons_self ..
          have hpos := ((s.mem_free id).mp hid).1
          have hnd : id ∉ free := (List.nodup_cons.mp (hf ▸ s.free_nodup)).1
          rw [slotAt_set (slot_of_free hid).1, Nat.sub_add_cancel hpos, List.length_set]
          by_cases hi : i = id
          · simp [hi, hnd]
          · rw [if_neg hi, ← s.mem_free i, hf, List.mem_cons, or_iff_right hi]
        live_eq := by
          have hid : id ∈ s.free := hf ▸ List.mem_cons_self ..
          rw [countP_fill (slot_of_free hid).2, s.live_eq] }
  | [] =>
      { slots := s.slots ++ [some (mk (s.slots.length + 1))]
        free := []
        live := s.live + 1
        free_nodup := List.nodup_nil
        mem_free := by
          intro i
          have hfull := s.mem_free i
          rw [hf] at hfull
          rw [slotAt_append, List.length_append, List.length_singleton]
          by_cases hi : i = s.slots.length + 1
          · simp [hi]
          · rw [if_neg hi, hfull]
            constructor
            · exact fun h => ⟨h.1, by omega, h.2.2⟩
            · exact fun h => ⟨h.1, by omega, h.2.2⟩
        live_eq := by rw [List.countP_append, s.live_eq]; simp }

/-- Change the value of an identifier, if it has one. -/
def modify (s : Slab α) (id : Nat) (f : α → α) : Slab α :=
  match h : s.get id with
  | none => s
  | some a =>
      { slots := s.slots.set (id - 1) (some (f a))
        free := s.free
        live := s.live
        free_nodup := s.free_nodup
        mem_free := by
          intro i
          obtain ⟨hpos, hle, -⟩ := slotAt_eq_some h
          rw [s.mem_free i, slotAt_set (by omega), Nat.sub_add_cancel hpos, List.length_set]
          by_cases hi : i = id
          · subst hi
            rw [get] at h
            simp [h]
          · rw [if_neg hi]
        live_eq := by rw [countP_replace (slotAt_eq_some h).2.2, s.live_eq] }

/-- Take the value of an identifier out, if it has one. -/
def remove (s : Slab α) (id : Nat) : Option α × Slab α :=
  match h : s.get id with
  | none => (none, s)
  | some a =>
      (some a,
        { slots := s.slots.set (id - 1) none
          free := id :: s.free
          live := s.live - 1
          free_nodup := by
            refine List.nodup_cons.mpr ⟨fun hid => ?_, s.free_nodup⟩
            rw [get, ((s.mem_free id).mp hid).2.2] at h
            cases h
          mem_free := by
            intro i
            obtain ⟨hpos, hle, -⟩ := slotAt_eq_some h
            rw [List.mem_cons, s.mem_free i, slotAt_set (by omega), Nat.sub_add_cancel hpos,
              List.length_set]
            by_cases hi : i = id
            · simp [hi, hpos, hle]
            · rw [if_neg hi, or_iff_right hi]
          live_eq := by
            have := countP_clear (slotAt_eq_some h).2.2
            have := s.live_eq
            omega })

/-! ## What an operation does to the values -/

@[simp] theorem get_empty (id : Nat) : (empty : Slab α).get id = none := by
  cases id with
  | zero => rfl
  | succ i => simp [get, empty, slotAt_succ]

/-- The next identifier is unused. -/
theorem get_nextId (s : Slab α) : s.get s.nextId = none := by
  cases hf : s.free with
  | nil => simp [nextId_of_full hf, get, slotAt_succ]
  | cons id free =>
      rw [nextId_of_free hf]
      exact ((s.mem_free id).mp (hf ▸ List.mem_cons_self ..)).2.2

/-- The free and the used identifiers are those of all slots. -/
theorem mem_free_or_get (s : Slab α) (id : Nat) :
    id ∈ s.free ∨ (s.get id).isSome ↔ 0 < id ∧ id ≤ s.slots.length := by
  rw [s.mem_free id]
  cases hg : s.get id with
  | none =>
      rw [get] at hg
      simp [hg]
  | some a =>
      obtain ⟨hpos, hle, -⟩ := slotAt_eq_some hg
      simp [hpos, hle]

theorem get_insert (s : Slab α) (mk : Nat → α) (id : Nat) :
    (s.insert mk).get id = if id = s.nextId then some (mk s.nextId) else s.get id := by
  unfold insert
  split
  next i free hf =>
    have hi : i ∈ s.free := hf ▸ List.mem_cons_self ..
    have hpos := ((s.mem_free i).mp hi).1
    rw [nextId_of_free hf, get, get, slotAt_set (slot_of_free hi).1, Nat.sub_add_cancel hpos]
  next hf => rw [nextId_of_full hf, get, get, slotAt_append]

theorem get_modify (s : Slab α) (id : Nat) (f : α → α) (i : Nat) :
    (s.modify id f).get i = if i = id then (s.get id).map f else s.get i := by
  unfold modify
  split
  next h =>
    by_cases hi : i = id
    · simp [hi, h]
    · simp [hi]
  next a h =>
    obtain ⟨hpos, hle, -⟩ := slotAt_eq_some h
    show slotAt (s.slots.set (id - 1) (some (f a))) i = _
    rw [slotAt_set (by omega), Nat.sub_add_cancel hpos, h, Option.map_some, get]

theorem remove_fst (s : Slab α) (id : Nat) : (s.remove id).1 = s.get id := by
  unfold remove
  split
  next h => exact h.symm
  next a h => exact h.symm

theorem get_remove (s : Slab α) (id i : Nat) :
    (s.remove id).2.get i = if i = id then none else s.get i := by
  unfold remove
  split
  next h =>
    by_cases hi : i = id
    · simp [hi, h]
    · simp [hi]
  next a h =>
    obtain ⟨hpos, hle, -⟩ := slotAt_eq_some h
    show slotAt (s.slots.set (id - 1) none) i = _
    rw [slotAt_set (by omega), Nat.sub_add_cancel hpos, get]

end Slab
