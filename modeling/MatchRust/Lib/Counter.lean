import Mathlib

/-!
# Counters of a machine word

Two counters that start at the same word and only go up are told apart by their
difference, also when one of them has wrapped around, as long as they are not a whole
word apart (`toNat_value_sub`).  With a mask of low bits a counter gives a slot of a ring
whose size is a power of two, and the counts that are less than the size apart have
different slots (`slot_ne`).
-/

namespace Counter

/-- A counter that started at a word, after a number of steps. -/
def value (start : UInt64) (n : Nat) : UInt64 := start + UInt64.ofNat n

/-- The slot of a counter. -/
def slot (mask counter : UInt64) : Nat := (counter &&& mask).toNat

variable {start mask : UInt64} {i j n k : Nat}

theorem value_add : value start i + UInt64.ofNat n = value start (i + n) := by
  rw [value, value, UInt64.ofNat_add, UInt64.add_assoc]

theorem value_sub (h : i ≤ j) : value start j - value start i = UInt64.ofNat (j - i) := by
  obtain ⟨d, rfl⟩ := Nat.exists_eq_add_of_le h
  rw [← value_add, Nat.add_sub_cancel_left, UInt64.add_comm, UInt64.add_sub_cancel]

/-- The difference is the number of steps between. -/
theorem toNat_value_sub (h : i ≤ j) (hlt : j - i < 2 ^ 64) :
    (value start j - value start i).toNat = j - i := by
  rw [value_sub h, UInt64.toNat_ofNat_of_lt' hlt]

/-- A slot is the count modulo the size. -/
theorem slot_value (hmask : mask.toNat + 1 = 2 ^ k) (hk : k ≤ 64) :
    slot mask (value start i) = (start.toNat + i) % 2 ^ k := by
  have hm : mask.toNat = 2 ^ k - 1 := by omega
  rw [slot, UInt64.toNat_and, hm, Nat.and_two_pow_sub_one_eq_mod, value, UInt64.toNat_add,
    UInt64.toNat_ofNat', Nat.mod_mod_of_dvd _ (Nat.pow_dvd_pow 2 hk)]
  rw [Nat.add_mod, Nat.mod_mod_of_dvd _ (Nat.pow_dvd_pow 2 hk), ← Nat.add_mod]

/-- Counts that are less than the size apart have different slots. -/
theorem slot_ne (hmask : mask.toNat + 1 = 2 ^ k) (hk : k ≤ 64) (hij : i < j)
    (hlt : j < i + 2 ^ k) : slot mask (value start i) ≠ slot mask (value start j) := by
  rw [slot_value hmask hk, slot_value hmask hk]
  intro heq
  have hmod : start.toNat + i ≡ start.toNat + j [MOD 2 ^ k] := heq
  have hdvd := (Nat.modEq_iff_dvd' (by omega)).mp hmod
  have hle := Nat.le_of_dvd (by omega) hdvd
  omega

end Counter
