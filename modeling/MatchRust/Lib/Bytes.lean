import Mathlib

/-!
# Numbers as bytes

A number of a fixed width is written as that many bytes, with the lowest byte
first (`le`) or last (`be`).  A number that is too large loses its high bytes, as
an integer of that width would.  Signed numbers are written in two's complement.

Reading is defined on any list of bytes.  What was written in `n` bytes reads
back as the number modulo `256 ^ n`, so a number of the width comes back as it was.

A slice that reaches beyond the end is `none`.
-/

namespace Bytes

/-! ## Lowest byte first -/

/-- The `n` low bytes of a number, the lowest one first. -/
def le : Nat → Nat → List UInt8
  | 0, _ => []
  | n + 1, x => UInt8.ofNat x :: le n (x / 256)

/-- The number these bytes spell, the lowest one first. -/
def leValue : List UInt8 → Nat
  | [] => 0
  | b :: bs => b.toNat + 256 * leValue bs

@[simp] theorem length_le (n x : Nat) : (le n x).length = n := by
  induction n generalizing x with
  | zero => rfl
  | succ n ih => simp [le, ih]

theorem leValue_le (n x : Nat) : leValue (le n x) = x % 256 ^ n := by
  induction n generalizing x with
  | zero => simp [le, leValue, Nat.mod_one]
  | succ n ih =>
      have hbyte : (UInt8.ofNat x).toNat = x % 256 := UInt8.toNat_ofNat'
      rw [le, leValue, ih, hbyte, Nat.pow_succ', Nat.mod_mul]

/-- A number of the width is read back. -/
theorem leValue_le_of_lt {n x : Nat} (h : x < 256 ^ n) : leValue (le n x) = x := by
  rw [leValue_le, Nat.mod_eq_of_lt h]

/-! ## Highest byte first -/

/-- The `n` low bytes of a number, the highest one first. -/
def be (n x : Nat) : List UInt8 := (le n x).reverse

/-- The number these bytes spell, the highest one first. -/
def beValue (bs : List UInt8) : Nat := leValue bs.reverse

@[simp] theorem length_be (n x : Nat) : (be n x).length = n := by simp [be]

theorem beValue_be (n x : Nat) : beValue (be n x) = x % 256 ^ n := by
  rw [beValue, be, List.reverse_reverse, leValue_le]

theorem beValue_be_of_lt {n x : Nat} (h : x < 256 ^ n) : beValue (be n x) = x := by
  rw [beValue_be, Nat.mod_eq_of_lt h]

theorem le_leValue (bs : List UInt8) : le bs.length (leValue bs) = bs := by
  induction bs with
  | nil => rfl
  | cons b bs ih =>
      have hbyte : UInt8.ofNat (b.toNat + 256 * leValue bs) = b := by
        apply UInt8.toNat_inj.mp
        have := b.toNat_lt
        rw [UInt8.toNat_ofNat']
        omega
      have hrest : (b.toNat + 256 * leValue bs) / 256 = leValue bs := by
        have := b.toNat_lt
        omega
      rw [List.length_cons, leValue, le, hbyte, hrest, ih]

/-- Bytes are the number they spell. -/
theorem be_beValue (bs : List UInt8) : be bs.length (beValue bs) = bs := by
  have h := le_leValue bs.reverse
  rw [List.length_reverse] at h
  rw [be, beValue, h, List.reverse_reverse]

theorem leValue_lt (bs : List UInt8) : leValue bs < 256 ^ bs.length := by
  induction bs with
  | nil => exact Nat.one_pos
  | cons b bs ih =>
      have := b.toNat_lt
      rw [List.length_cons, leValue, Nat.pow_succ']
      omega

theorem beValue_lt (bs : List UInt8) : beValue bs < 256 ^ bs.length := by
  have h := leValue_lt bs.reverse
  rwa [List.length_reverse] at h

/-- Only the low bytes of a number are written. -/
theorem le_mod (n x : Nat) : le n (x % 256 ^ n) = le n x := by
  induction n generalizing x with
  | zero => rfl
  | succ n ih =>
      have hdiv : x % 256 ^ (n + 1) / 256 = x / 256 % 256 ^ n := by
        rw [Nat.pow_succ', Nat.mod_mul_right_div_self]
      have hbyte : UInt8.ofNat (x % 256 ^ (n + 1)) = UInt8.ofNat x := by
        apply UInt8.toNat_inj.mp
        rw [UInt8.toNat_ofNat', UInt8.toNat_ofNat', Nat.pow_succ']
        exact Nat.mod_mul_right_mod x 256 _
      rw [le, le, hdiv, ih, hbyte]

theorem be_mod (n x : Nat) : be n (x % 256 ^ n) = be n x := by rw [be, le_mod, be]

/-! ## Signed numbers -/

/-- The `n` low bytes of an integer in two's complement, the lowest one first. -/
def leInt (n : Nat) (x : Int) : List UInt8 := le n (x % 256 ^ n).toNat

/-- The integer these bytes spell in two's complement, the lowest one first. -/
def leIntValue (bs : List UInt8) : Int := Int.bmod (leValue bs) (256 ^ bs.length)

@[simp] theorem length_leInt (n : Nat) (x : Int) : (leInt n x).length = n := length_le n _

theorem leIntValue_leInt (n : Nat) (x : Int) : leIntValue (leInt n x) = x.bmod (256 ^ n) := by
  have hpos : (0 : Int) < 256 ^ n := by positivity
  have hnonneg : 0 ≤ x % 256 ^ n := Int.emod_nonneg x hpos.ne'
  have hlt : (x % 256 ^ n).toNat < 256 ^ n := by
    have h := Int.emod_lt_of_pos x hpos
    zify
    rwa [Int.toNat_of_nonneg hnonneg]
  rw [leIntValue, length_leInt, leInt, leValue_le_of_lt hlt, Int.toNat_of_nonneg hnonneg]
  have := Int.emod_bmod x (256 ^ n)
  simpa using this

/-! ## Fields -/

/-- In fields written one after the other, each is found behind those before it. -/
theorem field_flatten {fields : List (List UInt8)} {i off : Nat} {field : List UInt8}
    (hfield : fields[i]? = some field) (hoff : ((fields.take i).map List.length).sum = off)
    (rest : List UInt8) :
    off + field.length ≤ (fields.flatten ++ rest).length ∧
      ((fields.flatten ++ rest).drop off).take field.length = field := by
  have hsplit : fields.flatten ++ rest =
      (fields.take i).flatten ++ (field ++ ((fields.drop (i + 1)).flatten ++ rest)) := by
    obtain ⟨hi, rfl⟩ := List.getElem?_eq_some_iff.mp hfield
    conv_lhs => rw [← List.take_append_drop i fields, List.drop_eq_getElem_cons hi]
    rw [List.flatten_append, List.flatten_cons, List.append_assoc, List.append_assoc]
  have hlen : ((fields.take i).flatten).length = off := by rw [List.length_flatten, hoff]
  rw [hsplit]
  constructor
  · rw [List.length_append, hlen, List.length_append]
    omega
  · rw [List.drop_left' hlen, List.take_left]

/-! ## Slices -/

/-- The bytes from position `i` up to position `j`. -/
def slice (bs : List UInt8) (i j : Nat) : Option (List UInt8) :=
  if i ≤ j ∧ j ≤ bs.length then some ((bs.drop i).take (j - i)) else none

end Bytes
