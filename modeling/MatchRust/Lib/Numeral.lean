import Mathlib

/-!
# Decimal numerals

A decimal numeral is a sign, one digit or more, and perhaps a point with more digits.  Its
parts are a `Numeral`, which denotes a rational number (`value`) and is written in one of a
few ways (`Spells`).  In units of the `k`-th digit behind the point it is an integer if it
has no more than `k` of them (`value_eq_units`).

`plainText` writes an integer with the point before its last `k` digits.
-/

/-- The parts of a decimal numeral. -/
structure Numeral where
  neg : Bool
  intPart : List Char
  /-- The digits behind the point. -/
  fracPart : List Char
  nonempty : intPart ≠ []
  intDigits : ∀ c ∈ intPart, c.isDigit = true
  fracDigits : ∀ c ∈ fracPart, c.isDigit = true

namespace Numeral

/-- The number that digits denote. -/
def digitsValue (digits : List Char) : ℕ := Nat.ofDigitChars 10 digits 0

theorem digitsValue_append (a b : List Char) :
    digitsValue (a ++ b) = digitsValue a * 10 ^ b.length + digitsValue b := by
  rw [digitsValue, Nat.ofDigitChars_append, Nat.ofDigitChars_eq_ofDigitChars_zero, Nat.mul_comm]
  rfl

/-- The number that a numeral denotes. -/
def value (n : Numeral) : ℚ :=
  let abs : ℚ := digitsValue n.intPart + digitsValue n.fracPart / 10 ^ n.fracPart.length
  if n.neg then -abs else abs

/-- The absolute value in units of the `k`-th digit behind the point. -/
def absUnits (n : Numeral) (k : ℕ) : ℕ :=
  10 ^ (k - n.fracPart.length) * digitsValue (n.intPart ++ n.fracPart)

/-- The numeral in units of the `k`-th digit behind the point. -/
def units (n : Numeral) (k : ℕ) : ℤ := if n.neg then -n.absUnits k else n.absUnits k

/-- A text of the numeral.  There may be a plus sign, and a point without digits behind it. -/
def Spells (n : Numeral) (s : List Char) : Prop :=
  ∃ sign point, s = sign ++ (n.intPart ++ point) ∧
    (if n.neg then sign = ['-'] else sign = [] ∨ sign = ['+']) ∧
    (point = '.' :: n.fracPart ∨ point = [] ∧ n.fracPart = [])

/-- The value from all digits at once. -/
theorem value_eq (n : Numeral) :
    n.value =
      let abs : ℚ := digitsValue (n.intPart ++ n.fracPart) / 10 ^ n.fracPart.length
      if n.neg then -abs else abs := by
  have habs : (digitsValue (n.intPart ++ n.fracPart) : ℚ) / 10 ^ n.fracPart.length =
      digitsValue n.intPart + digitsValue n.fracPart / 10 ^ n.fracPart.length := by
    rw [digitsValue_append]
    push_cast
    field_simp
  rw [value, habs]

theorem value_eq_units (n : Numeral) {k : ℕ} (h : n.fracPart.length ≤ k) :
    n.value * 10 ^ k = n.units k := by
  have habs : (digitsValue (n.intPart ++ n.fracPart) : ℚ) / 10 ^ n.fracPart.length * 10 ^ k =
      n.absUnits k := by
    have hpow : (10 : ℚ) ^ k = 10 ^ (k - n.fracPart.length) * 10 ^ n.fracPart.length := by
      rw [← pow_add, Nat.sub_add_cancel h]
    rw [absUnits, hpow]
    push_cast
    field_simp
  rw [value_eq, units]
  cases n.neg with
  | false => exact habs
  | true =>
      simp only [if_true, Int.cast_neg, Int.cast_natCast]
      rw [← habs, neg_mul]

theorem abs_units (n : Numeral) (k : ℕ) : |n.units k| = n.absUnits k := by
  rw [units]
  cases n.neg with
  | false => simp
  | true => simp

/-- The characters of a numeral. -/
theorem Spells.mem {n : Numeral} {s : List Char} (h : n.Spells s) {c : Char} (hc : c ∈ s) :
    c.isDigit = true ∨ c = '-' ∨ c = '+' ∨ c = '.' := by
  obtain ⟨sign, point, rfl, hsign, hpoint⟩ := h
  rcases List.mem_append.mp hc with hc | hc
  · split at hsign
    next => simp_all
    next =>
      rcases hsign with rfl | rfl
      · cases hc
      · simp_all
  · rcases List.mem_append.mp hc with hc | hc
    · exact Or.inl (n.intDigits c hc)
    · rcases hpoint with rfl | ⟨rfl, -⟩
      · rcases List.mem_cons.mp hc with rfl | hc
        · simp
        · exact Or.inl (n.fracDigits c hc)
      · cases hc

theorem Spells.ne_nil {n : Numeral} {s : List Char} (h : n.Spells s) : s ≠ [] := by
  obtain ⟨sign, point, rfl, -, -⟩ := h
  simp [n.nonempty]

/-! ## Writing -/

/-- The digits of a number, filled up with zeros. -/
def padded (width n : ℕ) : List Char :=
  List.replicate (width - (Nat.toDigits 10 n).length) '0' ++ Nat.toDigits 10 n

theorem length_padded {width n : ℕ} (hpos : 0 < width) (h : n < 10 ^ width) :
    (padded width n).length = width := by
  have hle := (Nat.length_toDigits_le_iff (by decide) hpos).mpr h
  rw [padded, List.length_append, List.length_replicate]
  omega

theorem isDigit_padded (width n : ℕ) : ∀ c ∈ padded width n, c.isDigit = true := by
  intro c hc
  rcases List.mem_append.mp hc with hc | hc
  · rw [List.eq_of_mem_replicate hc]
    rfl
  · exact Nat.isDigit_of_mem_toDigits (by decide) (by decide) hc

theorem digitsValue_padded (width n : ℕ) : digitsValue (padded width n) = n := by
  rw [padded, digitsValue_append, digitsValue, digitsValue, Nat.ofDigitChars_replicate_zero,
    Nat.ofDigitChars_ten_toDigits]
  simp

/-- The digits behind the point of a number with `k` of them. -/
def fraction (k abs : ℕ) : List Char := if k = 0 then [] else padded k (abs % 10 ^ k)

theorem length_fraction (k abs : ℕ) : (fraction k abs).length = k := by
  rw [fraction]
  split
  next h => exact h.symm
  next h => exact length_padded (Nat.pos_of_ne_zero h) (Nat.mod_lt _ (by positivity))

theorem digitsValue_fraction (k abs : ℕ) : digitsValue (fraction k abs) = abs % 10 ^ k := by
  rw [fraction]
  split
  next h => rw [h, Nat.pow_zero, Nat.mod_one]; rfl
  next => exact digitsValue_padded _ _

/-- The numeral of `v / 10 ^ k` with `k` digits behind the point. -/
def ofUnits (v : ℤ) (k : ℕ) : Numeral where
  neg := v < 0
  intPart := Nat.toDigits 10 (v.natAbs / 10 ^ k)
  fracPart := fraction k v.natAbs
  nonempty := Nat.toDigits_ne_nil
  intDigits _ hc := Nat.isDigit_of_mem_toDigits (by decide) (by decide) hc
  fracDigits c hc := by
    rw [fraction] at hc
    split at hc
    next => cases hc
    next => exact isDigit_padded _ _ c hc

/-- The text of `v / 10 ^ k`, without a point if there is no digit behind it. -/
def plainText (v : ℤ) (k : ℕ) : List Char :=
  (if v < 0 then ['-'] else []) ++ (Nat.toDigits 10 (v.natAbs / 10 ^ k) ++
    if k = 0 then [] else '.' :: padded k (v.natAbs % 10 ^ k))

theorem spells_plainText (v : ℤ) (k : ℕ) : (ofUnits v k).Spells (plainText v k) := by
  refine ⟨_, _, rfl, ?_, ?_⟩
  · by_cases hv : v < 0
    · simp [ofUnits, hv]
    · simp [ofUnits, hv]
  · by_cases hk : k = 0
    · exact Or.inr ⟨if_pos hk, if_pos hk⟩
    · left
      rw [if_neg hk]
      exact congrArg _ (if_neg hk).symm

theorem point_mem_plainText (v : ℤ) (k : ℕ) : '.' ∈ plainText v k ↔ k ≠ 0 := by
  rw [plainText]
  by_cases hk : k = 0
  · rw [if_pos hk, List.append_nil]
    refine iff_of_false ?_ (not_not.mpr hk)
    intro hmem
    rcases List.mem_append.mp hmem with hmem | hmem
    · split at hmem <;> simp at hmem
    · exact absurd (Nat.isDigit_of_mem_toDigits (by decide) (by decide) hmem) (by decide)
  · simp [hk]

@[simp] theorem length_fracPart_ofUnits (v : ℤ) (k : ℕ) : (ofUnits v k).fracPart.length = k :=
  length_fraction k _

theorem absUnits_ofUnits (v : ℤ) (k : ℕ) : (ofUnits v k).absUnits k = v.natAbs := by
  rw [absUnits, length_fracPart_ofUnits, Nat.sub_self, Nat.pow_zero, Nat.one_mul,
    digitsValue_append, length_fracPart_ofUnits]
  have hint : digitsValue (ofUnits v k).intPart = v.natAbs / 10 ^ k :=
    Nat.ofDigitChars_ten_toDigits
  have hfrac : digitsValue (ofUnits v k).fracPart = v.natAbs % 10 ^ k := digitsValue_fraction k _
  rw [hint, hfrac, Nat.mul_comm]
  exact Nat.div_add_mod _ _

theorem units_ofUnits (v : ℤ) (k : ℕ) : (ofUnits v k).units k = v := by
  rw [units, absUnits_ofUnits]
  by_cases hv : v < 0
  · rw [if_pos (by simpa [ofUnits] using hv)]
    omega
  · rw [if_neg (by simpa [ofUnits] using hv)]
    omega

theorem value_ofUnits (v : ℤ) (k : ℕ) : (ofUnits v k).value = v / 10 ^ k := by
  rw [eq_div_iff (by positivity), value_eq_units _ (length_fracPart_ofUnits v k).le,
    units_ofUnits]

end Numeral
