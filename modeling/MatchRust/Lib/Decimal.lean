import Mathlib

/-!
# Decimal numbers

An arbitrary-precision decimal is an integer divided by a power of ten.  Two
decimals that denote the same number are equal and compare as equal, whatever
scale they were written with, and addition, subtraction and multiplication are
exact.  So a decimal is modelled by the number it denotes: the decimals are the
subring of `ℚ` of the numbers with a finite decimal expansion, with the order
of `ℚ`.  The ring and order instances come from `ℚ`, so `linarith` and `grind`
work on decimals directly.

A quotient of two decimals need not be a decimal.  Division and the rounding
that follows it belong to the decimal package in use, so they are the fields of
a class (`DecimalRounding`) and every result holds for all of its instances.
`DecimalRounding.schoolbook` is one of them, to run examples with.
-/

/-- The numbers with a finite decimal expansion. -/
def decimals : Subring ℚ where
  carrier := {q | ∃ k : ℕ, ∃ n : ℤ, q * 10 ^ k = n}
  mul_mem' := by
    rintro a b ⟨k, n, hk⟩ ⟨l, m, hl⟩
    refine ⟨k + l, n * m, ?_⟩
    push_cast
    rw [← hk, ← hl, pow_add]
    ring
  one_mem' := ⟨0, 1, by norm_num⟩
  add_mem' := by
    rintro a b ⟨k, n, hk⟩ ⟨l, m, hl⟩
    refine ⟨k + l, n * 10 ^ l + m * 10 ^ k, ?_⟩
    push_cast
    rw [← hk, ← hl, pow_add]
    ring
  zero_mem' := ⟨0, 0, by norm_num⟩
  neg_mem' := by
    rintro a ⟨k, n, hk⟩
    refine ⟨k, -n, ?_⟩
    push_cast
    rw [← hk]
    ring

/-- Decimal numbers of any precision. -/
def BigDecimal : Type := decimals
deriving CommRing, LinearOrder, IsStrictOrderedRing, DecidableEq

namespace BigDecimal

/-- The rational a decimal denotes. -/
def toRat (d : BigDecimal) : ℚ := d.val

/-- The decimal `n / 10 ^ k`. -/
def new (n : ℤ) (k : ℕ) : BigDecimal :=
  ⟨n / 10 ^ k, k, n, div_mul_cancel₀ _ (pow_ne_zero k (by norm_num))⟩

theorem toRat_injective : Function.Injective toRat := Subtype.val_injective

theorem toRat_add (a b : BigDecimal) : (a + b).toRat = a.toRat + b.toRat := rfl

theorem toRat_lt {a b : BigDecimal} : a.toRat < b.toRat ↔ a < b := Iff.rfl

/-- The integers in units of the `k`-th digit behind the point. -/
def scaled (k : ℕ) : ℤ →+ BigDecimal where
  toFun n := new n k
  map_zero' := toRat_injective (by simp [new, toRat]; rfl)
  map_add' a b := toRat_injective (by rw [toRat_add]; simp [new, toRat, add_div])

theorem toRat_scaled (k : ℕ) (n : ℤ) : (scaled k n).toRat = n / 10 ^ k := rfl

theorem scaled_strictMono (k : ℕ) : StrictMono (scaled k) := by
  intro a b hab
  rw [← toRat_lt, toRat_scaled, toRat_scaled]
  exact div_lt_div_of_pos_right (Int.cast_lt.mpr hab) (by positivity)

/-- A decimal of at most `k` digits behind the point, in units of the last. -/
theorem eq_scaled {k : ℕ} {n : ℤ} {d : BigDecimal} (h : (n : ℚ) = d.toRat * 10 ^ k) :
    d = scaled k n := by
  refine toRat_injective ?_
  rw [toRat_scaled, h, mul_div_cancel_right₀ _ (by positivity)]

end BigDecimal

/-- The rounding modes of a decimal package that are in use here. -/
inductive RoundingMode where
  /-- To the nearest neighbour, and towards zero from the middle. -/
  | halfDown
deriving DecidableEq

/-- Division and rounding, as a decimal package defines them. -/
class DecimalRounding where
  /-- The quotient of two decimals, cut to the precision of the package. -/
  div : BigDecimal → BigDecimal → BigDecimal
  /-- The decimal with a given number of fractional digits. -/
  withScaleRound : BigDecimal → ℕ → RoundingMode → BigDecimal

/-- The number of `k` fractional digits nearest to `q`, and towards zero from
the middle. -/
def BigDecimal.roundHalfDown (q : ℚ) (k : ℕ) : BigDecimal :=
  let x := q * 10 ^ k
  if 0 ≤ x then .new ⌈x - 1 / 2⌉ k else .new (-⌈-x - 1 / 2⌉) k

/-- Quotients of 100 fractional digits. -/
@[reducible] def DecimalRounding.schoolbook : DecimalRounding where
  div a b := .roundHalfDown (a.toRat / b.toRat) 100
  withScaleRound d n
    | .halfDown => .roundHalfDown d.toRat n
