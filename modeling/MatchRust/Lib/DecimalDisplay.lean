import MatchRust.Lib.DecimalText
import MatchRust.Lib.Numeral

/-!
# How decimals are displayed

A decimal package displays most decimals as plain numerals and the very small and the very
large ones with an exponent.  `DefaultDisplay` says so of the text of a normalized decimal:
an exponent is used from six zeros between the point and the first digit on, or from sixteen
zeros at the end (`ExponentForm`).  `BigDecimal.display` is such a text.
-/

namespace BigDecimal

/-- The decimals that are displayed with an exponent. -/
def ExponentForm (d : BigDecimal) : Prop :=
  d ≠ 0 ∧ (|d.toRat| < 1 / 10 ^ 6 ∨ (d.toRat / 10 ^ 16).den = 1)

instance instDecidableExponentForm (d : BigDecimal) : Decidable d.ExponentForm :=
  inferInstanceAs (Decidable (_ ∧ _))

/-- The texts of normalized decimals in the default settings. -/
structure DefaultDisplay (display : BigDecimal → String) : Prop where
  plain : ∀ d, ¬d.ExponentForm → ∃ n : Numeral, n.Spells (display d).toList ∧
    n.value = d.toRat ∧ n.fracPart.length = d.fractionDigits
  exponent : ∀ d, d.ExponentForm → 'E' ∈ (display d).toList ∨ 'e' ∈ (display d).toList

/-- A text with an exponent: one digit before the point for small decimals, and the digits
without the zeros at the end for large ones. -/
def exponentText (d : BigDecimal) : List Char :=
  let sign := if d.mantissa < 0 then ['-'] else []
  let digits := Nat.toDigits 10 d.mantissa.natAbs
  if |d.toRat| < 1 / 10 ^ 6 then
    let fraction := if digits.tail = [] then [] else '.' :: digits.tail
    let exponent := d.fractionDigits - digits.tail.length
    sign ++ digits.take 1 ++ fraction ++ 'E' :: '-' :: Nat.toDigits 10 exponent
  else
    let kept := digits.rdropWhile (· = '0')
    sign ++ kept ++ 'e' :: '+' :: Nat.toDigits 10 (digits.length - kept.length)

/-- The default text of a normalized decimal. -/
def display (d : BigDecimal) : String :=
  String.ofList (if d.ExponentForm then d.exponentText
    else Numeral.plainText d.mantissa d.fractionDigits)

theorem fractionDigits_new_le (n : ℤ) (k : ℕ) : (new n k).fractionDigits ≤ k :=
  Nat.find_min' _ (den_new_dvd n k)

/-- Decimals of a moderate size are displayed plainly. -/
theorem not_exponentForm_new {n : ℤ} {k : ℕ} (hpos : 0 < n) (hk : k ≤ 6) (hlt : n < 10 ^ 16) :
    ¬(new n k).ExponentForm := by
  have hn : (1 : ℚ) ≤ n := by exact_mod_cast hpos
  have hrat : (new n k).toRat = n / 10 ^ k := rfl
  rw [ExponentForm, hrat]
  rintro ⟨-, hsmall | hlarge⟩
  · have hle : (1 : ℚ) / 10 ^ 6 ≤ n / 10 ^ k :=
      div_le_div₀ (by positivity) hn (by positivity) (pow_le_pow_right₀ (by norm_num) hk)
    rw [abs_of_pos (by positivity)] at hsmall
    exact absurd hsmall (not_lt.mpr hle)
  · -- A number strictly between zero and one is not an integer.
    have hq : (0 : ℚ) < n / 10 ^ k / 10 ^ 16 := by positivity
    have hone : (n : ℚ) / 10 ^ k / 10 ^ 16 < 1 := by
      have hn16 : (n : ℚ) < 10 ^ 16 := by exact_mod_cast hlt
      have hle : (n : ℚ) / 10 ^ k ≤ n := div_le_self (by positivity) (one_le_pow₀ (by norm_num))
      rw [div_lt_one (by positivity)]
      exact hle.trans_lt hn16
    rw [← (Rat.den_eq_one_iff _).mp hlarge] at hq hone
    have hnum := Int.cast_pos.mp hq
    have hnum1 : ((n : ℚ) / 10 ^ k / 10 ^ 16).num < 1 := by exact_mod_cast hone
    omega

theorem exponentForm_new {n : ℤ} {k : ℕ} (hpos : 0 < n) (h : n * 10 ^ 6 < 10 ^ k) :
    (new n k).ExponentForm := by
  have hn : (0 : ℚ) < n := by exact_mod_cast hpos
  have hrat : (new n k).toRat = n / 10 ^ k := rfl
  have hq : (0 : ℚ) < (new n k).toRat := by rw [hrat]; positivity
  refine ⟨fun hzero => hq.ne' (by rw [hzero]; rfl), Or.inl ?_⟩
  rw [abs_of_pos hq, hrat, div_lt_div_iff₀ (by positivity) (by positivity), one_mul]
  exact_mod_cast h

theorem toRat_mantissa (d : BigDecimal) : d.toRat = d.mantissa / 10 ^ d.fractionDigits := by
  conv_lhs => rw [← d.new_mantissa]
  rfl

theorem defaultDisplay_display : DefaultDisplay display where
  plain d hd := by
    refine ⟨.ofUnits d.mantissa d.fractionDigits, ?_, ?_, Numeral.length_fracPart_ofUnits _ _⟩
    · rw [display, if_neg hd, String.toList_ofList]
      exact Numeral.spells_plainText _ _
    · rw [Numeral.value_ofUnits, ← d.toRat_mantissa]
  exponent d hd := by
    rw [display, if_pos hd, String.toList_ofList, exponentText]
    split
    next => left; simp
    next => right; simp

end BigDecimal
