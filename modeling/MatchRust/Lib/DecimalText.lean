import MatchRust.Lib.Decimal

/-!
# Decimals as texts

A decimal package prints a decimal and parses texts.  What the programs rely on is that
the text of a decimal is parsed back to it, so numbers are equal if their texts are.  The
package is a class.  A package that prints a decimal from its digits needs their number, and one
that parses has to tell the decimals among the numbers a text can denote.
-/

/-- The texts of a decimal package. -/
class DecimalText where
  /-- The text of a normalized decimal. -/
  text : BigDecimal → String
  parse : String → Option BigDecimal
  parse_text : ∀ d, parse (text d) = some d

namespace DecimalText

theorem text_injective [DecimalText] : Function.Injective text := by
  intro a b hab
  have hparse := congrArg parse hab
  rw [parse_text, parse_text] at hparse
  exact Option.some.inj hparse

@[simp] theorem text_inj [DecimalText] {a b : BigDecimal} : text a = text b ↔ a = b :=
  text_injective.eq_iff

end DecimalText

/-! ## The digits of a decimal -/

namespace BigDecimal

theorem den_new_dvd (n : ℤ) (k : ℕ) : (new n k).toRat.den ∣ 10 ^ k := by
  have hq : (new n k).toRat = (n : ℚ) / ((10 ^ k : ℕ) : ℚ) := by
    push_cast
    rfl
  have hden := Rat.den_dvd n ((10 ^ k : ℕ) : ℤ)
  rw [Rat.divInt_eq_div] at hden
  rw [hq]
  exact_mod_cast hden

/-- The denominator of a decimal divides a power of ten. -/
theorem den_dvd (d : BigDecimal) : ∃ k, d.toRat.den ∣ 10 ^ k := by
  obtain ⟨k, n, hk⟩ := d.2
  have hd : d = new n k := eq_scaled hk.symm
  exact ⟨k, hd ▸ den_new_dvd n k⟩

/-- The number of digits behind the point. -/
def fractionDigits (d : BigDecimal) : ℕ := Nat.find d.den_dvd

/-- The decimal in units of its last digit. -/
def mantissa (d : BigDecimal) : ℤ := (d.toRat * 10 ^ d.fractionDigits).num

theorem new_mantissa (d : BigDecimal) : new d.mantissa d.fractionDigits = d := by
  obtain ⟨c, hc⟩ := Nat.find_spec d.den_dvd
  have hint : d.toRat * 10 ^ d.fractionDigits = ((d.toRat.num * c : ℤ) : ℚ) := by
    have hpow : (10 : ℚ) ^ d.fractionDigits = d.toRat.den * c := by exact_mod_cast hc
    rw [hpow, ← mul_assoc, Rat.mul_den_eq_num]
    push_cast
    rfl
  have hnum : (d.mantissa : ℚ) = d.toRat * 10 ^ d.fractionDigits := by
    rw [mantissa, hint, Rat.num_intCast]
  exact (eq_scaled hnum).symm

/-- The decimal that a number is, if it is one. -/
def ofRat (q : ℚ) : Option BigDecimal :=
  if h : q.den ∣ 10 ^ q.den then
    some ⟨q, q.den, q.num * (10 ^ q.den / q.den : ℕ), by
      obtain ⟨c, hc⟩ := h
      have hpow : (10 : ℚ) ^ q.den = q.den * c := by exact_mod_cast hc
      rw [hc, Nat.mul_div_cancel_left c q.den_pos, hpow, ← mul_assoc, Rat.mul_den_eq_num]
      push_cast
      rfl⟩
  else none

theorem ofRat_toRat (d : BigDecimal) : ofRat d.toRat = some d := by
  -- A denominator has no other prime factors than the powers of ten it divides.
  have hprimes := (Nat.exists_dvd_pow_iff d.toRat.den_nz (by decide)).mp d.den_dvd
  exact dif_pos ((Nat.dvd_pow_self_iff d.toRat.den_nz (by decide)).mpr hprimes)

end BigDecimal
