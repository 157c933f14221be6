import MatchRust.Hp.Accepts

/-!
# The number a text denotes

A decimal is written plainly or with an exponent, and two texts may be different and denote
the same number.  `textValue` is the number of a text of either kind.  The default text of a
decimal denotes it (`exactTexts_display`), and so do the texts of ticks and lots, as long as
the scale is one the code can hold (`textValue_fixedText`).  So the default texts can be parsed
back to their decimals (`DecimalText.displayed`).
-/

namespace MatchCoreHp

open BigDecimal

/-- A character that starts no exponent. -/
def beforeExponent (c : Char) : Bool := c ≠ 'e' && c ≠ 'E'

/-- The number a text denotes: a plain one, or one with an integer as exponent. -/
def textValue (s : List Char) : Option ℚ :=
  match s.dropWhile beforeExponent with
  | [] => plainValue s
  | _ :: exponent =>
      if '.' ∈ exponent then none
      else
        (plainValue (s.takeWhile beforeExponent)).bind fun v =>
          (plainValue exponent).map fun k => v * 10 ^ k.num

/-- Texts that denote the decimals they are for. -/
def ExactTexts (display : BigDecimal → String) : Prop :=
  ∀ d, textValue (display d).toList = some d.toRat

theorem beforeExponent_of_spells {n : Numeral} {s : List Char} (h : n.Spells s) {c : Char}
    (hc : c ∈ s) : beforeExponent c = true := by
  rcases h.mem hc with hdigit | rfl | rfl | rfl
  · have he : c ≠ 'e' := by rintro rfl; exact absurd hdigit (by decide)
    have hE : c ≠ 'E' := by rintro rfl; exact absurd hdigit (by decide)
    simp [beforeExponent, he, hE]
  · rfl
  · rfl
  · rfl

/-- A numeral denotes its value. -/
theorem textValue_of_spells {n : Numeral} {s : List Char} (h : n.Spells s) :
    textValue s = some n.value := by
  have hdrop : s.dropWhile beforeExponent = [] :=
    List.dropWhile_eq_nil_iff.mpr fun c hc => beforeExponent_of_spells h hc
  rw [textValue, hdrop]
  exact plainValue_of_spells h

/-- A numeral with an exponent denotes its value times a power of ten. -/
theorem textValue_exponent {n m : Numeral} {s e : List Char} {c : Char} (hn : n.Spells s)
    (hm : m.Spells e) (hc : beforeExponent c = false) (hpoint : '.' ∉ e) :
    textValue (s ++ c :: e) = some (n.value * 10 ^ m.value.num) := by
  have hs : ∀ x ∈ s, beforeExponent x = true := fun x hx => beforeExponent_of_spells hn hx
  have hdrop : (s ++ c :: e).dropWhile beforeExponent = c :: e := by
    rw [List.dropWhile_append_of_pos hs]
    simp [hc]
  have htake : (s ++ c :: e).takeWhile beforeExponent = s := by
    rw [List.takeWhile_append_of_pos hs]
    simp [hc]
  rw [textValue, hdrop, htake]
  simp only [if_neg hpoint, plainValue_of_spells hn, plainValue_of_spells hm, Option.bind_some,
    Option.map_some]

/-- Exact texts are exact where they are plain. -/
theorem ExactTexts.plain {display : BigDecimal → String} (h : ExactTexts display)
    {d : BigDecimal} {q : ℚ} (hq : plainValue (trim (display d).toList) = some q) :
    d.toRat = q := by
  have hd := h d
  obtain ⟨n, hn⟩ := exists_spells_of_plainValue hq
  rw [textValue] at hd
  split at hd
  next =>
    obtain ⟨m, hm⟩ := exists_spells_of_plainValue hd
    rw [trim_of_spells hm, hd] at hq
    exact Option.some.inj hq
  next c exponent hdrop =>
    -- The letter of the exponent is still there, and it is in no numeral.
    have hc : beforeExponent c = false := by
      have hhead := List.head?_dropWhile_not beforeExponent (display d).toList
      rw [hdrop] at hhead
      simpa using hhead
    have hmem : c ∈ (display d).toList :=
      (List.dropWhile_suffix beforeExponent).subset (by rw [hdrop]; exact List.mem_cons_self ..)
    have hletter : 'E' ∈ (display d).toList ∨ 'e' ∈ (display d).toList := by
      by_cases he : c = 'e'
      · exact Or.inr (he ▸ hmem)
      · have hE : c = 'E' := by simpa [beforeExponent, he] using hc
        exact Or.inl (hE ▸ hmem)
    exact absurd hn (not_spells_exponent hletter n)

/-! ## Ticks and lots -/

theorem textValue_fixedText {text : String} {units : Int} {k : Nat} (h : FixedText text units k) :
    textValue text.toList = some (BigDecimal.scaled k units).toRat := by
  obtain ⟨n, hn, -, hvalue⟩ := h.numeral
  rw [textValue_of_spells hn, hvalue, toRat_scaled]

/-! ## The default texts -/

/-- A whole number with a sign. -/
def wholeNumeral (neg : Bool) (n : Nat) : Numeral where
  neg := neg
  intPart := Nat.toDigits 10 n
  fracPart := []
  nonempty := Nat.toDigits_ne_nil
  intDigits _ hc := Nat.isDigit_of_mem_toDigits (by decide) (by decide) hc
  fracDigits _ hc := absurd hc List.not_mem_nil

theorem num_wholeNumeral (neg : Bool) (n : Nat) :
    (wholeNumeral neg n).value.num = if neg then -(n : Int) else n := by
  have hint : Numeral.digitsValue (wholeNumeral neg n).intPart = n := Nat.ofDigitChars_ten_toDigits
  have hfrac : (wholeNumeral neg n).fracPart = [] := rfl
  rw [Numeral.value, hint, hfrac]
  cases neg with
  | false => simp [wholeNumeral, Numeral.digitsValue]
  | true => simp [wholeNumeral, Numeral.digitsValue]

theorem point_notMem_toDigits (n : Nat) : '.' ∉ Nat.toDigits 10 n := by
  intro hmem
  exact absurd (Nat.isDigit_of_mem_toDigits (by decide) (by decide) hmem) (by decide)

/-- The sign and the digits of a decimal, with the point behind some of them. -/
theorem digits_value (d : BigDecimal) {n : Numeral} {z : Nat}
    (hneg : n.neg = decide (d.mantissa < 0))
    (hdigits : n.intPart ++ n.fracPart ++ List.replicate z '0' =
      Nat.toDigits 10 d.mantissa.natAbs) :
    n.value * 10 ^ (z : Int) = d.mantissa / 10 ^ n.fracPart.length := by
  have habs : (Numeral.digitsValue (n.intPart ++ n.fracPart) : ℚ) * 10 ^ z =
      (d.mantissa.natAbs : ℚ) := by
    have happend := Numeral.digitsValue_append (n.intPart ++ n.fracPart) (List.replicate z '0')
    have hzeros : Numeral.digitsValue (List.replicate z '0') = 0 := by
      rw [Numeral.digitsValue, Nat.ofDigitChars_replicate_zero, Nat.mul_zero]
    have hall : Numeral.digitsValue (Nat.toDigits 10 d.mantissa.natAbs) = d.mantissa.natAbs :=
      Nat.ofDigitChars_ten_toDigits
    rw [hdigits, hall, hzeros, List.length_replicate, Nat.add_zero] at happend
    exact_mod_cast happend.symm
  rw [n.value_eq, hneg, zpow_natCast]
  by_cases hlt : d.mantissa < 0
  · have hm : (d.mantissa : ℚ) = -(d.mantissa.natAbs : ℚ) := by
      exact_mod_cast (by omega : d.mantissa = -(d.mantissa.natAbs : Int))
    simp only [hlt, decide_true, if_true, hm, ← habs]
    ring
  · have hm : (d.mantissa : ℚ) = (d.mantissa.natAbs : ℚ) := by
      rw [← Int.cast_natCast, ← (by omega : d.mantissa = (d.mantissa.natAbs : Int))]
    simp only [hlt, decide_false, Bool.false_eq_true, if_false, hm, ← habs]
    ring

section Exponents

variable {d : BigDecimal}

theorem mantissa_ne_zero (h : d ≠ 0) : d.mantissa ≠ 0 := by
  intro hzero
  refine h (toRat_injective ?_)
  rw [d.toRat_mantissa, hzero, Int.cast_zero, zero_div]
  rfl

/-- A decimal below one has no more digits than there are behind its point. -/
theorem length_digits_le (h : |d.toRat| < 1) :
    (Nat.toDigits 10 d.mantissa.natAbs).length ≤ d.fractionDigits + 1 := by
  have habs : (d.mantissa.natAbs : ℚ) < 10 ^ d.fractionDigits := by
    rw [d.toRat_mantissa, abs_div, abs_of_pos (by positivity : (0 : ℚ) < 10 ^ d.fractionDigits),
      div_lt_one (by positivity)] at h
    rwa [Nat.cast_natAbs, Int.cast_abs]
  have hlt : d.mantissa.natAbs < 10 ^ d.fractionDigits := by exact_mod_cast habs
  rw [Nat.length_toDigits_le_iff (by decide) (by omega)]
  exact hlt.trans_le (Nat.pow_le_pow_right (by decide) (by omega))

/-- Digits before and behind a point make a numeral, with the sign of a decimal. -/
theorem exists_numeral (d : BigDecimal) {int frac : List Char} (hne : int ≠ [])
    (hdigits : ∀ c ∈ int ++ frac, c.isDigit = true) :
    ∃ n : Numeral, n.neg = decide (d.mantissa < 0) ∧ n.intPart = int ∧ n.fracPart = frac ∧
      n.Spells ((if d.mantissa < 0 then ['-'] else []) ++ (int ++
        if frac = [] then [] else '.' :: frac)) := by
  refine ⟨⟨d.mantissa < 0, int, frac, hne, fun c hc => hdigits c (List.mem_append_left _ hc),
    fun c hc => hdigits c (List.mem_append_right _ hc)⟩, rfl, rfl, rfl, _, _, rfl, ?_, ?_⟩
  · by_cases hlt : d.mantissa < 0 <;> simp [hlt]
  · by_cases hfrac : frac = [] <;> simp [hfrac]

/-- A small decimal: one digit before the point. -/
theorem textValue_small (h : |d.toRat| < 1 / 10 ^ 6) :
    textValue (d.exponentText) = some d.toRat := by
  obtain ⟨digits, hdigits⟩ : ∃ digits, digits = Nat.toDigits 10 d.mantissa.natAbs := ⟨_, rfl⟩
  have hdigit : ∀ c ∈ digits, c.isDigit = true := by
    rw [hdigits]
    exact fun c hc => Nat.isDigit_of_mem_toDigits (by decide) (by decide) hc
  have hne : digits ≠ [] := hdigits ▸ Nat.toDigits_ne_nil
  have hall : ∀ c ∈ digits.take 1 ++ digits.tail, c.isDigit = true := by
    rw [← List.drop_one, List.take_append_drop]
    exact hdigit
  obtain ⟨n, hneg, hint, hfrac, hn⟩ := exists_numeral d (by simp [hne]) hall
  have hm : (wholeNumeral true (d.fractionDigits - digits.tail.length)).Spells
      ('-' :: Nat.toDigits 10 (d.fractionDigits - digits.tail.length)) :=
    ⟨['-'], [], by simp [wholeNumeral], rfl, Or.inr ⟨rfl, rfl⟩⟩
  have hpoint : '.' ∉ '-' :: Nat.toDigits 10 (d.fractionDigits - digits.tail.length) := by
    simpa using point_notMem_toDigits _
  have hvalue := @digits_value d n 0 hneg (by simp [hint, hfrac, ← hdigits, ← List.drop_one])
  have hlen : digits.tail.length ≤ d.fractionDigits := by
    have hle := length_digits_le (h.trans (by norm_num))
    rw [← hdigits] at hle
    rw [List.length_tail]
    omega
  have htext := textValue_exponent hn hm (by decide : beforeExponent 'E' = false) hpoint
  rw [exponentText, if_pos h]
  simp only [← hdigits]
  rw [List.append_assoc] at htext
  simp only [List.append_assoc] at htext ⊢
  rw [htext, num_wholeNumeral, if_pos rfl, d.toRat_mantissa]
  -- The digits behind the point and the exponent make up the scale.
  have hpow : (10 : ℚ) ^ d.fractionDigits =
      10 ^ digits.tail.length * 10 ^ (d.fractionDigits - digits.tail.length) := by
    rw [← pow_add, Nat.add_sub_cancel' hlen]
  rw [Nat.cast_zero, zpow_zero, mul_one, hfrac] at hvalue
  rw [hvalue, zpow_neg, zpow_natCast, hpow, div_mul_eq_div_div]
  rfl

/-- What is dropped at the end of digits is zeros. -/
theorem eq_rdropWhile_append (l : List Char) :
    l = l.rdropWhile (· = '0') ++
      List.replicate (l.length - (l.rdropWhile (· = '0')).length) '0' := by
  obtain ⟨zeros, hzeros⟩ : ∃ zeros, zeros = l.reverse.takeWhile (· = '0') := ⟨_, rfl⟩
  have hall : zeros.reverse = List.replicate zeros.length '0' := by
    rw [List.eq_replicate_iff, List.length_reverse]
    refine ⟨rfl, fun c hc => ?_⟩
    rw [hzeros, List.mem_reverse] at hc
    simpa using List.mem_takeWhile_imp hc
  have hsplit : l = l.rdropWhile (· = '0') ++ zeros.reverse := by
    rw [List.rdropWhile, ← List.reverse_append, hzeros, List.takeWhile_append_dropWhile,
      List.reverse_reverse]
  have hlen : l.length - (l.rdropWhile (· = '0')).length = zeros.length := by
    have hadd := congrArg List.length hsplit
    rw [List.length_append, List.length_reverse] at hadd
    omega
  rw [hlen, ← hall]
  exact hsplit

/-- A decimal with zeros at the end has no digits behind the point. -/
theorem fractionDigits_of_large (h : (d.toRat / 10 ^ 16).den = 1) : d.fractionDigits = 0 := by
  have hint : d.toRat = (((d.toRat / 10 ^ 16).num * 10 ^ 16 : Int) : ℚ) := by
    have hnum := (Rat.den_eq_one_iff _).mp h
    rw [Int.cast_mul, hnum]
    push_cast
    ring
  rw [fractionDigits, Nat.find_eq_zero, hint, Rat.den_intCast]
  exact one_dvd _

/-- A large decimal: the digits without the zeros at the end. -/
theorem textValue_large (h0 : d ≠ 0) (h : (d.toRat / 10 ^ 16).den = 1)
    (hbig : ¬|d.toRat| < 1 / 10 ^ 6) : textValue (d.exponentText) = some d.toRat := by
  obtain ⟨digits, hdigits⟩ : ∃ digits, digits = Nat.toDigits 10 d.mantissa.natAbs := ⟨_, rfl⟩
  have hdigit : ∀ c ∈ digits, c.isDigit = true := by
    rw [hdigits]
    exact fun c hc => Nat.isDigit_of_mem_toDigits (by decide) (by decide) hc
  obtain ⟨kept, hkept⟩ : ∃ kept, kept = digits.rdropWhile (· = '0') := ⟨_, rfl⟩
  -- What is dropped is zeros, and something is kept of a number that is not zero.
  have hsplit : digits = kept ++ List.replicate (digits.length - kept.length) '0' :=
    hkept ▸ eq_rdropWhile_append digits
  have hne : kept ≠ [] := by
    intro hnil
    have hall : Numeral.digitsValue digits = d.mantissa.natAbs := by
      rw [hdigits]
      exact Nat.ofDigitChars_ten_toDigits
    rw [hsplit, hnil, List.nil_append, Numeral.digitsValue, Nat.ofDigitChars_replicate_zero,
      Nat.mul_zero] at hall
    exact mantissa_ne_zero h0 (Int.natAbs_eq_zero.mp hall.symm)
  have hall : ∀ c ∈ kept ++ [], c.isDigit = true := by
    rw [List.append_nil]
    exact fun c hc => hdigit c (by rw [hsplit]; exact List.mem_append_left _ hc)
  obtain ⟨n, hneg, hint, hfrac, hn⟩ := exists_numeral d hne hall
  rw [if_pos rfl, List.append_nil] at hn
  have hm : (wholeNumeral false (digits.length - kept.length)).Spells
      ('+' :: Nat.toDigits 10 (digits.length - kept.length)) :=
    ⟨['+'], [], by simp [wholeNumeral], Or.inr rfl, Or.inr ⟨rfl, rfl⟩⟩
  have hpoint : '.' ∉ '+' :: Nat.toDigits 10 (digits.length - kept.length) := by
    simpa using point_notMem_toDigits _
  have hvalue := @digits_value d n (digits.length - kept.length) hneg
    (by rw [hint, hfrac, ← hdigits, List.append_nil]; exact hsplit.symm)
  have htext := textValue_exponent hn hm (by decide : beforeExponent 'e' = false) hpoint
  rw [exponentText, if_neg hbig]
  simp only [← hdigits, ← hkept]
  rw [htext, num_wholeNumeral, if_neg (by decide), d.toRat_mantissa, fractionDigits_of_large h,
    hvalue, hfrac]
  rfl

end Exponents

/-- The default texts of decimals denote them. -/
theorem exactTexts_display : ExactTexts display := by
  intro d
  by_cases hd : d.ExponentForm
  · have htext : (display d).toList = d.exponentText := by
      rw [display, if_pos hd, String.toList_ofList]
    rw [htext]
    by_cases hsmall : |d.toRat| < 1 / 10 ^ 6
    · exact textValue_small hsmall
    · exact textValue_large hd.1 (hd.2.resolve_left hsmall) hsmall
  · obtain ⟨n, hn, hvalue, -⟩ := defaultDisplay_display.plain d hd
    rw [textValue_of_spells hn, hvalue]

end MatchCoreHp

/-- The default texts, each parsed as the decimal it denotes. -/
@[reducible] def DecimalText.displayed : DecimalText where
  text := BigDecimal.display
  parse s := (MatchCoreHp.textValue s.toList).bind BigDecimal.ofRat
  parse_text d := by rw [MatchCoreHp.exactTexts_display, Option.bind_some, d.ofRat_toRat]
