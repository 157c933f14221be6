import MatchRust.Hp.Scale
import MatchRust.Lib.Numeral

/-!
# What the parser of decimal texts accepts

`parseFixed` accepts exactly the texts of the numerals that fit the scale, and it returns
their exact value in units of the scale (`parseFixed_of_spells`).  The sign and the parts it
cuts a text into are those of the numeral (`parts_of_spells`), and a text whose parts are
digits is that of a numeral (`exists_spells`).  So the texts it rejects fall into four
kinds, one for each error (`ReadsDecimals`).
-/

namespace MatchCoreHp

/-! ## Parts of a text -/

theorem stripSign_digit {c : Char} (hc : c.isDigit = true) (l : List Char) :
    stripSign (c :: l) = (false, c :: l) := by
  unfold stripSign
  split
  next heq => cases heq; exact absurd hc (by decide)
  next heq => cases heq; exact absurd hc (by decide)
  next => rfl

/-- The text is the sign and what is behind it. -/
theorem stripSign_spec (s : List Char) :
    ∃ sign, s = sign ++ (stripSign s).2 ∧
      if (stripSign s).1 then sign = ['-'] else sign = [] ∨ sign = ['+'] := by
  unfold stripSign
  split
  next rest => exact ⟨['-'], rfl, rfl⟩
  next rest => exact ⟨['+'], rfl, Or.inr rfl⟩
  next => exact ⟨[], rfl, Or.inl rfl⟩

theorem ne_point {digits : List Char} (h : ∀ c ∈ digits, c.isDigit = true) :
    ∀ c ∈ digits, decide (c ≠ '.') = true := by
  intro c hc
  rw [decide_eq_true_eq]
  rintro rfl
  exact absurd (h _ hc) (by decide)

theorem splitPoint_point {digits : List Char} (h : ∀ c ∈ digits, c.isDigit = true)
    (rest : List Char) : splitPoint (digits ++ '.' :: rest) = (digits, rest) := by
  rw [splitPoint, splitOnce, List.dropWhile_append_of_pos (ne_point h),
    List.takeWhile_append_of_pos (ne_point h)]
  simp

theorem splitPoint_digits {digits : List Char} (h : ∀ c ∈ digits, c.isDigit = true) :
    splitPoint digits = (digits, []) := by
  have hdrop : digits.dropWhile (· ≠ '.') = [] := List.dropWhile_eq_nil_iff.mpr (ne_point h)
  rw [splitPoint, splitOnce, hdrop]
  rfl

/-- The text is the integer part, and the fraction behind a point if there is one. -/
theorem splitPoint_spec (body : List Char) :
    ∃ point, body = (splitPoint body).1 ++ point ∧
      (point = '.' :: (splitPoint body).2 ∨ point = [] ∧ (splitPoint body).2 = []) := by
  rw [splitPoint, splitOnce]
  split
  next => exact ⟨[], (List.append_nil _).symm, Or.inr ⟨rfl, rfl⟩⟩
  next c rest heq =>
    -- The first character that is kept is the point.
    have hc : c = '.' := by
      have hhead := List.head?_dropWhile_not (· ≠ '.') body
      rw [heq] at hhead
      simpa using hhead
    subst hc
    refine ⟨'.' :: rest, ?_, Or.inl rfl⟩
    calc body = body.takeWhile (· ≠ '.') ++ body.dropWhile (· ≠ '.') :=
          (List.takeWhile_append_dropWhile).symm
      _ = body.takeWhile (· ≠ '.') ++ '.' :: rest := by rw [heq]

/-- The integer part of a numeral passes the check of the parser. -/
theorem asciiDigitsOrNonemptyInt_intPart (n : Numeral) :
    asciiDigitsOrNonemptyInt n.intPart = true := by
  rw [asciiDigitsOrNonemptyInt, List.all_eq_true.mpr n.intDigits,
    List.isEmpty_eq_false_iff.mpr n.nonempty]
  rfl

/-- A text of a numeral is cut into the parts of the numeral. -/
theorem parts_of_spells {n : Numeral} {s : List Char} (h : n.Spells s) :
    (stripSign s).1 = n.neg ∧ (stripSign s).2 ≠ [] ∧
      splitPoint (stripSign s).2 = (n.intPart, n.fracPart) := by
  obtain ⟨sign, point, rfl, hsign, hpoint⟩ := h
  have hstrip : stripSign (sign ++ (n.intPart ++ point)) = (n.neg, n.intPart ++ point) := by
    obtain ⟨c, l, hcl⟩ := List.exists_cons_of_ne_nil n.nonempty
    have hc : c.isDigit = true := n.intDigits c (by rw [hcl]; exact List.mem_cons_self ..)
    split at hsign
    next hneg => rw [hsign, hneg]; rfl
    next hneg =>
      rw [Bool.eq_false_of_not_eq_true hneg]
      rcases hsign with rfl | rfl
      · rw [hcl]
        exact stripSign_digit hc _
      · rfl
  rw [hstrip]
  refine ⟨rfl, by simp [n.nonempty], ?_⟩
  rcases hpoint with rfl | ⟨rfl, hfrac⟩
  · exact splitPoint_point n.intDigits _
  · rw [List.append_nil, hfrac]
    exact splitPoint_digits n.intDigits

/-- A text whose parts are digits is that of a numeral. -/
theorem exists_spells {s : List Char}
    (hint : asciiDigitsOrNonemptyInt (splitPoint (stripSign s).2).1 = true)
    (hfrac : (splitPoint (stripSign s).2).2.all Char.isDigit = true) :
    ∃ n : Numeral, n.Spells s := by
  obtain ⟨hne, hall⟩ := Bool.and_eq_true_iff.mp hint
  obtain ⟨sign, hs, hsign⟩ := stripSign_spec s
  obtain ⟨point, hbody, hpoint⟩ := splitPoint_spec (stripSign s).2
  refine ⟨⟨(stripSign s).1, _, (splitPoint (stripSign s).2).2, ?_, List.all_eq_true.mp hall,
    List.all_eq_true.mp hfrac⟩, sign, point, ?_, hsign, hpoint⟩
  · rintro hnil
    rw [hnil] at hne
    cases hne
  · exact hs.trans (congrArg (sign ++ ·) hbody)

/-- The number a text of a numeral denotes. -/
theorem plainValue_of_spells {n : Numeral} {s : List Char} (h : n.Spells s) :
    plainValue s = some n.value := by
  obtain ⟨hneg, -, hparts⟩ := parts_of_spells h
  simp only [plainValue, hneg, hparts, partsValue, asciiDigitsOrNonemptyInt_intPart,
    List.all_eq_true.mpr n.fracDigits, Bool.and_self, if_true]
  rw [n.value_eq]
  rfl

/-- A plain decimal text is that of a numeral. -/
theorem exists_spells_of_plainValue {s : List Char} {q : ℚ} (h : plainValue s = some q) :
    ∃ n : Numeral, n.Spells s := by
  simp only [plainValue, partsValue] at h
  split at h
  next hdigits =>
    obtain ⟨hint, hfrac⟩ := Bool.and_eq_true_iff.mp hdigits
    exact exists_spells hint hfrac
  next => cases h

/-! ## Results -/

theorem fixedDigits_ne_nil (intPart fracPart : List Char) (scale : Nat) :
    fixedDigits intPart fracPart scale ≠ [] := by
  rw [fixedDigits]
  split
  next => exact List.cons_ne_nil _ _
  next h => exact fun hnil => h (List.isEmpty_iff.mpr hnil)

/-- Digits are parsed if their value is in range. -/
theorem parseUnsigned_digits {max : Nat} {s : List Char} (hne : s ≠ [])
    (hs : ∀ c ∈ s, c.isDigit = true) :
    parseUnsigned max s =
      if Nat.ofDigitChars 10 s 0 ≤ max then some (Nat.ofDigitChars 10 s 0) else none := by
  have hcond : (s.isEmpty || !s.all Char.isDigit) = false := by
    rw [List.all_eq_true.mpr hs, List.isEmpty_eq_false_iff.mpr hne]
    rfl
  simp only [parseUnsigned, stripPlus_of_digits hs, hcond, Bool.false_eq_true, if_false]

/-- The result for the parts of a numeral. -/
theorem parseParts_numeral (n : Numeral) (scale : Nat) :
    parseParts n.neg n.intPart n.fracPart scale =
      if scale < n.fracPart.length then .error .excessFractionalDigits
      else if n.absUnits scale ≤ i64Max.toNat then .ok (n.units scale)
      else .error .overflow := by
  have hall : n.intPart.all Char.isDigit = true := List.all_eq_true.mpr n.intDigits
  have hfrac : n.fracPart.all Char.isDigit = true := List.all_eq_true.mpr n.fracDigits
  have hparse : parseUnsigned i64Max.toNat (fixedDigits n.intPart n.fracPart scale) =
      if n.absUnits scale ≤ i64Max.toNat then some (n.absUnits scale) else none := by
    rw [parseUnsigned_digits (fixedDigits_ne_nil n.intPart n.fracPart scale)
      (isDigit_fixedDigits hall hfrac scale), ofDigitChars_fixedDigits]
    rfl
  simp only [parseParts, asciiDigitsOrNonemptyInt_intPart, hfrac, Bool.not_true,
    Bool.false_eq_true, if_false]
  by_cases hlen : scale < n.fracPart.length
  · rw [if_pos hlen, if_pos hlen]
  · rw [if_neg hlen, if_neg hlen, hparse]
    by_cases hmax : n.absUnits scale ≤ i64Max.toNat
    · rw [if_pos hmax, if_pos hmax, Numeral.units]
      cases n.neg with
      | false => rfl
      | true =>
          -- The smallest integer is never negated, digits have no sign.
          have hmin : (n.absUnits scale : Int) ≠ i64Min := by
            rw [i64Min]
            omega
          simp only [checkedNeg, hmin, if_true, if_false]
    · rw [if_neg hmax, if_neg hmax]

/-- A text of a numeral is rejected if it has too many digits behind the point, or if it is
out of range. -/
theorem parseFixed_of_spells {n : Numeral} {s : List Char} (h : n.Spells (trim s))
    (scale : Nat) :
    parseFixed s scale =
      if scale < n.fracPart.length then .error .excessFractionalDigits
      else if n.absUnits scale ≤ i64Max.toNat then .ok (n.units scale)
      else .error .overflow := by
  obtain ⟨hneg, hbody, hparts⟩ := parts_of_spells h
  rw [← parseParts_numeral, parseFixed]
  simp only [List.isEmpty_iff, h.ne_nil, hbody, if_false, hneg, hparts]

/-- A text of no numeral is blank or invalid. -/
theorem parseFixed_of_not_spells {s : List Char} (h : ∀ n : Numeral, ¬n.Spells (trim s))
    (scale : Nat) :
    parseFixed s scale = if trim s = [] then .error .empty else .error .invalid := by
  simp only [parseFixed, List.isEmpty_iff]
  split
  next => rfl
  next =>
    split
    next => rfl
    next =>
      rw [parseParts]
      split
      next => rfl
      next hint =>
        split
        next => rfl
        next hfrac =>
          rw [Bool.not_eq_true, Bool.not_eq_false'] at hint hfrac
          obtain ⟨n, hn⟩ := exists_spells hint hfrac
          exact absurd hn (h n)

/-- Only white space is dropped. -/
theorem mem_trim {s : List Char} {c : Char} (hc : c ∈ s) (hspace : isWhiteSpace c = false) :
    c ∈ trim s := by
  have hdrop : c ∈ s.dropWhile isWhiteSpace := by
    rw [← List.takeWhile_append_dropWhile (p := isWhiteSpace) (l := s)] at hc
    rcases List.mem_append.mp hc with hc | hc
    · exact absurd (List.mem_takeWhile_imp hc) (by simp [hspace])
    · exact hc
  rw [← List.rdropWhile_append_rtakeWhile (p := isWhiteSpace)
    (l := s.dropWhile isWhiteSpace)] at hdrop
  rcases List.mem_append.mp hdrop with hc | hc
  · exact hc
  · exact absurd (List.mem_rtakeWhile_imp hc) (by simp [hspace])

theorem trim_eq_nil {s : List Char} : trim s = [] ↔ ∀ c ∈ s, isWhiteSpace c = true := by
  constructor
  · intro h c hc
    cases hspace : isWhiteSpace c with
    | true => rfl
    | false =>
        have hmem := mem_trim hc hspace
        rw [h] at hmem
        cases hmem
  · intro h
    rw [trim, List.rdropWhile_eq_nil_iff]
    intro c hc
    exact h c ((List.dropWhile_suffix _).subset hc)

/-! ## Texts and results -/

/-- The texts a parser of decimals accepts, with at most `k` digits behind the point, and the
errors for the others. -/
structure ReadsDecimals (parse : String → Except ScaleError Int) (k : Nat) : Prop where
  /-- The result is the exact value in units of the last digit. -/
  ok : ∀ s v, parse s = .ok v ↔ ∃ n : Numeral, n.Spells (trim s.toList) ∧
    n.fracPart.length ≤ k ∧ |n.value * 10 ^ k| ≤ 2 ^ 63 - 1 ∧ (v : ℚ) = n.value * 10 ^ k
  empty : ∀ s, parse s = .error .empty ↔ ∀ c ∈ s.toList, isWhiteSpace c = true
  invalid : ∀ s, parse s = .error .invalid ↔
    (∃ c ∈ s.toList, isWhiteSpace c = false) ∧ ∀ n : Numeral, ¬n.Spells (trim s.toList)
  excess : ∀ s, parse s = .error .excessFractionalDigits ↔
    ∃ n : Numeral, n.Spells (trim s.toList) ∧ k < n.fracPart.length
  overflow : ∀ s, parse s = .error .overflow ↔ ∃ n : Numeral, n.Spells (trim s.toList) ∧
    n.fracPart.length ≤ k ∧ 2 ^ 63 - 1 < |n.value * 10 ^ k|

/-- The range of a numeral that fits the scale. -/
theorem absUnits_le_iff {n : Numeral} {k : Nat} (h : n.fracPart.length ≤ k) :
    n.absUnits k ≤ i64Max.toNat ↔ |n.value * 10 ^ k| ≤ 2 ^ 63 - 1 := by
  rw [n.value_eq_units h, ← Int.cast_abs, n.abs_units]
  have hmax : ((2 : ℚ) ^ 63 - 1) = ((i64Max.toNat : ℕ) : ℚ) := by
    have htoNat : i64Max.toNat = 2 ^ 63 - 1 := by decide
    rw [htoNat]
    norm_num
  rw [hmax]
  norm_cast

/-- What a text is read as: one case for each kind of result. -/
inductive Reading (s : List Char) (k : Nat) : Except ScaleError Int → Prop
  | ok {n : Numeral} (hn : n.Spells (trim s)) (hlen : n.fracPart.length ≤ k)
      (hmax : n.absUnits k ≤ i64Max.toNat) : Reading s k (.ok (n.units k))
  | empty (htrim : trim s = []) : Reading s k (.error .empty)
  | invalid (htrim : trim s ≠ []) (hs : ∀ n : Numeral, ¬n.Spells (trim s)) :
      Reading s k (.error .invalid)
  | excess {n : Numeral} (hn : n.Spells (trim s)) (hlen : k < n.fracPart.length) :
      Reading s k (.error .excessFractionalDigits)
  | overflow {n : Numeral} (hn : n.Spells (trim s)) (hlen : n.fracPart.length ≤ k)
      (hmax : ¬n.absUnits k ≤ i64Max.toNat) : Reading s k (.error .overflow)

section Results

variable {s : List Char} {k : Nat}

theorem reading_parseFixed : Reading s k (parseFixed s k) := by
  by_cases hs : ∃ n : Numeral, n.Spells (trim s)
  · obtain ⟨n, hn⟩ := hs
    rw [parseFixed_of_spells hn]
    split_ifs with hlen hmax
    · exact .excess hn hlen
    · exact .ok hn (not_lt.mp hlen) hmax
    · exact .overflow hn (not_lt.mp hlen) hmax
  · rw [parseFixed_of_not_spells (not_exists.mp hs)]
    split_ifs with htrim
    · exact .empty htrim
    · exact .invalid htrim (not_exists.mp hs)

theorem parseFixed_ok_iff {v : Int} :
    parseFixed s k = .ok v ↔ ∃ n : Numeral, n.Spells (trim s) ∧ n.fracPart.length ≤ k ∧
      |n.value * 10 ^ k| ≤ 2 ^ 63 - 1 ∧ (v : ℚ) = n.value * 10 ^ k := by
  constructor
  · intro h
    have hread : Reading s k (.ok v) := h ▸ reading_parseFixed
    cases hread with
    | @ok n hn hlen hmax =>
        exact ⟨n, hn, hlen, (absUnits_le_iff hlen).mp hmax, (n.value_eq_units hlen).symm⟩
  · rintro ⟨n, hn, hlen, hmax, hv⟩
    rw [n.value_eq_units hlen] at hv
    rw [parseFixed_of_spells hn, if_neg (not_lt.mpr hlen),
      if_pos ((absUnits_le_iff hlen).mpr hmax), Int.cast_injective hv]

theorem parseFixed_empty_iff :
    parseFixed s k = .error .empty ↔ ∀ c ∈ s, isWhiteSpace c = true := by
  rw [← trim_eq_nil]
  constructor
  · intro h
    have hread : Reading s k (.error .empty) := h ▸ reading_parseFixed
    cases hread with
    | empty htrim => exact htrim
  · intro htrim
    rw [parseFixed_of_not_spells fun n hn => hn.ne_nil htrim, if_pos htrim]

theorem parseFixed_invalid_iff :
    parseFixed s k = .error .invalid ↔
      (∃ c ∈ s, isWhiteSpace c = false) ∧ ∀ n : Numeral, ¬n.Spells (trim s) := by
  have hblank : (∃ c ∈ s, isWhiteSpace c = false) ↔ trim s ≠ [] := by
    rw [Ne, trim_eq_nil]
    simp
  rw [hblank]
  constructor
  · intro h
    have hread : Reading s k (.error .invalid) := h ▸ reading_parseFixed
    cases hread with
    | invalid htrim hs => exact ⟨htrim, hs⟩
  · rintro ⟨htrim, hs⟩
    rw [parseFixed_of_not_spells hs, if_neg htrim]

theorem parseFixed_excess_iff :
    parseFixed s k = .error .excessFractionalDigits ↔
      ∃ n : Numeral, n.Spells (trim s) ∧ k < n.fracPart.length := by
  constructor
  · intro h
    have hread : Reading s k (.error .excessFractionalDigits) := h ▸ reading_parseFixed
    cases hread with
    | @excess n hn hlen => exact ⟨n, hn, hlen⟩
  · rintro ⟨n, hn, hlen⟩
    rw [parseFixed_of_spells hn, if_pos hlen]

theorem parseFixed_overflow_iff :
    parseFixed s k = .error .overflow ↔ ∃ n : Numeral, n.Spells (trim s) ∧
      n.fracPart.length ≤ k ∧ 2 ^ 63 - 1 < |n.value * 10 ^ k| := by
  constructor
  · intro h
    have hread : Reading s k (.error .overflow) := h ▸ reading_parseFixed
    cases hread with
    | @overflow n hn hlen hmax =>
        exact ⟨n, hn, hlen, not_le.mp (mt (absUnits_le_iff hlen).mpr hmax)⟩
  · rintro ⟨n, hn, hlen, hmax⟩
    rw [parseFixed_of_spells hn, if_neg (not_lt.mpr hlen),
      if_neg (mt (absUnits_le_iff hlen).mp (not_le.mpr hmax))]

/-- A text that is accepted denotes the result in units of the scale. -/
theorem parseFixed_value {v : Int} (h : parseFixed s k = .ok v) :
    ∃ q, plainValue (trim s) = some q ∧ (v : ℚ) = q * 10 ^ k := by
  obtain ⟨n, hn, -, -, hv⟩ := parseFixed_ok_iff.mp h
  exact ⟨n.value, plainValue_of_spells hn, hv⟩

end Results

theorem readsDecimals_parseFixed (k : Nat) :
    ReadsDecimals (fun s => parseFixed s.toList k) k where
  ok _ _ := parseFixed_ok_iff
  empty _ := parseFixed_empty_iff
  invalid _ := parseFixed_invalid_iff
  excess _ := parseFixed_excess_iff
  overflow _ := parseFixed_overflow_iff

/-- Prices and quantities are read exactly, and every other text gets the error of its kind. -/
theorem toTick_toLot_exact (scale : SymbolScale) :
    ReadsDecimals (toTick scale) scale.priceScale ∧
      ReadsDecimals (toLot scale) scale.qtyScale :=
  ⟨readsDecimals_parseFixed _, readsDecimals_parseFixed _⟩

end MatchCoreHp
