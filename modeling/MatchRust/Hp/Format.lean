import MatchRust.Hp.ScaleExact

/-!
# Ticks and lots to decimal texts

`formatFixed` writes a number of units of a scale with the point before its last digits.
The digits behind the point are filled up with zeros.  A scale above 19 is cut to 19, the
largest power of ten that the arithmetic of the code can hold.

Up to that scale the text is a numeral with as many digits behind the point as the scale has
and of exactly the value of the units (`FixedText`), and the parser reads the units back
(`parseFixed_formatFixed`).
-/

namespace MatchCoreHp

/-- Write a number of units of a scale. -/
def formatFixed (value : Int) (scale : Nat) : String :=
  if scale = 0 then toString value
  else
    let scale := min scale 19
    let abs := value.natAbs
    let factor := 10 ^ scale
    let intPart := abs / factor
    let fracPart := abs % factor
    let frac := String.ofList (Numeral.padded scale fracPart)
    if value < 0 then "-" ++ toString intPart ++ "." ++ frac
    else toString intPart ++ "." ++ frac

/-- Format ticks as a decimal price. -/
def fromTick (scale : SymbolScale) (tick : Int) : String := formatFixed tick scale.priceScale

/-- Format lots as a decimal quantity. -/
def fromLot (scale : SymbolScale) (lot : Int) : String := formatFixed lot scale.qtyScale

/-- A decimal text of `units / 10 ^ k`, with exactly `k` digits behind the point, and without
a point if there are none. -/
structure FixedText (text : String) (units : Int) (k : Nat) : Prop where
  numeral : ∃ n : Numeral, n.Spells text.toList ∧ n.fracPart.length = k ∧
    n.value = units / 10 ^ k
  point : '.' ∈ text.toList ↔ k ≠ 0

theorem toList_toString_nat (n : Nat) : (toString n).toList = Nat.toDigits 10 n := by
  rw [Nat.toString_eq_repr, Nat.toList_repr]

theorem toList_toString_int (v : Int) :
    (toString v).toList = (if v < 0 then ['-'] else []) ++ Nat.toDigits 10 v.natAbs := by
  cases v with
  | ofNat n => exact toList_toString_nat n
  | negSucc n =>
      have htext : (toString (Int.negSucc n)).toList = ("-" ++ toString (n + 1)).toList := rfl
      rw [htext, String.toList_append, toList_toString_nat, if_pos (Int.negSucc_lt_zero n)]
      rfl

/-- The text has the point before the last digits. -/
theorem toList_formatFixed (value : Int) {scale : Nat} (h : scale ≤ 19) :
    (formatFixed value scale).toList = Numeral.plainText value scale := by
  rw [formatFixed, Numeral.plainText]
  split
  next hzero =>
    rw [hzero, toList_toString_int]
    simp
  next hzero =>
    simp only [Nat.min_eq_left h]
    split
    next => simp
    next => simp

theorem isWhiteSpace_of_spells {n : Numeral} {s : List Char} (h : n.Spells s) {c : Char}
    (hc : c ∈ s) : isWhiteSpace c = false := by
  rcases h.mem hc with hdigit | rfl | rfl | rfl
  · have hrange : 48 ≤ c.toNat ∧ c.toNat ≤ 57 := by
      simp only [Char.isDigit, Bool.and_eq_true, decide_eq_true_eq] at hdigit
      exact ⟨UInt32.le_iff_toNat_le.mp hdigit.1, UInt32.le_iff_toNat_le.mp hdigit.2⟩
    simp only [isWhiteSpace]
    grind
  · rfl
  · rfl
  · rfl

/-- There is no white space around a numeral. -/
theorem trim_of_spells {n : Numeral} {s : List Char} (h : n.Spells s) : trim s = s := by
  have hdrop : s.dropWhile isWhiteSpace = s := by
    rw [List.dropWhile_eq_self_iff]
    intro hlen hspace
    exact absurd (isWhiteSpace_of_spells h (List.getElem_mem hlen)) (by simp [hspace])
  rw [trim, hdrop, List.rdropWhile_eq_self_iff]
  intro hne hspace
  exact absurd (isWhiteSpace_of_spells h (List.getLast_mem hne)) (by simp [hspace])

theorem fixedText_formatFixed (value : Int) {scale : Nat} (h : scale ≤ 19) :
    FixedText (formatFixed value scale) value scale := by
  constructor
  · rw [toList_formatFixed value h]
    exact ⟨_, Numeral.spells_plainText value scale, Numeral.length_fracPart_ofUnits value scale,
      Numeral.value_ofUnits value scale⟩
  · rw [toList_formatFixed value h]
    exact Numeral.point_mem_plainText value scale

/-- What is written is read back. -/
theorem parseFixed_formatFixed {value : Int} {scale : Nat} (h : scale ≤ 19)
    (hrange : |value| ≤ i64Max) :
    parseFixed (formatFixed value scale).toList scale = .ok value := by
  have hs := Numeral.spells_plainText value scale
  rw [toList_formatFixed value h]
  have hs' : (Numeral.ofUnits value scale).Spells (trim (Numeral.plainText value scale)) := by
    rwa [trim_of_spells hs]
  rw [parseFixed_of_spells hs', Numeral.length_fracPart_ofUnits, if_neg (Nat.lt_irrefl _),
    Numeral.absUnits_ofUnits, Numeral.units_ofUnits, if_pos]
  rw [Int.abs_eq_natAbs] at hrange
  omega

end MatchCoreHp
