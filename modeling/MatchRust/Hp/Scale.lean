import MatchRust.Hp.LevelIndex

/-!
# Decimal texts to ticks and lots

`parseFixed` reads a decimal text as a number of units of the last digit a
scale allows.  It works on the digits: the fractional digits are padded with
zeros to the length of the scale and the point is left out.  Texts are lists of
characters here.  `parseUnsigned` is the integer parser of the standard library
for texts without a minus sign.

`plainValue` is the number a decimal text denotes.
-/

namespace MatchCoreHp

/-- Why a decimal text is rejected. -/
inductive ScaleError where
  | empty
  | invalid
  | excessFractionalDigits
  | overflow
deriving DecidableEq

/-- The characters Unicode calls white space. -/
def isWhiteSpace (c : Char) : Bool :=
  (0x9 ≤ c.toNat && c.toNat ≤ 0xD) || c.toNat = 0x20 || c.toNat = 0x85 || c.toNat = 0xA0 ||
    c.toNat = 0x1680 || (0x2000 ≤ c.toNat && c.toNat ≤ 0x200A) || c.toNat = 0x2028 ||
    c.toNat = 0x2029 || c.toNat = 0x202F || c.toNat = 0x205F || c.toNat = 0x3000

/-- The text without white space around it. -/
def trim (s : List Char) : List Char := (s.dropWhile isWhiteSpace).rdropWhile isWhiteSpace

/-- The parts of a text before and after the first occurrence of a character. -/
def splitOnce (sep : Char) (s : List Char) : Option (List Char × List Char) :=
  match s.dropWhile (· ≠ sep) with
  | [] => none
  | _ :: rest => some (s.takeWhile (· ≠ sep), rest)

/-- The text without a plus sign in front. -/
def stripPlus : List Char → List Char
  | '+' :: rest => rest
  | s => s

/-- Parse an integer between zero and a bound: an optional plus sign and one
digit or more. -/
def parseUnsigned (max : Nat) (s : List Char) : Option Nat :=
  let digits := stripPlus s
  if digits.isEmpty || !digits.all Char.isDigit then none
  else if Nat.ofDigitChars 10 digits 0 ≤ max then some (Nat.ofDigitChars 10 digits 0)
  else none

/-- The sign of a text, and the text behind it. -/
def stripSign : List Char → Bool × List Char
  | '-' :: rest => (true, rest)
  | '+' :: rest => (false, rest)
  | s => (false, s)

/-- An integer part is one ASCII digit or more. -/
def asciiDigitsOrNonemptyInt (intPart : List Char) : Bool :=
  !intPart.isEmpty && intPart.all Char.isDigit

/-- The smallest 64-bit integer. -/
def i64Min : Int := -2 ^ 63

/-- The negation, if it is a 64-bit integer. -/
def checkedNeg (value : Int) : Except ScaleError Int :=
  if value = i64Min then .error .overflow else .ok (-value)

/-- The digits of a number in units of the last digit of the scale, without
leading zeros. -/
def fixedDigits (intPart fracPart : List Char) (scale : Nat) : List Char :=
  let digits := intPart ++ fracPart ++ List.replicate (scale - fracPart.length) '0'
  let trimmed := digits.dropWhile (· = '0')
  if trimmed.isEmpty then ['0'] else trimmed

/-- The integer and the fractional part of a text without a sign. -/
def splitPoint (body : List Char) : List Char × List Char := (splitOnce '.' body).getD (body, [])

/-- The result for the sign and the parts of a text. -/
def parseParts (neg : Bool) (intPart fracPart : List Char) (scale : Nat) :
    Except ScaleError Int :=
  if !asciiDigitsOrNonemptyInt intPart then .error .invalid
  else if !fracPart.all Char.isDigit then .error .invalid
  else if scale < fracPart.length then .error .excessFractionalDigits
  else
    match parseUnsigned i64Max.toNat (fixedDigits intPart fracPart scale) with
    | none => .error .overflow
    | some value => if neg then checkedNeg value else .ok value

/-- Read a decimal text in units of the last digit of the scale. -/
def parseFixed (s : List Char) (scale : Nat) : Except ScaleError Int :=
  let s := trim s
  if s.isEmpty then .error .empty
  else
    let signed := stripSign s
    if signed.2.isEmpty then .error .invalid
    else parseParts signed.1 (splitPoint signed.2).1 (splitPoint signed.2).2 scale

/-- Convert a decimal price to ticks. -/
def toTick (scale : SymbolScale) (s : String) : Except ScaleError Int :=
  parseFixed s.toList scale.priceScale

/-- Convert a decimal quantity to lots. -/
def toLot (scale : SymbolScale) (s : String) : Except ScaleError Int :=
  parseFixed s.toList scale.qtyScale

/-! ## Values -/

/-- The number the sign and the parts of a text denote, if they are digits. -/
def partsValue (neg : Bool) (intPart fracPart : List Char) : Option ℚ :=
  if asciiDigitsOrNonemptyInt intPart && fracPart.all Char.isDigit then
    let value : ℚ := Nat.ofDigitChars 10 (intPart ++ fracPart) 0 / 10 ^ fracPart.length
    some (if neg then -value else value)
  else none

/-- The number a plain decimal text denotes: a sign, digits, and digits behind a
point if there is one. -/
def plainValue (s : List Char) : Option ℚ :=
  let signed := stripSign s
  partsValue signed.1 (splitPoint signed.2).1 (splitPoint signed.2).2

theorem ofDigitChars_dropWhile_zero (l : List Char) :
    Nat.ofDigitChars 10 (l.dropWhile (· = '0')) 0 = Nat.ofDigitChars 10 l 0 := by
  induction l with
  | nil => rfl
  | cons c l ih =>
      by_cases hc : c = '0'
      · subst hc
        rw [List.dropWhile_cons_of_pos (by simp), ih, Nat.ofDigitChars_cons]
        rfl
      · rw [List.dropWhile_cons_of_neg (by simpa using hc)]

/-- Padding the fraction multiplies by a power of ten. -/
theorem ofDigitChars_fixedDigits (intPart fracPart : List Char) (scale : Nat) :
    Nat.ofDigitChars 10 (fixedDigits intPart fracPart scale) 0 =
      10 ^ (scale - fracPart.length) * Nat.ofDigitChars 10 (intPart ++ fracPart) 0 := by
  have hpad : Nat.ofDigitChars 10
      (intPart ++ fracPart ++ List.replicate (scale - fracPart.length) '0') 0 =
      10 ^ (scale - fracPart.length) * Nat.ofDigitChars 10 (intPart ++ fracPart) 0 := by
    rw [Nat.ofDigitChars_append, Nat.ofDigitChars_replicate_zero]
  have htrim := ofDigitChars_dropWhile_zero
    (intPart ++ fracPart ++ List.replicate (scale - fracPart.length) '0')
  rw [← hpad, ← htrim, fixedDigits]
  split
  next h => rw [List.isEmpty_iff.mp h]; rfl
  next => rfl

theorem isDigit_fixedDigits {intPart fracPart : List Char} (hi : intPart.all Char.isDigit)
    (hf : fracPart.all Char.isDigit) (scale : Nat) :
    ∀ c ∈ fixedDigits intPart fracPart scale, c.isDigit = true := by
  have hall : ∀ c ∈ intPart ++ fracPart ++ List.replicate (scale - fracPart.length) '0',
      c.isDigit = true := by
    intro c hc
    rcases List.mem_append.mp hc with hc | hc
    · rcases List.mem_append.mp hc with hc | hc
      · exact List.all_eq_true.mp hi c hc
      · exact List.all_eq_true.mp hf c hc
    · rw [List.eq_of_mem_replicate hc]
      rfl
  intro c hc
  rw [fixedDigits] at hc
  split at hc
  next => rw [List.mem_singleton.mp hc]; rfl
  next => exact hall c ((List.dropWhile_suffix _).subset hc)

theorem stripPlus_of_digits {s : List Char} (hs : ∀ c ∈ s, c.isDigit = true) :
    stripPlus s = s := by
  unfold stripPlus
  split
  next rest => exact absurd (hs '+' (List.mem_cons_self ..)) (by decide)
  next => rfl

end MatchCoreHp
