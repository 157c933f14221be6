import Mathlib

/-!
# Text in bytes

A text is the list of its bytes in UTF-8.  Reading bytes as a text replaces what is not
UTF-8, and trimming drops white space at both ends.  Numbers are written in decimal
digits.  They are read back (`parseU64_decimal`), also from a field that is padded with
spaces (`trim_padded_decimal`).
-/

namespace Text

/-! ## Bytes that are not UTF-8 -/

/-- What may follow the first byte of a longer character: the least and the greatest second
byte, and how many bytes come after it. -/
def second (b : UInt8) : Option (UInt8 × UInt8 × Nat) :=
  if 0xC2 ≤ b ∧ b ≤ 0xDF then some (0x80, 0xBF, 0)
  else if b = 0xE0 then some (0xA0, 0xBF, 1)
  else if b = 0xED then some (0x80, 0x9F, 1)
  else if 0xE1 ≤ b ∧ b ≤ 0xEF then some (0x80, 0xBF, 1)
  else if b = 0xF0 then some (0x90, 0xBF, 2)
  else if b = 0xF4 then some (0x80, 0x8F, 2)
  else if 0xF1 ≤ b ∧ b ≤ 0xF3 then some (0x80, 0xBF, 2)
  else none

/-- How many of the bytes that should follow are there, and whether all are. -/
def following : Nat → List UInt8 → Nat × Bool
  | 0, _ => (0, true)
  | _ + 1, [] => (0, false)
  | n + 1, b :: bs =>
      if 0x80 ≤ b ∧ b ≤ 0xBF then ((following n bs).1 + 1, (following n bs).2) else (0, false)

/-- How many bytes belong to a character after its first one, and whether it is complete. -/
def charAt (b : UInt8) (bs : List UInt8) : Nat × Bool :=
  if b < 0x80 then (0, true)
  else
    match second b, bs with
    | some (lo, hi, n), c :: bs =>
        if lo ≤ c ∧ c ≤ hi then ((following n bs).1 + 1, (following n bs).2) else (0, false)
    | _, _ => (0, false)

/-- Replace what is not UTF-8 by the replacement character. -/
def lossyLoop : Nat → List UInt8 → List UInt8
  | 0, _ => []
  | _ + 1, [] => []
  | fuel + 1, b :: bs =>
      let r := charAt b bs
      (if r.2 then b :: bs.take r.1 else [0xEF, 0xBF, 0xBD]) ++ lossyLoop fuel (bs.drop r.1)

/-- Read bytes as a text. -/
def fromUtf8Lossy (bs : List UInt8) : List UInt8 := lossyLoop bs.length bs

theorem fromUtf8Lossy_ascii {bs : List UInt8} (h : ∀ b ∈ bs, b < 0x80) : fromUtf8Lossy bs = bs := by
  unfold fromUtf8Lossy
  induction bs with
  | nil => rfl
  | cons b bs ih =>
      have hb : charAt b bs = (0, true) := if_pos (h b List.mem_cons_self)
      rw [List.length_cons, lossyLoop, hb]
      simpa using ih fun c hc => h c (List.mem_cons_of_mem b hc)

/-! ## White space -/

/-- The characters that count as white space. -/
def whiteSpace : List (List UInt8) :=
  [[0x09], [0x0A], [0x0B], [0x0C], [0x0D], [0x20], [0xC2, 0x85], [0xC2, 0xA0],
    [0xE1, 0x9A, 0x80], [0xE2, 0x80, 0x80], [0xE2, 0x80, 0x81], [0xE2, 0x80, 0x82],
    [0xE2, 0x80, 0x83], [0xE2, 0x80, 0x84], [0xE2, 0x80, 0x85], [0xE2, 0x80, 0x86],
    [0xE2, 0x80, 0x87], [0xE2, 0x80, 0x88], [0xE2, 0x80, 0x89], [0xE2, 0x80, 0x8A],
    [0xE2, 0x80, 0xA8], [0xE2, 0x80, 0xA9], [0xE2, 0x80, 0xAF], [0xE2, 0x81, 0x9F],
    [0xE3, 0x80, 0x80]]

/-- Drop words of a table from the front, as long as there is one. -/
def strip (table : List (List UInt8)) : Nat → List UInt8 → List UInt8
  | 0, bs => bs
  | fuel + 1, bs =>
      match table.find? fun w => w.isPrefixOf bs with
      | some w => strip table fuel (bs.drop w.length)
      | none => bs

/-- Drop white space at both ends. -/
def trim (bs : List UInt8) : List UInt8 :=
  let front := strip whiteSpace bs.length bs
  (strip (whiteSpace.map List.reverse) front.length front.reverse).reverse

/-! ## Decimal numbers -/

/-- A decimal digit. -/
def IsDigit (b : UInt8) : Prop := 48 ≤ b.toNat ∧ b.toNat ≤ 57

instance decidableIsDigit (b : UInt8) : Decidable (IsDigit b) := inferInstanceAs (Decidable (_ ∧ _))

/-- The digits of a number. -/
def decimal (n : Nat) : List UInt8 := (Nat.toDigits 10 n).map fun c => UInt8.ofNat c.toNat

/-- The number with these digits. -/
def digitsValue (bs : List UInt8) : Option Nat :=
  bs.foldl (fun v b => v.bind fun v => if IsDigit b then some (10 * v + (b.toNat - 48)) else none)
    (some 0)

/-- Read a 64-bit number.  A plus sign is allowed, an empty text is not. -/
def parseU64 (bs : List UInt8) : Option Nat :=
  let digits := if bs.head? = some 43 then bs.tail else bs
  if digits = [] then none
  else (digitsValue digits).bind fun n => if n < 2 ^ 64 then some n else none

/-- The last digit comes off the end. -/
theorem decimal_eq (n : Nat) :
    decimal n = (if n < 10 then [] else decimal (n / 10)) ++ [UInt8.ofNat (48 + n % 10)] := by
  have hdigit : ∀ d < 10, UInt8.ofNat (Nat.digitChar d).toNat = UInt8.ofNat (48 + d) := by decide
  unfold decimal
  rw [Nat.toDigits_eq_if (by decide)]
  split
  next h => simp [hdigit n h, Nat.mod_eq_of_lt h]
  next h => simp [hdigit (n % 10) (Nat.mod_lt n (by decide))]

theorem toNat_digit (n : Nat) : (UInt8.ofNat (48 + n % 10)).toNat = 48 + n % 10 := by
  rw [UInt8.toNat_ofNat']
  omega

theorem decimal_ne_nil (n : Nat) : decimal n ≠ [] := by
  rw [decimal_eq]
  simp

theorem isDigit_decimal (n : Nat) : ∀ b ∈ decimal n, IsDigit b := by
  induction n using Nat.strong_induction_on with
  | _ n ih =>
      intro b hb
      rw [decimal_eq] at hb
      rcases List.mem_append.mp hb with hold | hlast
      · split at hold
        next => cases hold
        next h => exact ih (n / 10) (by omega) b hold
      · rw [List.mem_singleton.mp hlast, IsDigit, toNat_digit]
        omega

theorem digitsValue_append (bs : List UInt8) (b : UInt8) :
    digitsValue (bs ++ [b]) =
      (digitsValue bs).bind fun v =>
        if IsDigit b then some (10 * v + (b.toNat - 48)) else none := by
  simp [digitsValue, List.foldl_append]

theorem digitsValue_decimal (n : Nat) : digitsValue (decimal n) = some n := by
  induction n using Nat.strong_induction_on with
  | _ n ih =>
      have hdigit : IsDigit (UInt8.ofNat (48 + n % 10)) := by
        rw [IsDigit, toNat_digit]
        omega
      simp only [decimal_eq n, digitsValue_append, if_pos hdigit, toNat_digit]
      split
      next h =>
        rw [show digitsValue [] = some 0 from rfl, Option.bind_some, Option.some.injEq]
        omega
      next h =>
        rw [ih (n / 10) (by omega), Option.bind_some, Option.some.injEq]
        omega

theorem length_decimal_le {n k : Nat} (h : n < 10 ^ (k + 1)) : (decimal n).length ≤ k + 1 := by
  induction k generalizing n with
  | zero =>
      rw [decimal_eq, if_pos (by simpa using h)]
      simp
  | succ k ih =>
      rw [decimal_eq]
      split
      next => simp
      next =>
        have hlt : n / 10 < 10 ^ (k + 1) := by
          rw [Nat.pow_succ] at h
          omega
        have := ih hlt
        rw [List.length_append, List.length_singleton]
        omega

/-! ## Padded numbers -/

/-- No word of the table is at the front if each begins with a byte that is no digit. -/
theorem strip_digit {table : List (List UInt8)}
    (htable : ∀ w ∈ table, w.head?.any (fun c => ¬IsDigit c) = true) {b : UInt8} (hb : IsDigit b)
    (fuel : Nat) (bs : List UInt8) : strip table fuel (b :: bs) = b :: bs := by
  cases fuel with
  | zero => rfl
  | succ fuel =>
      have hnone : table.find? (fun w => w.isPrefixOf (b :: bs)) = none := by
        rw [List.find?_eq_none]
        intro w hw hpre
        have hfirst := htable w hw
        cases w with
        | nil => cases hfirst
        | cons c w =>
            have hcb : c = b := by
              simp only [List.isPrefixOf, Bool.and_eq_true, beq_iff_eq] at hpre
              exact hpre.1
            exact of_decide_eq_true hfirst (hcb ▸ hb)
      rw [strip, hnone]

theorem strip_spaces {k fuel : Nat} {b : UInt8} {bs : List UInt8} (hb : IsDigit b)
    (hfuel : k ≤ fuel) :
    strip whiteSpace fuel (List.replicate k 32 ++ b :: bs) = b :: bs := by
  induction k generalizing fuel with
  | zero => exact strip_digit (by decide) hb fuel bs
  | succ k ih =>
      cases fuel with
      | zero => omega
      | succ fuel =>
          have hfind : whiteSpace.find? (fun w =>
              w.isPrefixOf (List.replicate (k + 1) 32 ++ b :: bs)) = some [32] := by
            simp [whiteSpace, List.replicate_succ, List.isPrefixOf]
          rw [strip, hfind]
          exact ih (Nat.le_of_succ_le_succ hfuel)

/-- Spaces before digits are dropped, and nothing else. -/
theorem trim_pad (k : Nat) {bs : List UInt8} (hne : bs ≠ []) (h : ∀ b ∈ bs, IsDigit b) :
    trim (List.replicate k 32 ++ bs) = bs := by
  have hfront : strip whiteSpace (List.replicate k (32 : UInt8) ++ bs).length
      (List.replicate k 32 ++ bs) = bs := by
    cases bs with
    | nil => exact absurd rfl hne
    | cons b bs =>
        refine strip_spaces (h b List.mem_cons_self) ?_
        rw [List.length_append, List.length_replicate]
        exact Nat.le_add_right _ _
  have hback : strip (whiteSpace.map List.reverse) bs.length bs.reverse = bs.reverse := by
    cases hrev : bs.reverse with
    | nil => exact absurd (List.reverse_eq_nil_iff.mp hrev) hne
    | cons b rest =>
        have hmem : b ∈ bs := List.mem_reverse.mp (hrev ▸ List.mem_cons_self)
        exact strip_digit (by decide) (h b hmem) _ rest
  simp only [trim, hfront, hback, List.reverse_reverse]

/-- The digits of a number are read back from a field that is padded with spaces. -/
theorem trim_padded_decimal (k n : Nat) :
    trim (fromUtf8Lossy (List.replicate k 32 ++ decimal n)) = decimal n := by
  have hascii : ∀ b ∈ List.replicate k 32 ++ decimal n, b < 0x80 := by
    intro b hb
    rcases List.mem_append.mp hb with hspace | hdigit
    · rw [(List.mem_replicate.mp hspace).2]
      decide
    · have := (isDigit_decimal n b hdigit).2
      rw [UInt8.lt_iff_toNat_lt]
      exact lt_of_le_of_lt this (by decide)
  rw [fromUtf8Lossy_ascii hascii, trim_pad k (decimal_ne_nil n) (isDigit_decimal n)]

theorem trim_decimal (n : Nat) : trim (decimal n) = decimal n :=
  trim_pad 0 (decimal_ne_nil n) (isDigit_decimal n)

/-- A number is read back from its digits. -/
theorem parseU64_decimal {n : Nat} (h : n < 2 ^ 64) : parseU64 (decimal n) = some n := by
  have hplus : (decimal n).head? ≠ some 43 := by
    intro hhead
    have hmem := List.mem_of_head? hhead
    exact absurd (isDigit_decimal n 43 hmem) (by decide)
  simp only [parseU64, if_neg hplus, if_neg (decimal_ne_nil n), digitsValue_decimal,
    Option.bind_some, if_pos h]

end Text
