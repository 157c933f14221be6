import MatchRust.Lib.Text

/-!
# Characters in bytes

A string is a list of characters, written in UTF-8 (`asBytes`).  Reading bytes as a string
takes one character after the other.  Where there is none, the bytes that might have begun
one are replaced by the replacement character.

What was written as a string is read back (`decodeLossy_asBytes`).
-/

namespace Text

/-- The bytes of a string. -/
def asBytes (s : String) : List UInt8 := s.toList.flatMap String.utf8EncodeChar

/-- The character at the front of some bytes. -/
def charFront (bs : List UInt8) : Option Char := bs.toByteArray.utf8DecodeChar? 0

/-- Read characters as long as there are bytes. -/
def decodeLoop : Nat → List UInt8 → List Char
  | 0, _ => []
  | _ + 1, [] => []
  | fuel + 1, b :: bs =>
      match charFront (b :: bs) with
      | some c => c :: decodeLoop fuel ((b :: bs).drop c.utf8Size)
      | none => '�' :: decodeLoop fuel (bs.drop (charAt b bs).1)

/-- Read bytes as a string. -/
def decodeLossy (bs : List UInt8) : String := String.ofList (decodeLoop bs.length bs)

theorem charFront_encode (c : Char) (rest : List UInt8) :
    charFront (String.utf8EncodeChar c ++ rest) = some c := by
  rw [charFront, List.toByteArray_append, ByteArray.utf8DecodeChar?_utf8EncodeChar_append]

theorem decodeLoop_encode {fuel : Nat} (cs : List Char)
    (hfuel : (cs.flatMap String.utf8EncodeChar).length ≤ fuel) :
    decodeLoop fuel (cs.flatMap String.utf8EncodeChar) = cs := by
  induction cs generalizing fuel with
  | nil =>
      cases fuel with
      | zero => rfl
      | succ fuel => rfl
  | cons c cs ih =>
      have hfront := charFront_encode c (cs.flatMap String.utf8EncodeChar)
      have hdrop : (String.utf8EncodeChar c ++ cs.flatMap String.utf8EncodeChar).drop c.utf8Size =
          cs.flatMap String.utf8EncodeChar := List.drop_left' (String.length_utf8EncodeChar c)
      have hpos := c.utf8Size_pos
      rw [List.flatMap_cons] at hfuel ⊢
      rw [List.length_append, String.length_utf8EncodeChar] at hfuel
      obtain ⟨b, bs, hbytes⟩ : ∃ b bs,
          String.utf8EncodeChar c ++ cs.flatMap String.utf8EncodeChar = b :: bs :=
        List.exists_cons_of_ne_nil (by simp)
      cases fuel with
      | zero => omega
      | succ fuel =>
          rw [hbytes] at hfront hdrop ⊢
          simp only [decodeLoop, hfront, hdrop, ih (show _ ≤ fuel by omega)]

/-- A string is read back from its bytes. -/
theorem decodeLossy_asBytes (s : String) : decodeLossy (asBytes s) = s := by
  rw [decodeLossy, asBytes, decodeLoop_encode _ le_rfl, String.ofList_toList]

/-! ## Padded strings -/

theorem asBytes_append (s t : String) : asBytes (s ++ t) = asBytes s ++ asBytes t := by
  rw [asBytes, String.toList_append, List.flatMap_append]
  rfl

/-- Spaces behind a string. -/
theorem asBytes_spaces (n : Nat) :
    asBytes (String.ofList (List.replicate n ' ')) = List.replicate n 32 := by
  rw [asBytes, String.toList_ofList]
  induction n with
  | zero => rfl
  | succ n ih => rw [List.replicate_succ, List.flatMap_cons, ih]; rfl

/-- The string without spaces at its end. -/
def trimEndSpaces (s : String) : String := String.ofList (s.toList.rdropWhile (· = ' '))

/-- Spaces that fill up a string are dropped. -/
theorem trimEndSpaces_padded {s : String} (h : s.toList.getLast? ≠ some ' ') (n : Nat) :
    trimEndSpaces (decodeLossy (asBytes s ++ List.replicate n 32)) = s := by
  rw [← asBytes_spaces, ← asBytes_append, decodeLossy_asBytes, trimEndSpaces,
    String.toList_append, String.toList_ofList]
  have hdrop : (s.toList ++ List.replicate n ' ').rdropWhile (· = ' ') = s.toList := by
    induction n with
    | zero =>
        rw [List.replicate_zero, List.append_nil, List.rdropWhile_eq_self_iff]
        intro hne hlast
        exact h (by rw [List.getLast?_eq_some_getLast hne, of_decide_eq_true hlast])
    | succ n ih =>
        rw [List.replicate_succ', ← List.append_assoc, List.rdropWhile_concat_pos _ _ _ (by simp),
          ih]
  rw [hdrop, String.ofList_toList]

end Text
