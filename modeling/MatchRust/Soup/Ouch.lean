import MatchRust.Lib.Bytes
import MatchRust.Lib.Utf8

/-!
# OUCH messages

The orders of a client and the reports of the host, in the fixed layouts of OUCH 4.2.
Numbers are written with their highest byte first, and texts are filled up with spaces.
An encoder writes one field after the other.  The parser reads each field at an offset that
was computed by hand, and ignores what follows the message.

The offsets agree with the layouts (`parse_encode`), so a message is read back if its texts
fit into their fields and do not end in a space.
-/

namespace MatchSoupBinTcp

namespace Ouch

/-! ## Messages -/

/-- Enter an order. -/
structure EnterOrder where
  token : String
  side : UInt8
  shares : UInt32
  stock : String
  price : Int32
  timeInForce : UInt32
  firm : String
  display : UInt8
  capacity : UInt8
  intermarketSweep : UInt8
  minQty : UInt32
  crossType : UInt8
  customerType : UInt8
deriving DecidableEq

/-- Cancel an order, or a part of it. -/
structure CancelOrder where
  token : String
  shares : UInt32
deriving DecidableEq

/-- Replace an order by another. -/
structure ReplaceOrder where
  existingToken : String
  replacementToken : String
  shares : UInt32
  price : Int32
  timeInForce : UInt32
  display : UInt8
  intermarketSweep : UInt8
  minQty : UInt32
  crossType : UInt8
  customerType : UInt8
deriving DecidableEq

/-- An order was accepted. -/
structure Accepted where
  timestamp : UInt64
  token : String
  side : UInt8
  shares : UInt32
  stock : String
  price : Int32
  timeInForce : UInt32
  firm : String
  display : UInt8
  refNumber : UInt64
  orderState : UInt8
deriving DecidableEq

/-- An order was executed. -/
structure Executed where
  timestamp : UInt64
  token : String
  shares : UInt32
  matchNumber : UInt32
  price : Int32
deriving DecidableEq

/-- An order was canceled. -/
structure Canceled where
  timestamp : UInt64
  token : String
  decrement : UInt32
  reason : UInt8
deriving DecidableEq

/-- A message. -/
inductive OuchMessage where
  | enterOrder (m : EnterOrder)
  | cancelOrder (m : CancelOrder)
  | replaceOrder (m : ReplaceOrder)
  | accepted (m : Accepted)
  | executed (m : Executed)
  | canceled (m : Canceled)
deriving DecidableEq

def enterLen : Nat := 49
def cancelLen : Nat := 19
def replaceLen : Nat := 49
def acceptedLen : Nat := 66
def executedLen : Nat := 35
def canceledLen : Nat := 28

/-! ## Encoding -/

/-- A text, cut or filled up with spaces. -/
def padAlpha (s : String) (len : Nat) : List UInt8 :=
  (Text.asBytes s).take len ++ List.replicate (len - min (Text.asBytes s).length len) 32

def pushU32 (v : UInt32) : List UInt8 := Bytes.be 4 v.toNat
def pushI32 (v : Int32) : List UInt8 := Bytes.be 4 v.toUInt32.toNat
def pushU64 (v : UInt64) : List UInt8 := Bytes.be 8 v.toNat

/-- The fields of an order. -/
def EnterOrder.fields (m : EnterOrder) : List (List UInt8) :=
  [[79], padAlpha m.token 14, [m.side], pushU32 m.shares, padAlpha m.stock 8, pushI32 m.price,
    pushU32 m.timeInForce, padAlpha m.firm 4, [m.display], [m.capacity], [m.intermarketSweep],
    pushU32 m.minQty, [m.crossType], [m.customerType]]

/-- The fields of a cancel. -/
def CancelOrder.fields (m : CancelOrder) : List (List UInt8) :=
  [[88], padAlpha m.token 14, pushU32 m.shares]

/-- The fields of a replacement. -/
def ReplaceOrder.fields (m : ReplaceOrder) : List (List UInt8) :=
  [[85], padAlpha m.existingToken 14, padAlpha m.replacementToken 14, pushU32 m.shares,
    pushI32 m.price, pushU32 m.timeInForce, [m.display], [m.intermarketSweep], pushU32 m.minQty,
    [m.crossType], [m.customerType]]

/-- The fields of an acceptance.  Capacity, sweep, minimum and cross type are placeholders, and
the last byte is the weight of the best bid and offer. -/
def Accepted.fields (m : Accepted) : List (List UInt8) :=
  [[65], pushU64 m.timestamp, padAlpha m.token 14, [m.side], pushU32 m.shares, padAlpha m.stock 8,
    pushI32 m.price, pushU32 m.timeInForce, padAlpha m.firm 4, [m.display], pushU64 m.refNumber,
    [79], [78], pushU32 0, [78], [m.orderState], [0]]

/-- The fields of an execution. -/
def Executed.fields (m : Executed) : List (List UInt8) :=
  [[69], pushU64 m.timestamp, padAlpha m.token 14, pushU32 m.shares, pushU32 m.matchNumber,
    pushI32 m.price]

/-- The fields of a cancellation. -/
def Canceled.fields (m : Canceled) : List (List UInt8) :=
  [[67], pushU64 m.timestamp, padAlpha m.token 14, pushU32 m.decrement, [m.reason]]

def encodeEnter (m : EnterOrder) : List UInt8 := m.fields.flatten
def encodeCancel (m : CancelOrder) : List UInt8 := m.fields.flatten
def encodeReplace (m : ReplaceOrder) : List UInt8 := m.fields.flatten
def encodeAccepted (m : Accepted) : List UInt8 := m.fields.flatten
def encodeExecuted (m : Executed) : List UInt8 := m.fields.flatten
def encodeCanceled (m : Canceled) : List UInt8 := m.fields.flatten

/-- The encoder of a message. -/
def OuchMessage.encode : OuchMessage → List UInt8
  | enterOrder m => encodeEnter m
  | cancelOrder m => encodeCancel m
  | replaceOrder m => encodeReplace m
  | accepted m => encodeAccepted m
  | executed m => encodeExecuted m
  | canceled m => encodeCanceled m

/-! ## Parsing -/

/-- A text, without the spaces behind it. -/
def getStr (b : List UInt8) (off len : Nat) : String :=
  if b.length < off + len then ""
  else Text.trimEndSpaces (Text.decodeLossy ((b.drop off).take len))

def getU32 (b : List UInt8) (off : Nat) : UInt32 :=
  if b.length < off + 4 then 0 else UInt32.ofNat (Bytes.beValue ((b.drop off).take 4))

def getI32 (b : List UInt8) (off : Nat) : Int32 :=
  if b.length < off + 4 then 0 else (UInt32.ofNat (Bytes.beValue ((b.drop off).take 4))).toInt32

def getU64 (b : List UInt8) (off : Nat) : UInt64 :=
  if b.length < off + 8 then 0 else UInt64.ofNat (Bytes.beValue ((b.drop off).take 8))

/-- A byte of a message whose length was checked. -/
def getByte (b : List UInt8) (off : Nat) : UInt8 := b.getD off 0

def parseEnter (buf : List UInt8) : EnterOrder where
  token := getStr buf 1 14
  side := getByte buf 15
  shares := getU32 buf 16
  stock := getStr buf 20 8
  price := getI32 buf 28
  timeInForce := getU32 buf 32
  firm := getStr buf 36 4
  display := getByte buf 40
  capacity := getByte buf 41
  intermarketSweep := getByte buf 42
  minQty := getU32 buf 43
  crossType := getByte buf 47
  customerType := getByte buf 48

def parseCancel (buf : List UInt8) : CancelOrder where
  token := getStr buf 1 14
  shares := getU32 buf 15

def parseReplace (buf : List UInt8) : ReplaceOrder where
  existingToken := getStr buf 1 14
  replacementToken := getStr buf 15 14
  shares := getU32 buf 29
  price := getI32 buf 33
  timeInForce := getU32 buf 37
  display := getByte buf 41
  intermarketSweep := getByte buf 42
  minQty := getU32 buf 43
  crossType := getByte buf 47
  customerType := getByte buf 48

def parseAccepted (buf : List UInt8) : Accepted where
  timestamp := getU64 buf 1
  token := getStr buf 9 14
  side := getByte buf 23
  shares := getU32 buf 24
  stock := getStr buf 28 8
  price := getI32 buf 36
  timeInForce := getU32 buf 40
  firm := getStr buf 44 4
  display := getByte buf 48
  refNumber := getU64 buf 49
  orderState := getByte buf 64

def parseExecuted (buf : List UInt8) : Executed where
  timestamp := getU64 buf 1
  token := getStr buf 9 14
  shares := getU32 buf 23
  matchNumber := getU32 buf 27
  price := getI32 buf 31

def parseCanceled (buf : List UInt8) : Canceled where
  timestamp := getU64 buf 1
  token := getStr buf 9 14
  decrement := getU32 buf 23
  reason := getByte buf 27

/-- Read a message by its type.  An unknown type or too few bytes give nothing. -/
def parse (buf : List UInt8) : Option OuchMessage :=
  match buf with
  | [] => none
  | t :: _ =>
      if t = 79 ∧ enterLen ≤ buf.length then some (.enterOrder (parseEnter buf))
      else if t = 88 ∧ cancelLen ≤ buf.length then some (.cancelOrder (parseCancel buf))
      else if t = 85 ∧ replaceLen ≤ buf.length then some (.replaceOrder (parseReplace buf))
      else if t = 65 ∧ acceptedLen ≤ buf.length then some (.accepted (parseAccepted buf))
      else if t = 69 ∧ executedLen ≤ buf.length then some (.executed (parseExecuted buf))
      else if t = 67 ∧ canceledLen ≤ buf.length then some (.canceled (parseCanceled buf))
      else none

/-! ## Fields -/

@[simp] theorem length_padAlpha (s : String) (len : Nat) : (padAlpha s len).length = len := by
  rw [padAlpha, List.length_append, List.length_take, List.length_replicate]
  omega

@[simp] theorem length_pushU32 (v : UInt32) : (pushU32 v).length = 4 := Bytes.length_be 4 _
@[simp] theorem length_pushI32 (v : Int32) : (pushI32 v).length = 4 := Bytes.length_be 4 _
@[simp] theorem length_pushU64 (v : UInt64) : (pushU64 v).length = 8 := Bytes.length_be 8 _

/-- A text that fits into its field and comes back from it. -/
def TextFits (s : String) (len : Nat) : Prop :=
  (Text.asBytes s).length ≤ len ∧ s.toList.getLast? ≠ some ' '

instance decidableTextFits (s : String) (len : Nat) : Decidable (TextFits s len) :=
  inferInstanceAs (Decidable (_ ∧ _))

section Field

variable {fields : List (List UInt8)} {layout : List Nat} {i off : Nat} (rest : List UInt8)
  (hlayout : fields.map List.length = layout) (hoff : (layout.take i).sum = off)

include hlayout hoff

/-- A field is found at the sum of the widths before it. -/
theorem field_at {field : List UInt8} (hfield : fields[i]? = some field) :
    off + field.length ≤ (fields.flatten ++ rest).length ∧
      ((fields.flatten ++ rest).drop off).take field.length = field := by
  refine Bytes.field_flatten hfield ?_ rest
  rw [List.map_take, hlayout, hoff]

theorem getStr_field {s : String} {len : Nat} (hs : TextFits s len)
    (hfield : fields[i]? = some (padAlpha s len)) :
    getStr (fields.flatten ++ rest) off len = s := by
  obtain ⟨hlong, htake⟩ := field_at rest hlayout hoff hfield
  rw [length_padAlpha] at hlong htake
  rw [getStr, if_neg (Nat.not_lt.mpr hlong), htake, padAlpha, List.take_of_length_le hs.1,
    Text.trimEndSpaces_padded hs.2]

theorem getU32_field {v : UInt32} (hfield : fields[i]? = some (pushU32 v)) :
    getU32 (fields.flatten ++ rest) off = v := by
  obtain ⟨hlong, htake⟩ := field_at rest hlayout hoff hfield
  rw [length_pushU32] at hlong htake
  rw [getU32, if_neg (Nat.not_lt.mpr hlong), htake, pushU32, Bytes.beValue_be_of_lt v.toNat_lt,
    UInt32.ofNat_toNat]

theorem getI32_field {v : Int32} (hfield : fields[i]? = some (pushI32 v)) :
    getI32 (fields.flatten ++ rest) off = v := by
  obtain ⟨hlong, htake⟩ := field_at rest hlayout hoff hfield
  rw [length_pushI32] at hlong htake
  rw [getI32, if_neg (Nat.not_lt.mpr hlong), htake, pushI32,
    Bytes.beValue_be_of_lt v.toUInt32.toNat_lt, UInt32.ofNat_toNat, Int32.toInt32_toUInt32]

theorem getU64_field {v : UInt64} (hfield : fields[i]? = some (pushU64 v)) :
    getU64 (fields.flatten ++ rest) off = v := by
  obtain ⟨hlong, htake⟩ := field_at rest hlayout hoff hfield
  rw [length_pushU64] at hlong htake
  rw [getU64, if_neg (Nat.not_lt.mpr hlong), htake, pushU64, Bytes.beValue_be_of_lt v.toNat_lt,
    UInt64.ofNat_toNat]

theorem getByte_field {v : UInt8} (hfield : fields[i]? = some [v]) :
    getByte (fields.flatten ++ rest) off = v := by
  obtain ⟨-, htake⟩ := field_at rest hlayout hoff hfield
  have hhead := congrArg List.head? htake
  rw [List.length_singleton, List.head?_take, if_neg (by decide), List.head?_drop] at hhead
  rw [getByte, List.getD_eq_getElem?_getD, hhead]
  rfl

end Field

/-! ## Layouts -/

theorem EnterOrder.layout (m : EnterOrder) :
    m.fields.map List.length = [1, 14, 1, 4, 8, 4, 4, 4, 1, 1, 1, 4, 1, 1] := by
  simp [EnterOrder.fields]

theorem CancelOrder.layout (m : CancelOrder) :
    m.fields.map List.length = [1, 14, 4] := by
  simp [CancelOrder.fields]

theorem ReplaceOrder.layout (m : ReplaceOrder) :
    m.fields.map List.length = [1, 14, 14, 4, 4, 4, 1, 1, 4, 1, 1] := by
  simp [ReplaceOrder.fields]

theorem Accepted.layout (m : Accepted) :
    m.fields.map List.length = [1, 8, 14, 1, 4, 8, 4, 4, 4, 1, 8, 1, 1, 4, 1, 1, 1] := by
  simp [Accepted.fields]

theorem Executed.layout (m : Executed) :
    m.fields.map List.length = [1, 8, 14, 4, 4, 4] := by
  simp [Executed.fields]

theorem Canceled.layout (m : Canceled) :
    m.fields.map List.length = [1, 8, 14, 4, 1] := by
  simp [Canceled.fields]

/-- The texts of a message fit into their fields. -/
def OuchMessage.Fits : OuchMessage → Prop
  | enterOrder m => TextFits m.token 14 ∧ TextFits m.stock 8 ∧ TextFits m.firm 4
  | cancelOrder m => TextFits m.token 14
  | replaceOrder m => TextFits m.existingToken 14 ∧ TextFits m.replacementToken 14
  | accepted m => TextFits m.token 14 ∧ TextFits m.stock 8 ∧ TextFits m.firm 4
  | executed m => TextFits m.token 14
  | canceled m => TextFits m.token 14

/-- The documented length of a message. -/
def OuchMessage.documentedLen : OuchMessage → Nat
  | enterOrder _ => 49
  | cancelOrder _ => 19
  | replaceOrder _ => 49
  | accepted _ => 66
  | executed _ => 35
  | canceled _ => 28

theorem length_encode (m : OuchMessage) : m.encode.length = m.documentedLen := by
  cases m with
  | enterOrder m => rw [OuchMessage.encode, encodeEnter, List.length_flatten, m.layout]; rfl
  | cancelOrder m => rw [OuchMessage.encode, encodeCancel, List.length_flatten, m.layout]; rfl
  | replaceOrder m => rw [OuchMessage.encode, encodeReplace, List.length_flatten, m.layout]; rfl
  | accepted m => rw [OuchMessage.encode, encodeAccepted, List.length_flatten, m.layout]; rfl
  | executed m => rw [OuchMessage.encode, encodeExecuted, List.length_flatten, m.layout]; rfl
  | canceled m => rw [OuchMessage.encode, encodeCanceled, List.length_flatten, m.layout]; rfl

/-! ## Messages are read back -/

theorem parseEnter_encode {m : EnterOrder} (h : (OuchMessage.enterOrder m).Fits)
    (rest : List UInt8) : parseEnter (encodeEnter m ++ rest) = m := by
  obtain ⟨ftoken, fstock, ffirm⟩ := h
  have htoken : getStr (m.fields.flatten ++ rest) 1 14 = m.token :=
    getStr_field (i := 1) rest m.layout rfl ftoken rfl
  have hside : getByte (m.fields.flatten ++ rest) 15 = m.side :=
    getByte_field (i := 2) rest m.layout rfl rfl
  have hshares : getU32 (m.fields.flatten ++ rest) 16 = m.shares :=
    getU32_field (i := 3) rest m.layout rfl rfl
  have hstock : getStr (m.fields.flatten ++ rest) 20 8 = m.stock :=
    getStr_field (i := 4) rest m.layout rfl fstock rfl
  have hprice : getI32 (m.fields.flatten ++ rest) 28 = m.price :=
    getI32_field (i := 5) rest m.layout rfl rfl
  have htimeInForce : getU32 (m.fields.flatten ++ rest) 32 = m.timeInForce :=
    getU32_field (i := 6) rest m.layout rfl rfl
  have hfirm : getStr (m.fields.flatten ++ rest) 36 4 = m.firm :=
    getStr_field (i := 7) rest m.layout rfl ffirm rfl
  have hdisplay : getByte (m.fields.flatten ++ rest) 40 = m.display :=
    getByte_field (i := 8) rest m.layout rfl rfl
  have hcapacity : getByte (m.fields.flatten ++ rest) 41 = m.capacity :=
    getByte_field (i := 9) rest m.layout rfl rfl
  have hintermarketSweep : getByte (m.fields.flatten ++ rest) 42 = m.intermarketSweep :=
    getByte_field (i := 10) rest m.layout rfl rfl
  have hminQty : getU32 (m.fields.flatten ++ rest) 43 = m.minQty :=
    getU32_field (i := 11) rest m.layout rfl rfl
  have hcrossType : getByte (m.fields.flatten ++ rest) 47 = m.crossType :=
    getByte_field (i := 12) rest m.layout rfl rfl
  have hcustomerType : getByte (m.fields.flatten ++ rest) 48 = m.customerType :=
    getByte_field (i := 13) rest m.layout rfl rfl
  rw [parseEnter, encodeEnter, htoken, hside, hshares, hstock, hprice, htimeInForce, hfirm,
    hdisplay, hcapacity, hintermarketSweep, hminQty, hcrossType, hcustomerType]

theorem parseCancel_encode {m : CancelOrder} (h : (OuchMessage.cancelOrder m).Fits)
    (rest : List UInt8) : parseCancel (encodeCancel m ++ rest) = m := by
  have htoken : getStr (m.fields.flatten ++ rest) 1 14 = m.token :=
    getStr_field (i := 1) rest m.layout rfl h rfl
  have hshares : getU32 (m.fields.flatten ++ rest) 15 = m.shares :=
    getU32_field (i := 2) rest m.layout rfl rfl
  rw [parseCancel, encodeCancel, htoken, hshares]

theorem parseReplace_encode {m : ReplaceOrder} (h : (OuchMessage.replaceOrder m).Fits)
    (rest : List UInt8) : parseReplace (encodeReplace m ++ rest) = m := by
  obtain ⟨fexisting, freplacement⟩ := h
  have hexistingToken : getStr (m.fields.flatten ++ rest) 1 14 = m.existingToken :=
    getStr_field (i := 1) rest m.layout rfl fexisting rfl
  have hreplacementToken : getStr (m.fields.flatten ++ rest) 15 14 = m.replacementToken :=
    getStr_field (i := 2) rest m.layout rfl freplacement rfl
  have hshares : getU32 (m.fields.flatten ++ rest) 29 = m.shares :=
    getU32_field (i := 3) rest m.layout rfl rfl
  have hprice : getI32 (m.fields.flatten ++ rest) 33 = m.price :=
    getI32_field (i := 4) rest m.layout rfl rfl
  have htimeInForce : getU32 (m.fields.flatten ++ rest) 37 = m.timeInForce :=
    getU32_field (i := 5) rest m.layout rfl rfl
  have hdisplay : getByte (m.fields.flatten ++ rest) 41 = m.display :=
    getByte_field (i := 6) rest m.layout rfl rfl
  have hintermarketSweep : getByte (m.fields.flatten ++ rest) 42 = m.intermarketSweep :=
    getByte_field (i := 7) rest m.layout rfl rfl
  have hminQty : getU32 (m.fields.flatten ++ rest) 43 = m.minQty :=
    getU32_field (i := 8) rest m.layout rfl rfl
  have hcrossType : getByte (m.fields.flatten ++ rest) 47 = m.crossType :=
    getByte_field (i := 9) rest m.layout rfl rfl
  have hcustomerType : getByte (m.fields.flatten ++ rest) 48 = m.customerType :=
    getByte_field (i := 10) rest m.layout rfl rfl
  rw [parseReplace, encodeReplace, hexistingToken, hreplacementToken, hshares, hprice,
    htimeInForce, hdisplay, hintermarketSweep, hminQty, hcrossType, hcustomerType]

theorem parseAccepted_encode {m : Accepted} (h : (OuchMessage.accepted m).Fits)
    (rest : List UInt8) : parseAccepted (encodeAccepted m ++ rest) = m := by
  obtain ⟨ftoken, fstock, ffirm⟩ := h
  have htimestamp : getU64 (m.fields.flatten ++ rest) 1 = m.timestamp :=
    getU64_field (i := 1) rest m.layout rfl rfl
  have htoken : getStr (m.fields.flatten ++ rest) 9 14 = m.token :=
    getStr_field (i := 2) rest m.layout rfl ftoken rfl
  have hside : getByte (m.fields.flatten ++ rest) 23 = m.side :=
    getByte_field (i := 3) rest m.layout rfl rfl
  have hshares : getU32 (m.fields.flatten ++ rest) 24 = m.shares :=
    getU32_field (i := 4) rest m.layout rfl rfl
  have hstock : getStr (m.fields.flatten ++ rest) 28 8 = m.stock :=
    getStr_field (i := 5) rest m.layout rfl fstock rfl
  have hprice : getI32 (m.fields.flatten ++ rest) 36 = m.price :=
    getI32_field (i := 6) rest m.layout rfl rfl
  have htimeInForce : getU32 (m.fields.flatten ++ rest) 40 = m.timeInForce :=
    getU32_field (i := 7) rest m.layout rfl rfl
  have hfirm : getStr (m.fields.flatten ++ rest) 44 4 = m.firm :=
    getStr_field (i := 8) rest m.layout rfl ffirm rfl
  have hdisplay : getByte (m.fields.flatten ++ rest) 48 = m.display :=
    getByte_field (i := 9) rest m.layout rfl rfl
  have hrefNumber : getU64 (m.fields.flatten ++ rest) 49 = m.refNumber :=
    getU64_field (i := 10) rest m.layout rfl rfl
  have horderState : getByte (m.fields.flatten ++ rest) 64 = m.orderState :=
    getByte_field (i := 15) rest m.layout rfl rfl
  rw [parseAccepted, encodeAccepted, htimestamp, htoken, hside, hshares, hstock, hprice,
    htimeInForce, hfirm, hdisplay, hrefNumber, horderState]

theorem parseExecuted_encode {m : Executed} (h : (OuchMessage.executed m).Fits)
    (rest : List UInt8) : parseExecuted (encodeExecuted m ++ rest) = m := by
  have htimestamp : getU64 (m.fields.flatten ++ rest) 1 = m.timestamp :=
    getU64_field (i := 1) rest m.layout rfl rfl
  have htoken : getStr (m.fields.flatten ++ rest) 9 14 = m.token :=
    getStr_field (i := 2) rest m.layout rfl h rfl
  have hshares : getU32 (m.fields.flatten ++ rest) 23 = m.shares :=
    getU32_field (i := 3) rest m.layout rfl rfl
  have hmatchNumber : getU32 (m.fields.flatten ++ rest) 27 = m.matchNumber :=
    getU32_field (i := 4) rest m.layout rfl rfl
  have hprice : getI32 (m.fields.flatten ++ rest) 31 = m.price :=
    getI32_field (i := 5) rest m.layout rfl rfl
  rw [parseExecuted, encodeExecuted, htimestamp, htoken, hshares, hmatchNumber, hprice]

theorem parseCanceled_encode {m : Canceled} (h : (OuchMessage.canceled m).Fits)
    (rest : List UInt8) : parseCanceled (encodeCanceled m ++ rest) = m := by
  have htimestamp : getU64 (m.fields.flatten ++ rest) 1 = m.timestamp :=
    getU64_field (i := 1) rest m.layout rfl rfl
  have htoken : getStr (m.fields.flatten ++ rest) 9 14 = m.token :=
    getStr_field (i := 2) rest m.layout rfl h rfl
  have hdecrement : getU32 (m.fields.flatten ++ rest) 23 = m.decrement :=
    getU32_field (i := 3) rest m.layout rfl rfl
  have hreason : getByte (m.fields.flatten ++ rest) 27 = m.reason :=
    getByte_field (i := 4) rest m.layout rfl rfl
  rw [parseCanceled, encodeCanceled, htimestamp, htoken, hdecrement, hreason]

theorem parse_of_head {buf : List UInt8} {t : UInt8} (h : buf.head? = some t) :
    parse buf =
      if t = 79 ∧ enterLen ≤ buf.length then some (.enterOrder (parseEnter buf))
      else if t = 88 ∧ cancelLen ≤ buf.length then some (.cancelOrder (parseCancel buf))
      else if t = 85 ∧ replaceLen ≤ buf.length then some (.replaceOrder (parseReplace buf))
      else if t = 65 ∧ acceptedLen ≤ buf.length then some (.accepted (parseAccepted buf))
      else if t = 69 ∧ executedLen ≤ buf.length then some (.executed (parseExecuted buf))
      else if t = 67 ∧ canceledLen ≤ buf.length then some (.canceled (parseCanceled buf))
      else none := by
  cases buf with
  | nil => cases h
  | cons t' buf =>
      obtain rfl := Option.some.inj h
      rfl

/-- The type of a message. -/
def OuchMessage.tag : OuchMessage → UInt8
  | enterOrder _ => 79
  | cancelOrder _ => 88
  | replaceOrder _ => 85
  | accepted _ => 65
  | executed _ => 69
  | canceled _ => 67

theorem head_encode (m : OuchMessage) : m.encode.head? = some m.tag := by
  cases m with
  | enterOrder m => rfl
  | cancelOrder m => rfl
  | replaceOrder m => rfl
  | accepted m => rfl
  | executed m => rfl
  | canceled m => rfl

/-- A message is read back, whatever follows it. -/
theorem parse_encode {m : OuchMessage} (h : m.Fits) (rest : List UInt8) :
    parse (m.encode ++ rest) = some m := by
  have hlong : m.documentedLen ≤ (m.encode ++ rest).length := by
    rw [List.length_append, length_encode]
    omega
  have hhead : (m.encode ++ rest).head? = some m.tag := by
    rw [List.head?_append, head_encode]
    rfl
  rw [parse_of_head hhead]
  cases m with
  | enterOrder m =>
      rw [if_pos ⟨rfl, hlong⟩, OuchMessage.encode, parseEnter_encode h]
  | cancelOrder m =>
      rw [if_neg (by simp [OuchMessage.tag]), if_pos ⟨rfl, hlong⟩, OuchMessage.encode,
        parseCancel_encode h]
  | replaceOrder m =>
      rw [if_neg (by simp [OuchMessage.tag]), if_neg (by simp [OuchMessage.tag]),
        if_pos ⟨rfl, hlong⟩, OuchMessage.encode, parseReplace_encode h]
  | accepted m =>
      rw [if_neg (by simp [OuchMessage.tag]), if_neg (by simp [OuchMessage.tag]),
        if_neg (by simp [OuchMessage.tag]), if_pos ⟨rfl, hlong⟩, OuchMessage.encode,
        parseAccepted_encode h]
  | executed m =>
      rw [if_neg (by simp [OuchMessage.tag]), if_neg (by simp [OuchMessage.tag]),
        if_neg (by simp [OuchMessage.tag]), if_neg (by simp [OuchMessage.tag]),
        if_pos ⟨rfl, hlong⟩, OuchMessage.encode, parseExecuted_encode h]
  | canceled m =>
      rw [if_neg (by simp [OuchMessage.tag]), if_neg (by simp [OuchMessage.tag]),
        if_neg (by simp [OuchMessage.tag]), if_neg (by simp [OuchMessage.tag]),
        if_neg (by simp [OuchMessage.tag]), if_pos ⟨rfl, hlong⟩, OuchMessage.encode,
        parseCanceled_encode h]

/-- Too few bytes for the type give nothing. -/
theorem parse_eq_none {buf : List UInt8} {m : OuchMessage} (hhead : buf.head? = some m.tag)
    (hshort : buf.length < m.documentedLen) : parse buf = none := by
  rw [parse_of_head hhead]
  cases m with
  | enterOrder m => simpa [OuchMessage.tag, enterLen, OuchMessage.documentedLen] using hshort
  | cancelOrder m => simpa [OuchMessage.tag, cancelLen, OuchMessage.documentedLen] using hshort
  | replaceOrder m => simpa [OuchMessage.tag, replaceLen, OuchMessage.documentedLen] using hshort
  | accepted m => simpa [OuchMessage.tag, acceptedLen, OuchMessage.documentedLen] using hshort
  | executed m => simpa [OuchMessage.tag, executedLen, OuchMessage.documentedLen] using hshort
  | canceled m => simpa [OuchMessage.tag, canceledLen, OuchMessage.documentedLen] using hshort

theorem parse_strict_prefix {buf : List UInt8} {m : OuchMessage} (hpre : buf <+: m.encode)
    (hne : buf ≠ m.encode) : parse buf = none := by
  obtain ⟨later, hlater⟩ := hpre
  cases buf with
  | nil => rfl
  | cons t buf =>
      have hlen := congrArg List.length hlater
      have hmore : later ≠ [] := by
        rintro rfl
        exact hne (by rw [← hlater, List.append_nil])
      have hpos := List.length_pos_iff.mpr hmore
      rw [List.length_append, length_encode] at hlen
      refine parse_eq_none ?_ (show (t :: buf).length < m.documentedLen by omega)
      rw [← head_encode, ← hlater]
      rfl

/-- A message whose texts fit has its documented length, is read back whatever follows it, and
no part of it is read. -/
theorem ouch_round_trip {m : OuchMessage} (h : m.Fits) :
    m.encode.length = m.documentedLen ∧ (∀ rest, parse (m.encode ++ rest) = some m) ∧
      ∀ buf, buf <+: m.encode → buf ≠ m.encode → parse buf = none :=
  ⟨length_encode m, parse_encode h, fun _ hpre hne => parse_strict_prefix hpre hne⟩

/-- A report with a token that is not ASCII. -/
def executedSample : OuchMessage :=
  .executed ⟨34200, "Ördér 7", 100, 1, -25⟩

theorem ouch_round_trip_executed :
    executedSample.encode.length = 35 ∧ parse (executedSample.encode ++ [1, 2]) =
      some executedSample ∧ parse (executedSample.encode.take 34) = none := by
  have hfits : TextFits "Ördér 7" 14 := by decide +kernel
  have h := ouch_round_trip (m := executedSample) hfits
  refine ⟨h.1, h.2.1 [1, 2], h.2.2 _ (List.take_prefix _ _) fun heq => ?_⟩
  have hlen := congrArg List.length heq
  rw [List.length_take, h.1] at hlen
  exact absurd hlen (by decide)

end Ouch

end MatchSoupBinTcp
