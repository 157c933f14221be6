import MatchRust.Hp.Adapter
import MatchRust.Hp.Format
import MatchRust.Lib.DecimalDisplay

/-!
# The limit orders the adapter accepts

A limit order whose price and quantity fit the scales of the symbol can be converted
(`Representable`).  The adapter converts it by way of the text of each decimal, and the
parser knows no exponents.  So an order with a very small or a very large decimal, which is
displayed with an exponent, is rejected as invalid, and the others are converted exactly
(`accepts_iff`).
-/

namespace MatchCoreHp

open MatchProtocol BigDecimal

/-- A decimal with no more digits behind the point than a scale, in the range of units. -/
structure FitsScale (d : BigDecimal) (k : Nat) : Prop where
  pos : 0 < d
  digits : d.fractionDigits ≤ k
  range : d.toRat * 10 ^ k ≤ 2 ^ 63 - 1

/-- A limit order that the scales of the symbol can express. -/
structure Representable (scale : SymbolScale) (o : BbOrder) : Prop where
  form : o.orderForm = orderFormLimit
  side : o.orderType = orderTypeBuy ∨ o.orderType = orderTypeSell
  time : 0 ≤ o.createTime
  number : ∃ id, parseId o.trustOrderNo = .ok id
  price : FitsScale o.trustPrice scale.priceScale
  qty : FitsScale o.remainingNumber scale.qtyScale

/-- The adapter returns a limit order with exactly the ticks and lots of the order. -/
def Accepts (display : BigDecimal → String) (scale : SymbolScale) (o : BbOrder) : Prop :=
  ∃ side tick lot ts id, fromBbOrder display scale o = .ok (.limit side tick lot ts id) ∧
    (tick : ℚ) = o.trustPrice.toRat * 10 ^ scale.priceScale ∧
    (lot : ℚ) = o.remainingNumber.toRat * 10 ^ scale.qtyScale

section Texts

variable {display : BigDecimal → String} {d : BigDecimal} {k : Nat}

/-- A letter of an exponent is no white space and in no numeral. -/
theorem exists_letter {s : List Char} (h : 'E' ∈ s ∨ 'e' ∈ s) :
    ∃ c ∈ s, isWhiteSpace c = false ∧ ¬(c.isDigit = true ∨ c = '-' ∨ c = '+' ∨ c = '.') := by
  rcases h with h | h
  · exact ⟨'E', h, by decide, by decide⟩
  · exact ⟨'e', h, by decide, by decide⟩

theorem not_spells_exponent {s : List Char} (h : 'E' ∈ s ∨ 'e' ∈ s) (n : Numeral) :
    ¬n.Spells (trim s) := by
  obtain ⟨c, hc, hspace, hother⟩ := exists_letter h
  exact fun hn => hother (hn.mem (mem_trim hc hspace))

/-- A text with an exponent is invalid. -/
theorem parseFixed_exponent {s : List Char} (h : 'E' ∈ s ∨ 'e' ∈ s) :
    parseFixed s k = .error .invalid := by
  obtain ⟨c, hc, hspace, -⟩ := exists_letter h
  exact parseFixed_invalid_iff.mpr ⟨⟨c, hc, hspace⟩, not_spells_exponent h⟩

/-- A decimal that fits a scale is read from its text exactly, unless the text has an
exponent. -/
theorem parseFixed_display (hdisplay : DefaultDisplay display) (hd : FitsScale d k) :
    (∃ v : Int, parseFixed (display d).toList k = .ok v ∧ (v : ℚ) = d.toRat * 10 ^ k) ↔
      ¬d.ExponentForm := by
  constructor
  · rintro ⟨v, hv, -⟩ hexp
    rw [parseFixed_exponent (hdisplay.exponent d hexp)] at hv
    cases hv
  · intro hplain
    obtain ⟨n, hn, hvalue, hlen⟩ := hdisplay.plain d hplain
    have hlen : n.fracPart.length ≤ k := hlen.trans_le hd.digits
    have hunits : (n.units k : ℚ) = d.toRat * 10 ^ k := by rw [← n.value_eq_units hlen, hvalue]
    refine ⟨n.units k, parseFixed_ok_iff.mpr ⟨n, ?_, hlen, ?_, ?_⟩, hunits⟩
    · rwa [trim_of_spells hn]
    · have hpos : 0 < d.toRat := hd.pos
      rw [hvalue, abs_of_pos (by positivity)]
      exact hd.range
    · rw [hunits, hvalue]

end Texts

theorem parseSide_of_valid {orderType : Int}
    (h : orderType = orderTypeBuy ∨ orderType = orderTypeSell) :
    ∃ side, parseSide orderType = .ok side := by
  rcases h with rfl | rfl
  · exact ⟨.buy, rfl⟩
  · exact ⟨.sell, rfl⟩

/-- The conversion of a limit order comes down to its price. -/
theorem fromBbOrder_limit {display : BigDecimal → String} {scale : SymbolScale} {o : BbOrder}
    {side : Side} {lot : Int} {id : Nat} (hstatus : o.orderStatus ≠ orderStatusRevoke)
    (hform : o.orderForm = orderFormLimit) (hside : parseSide o.orderType = .ok side)
    (htime : 0 ≤ o.createTime) (hid : parseId o.trustOrderNo = .ok id)
    (hlot : toLot scale (display o.remainingNumber) = .ok lot) :
    fromBbOrder display scale o =
      (decimalToTick display scale o.trustPrice).map
        fun tick => .limit side tick lot o.createTime.toNat id := by
  rw [fromBbOrder, if_neg hstatus, hside, parseTime, if_pos htime, hid, decimalToLot, hlot]
  simp only [hform, if_true]
  rfl

/-- An order that can be expressed is converted exactly if it is no revoke request and
neither its price nor its quantity is displayed with an exponent. -/
theorem accepts_iff {display : BigDecimal → String} (hdisplay : DefaultDisplay display)
    {scale : SymbolScale} {o : BbOrder} (ho : Representable scale o) :
    Accepts display scale o ↔
      o.orderStatus ≠ orderStatusRevoke ∧ ¬o.trustPrice.ExponentForm ∧
        ¬o.remainingNumber.ExponentForm := by
  rw [← parseFixed_display hdisplay ho.price, ← parseFixed_display hdisplay ho.qty]
  constructor
  · rintro ⟨side, tick, lot, ts, id, hok, htick, hlot⟩
    cases converts_of_fromBbOrder hok with
    | limit hstatus _ _ _ _ hqty hprice =>
        exact ⟨hstatus, ⟨tick, hprice, htick⟩, lot, hqty, hlot⟩
  · rintro ⟨hstatus, ⟨tick, hprice, htick⟩, lot, hqty, hlot⟩
    obtain ⟨side, hside⟩ := parseSide_of_valid ho.side
    obtain ⟨id, hid⟩ := ho.number
    refine ⟨side, tick, lot, o.createTime.toNat, id, ?_, htick, hlot⟩
    rw [fromBbOrder_limit hstatus ho.form hside ho.time hid hqty, decimalToTick, toTick, hprice]
    rfl

/-- A price that is displayed with an exponent is invalid. -/
theorem fromBbOrder_exponent {display : BigDecimal → String} (hdisplay : DefaultDisplay display)
    {scale : SymbolScale} {o : BbOrder} (ho : Representable scale o)
    (hstatus : o.orderStatus ≠ orderStatusRevoke) (hprice : o.trustPrice.ExponentForm)
    (hqty : ¬o.remainingNumber.ExponentForm) :
    fromBbOrder display scale o = .error (.scale .invalid) := by
  obtain ⟨side, hside⟩ := parseSide_of_valid ho.side
  obtain ⟨id, hid⟩ := ho.number
  obtain ⟨lot, hlot, -⟩ := (parseFixed_display hdisplay ho.qty).mpr hqty
  rw [fromBbOrder_limit hstatus ho.form hside ho.time hid hlot, decimalToTick, toTick,
    parseFixed_exponent (hdisplay.exponent _ hprice)]
  rfl

theorem toRat_new_mul (n : Int) {k m : Nat} (hk : k ≤ m) :
    (new n k).toRat * 10 ^ m = ((n * 10 ^ (m - k) : Int) : ℚ) := by
  have hpow : (10 : ℚ) ^ m = 10 ^ (m - k) * 10 ^ k := by rw [← pow_add, Nat.sub_add_cancel hk]
  change (n : ℚ) / 10 ^ k * 10 ^ m = _
  rw [hpow]
  push_cast
  field_simp

theorem fitsScale_new {n : Int} {k m : Nat} (hpos : 0 < n) (hk : k ≤ m)
    (hrange : n * 10 ^ (m - k) ≤ 2 ^ 63 - 1) : FitsScale (new n k) m where
  pos := by
    have hn : (0 : ℚ) < n := by exact_mod_cast hpos
    have hq : (0 : ℚ) < n / 10 ^ k := by positivity
    exact hq
  digits := (fractionDigits_new_le n k).trans hk
  range := by
    rw [toRat_new_mul n hk]
    exact_mod_cast hrange

/-- Decimals of a moderate size are read in units of the scale. -/
theorem parseFixed_new {n : Int} {k m : Nat} (hpos : 0 < n) (hlt : n < 10 ^ 16) (hsix : k ≤ 6)
    (hk : k ≤ m) (hrange : n * 10 ^ (m - k) ≤ 2 ^ 63 - 1) :
    parseFixed (display (new n k)).toList m = .ok (n * 10 ^ (m - k)) := by
  obtain ⟨v, hv, hvalue⟩ := (parseFixed_display defaultDisplay_display
    (fitsScale_new hpos hk hrange)).mpr (not_exponentForm_new hpos hsix hlt)
  rw [toRat_new_mul n hk] at hvalue
  rw [hv, Int.cast_injective hvalue]

/-- A price of 0.000001 is converted. -/
theorem accepts_iff_millionth :
    Accepts display ⟨8, 6⟩
      { orderType := 1, orderForm := 1, trustOrderNo := "7", trustPrice := new 1 6,
        remainingNumber := new 1 0 } :=
  (accepts_iff defaultDisplay_display
    { form := rfl
      side := Or.inl rfl
      time := by decide
      number := ⟨7, by decide⟩
      price := fitsScale_new (by decide) (by decide) (by decide)
      qty := fitsScale_new (by decide) (by decide) (by decide) }).mpr
    ⟨by decide, not_exponentForm_new (by decide) (by decide) (by decide),
      not_exponentForm_new (by decide) (by decide) (by decide)⟩

/-- A price of 0.0000001 is rejected, although the scale has a digit more. -/
theorem small_price_rejected :
    DefaultDisplay display ∧
    Representable ⟨8, 6⟩
      { orderType := 1, orderForm := 1, trustOrderNo := "7", trustPrice := new 1 7,
        remainingNumber := new 1 0 } ∧
    fromBbOrder display ⟨8, 6⟩
      { orderType := 1, orderForm := 1, trustOrderNo := "7", trustPrice := new 1 7,
        remainingNumber := new 1 0 } = .error (.scale .invalid) := by
  have ho : Representable ⟨8, 6⟩
      { orderType := 1, orderForm := 1, trustOrderNo := "7", trustPrice := new 1 7,
        remainingNumber := new 1 0 } :=
    { form := rfl
      side := Or.inl rfl
      time := by decide
      number := ⟨7, by decide⟩
      price := fitsScale_new (by decide) (by decide) (by decide)
      qty := fitsScale_new (by decide) (by decide) (by decide) }
  exact ⟨defaultDisplay_display, ho, fromBbOrder_exponent defaultDisplay_display ho (by decide)
    (exponentForm_new (by decide) (by decide))
    (not_exponentForm_new (by decide) (by decide) (by decide))⟩

end MatchCoreHp
