import MatchRust.Lib.SortedSet
import MatchRust.Protocol.Order

/-!
# Orders of the matching engine

Sides, the two comparators of the book, and what an order still has open.

The comparators order by price, then by time, then by order number, except that
two orders of one number at one price are equal whatever their times.  So they
are no total orders on all orders: with `a` and `c` of one number and times 1
and 3, and `b` of another number and time 2, `a < b < c` and yet `a = c`.
Between orders of different numbers they decide a lexicographic rank
(`compareSide_compares`), and the books only ever compare such orders.
-/

namespace MatchCore

open MatchProtocol

/-! ## Sides -/

/-- Order side. -/
inductive Side where
  | buy
  | sell
deriving DecidableEq

namespace Side

/-- The code of a side. -/
def orderType : Side → Int
  | .buy => orderTypeBuy
  | .sell => orderTypeSell

/-- The side of a code, if it is one. -/
def fromOrderType (code : Int) : Option Side :=
  if code = 1 then some .buy else if code = 2 then some .sell else none

/-- The other side. -/
def opp : Side → Side
  | .buy => .sell
  | .sell => .buy

@[simp] theorem opp_opp (side : Side) : side.opp.opp = side := by cases side <;> rfl

@[simp] theorem opp_ne (side : Side) : side.opp ≠ side := by cases side <;> decide

@[simp] theorem ne_opp (side : Side) : side ≠ side.opp := by cases side <;> decide

theorem eq_or_eq_opp (side s : Side) : s = side ∨ s = side.opp := by
  cases side <;> cases s <;> simp [opp]

@[simp] theorem fromOrderType_orderType (side : Side) :
    fromOrderType side.orderType = some side := by cases side <;> decide

/-- A price as a cost to the other side: the lower, the better for it. -/
def signed : Side → BigDecimal → BigDecimal
  | .buy, p => -p
  | .sell, p => p

theorem signed_injective (side : Side) : Function.Injective side.signed := by
  cases side with
  | buy => exact neg_injective
  | sell => exact Function.injective_id

/-- An order of this side at price `p` takes from an order of the other side at
price `m`. -/
def crosses : Side → BigDecimal → BigDecimal → Bool
  | .buy, p, m => decide (m ≤ p)
  | .sell, p, m => decide (p ≤ m)

theorem crosses_iff {side : Side} {p m : BigDecimal} :
    side.crosses p m = true ↔ side.signed p + side.opp.signed m ≤ 0 := by
  cases side with
  | buy =>
      simp only [crosses, signed, opp, decide_eq_true_eq]
      constructor <;> intro h <;> linarith
  | sell =>
      simp only [crosses, signed, opp, decide_eq_true_eq]
      constructor <;> intro h <;> linarith

theorem crosses_eq_false {side : Side} {p m : BigDecimal} :
    side.crosses p m = false ↔ 0 < side.signed p + side.opp.signed m := by
  rw [← not_le, ← crosses_iff, Bool.not_eq_true]

end Side

/-! ## Keys and comparators -/

/-- The copy of an order that a removal searches with: the sort fields only. -/
def removalKey (o : BbOrder) : BbOrder :=
  { trustPrice := o.trustPrice, createTime := o.createTime, trustOrderNo := o.trustOrderNo }

/-- Orders at one price: by time, then by number. -/
def compareSamePrice (a b : BbOrder) : Ordering :=
  if a.trustOrderNo = b.trustOrderNo then .eq
  else
    match compare a.createTime b.createTime with
    | .eq => compare a.trustOrderNo b.trustOrderNo
    | ord => ord

/-- Buy orders: the highest price first. -/
def compareBuy (a b : BbOrder) : Ordering :=
  match compare a.trustPrice b.trustPrice with
  | .eq => compareSamePrice a b
  | ord => ord.swap

/-- Sell orders: the lowest price first. -/
def compareSell (a b : BbOrder) : Ordering :=
  match compare a.trustPrice b.trustPrice with
  | .eq => compareSamePrice a b
  | ord => ord

/-- The comparator of a side. -/
def compareSide : Side → BbOrder → BbOrder → Ordering
  | .buy => compareBuy
  | .sell => compareSell

/-- A minimal limit order. -/
def testLimit (side : Side) (price : BigDecimal) (trustOrderNo : String) (createTime : Int)
    (qty : BigDecimal) : BbOrder where
  userId := 1
  uid := 1
  type := 1
  orderType := side.orderType
  marketId := 1
  coinId := 1
  symbolKey := "btcusdt"
  coinMarket := "BTC/USDT"
  trustOrderNo := trustOrderNo
  orderForm := 1
  closePosition := 1
  leverTimes := 1
  trustNumber := qty
  trustPrice := price
  remainingNumber := qty
  createTime := createTime

/-- What is left of an order. -/
def remaining (o : BbOrder) : BigDecimal := o.trustNumber - o.consumerAllNumber

/-! ## Ranks -/

/-- The place of an order on a side: price, then time, then number. -/
def rank (side : Side) (o : BbOrder) : BigDecimal ×ₗ Int ×ₗ String :=
  toLex (side.signed o.trustPrice, toLex (o.createTime, o.trustOrderNo))

theorem rank_lt_iff {side : Side} {a b : BbOrder} :
    rank side a < rank side b ↔
      side.signed a.trustPrice < side.signed b.trustPrice ∨
      side.signed a.trustPrice = side.signed b.trustPrice ∧
        (a.createTime < b.createTime ∨
          a.createTime = b.createTime ∧ a.trustOrderNo < b.trustOrderNo) := by
  simp [rank, Prod.Lex.toLex_lt_toLex]

/-- A better price is a better rank. -/
theorem rank_lt_of_signed_lt {side : Side} {a b : BbOrder}
    (h : side.signed a.trustPrice < side.signed b.trustPrice) : rank side a < rank side b :=
  rank_lt_iff.mpr (Or.inl h)

/-- A better rank is no worse a price. -/
theorem signed_le_of_rank_lt {side : Side} {a b : BbOrder} (h : rank side a < rank side b) :
    side.signed a.trustPrice ≤ side.signed b.trustPrice := by
  rcases rank_lt_iff.mp h with h | ⟨h, -⟩
  · exact h.le
  · exact h.le

/-- Orders of different numbers have different ranks. -/
theorem rank_ne (side : Side) {a b : BbOrder} (h : a.trustOrderNo ≠ b.trustOrderNo) :
    rank side a ≠ rank side b := by
  intro he
  simp only [rank, toLex_inj, Prod.mk.injEq] at he
  exact h he.2.2

theorem compareSamePrice_compares {a b : BbOrder} (h : a.trustOrderNo ≠ b.trustOrderNo) :
    (compareSamePrice a b).Compares
      (toLex (a.createTime, a.trustOrderNo)) (toLex (b.createTime, b.trustOrderNo)) := by
  rw [compareSamePrice, if_neg h]
  rcases lt_trichotomy a.createTime b.createTime with ht | ht | ht
  · rw [compare_lt_iff_lt.mpr ht]
    exact Prod.Lex.toLex_lt_toLex.mpr (Or.inl ht)
  · rw [compare_eq_iff_eq.mpr ht]
    rcases lt_or_gt_of_ne h with hn | hn
    · simp only [compare_lt_iff_lt.mpr hn]
      exact Prod.Lex.toLex_lt_toLex.mpr (Or.inr ⟨ht, hn⟩)
    · simp only [compare_gt_iff_gt.mpr hn]
      exact Prod.Lex.toLex_lt_toLex.mpr (Or.inr ⟨ht.symm, hn⟩)
  · rw [compare_gt_iff_gt.mpr ht]
    exact Prod.Lex.toLex_lt_toLex.mpr (Or.inl ht)

/-- Between orders of different numbers the comparators decide the rank. -/
theorem compareSide_compares {side : Side} {a b : BbOrder}
    (h : a.trustOrderNo ≠ b.trustOrderNo) :
    (compareSide side a b).Compares (rank side a) (rank side b) := by
  have hsame := compareSamePrice_compares h
  rcases lt_trichotomy a.trustPrice b.trustPrice with hp | hp | hp
  · cases side with
    | buy =>
        rw [compareSide, compareBuy, compare_lt_iff_lt.mpr hp]
        exact rank_lt_of_signed_lt (neg_lt_neg hp)
    | sell =>
        rw [compareSide, compareSell, compare_lt_iff_lt.mpr hp]
        exact rank_lt_of_signed_lt hp
  · have hs : side.signed a.trustPrice = side.signed b.trustPrice := by rw [hp]
    have hc : compareSide side a b = compareSamePrice a b := by
      cases side <;> simp [compareSide, compareBuy, compareSell, hp]
    rw [hc]
    cases ho : compareSamePrice a b with
    | lt =>
        rw [ho] at hsame
        exact Prod.Lex.toLex_lt_toLex.mpr (Or.inr ⟨hs, hsame⟩)
    | eq =>
        rw [ho] at hsame
        simp only [Ordering.Compares, rank, hs]
        exact congrArg _ (Prod.ext rfl hsame)
    | gt =>
        rw [ho] at hsame
        exact Prod.Lex.toLex_lt_toLex.mpr (Or.inr ⟨hs.symm, hsame⟩)
  · cases side with
    | buy =>
        rw [compareSide, compareBuy, compare_gt_iff_gt.mpr hp]
        exact rank_lt_of_signed_lt (neg_lt_neg hp)
    | sell =>
        rw [compareSide, compareSell, compare_gt_iff_gt.mpr hp]
        exact rank_lt_of_signed_lt hp

theorem compareSide_eq_lt {side : Side} {a b : BbOrder} (h : a.trustOrderNo ≠ b.trustOrderNo) :
    compareSide side a b = .lt ↔ rank side a < rank side b :=
  (compareSide_compares h).eq_lt

theorem compareSide_eq_gt {side : Side} {a b : BbOrder} (h : a.trustOrderNo ≠ b.trustOrderNo) :
    compareSide side a b = .gt ↔ rank side b < rank side a :=
  (compareSide_compares h).eq_gt

/-- A removal key compares as the order it was taken from. -/
theorem compareSide_removalKey (side : Side) (a b : BbOrder) :
    compareSide side (removalKey a) b = compareSide side a b := by
  cases side <;> rfl

theorem compareSide_self (side : Side) (a : BbOrder) : compareSide side a a = .eq := by
  cases side <;> simp [compareSide, compareBuy, compareSell, compareSamePrice]

end MatchCore
