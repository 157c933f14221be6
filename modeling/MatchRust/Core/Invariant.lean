import MatchRust.Core.Taker

/-!
# The invariant of a book

`Sides` is what holds of the two sides of a book between calls: both are
sorted, no number is used twice, every order has a quantity left that agrees
with what it consumed, and no two orders of different sides cross.  It is
stated from one side and is symmetric, so the lemmas serve buy and sell orders
alike.  It survives when orders leave or are partly filled (`Sides.shrink`) and
when an order that crosses nothing is placed (`Sides.place`).

What does not depend on quantities is a part of its own (`SidesApart`), which
also holds of books that took orders of any quantity.

The orders a loop starts from come out of it.  An incoming order that crosses
some maker comes before every order of its own side (`SidesApart.ahead`), because
those do not cross.
-/

namespace MatchCore

open MatchProtocol PriceTime OrderBook

/-- An order with a consistent open quantity. -/
structure Live (o : BbOrder) : Prop where
  /-- Something is left. -/
  pos : 0 < remaining o
  /-- The field agrees with what was consumed. -/
  field : o.remainingNumber = remaining o
  /-- Not more is left than was ordered. -/
  le : remaining o ≤ o.trustNumber

/-- Accepted orders are live. -/
theorem Live.of_accepted {o : BbOrder} (h : o.Accepted) : Live o := by
  have hr : remaining o = o.trustNumber := by rw [remaining, h.consumed, sub_zero]
  exact ⟨hr ▸ h.pos, h.remaining.trans hr.symm, hr.le⟩

/-! ## Sides that do not cross -/

/-- The invariant whatever the quantities are, seen from a side. -/
structure SidesApart (side : Side) (own opp : List BbOrder) : Prop where
  /-- The side is sorted. -/
  sorted : SideSorted side own
  /-- So is the other. -/
  oppSorted : SideSorted side.opp opp
  /-- The orders carry the code of their side. -/
  code : ∀ o ∈ own, Side.fromOrderType o.orderType = some side
  /-- Also on the other side. -/
  oppCode : ∀ o ∈ opp, Side.fromOrderType o.orderType = some side.opp
  /-- The sides share no number. -/
  distinct : ∀ a ∈ own, ∀ b ∈ opp, a.trustOrderNo ≠ b.trustOrderNo
  /-- The sides do not cross. -/
  apart : ∀ a ∈ own, ∀ b ∈ opp, side.crosses a.trustPrice b.trustPrice = false

namespace SidesApart

variable {side : Side} {own opp own' opp' : List BbOrder} {o m : BbOrder}

theorem nil : SidesApart side [] [] := by
  refine ⟨.nil, .nil, ?_, ?_, ?_, ?_⟩ <;> simp

theorem symm (h : SidesApart side own opp) : SidesApart side.opp opp own where
  sorted := h.oppSorted
  oppSorted := by rw [Side.opp_opp]; exact h.sorted
  code := h.oppCode
  oppCode := by rw [Side.opp_opp]; exact h.code
  distinct a ha b hb := (h.distinct b hb a ha).symm
  apart a ha b hb := by
    have hab := Side.crosses_eq_false.mp (h.apart b hb a ha)
    rw [Side.crosses_eq_false, Side.opp_opp, add_comm]
    exact hab

/-- Orders may leave or change their quantities. -/
theorem shrink (h : SidesApart side own opp) (hown : (own'.map terms).Sublist (own.map terms))
    (hopp : (opp'.map terms).Sublist (opp.map terms)) : SidesApart side own' opp' := by
  have old : ∀ {l l' : List BbOrder}, (l'.map terms).Sublist (l.map terms) →
      ∀ o ∈ l', ∃ o₀ ∈ l, terms o₀ = terms o :=
    fun hs o ho => List.mem_map.mp (hs.subset (List.mem_map_of_mem ho))
  refine ⟨h.sorted.of_terms hown, h.oppSorted.of_terms hopp, ?_, ?_, ?_, ?_⟩
  · intro o ho
    obtain ⟨o₀, ho₀, ht⟩ := old hown o ho
    rw [← orderType_of_terms ht]
    exact h.code o₀ ho₀
  · intro o ho
    obtain ⟨o₀, ho₀, ht⟩ := old hopp o ho
    rw [← orderType_of_terms ht]
    exact h.oppCode o₀ ho₀
  · intro a ha b hb
    obtain ⟨a₀, ha₀, hta⟩ := old hown a ha
    obtain ⟨b₀, hb₀, htb⟩ := old hopp b hb
    rw [← trustOrderNo_of_terms hta, ← trustOrderNo_of_terms htb]
    exact h.distinct a₀ ha₀ b₀ hb₀
  · intro a ha b hb
    obtain ⟨a₀, ha₀, hta⟩ := old hown a ha
    obtain ⟨b₀, hb₀, htb⟩ := old hopp b hb
    rw [← trustPrice_of_terms hta, ← trustPrice_of_terms htb]
    exact h.apart a₀ ha₀ b₀ hb₀

/-- An order that is fresh and crosses nothing may be placed. -/
theorem place (h : SidesApart side own opp) (hcode : Side.fromOrderType o.orderType = some side)
    (hfresh : ∀ x ∈ own ++ opp, x.trustOrderNo ≠ o.trustOrderNo)
    (hapart : ∀ b ∈ opp, side.crosses o.trustPrice b.trustPrice = false) :
    SidesApart side (place side o own) opp := by
  have hown : ∀ x ∈ own, x.trustOrderNo ≠ o.trustOrderNo :=
    fun x hx => hfresh x (List.mem_append_left _ hx)
  have hopp : ∀ x ∈ opp, x.trustOrderNo ≠ o.trustOrderNo :=
    fun x hx => hfresh x (List.mem_append_right _ hx)
  refine ⟨h.sorted.place hown, h.oppSorted, ?_, h.oppCode, ?_, ?_⟩
  · intro x hx
    rcases mem_place.mp hx with rfl | hx
    · exact hcode
    · exact h.code x hx
  · intro x hx b hb
    rcases mem_place.mp hx with rfl | hx
    · exact (hopp b hb).symm
    · exact h.distinct x hx b hb
  · intro x hx b hb
    rcases mem_place.mp hx with rfl | hx
    · exact hapart b hb
    · exact h.apart x hx b hb

/-- An order that crosses comes before every order of its side. -/
theorem ahead (h : SidesApart side own opp) (hm : m ∈ opp)
    (hc : side.crosses o.trustPrice m.trustPrice = true) :
    ∀ x ∈ own, rank side o < rank side x := by
  intro x hx
  have hx' := Side.crosses_eq_false.mp (h.apart x hx m hm)
  have ho := Side.crosses_iff.mp hc
  exact rank_lt_of_signed_lt (by linarith)

/-- If an order does not cross the best maker it crosses none. -/
theorem apart_of_head (h : SidesApart side own opp)
    (hc : ∀ m ∈ opp.head?, side.crosses o.trustPrice m.trustPrice = false) :
    ∀ m ∈ opp, side.crosses o.trustPrice m.trustPrice = false := by
  intro m hm
  cases opp with
  | nil => cases hm
  | cons b opp =>
      have hb := Side.crosses_eq_false.mp (hc b rfl)
      rcases List.mem_cons.mp hm with rfl | hm
      · exact hc _ rfl
      · have hle := signed_le_of_rank_lt (h.oppSorted.head_lt m hm)
        rw [Side.crosses_eq_false]
        linarith

end SidesApart

/-! ## The invariant -/

/-- The invariant, seen from a side. -/
structure Sides (side : Side) (own opp : List BbOrder) : Prop extends SidesApart side own opp where
  /-- The orders are live. -/
  live : ∀ o ∈ own, Live o
  /-- Also on the other side. -/
  oppLive : ∀ o ∈ opp, Live o

/-- The invariant of a book. -/
def BookInv (book : OrderBook) : Prop := Sides .buy book.buys book.sells

namespace Sides

variable {side : Side} {own opp own' opp' : List BbOrder} {o m : BbOrder}

theorem nil : Sides side [] [] := ⟨.nil, by simp, by simp⟩

theorem symm (h : Sides side own opp) : Sides side.opp opp own :=
  ⟨h.toSidesApart.symm, h.oppLive, h.live⟩

/-- Orders may leave or be partly filled. -/
theorem shrink (h : Sides side own opp) (hown : (own'.map terms).Sublist (own.map terms))
    (hopp : (opp'.map terms).Sublist (opp.map terms)) (hlive : ∀ o ∈ own', Live o)
    (hoppLive : ∀ o ∈ opp', Live o) : Sides side own' opp' :=
  ⟨h.toSidesApart.shrink hown hopp, hlive, hoppLive⟩

/-- A live order that is fresh and crosses nothing may be placed. -/
theorem place (h : Sides side own opp) (hcode : Side.fromOrderType o.orderType = some side)
    (hlive : Live o) (hfresh : ∀ x ∈ own ++ opp, x.trustOrderNo ≠ o.trustOrderNo)
    (hapart : ∀ b ∈ opp, side.crosses o.trustPrice b.trustPrice = false) :
    Sides side (place side o own) opp := by
  refine ⟨h.toSidesApart.place hcode hfresh hapart, fun x hx => ?_, h.oppLive⟩
  rcases mem_place.mp hx with rfl | hx
  · exact hlive
  · exact h.live x hx

end Sides

/-- The invariant of a book from any side. -/
theorem BookInv.sides {book : OrderBook} (h : BookInv book) :
    ∀ side : Side, Sides side (book.entries side) (book.entries side.opp)
  | .buy => h
  | .sell => h.symm

theorem bookInv_ofSides {side : Side} {own opp : List BbOrder} (h : Sides side own opp) :
    BookInv (ofSides side own opp) := by
  cases side with
  | buy => exact h
  | sell => exact h.symm

theorem bookInv_empty : BookInv {} := Sides.nil

/-! ## Incoming orders -/

/-- An order that may enter a book, whatever its quantity: it has a side and its
number does not rest. -/
structure Entering (side : Side) (o : BbOrder) (own opp : List BbOrder) : Prop where
  /-- The order carries the code of the side. -/
  code : Side.fromOrderType o.orderType = some side
  /-- Its number does not rest. -/
  fresh : ∀ x ∈ own ++ opp, x.trustOrderNo ≠ o.trustOrderNo

namespace Entering

variable {side : Side} {o : BbOrder} {own opp : List BbOrder}

theorem own_ne (h : Entering side o own opp) : ∀ x ∈ own, x.trustOrderNo ≠ o.trustOrderNo :=
  fun x hx => h.fresh x (List.mem_append_left _ hx)

theorem opp_ne (h : Entering side o own opp) : ∀ x ∈ opp, x.trustOrderNo ≠ o.trustOrderNo :=
  fun x hx => h.fresh x (List.mem_append_right _ hx)

/-- The order enters in rank order. -/
theorem insert (h : Entering side o own opp) :
    (ofSides side own opp).insert o = (true, ofSides side (MatchCore.place side o own) opp) := by
  rw [insert_fresh h.code (by simpa using h.own_ne)]
  simp

/-- It can be taken out again. -/
theorem remove (h : Entering side o own opp) (hs : SidesApart side own opp) :
    (ofSides side (MatchCore.place side o own) opp).removeByOrderNo side o.trustOrderNo =
      (some o, ofSides side own opp) := by
  rw [removeByOrderNo_place (entries_ofSides ..) hs.sorted h.own_ne]
  simp

/-- An order that comes first is at the front of its side. -/
theorem ahead (h : Entering side o own opp) (hs : SidesApart side own opp)
    (hlt : ∀ x ∈ own, rank side o < rank side x) : Ahead side o own opp where
  sorted := by
    rw [← place_eq_cons hlt]
    exact hs.sorted.place h.own_ne
  makers := hs.oppSorted
  code := h.code
  makerCode := hs.oppCode
  fresh := h.opp_ne
  apart := hs.apart

end Entering

/-- An order that may enter a book: it has a side, its number does not rest, and
it is live. -/
structure Incoming (side : Side) (o : BbOrder) (own opp : List BbOrder) : Prop
    extends Entering side o own opp where
  /-- It is live. -/
  live : Live o

namespace Incoming

variable {side : Side} {o : BbOrder} {own opp : List BbOrder}

/-- An incoming order that comes first is at the front of its side. -/
theorem front (h : Incoming side o own opp) (hs : Sides side own opp)
    (hlt : ∀ x ∈ own, rank side o < rank side x) : Front side o own opp :=
  ⟨h.ahead hs.toSidesApart hlt, h.live.pos, fun m hm => (hs.oppLive m hm).pos⟩

end Incoming

end MatchCore
