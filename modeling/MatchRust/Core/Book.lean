import MatchRust.Core.Order

/-!
# The order book

A book is two ordered sets of resting orders, one per side.  The operations
name a side, or read it off the code of the order (`insert`).

The lemmas describe the operations on a side that is strictly sorted by rank
and holds each order number once (`SideSorted`).  There a fresh order is
inserted in rank order (`insert_fresh`), an order taken off the front and
changed in its quantities goes back to the front (`insert_front`), and a
removal by number erases that order (`removeByOrderNo_eq`).
-/

namespace MatchCore

open MatchProtocol

/-- Price-time priority order book. -/
@[ext] structure OrderBook where
  /-- Buy orders, best first. -/
  buys : List BbOrder := []
  /-- Sell orders, best first. -/
  sells : List BbOrder := []
deriving DecidableEq

namespace OrderBook

/-! ## Operations -/

/-- The orders of a side, best first. -/
def entries (book : OrderBook) : Side → List BbOrder
  | .buy => book.buys
  | .sell => book.sells

/-- The book with other orders on one side. -/
def setEntries (book : OrderBook) : Side → List BbOrder → OrderBook
  | .buy, l => { book with buys := l }
  | .sell, l => { book with sells := l }

/-- Insert an order on the side of its code.  Returns `false` if the code is no
side, or if an order of this number rests at this price. -/
def insert (book : OrderBook) (order : BbOrder) : Bool × OrderBook :=
  match Side.fromOrderType order.orderType with
  | some side =>
      let r := SortedSet.insert (compareSide side) order (book.entries side)
      (r.1, book.setEntries side r.2)
  | none => (false, book)

/-- An order of this number rests on either side. -/
def containsOrderNo (book : OrderBook) (orderNo : String) : Bool :=
  book.buys.any (fun o => o.trustOrderNo = orderNo) ||
    book.sells.any (fun o => o.trustOrderNo = orderNo)

/-- Remove an order with its removal key, on the side of its code.  Returns
whether one was removed. -/
def remove (book : OrderBook) (order : BbOrder) : Bool × OrderBook :=
  match Side.fromOrderType order.orderType with
  | some side =>
      let r := SortedSet.take (compareSide side) (removalKey order) (book.entries side)
      (r.1.isSome, book.setEntries side r.2)
  | none => (false, book)

/-- The best order of a side. -/
def first (book : OrderBook) (side : Side) : Option BbOrder := (book.entries side).head?

/-- Remove and return the best order of a side. -/
def popFirst (book : OrderBook) (side : Side) : Option BbOrder × OrderBook :=
  ((book.entries side).head?, book.setEntries side (book.entries side).tail)

/-- Find an order by number and remove it with its removal key. -/
def removeByOrderNo (book : OrderBook) (side : Side) (orderNo : String) :
    Option BbOrder × OrderBook :=
  match (book.entries side).find? (fun o => o.trustOrderNo = orderNo) with
  | none => (none, book)
  | some found =>
      let r := SortedSet.take (compareSide side) (removalKey found) (book.entries side)
      (r.1, book.setEntries side r.2)

/-- A side holds no order. -/
def isEmpty (book : OrderBook) (side : Side) : Bool := (book.entries side).isEmpty

/-! ## Sides of a book -/

section Sides

variable (book : OrderBook) (side : Side) (l l' : List BbOrder)

@[simp] theorem entries_setEntries : (book.setEntries side l).entries side = l := by
  cases side <;> rfl

@[simp] theorem entries_setEntries_opp :
    (book.setEntries side l).entries side.opp = book.entries side.opp := by
  cases side <;> rfl

@[simp] theorem entries_setEntries_of_opp :
    (book.setEntries side.opp l).entries side = book.entries side := by
  cases side <;> rfl

@[simp] theorem setEntries_setEntries :
    (book.setEntries side l).setEntries side l' = book.setEntries side l' := by
  cases side <;> rfl

@[simp] theorem setEntries_entries : book.setEntries side (book.entries side) = book := by
  cases side <;> rfl

theorem containsOrderNo_eq_true {orderNo : String} :
    book.containsOrderNo orderNo = true ↔
      ∃ s, ∃ o ∈ book.entries s, o.trustOrderNo = orderNo := by
  simp only [containsOrderNo, Bool.or_eq_true, List.any_eq_true, decide_eq_true_eq]
  constructor
  · rintro (h | h)
    · exact ⟨.buy, h⟩
    · exact ⟨.sell, h⟩
  · rintro ⟨s, h⟩
    cases s with
    | buy => exact Or.inl h
    | sell => exact Or.inr h

theorem containsOrderNo_eq_false {orderNo : String} :
    book.containsOrderNo orderNo = false ↔
      ∀ s, ∀ o ∈ book.entries s, o.trustOrderNo ≠ orderNo := by
  rw [← Bool.not_eq_true, containsOrderNo_eq_true]
  push Not
  rfl

theorem isEmpty_eq_true : book.isEmpty side = true ↔ book.entries side = [] :=
  List.isEmpty_iff

/-- The book with these orders on a side and those on the other. -/
def ofSides : Side → List BbOrder → List BbOrder → OrderBook
  | .buy, own, opp => { buys := own, sells := opp }
  | .sell, own, opp => { buys := opp, sells := own }

@[simp] theorem entries_ofSides : (ofSides side l l').entries side = l := by
  cases side <;> rfl

@[simp] theorem entries_ofSides_opp : (ofSides side l l').entries side.opp = l' := by
  cases side <;> rfl

@[simp] theorem setEntries_ofSides (own : List BbOrder) :
    (ofSides side l l').setEntries side own = ofSides side own l' := by
  cases side <;> rfl

@[simp] theorem setEntries_ofSides_opp (opp : List BbOrder) :
    (ofSides side l l').setEntries side.opp opp = ofSides side l opp := by
  cases side <;> rfl

theorem setEntries_eq_ofSides :
    book.setEntries side l = ofSides side l (book.entries side.opp) := by
  cases side <;> rfl

@[simp] theorem ofSides_entries :
    ofSides side (book.entries side) (book.entries side.opp) = book := by
  cases side <;> rfl

theorem containsOrderNo_ofSides {orderNo : String} :
    (ofSides side l l').containsOrderNo orderNo = false ↔
      ∀ x ∈ l ++ l', x.trustOrderNo ≠ orderNo := by
  rw [containsOrderNo_eq_false]
  simp only [List.mem_append]
  constructor
  · rintro h x (hx | hx)
    · exact h side x (by simpa using hx)
    · exact h side.opp x (by simpa using hx)
  · intro h s x hx
    rcases Side.eq_or_eq_opp side s with rfl | rfl
    · exact h x (Or.inl (by simpa using hx))
    · exact h x (Or.inr (by simpa using hx))

end Sides

end OrderBook

/-! ## Sorted sides -/

/-- A side in strict rank order, each order number once. -/
structure SideSorted (side : Side) (l : List BbOrder) : Prop where
  /-- Best first. -/
  sorted : l.Pairwise fun a b => rank side a < rank side b
  /-- No number twice. -/
  nodup : (l.map (·.trustOrderNo)).Nodup

namespace SideSorted

variable {side : Side} {l : List BbOrder} {o o' : BbOrder}

theorem nil : SideSorted side [] := ⟨List.Pairwise.nil, List.nodup_nil⟩

theorem tail (h : SideSorted side (o :: l)) : SideSorted side l :=
  ⟨(List.pairwise_cons.mp h.sorted).2, (List.nodup_cons.mp h.nodup).2⟩

theorem head_lt (h : SideSorted side (o :: l)) : ∀ x ∈ l, rank side o < rank side x :=
  (List.pairwise_cons.mp h.sorted).1

theorem head_ne (h : SideSorted side (o :: l)) : ∀ x ∈ l, o.trustOrderNo ≠ x.trustOrderNo := by
  intro x hx he
  exact (List.nodup_cons.mp h.nodup).1 (List.mem_map.mpr ⟨x, hx, he.symm⟩)

/-- The head may be replaced by an order of its rank and number. -/
theorem replace_head (h : SideSorted side (o :: l)) (hr : rank side o' = rank side o)
    (hn : o'.trustOrderNo = o.trustOrderNo) : SideSorted side (o' :: l) := by
  refine ⟨List.pairwise_cons.mpr ⟨fun x hx => ?_, h.tail.sorted⟩, ?_⟩
  · rw [hr]
    exact h.head_lt x hx
  · rw [List.map_cons, hn]
    exact h.nodup

/-- What is left of a sorted side is sorted. -/
theorem sublist {l' : List BbOrder} (h : SideSorted side l) (hs : l'.Sublist l) :
    SideSorted side l' :=
  ⟨h.sorted.sublist hs, h.nodup.sublist (hs.map _)⟩

/-- No other order of a side has the number of this one. -/
theorem others_ne {l₁ l₂ : List BbOrder} (h : SideSorted side (l₁ ++ o :: l₂)) :
    ∀ x ∈ l₁ ++ l₂, x.trustOrderNo ≠ o.trustOrderNo := by
  intro x hx he
  have hperm : ((l₁ ++ o :: l₂).map (·.trustOrderNo)).Perm
      ((o :: (l₁ ++ l₂)).map (·.trustOrderNo)) := List.perm_middle.map _
  exact (List.nodup_cons.mp (hperm.nodup_iff.mp h.nodup)).1 (List.mem_map.mpr ⟨x, hx, he⟩)

/-- A search for an order passes the better ones. -/
theorem compareSide_before {l₁ l₂ : List BbOrder} (h : SideSorted side (l₁ ++ o :: l₂)) :
    ∀ x ∈ l₁, compareSide side o x = .gt := by
  intro x hx
  have hne := h.others_ne x (List.mem_append_left _ hx)
  have hlt := (List.pairwise_append.mp h.sorted).2.2 x hx o (List.mem_cons_self ..)
  exact (compareSide_eq_gt hne.symm).mpr hlt

end SideSorted

/-- A side with one more order, in rank order. -/
def place (side : Side) (o : BbOrder) (l : List BbOrder) : List BbOrder :=
  l.orderedInsert (fun a b => rank side a ≤ rank side b) o

section Place

variable {side : Side} {o : BbOrder} {l : List BbOrder}

theorem mem_place {x : BbOrder} : x ∈ place side o l ↔ x = o ∨ x ∈ l :=
  List.mem_orderedInsert _

/-- The new order splits the side in two. -/
theorem place_eq_append (side : Side) (o : BbOrder) (l : List BbOrder) :
    ∃ l₁ l₂, l = l₁ ++ l₂ ∧ place side o l = l₁ ++ o :: l₂ :=
  ⟨_, _, (List.takeWhile_append_dropWhile ..).symm, List.orderedInsert_eq_take_drop ..⟩

theorem place_eq_cons (h : ∀ x ∈ l, rank side o < rank side x) : place side o l = o :: l :=
  SortedSet.orderedInsert_eq_cons _ fun x hx => (h x hx).le

/-- An order is placed where sortedness has it. -/
theorem place_append {l₁ l₂ : List BbOrder} (h : SideSorted side (l₁ ++ o :: l₂)) :
    place side o (l₁ ++ l₂) = l₁ ++ o :: l₂ := by
  induction l₁ with
  | nil => exact place_eq_cons h.head_lt
  | cons a l₁ ih =>
      have hlt : rank side a < rank side o := h.head_lt o (by simp)
      rw [List.cons_append, place, List.orderedInsert_cons, if_neg (not_le_of_gt hlt)]
      exact congrArg (a :: ·) (ih h.tail)

/-- Placing a fresh order keeps a side sorted. -/
theorem SideSorted.place (h : SideSorted side l) (hf : ∀ x ∈ l, x.trustOrderNo ≠ o.trustOrderNo) :
    SideSorted side (place side o l) := by
  refine ⟨SortedSet.pairwise_orderedInsert _ h.sorted fun x hx => rank_ne side (hf x hx).symm, ?_⟩
  have hperm := (List.perm_orderedInsert (fun a b => rank side a ≤ rank side b) o l).map
    (fun o : BbOrder => o.trustOrderNo)
  refine hperm.nodup_iff.mpr (List.nodup_cons.mpr ⟨fun hm => ?_, h.nodup⟩)
  obtain ⟨x, hx, he⟩ := List.mem_map.mp hm
  exact hf x hx he

end Place

namespace OrderBook

variable {book : OrderBook} {side : Side} {o : BbOrder}

/-- A fresh order is inserted in rank order. -/
theorem insert_fresh (hs : Side.fromOrderType o.orderType = some side)
    (hf : ∀ x ∈ book.entries side, x.trustOrderNo ≠ o.trustOrderNo) :
    book.insert o = (true, book.setEntries side (place side o (book.entries side))) := by
  have hr : SortedSet.Ranks (rank side) (compareSide side) o (book.entries side) :=
    fun x hx => ⟨compareSide_compares (hf x hx).symm, rank_ne side (hf x hx).symm⟩
  simp only [insert, hs, SortedSet.insert_eq_orderedInsert _ hr]
  rfl

/-- An order that heads its side goes to the front. -/
theorem insert_front (hs : Side.fromOrderType o.orderType = some side)
    (h : SideSorted side (o :: book.entries side)) :
    book.insert o = (true, book.setEntries side (o :: book.entries side)) := by
  have hlt : ∀ x ∈ book.entries side, compareSide side o x = .lt :=
    fun x hx => (compareSide_eq_lt (h.head_ne x hx)).mpr (h.head_lt x hx)
  simp only [insert, hs, SortedSet.insert_of_forall_lt hlt]

/-- A code that is no side inserts nothing. -/
theorem insert_unsided (hs : Side.fromOrderType o.orderType = none) :
    book.insert o = (false, book) := by
  simp [insert, hs]

/-- Removing a number that does not rest changes nothing. -/
theorem removeByOrderNo_absent {orderNo : String}
    (h : ∀ x ∈ book.entries side, x.trustOrderNo ≠ orderNo) :
    book.removeByOrderNo side orderNo = (none, book) := by
  have hf : (book.entries side).find? (fun o => o.trustOrderNo = orderNo) = none := by
    rw [List.find?_eq_none]
    intro x hx
    simpa using h x hx
  simp [removeByOrderNo, hf]

/-- Removing a number takes its order out and leaves the others in place. -/
theorem removeByOrderNo_append {l₁ l₂ : List BbOrder} (he : book.entries side = l₁ ++ o :: l₂)
    (h : SideSorted side (l₁ ++ o :: l₂)) :
    book.removeByOrderNo side o.trustOrderNo = (some o, book.setEntries side (l₁ ++ l₂)) := by
  have hfind : (book.entries side).find? (fun x => x.trustOrderNo = o.trustOrderNo) = some o := by
    have hnone : l₁.find? (fun x => x.trustOrderNo = o.trustOrderNo) = none := by
      rw [List.find?_eq_none]
      intro x hx
      simpa using h.others_ne x (List.mem_append_left _ hx)
    rw [he, List.find?_append, hnone]
    simp
  -- The search passes the better orders and stops at the order itself.
  have hgt : ∀ x ∈ l₁, compareSide side (removalKey o) x = .gt := by
    intro x hx
    rw [compareSide_removalKey]
    exact h.compareSide_before x hx
  have heq : compareSide side (removalKey o) o = .eq := by
    rw [compareSide_removalKey, compareSide_self]
  rw [removeByOrderNo, hfind]
  simp only [he, SortedSet.take_append hgt heq]

/-- Whatever the side is like, a removal leaves the others in their order. -/
theorem removeByOrderNo_sublist (book : OrderBook) (side : Side) (orderNo : String) :
    ∃ l, l.Sublist (book.entries side) ∧
      (book.removeByOrderNo side orderNo).2 = book.setEntries side l := by
  unfold removeByOrderNo
  split
  · exact ⟨_, List.Sublist.refl _, (setEntries_entries book side).symm⟩
  · exact ⟨_, SortedSet.take_sublist .., rfl⟩

theorem removeByOrderNo_head {l : List BbOrder} (he : book.entries side = o :: l)
    (h : SideSorted side (o :: l)) :
    book.removeByOrderNo side o.trustOrderNo = (some o, book.setEntries side l) :=
  @removeByOrderNo_append book side o [] l he h

/-- Removing an order that was just placed restores the side. -/
theorem removeByOrderNo_place {l : List BbOrder} (he : book.entries side = place side o l)
    (h : SideSorted side l) (hf : ∀ x ∈ l, x.trustOrderNo ≠ o.trustOrderNo) :
    book.removeByOrderNo side o.trustOrderNo = (some o, book.setEntries side l) := by
  obtain ⟨l₁, l₂, hl, hp⟩ := place_eq_append side o l
  rw [hl]
  exact removeByOrderNo_append (he.trans hp) (hp ▸ h.place hf)

end OrderBook

end MatchCore
