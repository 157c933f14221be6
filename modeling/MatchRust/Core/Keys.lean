import MatchRust.Lib.SearchTree
import MatchRust.Core.Book

/-!
# Book keys

The comparators of the book on a set of orders with pairwise different numbers,
and the removal by number from a book that was built from such orders.

On all orders the comparators are no strict total orders, since they take two
orders of one number at one price for equal.  On a set where each number belongs
to one order they decide the rank (`compareSide_compares_on`), so they are.

A book is built from a set of orders by insertions of these orders and by
removals, in any sequence (`Built`).  Its sides stay strictly sorted and hold
orders of the set only (`Keyed`).  So the removal key of a stored order, which
carries the sort fields and nothing else, cuts the side at that order: the
search arrives there in a tree of any shape, and takes out the stored order.
-/

namespace MatchCore

open MatchProtocol

section Distinct

variable {orders : Set BbOrder}

/-- Where each number belongs to one order, the comparators decide the rank. -/
theorem compareSide_compares_on (h : orders.InjOn (·.trustOrderNo)) (side : Side) {a b : BbOrder}
    (ha : a ∈ orders) (hb : b ∈ orders) :
    (compareSide side a b).Compares (rank side a) (rank side b) := by
  by_cases hn : a.trustOrderNo = b.trustOrderNo
  · rw [h ha hb hn, compareSide_self]
    rfl
  · exact compareSide_compares hn

theorem rank_injOn (h : orders.InjOn (·.trustOrderNo)) (side : Side) :
    orders.InjOn (rank side) := by
  intro a ha b hb he
  by_contra hne
  exact rank_ne side (fun hn => hne (h ha hb hn)) he

/-- So they are strict total orders. -/
theorem compareSide_strictOrderOn (h : orders.InjOn (·.trustOrderNo)) (side : Side) :
    SortedSet.StrictOrderOn (compareSide side) orders :=
  .of_rank (rank_injOn h side) fun _ ha _ hb => compareSide_compares_on h side ha hb

end Distinct

/-! ## Books built from a set of orders -/

/-- A book that insertions of orders of a set and removals lead to. -/
inductive Built (orders : Set BbOrder) : OrderBook → Prop where
  | empty : Built orders {}
  | insert {book : OrderBook} {o : BbOrder} :
      Built orders book → o ∈ orders → Built orders (book.insert o).2
  | remove {book : OrderBook} {o : BbOrder} :
      Built orders book → o ∈ orders → Built orders (book.remove o).2
  | removeByOrderNo {book : OrderBook} (side : Side) (orderNo : String) :
      Built orders book → Built orders (book.removeByOrderNo side orderNo).2
  | popFirst {book : OrderBook} (side : Side) :
      Built orders book → Built orders (book.popFirst side).2

/-- The sides are sorted and hold orders of the set. -/
structure Keyed (orders : Set BbOrder) (book : OrderBook) : Prop where
  /-- Best first, no number twice. -/
  sorted : ∀ side, SideSorted side (book.entries side)
  /-- Nothing else is stored. -/
  mem : ∀ side, ∀ o ∈ book.entries side, o ∈ orders

namespace Keyed

variable {orders : Set BbOrder} {book : OrderBook}

theorem empty : Keyed orders {} where
  sorted side := by cases side <;> exact SideSorted.nil
  mem side o ho := by cases side <;> cases ho

/-- Another list of one side keeps the other as it is. -/
theorem setEntries (h : Keyed orders book) {side : Side} {l : List BbOrder}
    (hs : SideSorted side l) (hm : ∀ o ∈ l, o ∈ orders) :
    Keyed orders (book.setEntries side l) where
  sorted s := by
    rcases Side.eq_or_eq_opp side s with rfl | rfl
    · rw [OrderBook.entries_setEntries]
      exact hs
    · rw [OrderBook.entries_setEntries_opp]
      exact h.sorted side.opp
  mem s := by
    rcases Side.eq_or_eq_opp side s with rfl | rfl
    · rw [OrderBook.entries_setEntries]
      exact hm
    · rw [OrderBook.entries_setEntries_opp]
      exact h.mem side.opp

/-- What is left of a side is sorted and of the set. -/
theorem shrink (h : Keyed orders book) {side : Side} {l : List BbOrder}
    (hl : l.Sublist (book.entries side)) : Keyed orders (book.setEntries side l) :=
  h.setEntries ((h.sorted side).sublist hl) fun o ho => h.mem side o (hl.subset ho)

/-- A stored order blocks its own insertion. -/
theorem insert_stored (h : Keyed orders book) {side : Side} {o : BbOrder}
    (hs : Side.fromOrderType o.orderType = some side) (ho : o ∈ book.entries side) :
    book.insert o = (false, book) := by
  obtain ⟨l₁, l₂, he⟩ := List.append_of_mem ho
  have hgt := (he ▸ h.sorted side).compareSide_before
  have hins : SortedSet.insert (compareSide side) o (l₁ ++ o :: l₂) = (false, l₁ ++ o :: l₂) :=
    SortedSet.insert_append hgt (compareSide_self side o)
  simp only [OrderBook.insert, hs, he, hins]
  rw [← he, OrderBook.setEntries_entries]

/-- An insertion from the set keeps the book keyed. -/
theorem insert (hd : orders.InjOn (·.trustOrderNo)) (h : Keyed orders book) {o : BbOrder}
    (ho : o ∈ orders) : Keyed orders (book.insert o).2 := by
  cases hs : Side.fromOrderType o.orderType with
  | none =>
      rw [OrderBook.insert_unsided hs]
      exact h
  | some side =>
      by_cases hmem : o ∈ book.entries side
      · rw [h.insert_stored hs hmem]
        exact h
      · have hfresh : ∀ x ∈ book.entries side, x.trustOrderNo ≠ o.trustOrderNo := by
          intro x hx hn
          exact hmem (hd (h.mem side x hx) ho hn ▸ hx)
        rw [OrderBook.insert_fresh hs hfresh]
        refine h.setEntries ((h.sorted side).place hfresh) fun x hx => ?_
        rcases mem_place.mp hx with rfl | hx
        · exact ho
        · exact h.mem side x hx

/-! Removals leave parts of the sides. -/

theorem remove (h : Keyed orders book) (o : BbOrder) : Keyed orders (book.remove o).2 := by
  unfold OrderBook.remove
  split
  · exact h.shrink (SortedSet.take_sublist ..)
  · exact h

theorem removeByOrderNo (h : Keyed orders book) (side : Side) (orderNo : String) :
    Keyed orders (book.removeByOrderNo side orderNo).2 := by
  obtain ⟨l, hl, he⟩ := book.removeByOrderNo_sublist side orderNo
  rw [he]
  exact h.shrink hl

theorem popFirst (h : Keyed orders book) (side : Side) : Keyed orders (book.popFirst side).2 :=
  h.shrink (List.tail_sublist _)

/-- The removal key of a stored order is found in every tree of its side. -/
theorem find_removalKey (hd : orders.InjOn (·.trustOrderNo)) (h : Keyed orders book) {side : Side}
    {o : BbOrder} {l₁ l₂ : List BbOrder} (he : book.entries side = l₁ ++ o :: l₂)
    {t : SortedSet.SearchTree BbOrder} (ht : t.toList = book.entries side) :
    t.find (compareSide side) (removalKey o) = some o := by
  have ho : o ∈ book.entries side := by rw [he]; simp
  have hcmp : ∀ x ∈ book.entries side,
      (compareSide side (removalKey o) x).Compares (rank side o) (rank side x) := by
    intro x hx
    rw [compareSide_removalKey]
    exact compareSide_compares_on hd side (h.mem side o ho) (h.mem side x hx)
  have hcut := SortedSet.Cut.of_rank (h.sorted side).sorted hcmp
  -- The list answers with the order itself: it passes what ranks before it.
  have hgt : ∀ x ∈ l₁, compareSide side (removalKey o) x = .gt := by
    intro x hx
    rw [compareSide_removalKey]
    exact (he ▸ h.sorted side).compareSide_before x hx
  have heq : compareSide side (removalKey o) o = .eq := (hcmp o ho).eq_eq.mpr rfl
  rw [SortedSet.SearchTree.find_eq_take (ht ▸ hcut), ht, he, SortedSet.take_append hgt heq]

end Keyed

/-- Every book built from orders of different numbers is keyed. -/
theorem Built.keyed {orders : Set BbOrder} (hd : orders.InjOn (·.trustOrderNo)) {book : OrderBook}
    (h : Built orders book) : Keyed orders book := by
  induction h with
  | empty => exact Keyed.empty
  | insert _ ho ih => exact ih.insert hd ho
  | remove _ _ ih => exact ih.remove _
  | removeByOrderNo side orderNo _ ih => exact ih.removeByOrderNo side orderNo
  | popFirst side _ ih => exact ih.popFirst side

/-! ## Removal by number -/

/-- A removal by number takes out the stored order of that number, as it is
stored, and nothing else, and every search tree of the side finds it by its
removal key; or no order has the number and the book stays. -/
inductive Removes (orders : Set BbOrder) (book : OrderBook) (side : Side) (orderNo : String) :
    Prop where
  | found (o : BbOrder) (l₁ l₂ : List BbOrder) (stored : o ∈ orders)
      (number : o.trustOrderNo = orderNo) (parts : book.entries side = l₁ ++ o :: l₂)
      (others : ∀ x ∈ l₁ ++ l₂, x.trustOrderNo ≠ orderNo)
      (result : book.removeByOrderNo side orderNo = (some o, book.setEntries side (l₁ ++ l₂)))
      (lookup : ∀ t : SortedSet.SearchTree BbOrder, t.toList = book.entries side →
        t.find (compareSide side) (removalKey o) = some o)
  | absent (missing : ∀ x ∈ book.entries side, x.trustOrderNo ≠ orderNo)
      (result : book.removeByOrderNo side orderNo = (none, book))

theorem Keyed.removes {orders : Set BbOrder} (hd : orders.InjOn (·.trustOrderNo))
    {book : OrderBook} (h : Keyed orders book) (side : Side) (orderNo : String) :
    Removes orders book side orderNo := by
  by_cases hex : ∃ o ∈ book.entries side, o.trustOrderNo = orderNo
  · obtain ⟨o, ho, rfl⟩ := hex
    obtain ⟨l₁, l₂, he⟩ := List.append_of_mem ho
    have hsort := he ▸ h.sorted side
    exact .found o l₁ l₂ (h.mem side o ho) rfl he hsort.others_ne
      (OrderBook.removeByOrderNo_append he hsort) fun t ht => h.find_removalKey hd he ht
  · push Not at hex
    exact .absent hex (OrderBook.removeByOrderNo_absent hex)

/-- On orders of different numbers the comparators are strict total orders, and
in every book built from them a removal by number is exact. -/
theorem book_keys_sound {orders : Set BbOrder} (hd : orders.InjOn (·.trustOrderNo)) :
    SortedSet.StrictOrderOn compareBuy orders ∧ SortedSet.StrictOrderOn compareSell orders ∧
      ∀ book, Built orders book → ∀ side orderNo, Removes orders book side orderNo :=
  ⟨compareSide_strictOrderOn hd .buy, compareSide_strictOrderOn hd .sell,
    fun _ hb side orderNo => (hb.keyed hd).removes hd side orderNo⟩

/-- Two bids at one price, the later one entered first. -/
theorem book_keys_sound_bids :
    let first := testLimit .buy 100 "2" 1 5
    let second := testLimit .buy 100 "1" 2 5
    let book := ((({} : OrderBook).insert second).2.insert first).2
    SortedSet.StrictOrderOn compareBuy {first, second} ∧ book.buys = [first, second] ∧
      Removes {first, second} book .buy "1" := by
  intro first second book
  have hne : first.trustOrderNo ≠ second.trustOrderNo := by decide
  have hd : Set.InjOn (·.trustOrderNo) {first, second} := by
    rintro a (rfl | rfl) b (rfl | rfl) he
    · rfl
    · exact absurd he hne
    · exact absurd he.symm hne
    · rfl
  have hbook : Built {first, second} book :=
    .insert (.insert .empty (Or.inr rfl)) (Or.inl rfl)
  obtain ⟨hbuy, -, hremoves⟩ := book_keys_sound hd
  exact ⟨hbuy, by decide +kernel, hremoves book hbook .buy "1"⟩

end MatchCore
