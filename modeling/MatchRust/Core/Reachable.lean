import MatchRust.Core.Settle

/-!
# Reachable engines

Every call of `onOrder` returns, and every book of an engine that took accepted
orders only satisfies the invariant.  So does every book after a sequence of
calls from the empty engine, and the results about single calls apply to all
of them.
-/

namespace MatchCore

open MatchProtocol PriceTime OrderBook

/-! ## Revokes -/

/-- A removal by number, on a book with the invariant: the order leaves, or
there is none. -/
theorem removeByOrderNo_cases {book : OrderBook} (hinv : BookInv book) (side : Side)
    (orderNo : String) :
    (∃ l₁ o l₂, book.entries side = l₁ ++ o :: l₂ ∧ o.trustOrderNo = orderNo ∧
        book.removeByOrderNo side orderNo = (some o, book.setEntries side (l₁ ++ l₂))) ∨
      (∀ x ∈ book.entries side, x.trustOrderNo ≠ orderNo) ∧
        book.removeByOrderNo side orderNo = (none, book) := by
  by_cases h : ∃ o ∈ book.entries side, o.trustOrderNo = orderNo
  · obtain ⟨o, ho, rfl⟩ := h
    obtain ⟨l₁, l₂, he⟩ := List.append_of_mem ho
    have hs := (hinv.sides side).sorted
    rw [he] at hs
    exact Or.inl ⟨l₁, o, l₂, he, rfl, removeByOrderNo_append he hs⟩
  · push Not at h
    exact Or.inr ⟨h, removeByOrderNo_absent h⟩

/-- An order may leave a book. -/
theorem BookInv.remove {book : OrderBook} (hinv : BookInv book) {side : Side} {o : BbOrder}
    {l₁ l₂ : List BbOrder} (he : book.entries side = l₁ ++ o :: l₂) :
    BookInv (book.setEntries side (l₁ ++ l₂)) := by
  have hs := hinv.sides side
  have hsub : (l₁ ++ l₂).Sublist (book.entries side) := by
    rw [he]
    exact (List.sublist_cons_self o l₂).append_left l₁
  rw [setEntries_eq_ofSides]
  exact bookInv_ofSides (hs.shrink (hsub.map _) (List.Sublist.refl _)
    (fun x hx => hs.live x (hsub.subset hx)) hs.oppLive)

/-- A revoke leaves the invariant. -/
theorem bookInv_revoke {book : OrderBook} (hinv : BookInv book) (o : BbOrder) (reason : String) :
    BookInv (revokeOrderWithReason book o reason).2 := by
  cases hside : Side.fromOrderType o.orderType with
  | none => simpa only [revokeOrderWithReason, hside] using hinv
  | some side =>
      rcases removeByOrderNo_cases hinv side o.trustOrderNo with
        ⟨l₁, x, l₂, he, -, hrem⟩ | ⟨-, hrem⟩
      · simpa only [revokeOrderWithReason, hside, hrem] using hinv.remove he
      · simpa only [revokeOrderWithReason, hside, hrem] using hinv

/-! ## Calls -/

section Calls

variable [DecimalRounding]

/-- A code that is no side drops the order. -/
theorem onBook_unsided {book : OrderBook} {o : BbOrder}
    (hside : Side.fromOrderType o.orderType = none) (hrev : isRevoke o = false) :
    Engine.onBook book o = some (book, []) := by
  have hrest : restOnly book o = book := by rw [restOnly, insert_unsided hside]
  simp [Engine.onBook, hrev, hside, hrest]

/-- What a call does to a book: a request to revoke is answered, a number that rests and a
code that is no side are ignored, and any other order is settled. -/
inductive Handled (book : OrderBook) (o : BbOrder) : OrderBook × List MatchEvent → Prop where
  | revoked : isRevoke o = true →
      Handled book o ((revokeOrder book o).2, (revokeOrder book o).1.toList)
  | ignored : isRevoke o = false →
      book.containsOrderNo o.trustOrderNo = true ∨ Side.fromOrderType o.orderType = none →
      Handled book o (book, [])
  | settled {side : Side} : isRevoke o = false → book.containsOrderNo o.trustOrderNo = false →
      Incoming side o (book.entries side) (book.entries side.opp) →
      Handled book o (settle side o (book.entries side) (book.entries side.opp))

/-- A call returns one of these. -/
theorem onBook_handled {book : OrderBook} (hinv : BookInv book) {o : BbOrder} (hl : Live o) :
    ∃ out, Engine.onBook book o = some out ∧ Handled book o out := by
  cases hrev : isRevoke o with
  | true =>
      refine ⟨_, ?_, .revoked hrev⟩
      rw [Engine.onBook, if_pos hrev]
  | false =>
      cases hc : book.containsOrderNo o.trustOrderNo with
      | true =>
          refine ⟨_, ?_, .ignored hrev (Or.inl hc)⟩
          simp [Engine.onBook, hrev, hc]
      | false =>
          cases hside : Side.fromOrderType o.orderType with
          | none => exact ⟨_, onBook_unsided hside hrev, .ignored hrev (Or.inr hside)⟩
          | some side =>
              refine ⟨_, onBook_eq_settle hinv hl hside hrev hc, .settled hrev hc ⟨⟨hside, ?_⟩, hl⟩⟩
              rwa [← containsOrderNo_ofSides side, ofSides_entries]

/-- A call returns, and keeps the invariant. -/
theorem onBook_inv {book : OrderBook} (hinv : BookInv book) {o : BbOrder} (hl : Live o) :
    ∃ book' evs, Engine.onBook book o = some (book', evs) ∧ BookInv book' := by
  obtain ⟨out, hon, hout⟩ := onBook_handled hinv hl
  refine ⟨out.1, out.2, hon, ?_⟩
  cases hout with
  | revoked => exact bookInv_revoke hinv o "user"
  | ignored => exact hinv
  | @settled side _ _ hi => exact bookInv_settle (hinv.sides side) hi

/-! ## Runs -/

/-- The invariant of an engine. -/
def EngineInv (engine : Engine) : Prop := ∀ symbol, BookInv (engine.books symbol)

omit [DecimalRounding] in
theorem engineInv_new : EngineInv {} := fun _ => bookInv_empty

/-- A call on an engine is a call on the book of its symbol. -/
theorem onOrder_eq {engine : Engine} {o : BbOrder} {book : OrderBook} {evs : List MatchEvent}
    (h : Engine.onBook (engine.books o.symbolKey) o = some (book, evs)) :
    engine.onOrder o =
      some ({ books := Function.update engine.books o.symbolKey book }, evs) := by
  rw [Engine.onOrder, h]

/-- What a call on an engine did, read backwards. -/
theorem onOrder_some {engine next : Engine} {o : BbOrder} {evs : List MatchEvent}
    (h : engine.onOrder o = some (next, evs)) :
    Engine.onBook (engine.books o.symbolKey) o = some (next.books o.symbolKey, evs) ∧
      ∀ symbol, symbol ≠ o.symbolKey → next.books symbol = engine.books symbol := by
  rw [Engine.onOrder] at h
  split at h
  · cases h
  next book evs' hon =>
    cases h
    refine ⟨?_, fun symbol hs => Function.update_of_ne hs ..⟩
    simp only [hon, Function.update_self]

theorem engineInv_onOrder {engine : Engine} (hinv : EngineInv engine) {o : BbOrder}
    (hl : Live o) : ∃ engine' evs, engine.onOrder o = some (engine', evs) ∧ EngineInv engine' := by
  obtain ⟨book, evs, hon, hbook⟩ := onBook_inv (hinv o.symbolKey) hl
  refine ⟨_, evs, onOrder_eq hon, fun symbol => ?_⟩
  by_cases hs : symbol = o.symbolKey
  · subst hs
    simpa using hbook
  · simpa [Function.update_of_ne hs] using hinv symbol

theorem EngineInv.onOrder {engine next : Engine} (hinv : EngineInv engine) {o : BbOrder}
    (hl : Live o) {evs : List MatchEvent} (h : engine.onOrder o = some (next, evs)) :
    EngineInv next := by
  obtain ⟨next', evs', h', hinv'⟩ := engineInv_onOrder hinv hl
  rw [h] at h'
  cases h'
  exact hinv'

/-- A sequence of calls returns and keeps the invariant. -/
theorem engineInv_run (os : List BbOrder) : ∀ {engine : Engine}, EngineInv engine →
    (∀ o ∈ os, o.Accepted) → ∃ engine', engine.run os = some engine' ∧ EngineInv engine' := by
  induction os with
  | nil => exact fun {engine} h _ => ⟨engine, rfl, h⟩
  | cons o os ih =>
      intro engine h hacc
      obtain ⟨engine₁, evs, hon, h₁⟩ :=
        engineInv_onOrder h (Live.of_accepted (hacc o (List.mem_cons_self ..)))
      obtain ⟨engine₂, hrun, h₂⟩ := ih h₁ fun x hx => hacc x (List.mem_cons_of_mem _ hx)
      exact ⟨engine₂, by rw [Engine.run, hon]; exact hrun, h₂⟩

/-- The engines that accepted orders lead to. -/
def Reachable (engine : Engine) : Prop :=
  ∃ os : List BbOrder, (∀ o ∈ os, o.Accepted) ∧ Engine.run {} os = some engine

theorem Reachable.inv {engine : Engine} (h : Reachable engine) : EngineInv engine := by
  obtain ⟨os, hacc, hrun⟩ := h
  obtain ⟨engine', hrun', hinv⟩ := engineInv_run os engineInv_new hacc
  rw [hrun] at hrun'
  cases hrun'
  exact hinv

/-- The engine after a sequence of calls. -/
def Engine.after (os : List BbOrder) : Engine := (Engine.run {} os).getD {}

theorem reachable_after {os : List BbOrder} (hacc : ∀ o ∈ os, o.Accepted) :
    Reachable (Engine.after os) := by
  obtain ⟨engine, hrun, -⟩ := engineInv_run os engineInv_new hacc
  exact ⟨os, hacc, by rw [Engine.after, hrun, Option.getD_some]⟩

/-- A call with a fresh order of a side, on a reachable engine: the book of its
symbol has the invariant and is settled, and no other book changes. -/
theorem Reachable.settled {engine : Engine} (h : Reachable engine) {side : Side} {o : BbOrder}
    (hacc : o.Accepted) (hside : Side.fromOrderType o.orderType = some side)
    (hrev : isRevoke o = false)
    (hfresh : (engine.books o.symbolKey).containsOrderNo o.trustOrderNo = false) :
    ∃ own ms engine', engine.books o.symbolKey = ofSides side own ms ∧ Sides side own ms ∧
      Incoming side o own ms ∧ engine.onOrder o = some (engine', (settle side o own ms).2) ∧
      engine'.books o.symbolKey = (settle side o own ms).1 ∧
      ∀ symbol, symbol ≠ o.symbolKey → engine'.books symbol = engine.books symbol := by
  have hinv := h.inv o.symbolKey
  have hl := Live.of_accepted hacc
  refine ⟨_, _, _, (ofSides_entries _ side).symm, hinv.sides side, ⟨⟨hside, ?_⟩, hl⟩,
    onOrder_eq (onBook_eq_settle hinv hl hside hrev hfresh), ?_, ?_⟩
  · rwa [← containsOrderNo_ofSides side, ofSides_entries]
  · exact Function.update_self ..
  · exact fun symbol hs => Function.update_of_ne hs ..

/-! ## Consistency -/

omit [DecimalRounding] in
/-- A consistent book. -/
structure Consistent (book : OrderBook) : Prop where
  /-- No order number rests twice. -/
  distinct : ((book.buys ++ book.sells).map (·.trustOrderNo)).Nodup
  /-- Buys are strictly sorted. -/
  buysSorted : book.buys.Pairwise fun a b => compareBuy a b = .lt
  /-- Sells are strictly sorted. -/
  sellsSorted : book.sells.Pairwise fun a b => compareSell a b = .lt
  /-- Quantities are positive and add up. -/
  quantities : ∀ o ∈ book.buys ++ book.sells, 0 < o.remainingNumber ∧
    o.remainingNumber = o.trustNumber - o.consumerAllNumber ∧ o.remainingNumber ≤ o.trustNumber
  /-- The best buy is below the best sell. -/
  uncrossed : ∀ buy ∈ book.first .buy, ∀ sell ∈ book.first .sell, buy.trustPrice < sell.trustPrice

omit [DecimalRounding] in
theorem SideSorted.compare {side : Side} {l : List BbOrder} (h : SideSorted side l) :
    l.Pairwise fun a b => compareSide side a b = .lt := by
  have hn := List.pairwise_map.mp h.nodup
  exact h.sorted.imp₂ (fun a b hab hne => (compareSide_eq_lt hne).mpr hab) hn

omit [DecimalRounding] in
theorem BookInv.consistent {book : OrderBook} (h : BookInv book) : Consistent book where
  distinct := by
    rw [List.map_append, List.nodup_append]
    refine ⟨h.sorted.nodup, h.oppSorted.nodup, ?_⟩
    intro x hx y hy
    obtain ⟨a, ha, rfl⟩ := List.mem_map.mp hx
    obtain ⟨b, hb, rfl⟩ := List.mem_map.mp hy
    exact h.distinct a ha b hb
  buysSorted := h.sorted.compare
  sellsSorted := h.oppSorted.compare
  quantities o ho := by
    have hl : Live o := (List.mem_append.mp ho).elim (h.live o) (h.oppLive o)
    rw [hl.field]
    exact ⟨hl.pos, rfl, hl.le⟩
  uncrossed buy hb sell hs := by
    have hap := h.apart buy (List.mem_of_mem_head? hb) sell (List.mem_of_mem_head? hs)
    exact not_le.mp (of_decide_eq_false hap)

/-- After any sequence of orders every book is consistent. -/
theorem run_consistent (os : List BbOrder) (hacc : ∀ o ∈ os, o.Accepted) :
    ∃ engine, Engine.run {} os = some engine ∧ ∀ symbol, Consistent (engine.books symbol) := by
  obtain ⟨engine, hrun, hinv⟩ := engineInv_run os engineInv_new hacc
  exact ⟨engine, hrun, fun symbol => (hinv symbol).consistent⟩

end Calls

/-- Two sells and a buy that takes the first and a part of the second. -/
theorem run_consistent_three :
    ∃ engine, @Engine.run .schoolbook {} [testLimit .sell 100 "1" 1 5, testLimit .sell 101 "2" 2 5,
        testLimit .buy 101 "3" 3 7] = some engine ∧
      ∀ symbol, Consistent (engine.books symbol) :=
  @run_consistent .schoolbook _ (by decide +kernel)

end MatchCore
