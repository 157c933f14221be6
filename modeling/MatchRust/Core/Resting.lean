import MatchRust.Core.Outcomes

/-!
# What rests after a call

Every call sweeps the makers once, and possibly places what is left of its order.  `Sweeps`
lists the sweeps, by the form of the order, and `settle_sweeps` says what the call makes of
one.  What rests after a call rested before, or is what a fill left of it, or it is the
rest of the order.

So a resting order is always in the book of its own symbol (`Reachable.symbols`).
-/

namespace MatchCore

open MatchProtocol PriceTime OrderBook

section Resting

variable [DecimalRounding]

/-- The sweeps that a call may make: the makers, those that are taken, and the number of
fills that are allowed. -/
inductive Sweeps (side : Side) (o : BbOrder) (own : List BbOrder) :
    MakerOps BbOrder BigDecimal → (BbOrder → Bool) → Option Nat → Prop where
  /-- Nothing is taken. -/
  | idle : Sweeps side o own (makersOf side) (crossing side o) (some 0)
  /-- A limit or IOC order takes what it crosses. -/
  | limit : o.orderForm ≠ orderFormPostOnly → o.orderForm ≠ orderFormFok →
      o.orderForm ≠ orderFormMarketPrice →
      Sweeps side o own (makersOf side) (crossing side o) none
  /-- So does a FOK order, and it keeps up the averages of all makers. -/
  | fok : o.orderForm = orderFormFok → Sweeps side o own averagedMakers (crossing side o) none
  /-- A market order that comes first takes as its gear allows. -/
  | market : o.orderForm = orderFormMarketPrice →
      (∀ a ∈ own.head?, rank side (marketPriced side o) < rank side a) →
      Sweeps side o own (makersOf side) (marketable side) (some (gearOf o).toNat)

/-- What a call makes of its sweep: the fills are reported, and the rest of the order is
placed or not. -/
structure MadeOf (side : Side) (o : BbOrder) (own : List BbOrder) (r : Sweep BbOrder BigDecimal)
    (out : OrderBook × List MatchEvent) : Prop where
  /-- The fills are reported. -/
  reports : Reports o r.fills out.2
  /-- The makers are those of the sweep. -/
  book : out.1 = ofSides side own r.book ∨
    ∃ t, (t = o ∨ t = marketPriced side o) ∧
      out.1 = ofSides side (place side (takeFills t r.fills) own) r.book

variable {side : Side} {o : BbOrder} {own ms : List BbOrder}

theorem Sweeps.bookMakers {S : MakerOps BbOrder BigDecimal} {crosses : BbOrder → Bool}
    {cap : Option Nat} (h : Sweeps side o own S crosses cap) : BookMakers S := by
  cases h with
  | idle => exact bookMakers_makersOf side
  | limit => exact bookMakers_makersOf side
  | fok => exact bookMakers_averaged
  | market => exact bookMakers_makersOf side

/-- A call that takes nothing. -/
theorem madeOf_idle {out : OrderBook × List MatchEvent} (hr : Reports o [] out.2)
    (hbook : out.1 = ofSides side own ms ∨
      ∃ t, (t = o ∨ t = marketPriced side o) ∧ out.1 = ofSides side (place side t own) ms) :
    MadeOf side o own (sweep (makersOf side) (crossing side o) (some 0) (remaining o) ms) out := by
  rw [sweep_capped]
  exact ⟨hr, hbook⟩

/-- What a market order makes of its sweep. -/
theorem settleMarket_sweeps (hform : o.orderForm = orderFormMarketPrice) :
    ∃ S crosses cap, Sweeps side o own S crosses cap ∧
      MadeOf side o own (sweep S crosses cap (remaining o) ms)
        (settleMarket side (marketPriced side o) own ms) := by
  have hgear : gearOf (marketPriced side o) = gearOf o := by cases side <;> rfl
  have hrem : remaining (marketPriced side o) = remaining o := by cases side <;> rfl
  have hreports : ∀ {fills evs}, Reports (marketPriced side o) fills evs → Reports o fills evs := by
    cases side <;> exact fun h => h
  have hswept : (∀ a ∈ own.head?, rank side (marketPriced side o) < rank side a) →
      ∃ S crosses cap, Sweeps side o own S crosses cap ∧
        MadeOf side o own (sweep S crosses cap (remaining o) ms)
          (sweptMarket side (marketPriced side o) own ms) := by
    intro hfirst
    refine ⟨_, _, _, .market hform hfirst, ?_⟩
    rw [sweptMarket, marketSweep, hgear, hrem]
    exact ⟨hreports (reports_taken _ _ _), Or.inl rfl⟩
  cases own with
  | nil => exact hswept (by simp)
  | cons a own =>
      rw [settleMarket]
      split_ifs with hlt hms hfront
      · exact hswept (by simpa using hlt)
      · exact ⟨_, _, _, .idle, madeOf_idle (hreports (reports_revoked _ _ _)) (Or.inl rfl)⟩
      · exact ⟨_, _, _, .idle, madeOf_idle (hreports (reports_revoked _ _ _)) (Or.inl rfl)⟩
      · exact ⟨_, _, _, .idle, madeOf_idle (reports_nil _) (Or.inr ⟨_, Or.inr rfl, rfl⟩)⟩

/-- What a call makes of its sweep. -/
theorem settle_sweeps (side : Side) (o : BbOrder) (own ms : List BbOrder) :
    ∃ S crosses cap, Sweeps side o own S crosses cap ∧
      MadeOf side o own (sweep S crosses cap (remaining o) ms) (settle side o own ms) := by
  rw [settle]
  split_ifs with hpo hcr hioc hfok hm
  · exact ⟨_, _, _, .idle, madeOf_idle (reports_revoked _ _ _) (Or.inl rfl)⟩
  · exact ⟨_, _, _, .idle, madeOf_idle (reports_nil _) (Or.inr ⟨o, Or.inl rfl, rfl⟩)⟩
  · refine ⟨_, _, _, .limit hpo ?_ ?_, reports_taken _ _ _, Or.inl rfl⟩
    · rw [hioc]
      decide
    · rw [hioc]
      decide
  · rw [fokResult]
    split_ifs with h0
    · obtain ⟨status, hevs⟩ := fokEvents_eq o (fokSweep side o o ms).fills
      refine ⟨_, _, _, .fok hfok, ⟨status, ?_⟩, Or.inl rfl⟩
      simp only [hevs]
      exact fillsOf_map ..
    · exact ⟨_, _, _, .idle, madeOf_idle (reports_revoked _ _ _) (Or.inl rfl)⟩
  · exact settleMarket_sweeps hm
  · refine ⟨_, _, _, .limit hpo hfok hm, ⟨fun f => statusOf f.takerLeft, fillsOf_fillOf ..⟩, ?_⟩
    simp only [rested]
    split
    · exact Or.inl rfl
    · exact Or.inr ⟨o, Or.inl rfl, rfl⟩

/-! ## Calls -/

omit [DecimalRounding] in
/-- A revoke only takes orders out. -/
theorem entries_revokeOrder {book : OrderBook} (hinv : BookInv book) (o : BbOrder) (s : Side) :
    ((revokeOrder book o).2.entries s).Sublist (book.entries s) := by
  cases hside : Side.fromOrderType o.orderType with
  | none => simp only [revokeOrder, revokeOrderWithReason, hside, List.Sublist.refl]
  | some side =>
      rcases removeByOrderNo_cases hinv side o.trustOrderNo with
        ⟨l₁, x, l₂, he, -, hrem⟩ | ⟨-, hrem⟩
      · simp only [revokeOrder, revokeOrderWithReason, hside, hrem]
        rcases Side.eq_or_eq_opp side s with rfl | rfl
        · rw [entries_setEntries, he]
          exact (List.sublist_cons_self x l₂).append_left l₁
        · rw [entries_setEntries_opp]
      · simp only [revokeOrder, revokeOrderWithReason, hside, hrem, List.Sublist.refl]

/-- What a call can do: it takes orders out of the book and fills nothing, or a fresh order
of a side is settled. -/
theorem onBook_cases {book book' : OrderBook} {evs : List MatchEvent} (hinv : BookInv book)
    (hl : Live o) (h : Engine.onBook book o = some (book', evs)) :
    (fillsOf evs = [] ∧ ∀ s, (book'.entries s).Sublist (book.entries s)) ∨
      ∃ side, isRevoke o = false ∧ book.containsOrderNo o.trustOrderNo = false ∧
        Incoming side o (book.entries side) (book.entries side.opp) ∧
        book' = (settle side o (book.entries side) (book.entries side.opp)).1 ∧
        evs = (settle side o (book.entries side) (book.entries side.opp)).2 := by
  obtain ⟨out, hon, hout⟩ := onBook_handled hinv hl
  rw [h] at hon
  cases hon
  generalize hpair : (book', evs) = out at hout
  cases hout with
  | revoked =>
      cases hpair
      exact Or.inl ⟨fillsOf_revokeOrder book o, entries_revokeOrder hinv o⟩
  | ignored =>
      cases hpair
      exact Or.inl ⟨rfl, fun s => List.Sublist.refl _⟩
  | @settled side hrev hc hi =>
      exact Or.inr ⟨side, hrev, hc, hi, congrArg Prod.fst hpair, congrArg Prod.snd hpair⟩

/-- What holds of the empty engine and is kept by calls holds of every engine that accepted
orders lead to. -/
theorem Reachable.induct {P : Engine → Prop} (hnew : P {})
    (hstep : ∀ {engine next o evs}, EngineInv engine → P engine → o.Accepted →
      engine.onOrder o = some (next, evs) → P next) {engine : Engine} (h : Reachable engine) :
    P engine := by
  obtain ⟨os, hacc, hrun⟩ := h
  have hall : ∀ (os : List BbOrder) {engine engine' : Engine}, EngineInv engine → P engine →
      (∀ o ∈ os, o.Accepted) → engine.run os = some engine' → P engine' := by
    intro os
    induction os with
    | nil =>
        intro engine engine' _ hP _ hrun
        cases hrun
        exact hP
    | cons o os ih =>
        intro engine engine' hinv hP hacc hrun
        have ho := hacc o (List.mem_cons_self ..)
        obtain ⟨next, evs, hon, hinv'⟩ := engineInv_onOrder hinv (Live.of_accepted ho)
        rw [Engine.run, hon] at hrun
        exact ih hinv' (hstep hinv hP ho hon) (fun x hx => hacc x (List.mem_cons_of_mem _ hx)) hrun
  exact hall os engineInv_new hnew hacc hrun

/-! ## Symbols -/

/-- What is in the book after a sweep was there, but for what fills change. -/
theorem Sweeps.exists_terms {S : MakerOps BbOrder BigDecimal} {crosses : BbOrder → Bool}
    {cap : Option Nat} (h : Sweeps side o own S crosses cap) (q : BigDecimal) :
    ∀ x ∈ (sweep S crosses cap q ms).book, ∃ m ∈ ms, terms m = terms x := by
  intro x hx
  have hsub := (book_keys S crosses terms h.bookMakers.terms cap q ms).subset
  obtain ⟨m, hm, ht⟩ := List.mem_map.mp (hsub (List.mem_map_of_mem hx))
  exact ⟨m, hm, ht⟩

/-- The orders of a book have the symbol. -/
def OfSymbol (symbol : String) (book : OrderBook) : Prop :=
  ∀ s, ∀ x ∈ book.entries s, x.symbolKey = symbol

theorem ofSymbol_settle {book : OrderBook} (h : OfSymbol o.symbolKey book) :
    OfSymbol o.symbolKey (settle side o (book.entries side) (book.entries side.opp)).1 := by
  obtain ⟨S, crosses, cap, hsw, -, hbook⟩ :=
    settle_sweeps side o (book.entries side) (book.entries side.opp)
  have hmakers : ∀ x ∈ (sweep S crosses cap (remaining o) (book.entries side.opp)).book,
      x.symbolKey = o.symbolKey := by
    intro x hx
    obtain ⟨m, hm, ht⟩ := hsw.exists_terms (remaining o) x hx
    rw [← h side.opp m hm]
    exact (congrArg BbOrder.symbolKey ht).symm
  intro s x hx
  rcases hbook with hbook | ⟨t, ht, hbook⟩
  · rw [hbook] at hx
    rcases Side.eq_or_eq_opp side s with rfl | rfl
    · exact h s x (by simpa using hx)
    · exact hmakers x (by simpa using hx)
  · rw [hbook] at hx
    rcases Side.eq_or_eq_opp side s with rfl | rfl
    · rw [entries_ofSides, mem_place] at hx
      rcases hx with rfl | hx
      · have hterms := terms_takeFills t
          (sweep S crosses cap (remaining o) (book.entries s.opp)).fills
        have hsym : t.symbolKey = o.symbolKey := by
          rcases ht with rfl | rfl
          · rfl
          · cases s <;> rfl
        rw [← hsym]
        exact (congrArg BbOrder.symbolKey hterms :)
      · exact h s x hx
    · exact hmakers x (by simpa using hx)

/-- Orders rest in the book of their symbol. -/
theorem Reachable.symbols {engine : Engine} (h : Reachable engine) :
    ∀ symbol, OfSymbol symbol (engine.books symbol) := by
  refine h.induct (P := fun engine => ∀ symbol, OfSymbol symbol (engine.books symbol)) ?_ ?_
  · intro symbol s x hx
    cases s <;> exact absurd hx List.not_mem_nil
  · intro engine next o evs hinv ih ho hon symbol
    obtain ⟨hbook, hframe⟩ := onOrder_some hon
    by_cases hs : symbol = o.symbolKey
    · subst hs
      rcases onBook_cases (hinv _) (Live.of_accepted ho) hbook with
        ⟨-, hsub⟩ | ⟨side, -, -, -, hset, -⟩
      · exact fun s x hx => ih _ s x ((hsub s).subset hx)
      · rw [hset]
        exact ofSymbol_settle (ih _)
    · rw [hframe symbol hs]
      exact ih symbol

end Resting

end MatchCore
