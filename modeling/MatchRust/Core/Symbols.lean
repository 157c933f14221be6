import MatchRust.Core.Simulation

/-!
# Symbols do not interfere

An order reads and writes the book of its own symbol only.  So what an engine does with the orders
of one symbol, among those of others, is what an engine does that gets no other orders: the book of
the symbol is the same, and so are the events, call by call (`trace_symbol`).
-/

namespace MatchCore

open MatchProtocol

variable [DecimalRounding] {engine engine' last : Engine} {o : BbOrder} {os : List BbOrder}

/-! ## Calls in a row -/

/-- Accepted orders have their events, and keep the invariant. -/
theorem trace_accepted (hinv : EngineInv engine) (hacc : ∀ o ∈ os, o.Accepted) :
    ∃ last evs, engine.trace os = some (last, evs) ∧ EngineInv last ∧ evs.length = os.length := by
  induction os generalizing engine with
  | nil => exact ⟨engine, [], rfl, hinv, rfl⟩
  | cons o os ih =>
      obtain ⟨next, evs, hon, hnext⟩ :=
        engineInv_onOrder hinv (Live.of_accepted (hacc o (List.mem_cons_self ..)))
      obtain ⟨last, rest, htr, hlast, hlen⟩ :=
        ih hnext fun x hx => hacc x (List.mem_cons_of_mem _ hx)
      exact ⟨last, evs :: rest, Engine.trace_cons hon htr, hlast, congrArg (· + 1) hlen⟩

/-- The first call of a row, and the others. -/
theorem Engine.trace_cons_eq {evs : List (List MatchEvent)}
    (h : engine.trace (o :: os) = some (last, evs)) :
    ∃ next first rest, engine.onOrder o = some (next, first) ∧ next.trace os = some (last, rest) ∧
      evs = first :: rest := by
  rw [Engine.trace] at h
  split at h
  next => cases h
  next next first hon =>
    split at h
    next => cases h
    next last' rest htr =>
      cases h
      exact ⟨next, first, rest, hon, htr, rfl⟩

/-- The calls of a row up to some point, and those behind it. -/
theorem Engine.trace_append_eq {os' : List BbOrder} {evs : List (List MatchEvent)}
    (h : engine.trace (os ++ os') = some (last, evs)) :
    ∃ mid evs₁ evs₂, engine.trace os = some (mid, evs₁) ∧ mid.trace os' = some (last, evs₂) ∧
      evs = evs₁ ++ evs₂ := by
  induction os generalizing engine evs with
  | nil => exact ⟨engine, [], evs, rfl, h, rfl⟩
  | cons o os ih =>
      obtain ⟨next, first, rest, hon, htr, rfl⟩ := Engine.trace_cons_eq h
      obtain ⟨mid, evs₁, evs₂, h₁, h₂, rfl⟩ := ih htr
      exact ⟨mid, first :: evs₁, evs₂, Engine.trace_cons hon h₁, h₂, rfl⟩

/-! ## One symbol -/

/-- The events of the orders of a symbol, call by call. -/
def symbolEvents (symbol : String) (os : List BbOrder) (evs : List (List MatchEvent)) :
    List (List MatchEvent) :=
  ((os.zip evs).filter fun c => c.1.symbolKey = symbol).map Prod.snd

/-- A call does the same on engines with the same book of its symbol. -/
theorem onOrder_same_book {evs : List MatchEvent} {next : Engine}
    (hbook : engine'.books o.symbolKey = engine.books o.symbolKey)
    (h : engine.onOrder o = some (next, evs)) :
    ∃ next', engine'.onOrder o = some (next', evs) ∧
      next'.books o.symbolKey = next.books o.symbolKey := by
  have hon := (onOrder_some h).1
  rw [← hbook] at hon
  exact ⟨_, onOrder_eq hon, Function.update_self ..⟩

/-- An engine that gets the orders of one symbol only has the same book of it, and answers them
in the same way. -/
theorem trace_symbol {symbol : String} {evs : List (List MatchEvent)}
    (hbook : engine'.books symbol = engine.books symbol) (h : engine.trace os = some (last, evs)) :
    ∃ last', engine'.trace (os.filter fun o => o.symbolKey = symbol) =
        some (last', symbolEvents symbol os evs) ∧ last'.books symbol = last.books symbol := by
  induction os generalizing engine engine' evs with
  | nil =>
      cases h
      exact ⟨engine', rfl, hbook⟩
  | cons o os ih =>
      obtain ⟨next, first, rest, hon, htr, rfl⟩ := Engine.trace_cons_eq h
      by_cases hs : o.symbolKey = symbol
      · subst hs
        obtain ⟨next', hon', hnext⟩ := onOrder_same_book hbook hon
        obtain ⟨last', htr', hlast⟩ := ih hnext htr
        refine ⟨last', ?_, hlast⟩
        rw [List.filter_cons_of_pos (by simp)]
        have hev : symbolEvents o.symbolKey (o :: os) (first :: rest) =
            first :: symbolEvents o.symbolKey os rest := by
          simp [symbolEvents]
        rw [hev]
        exact Engine.trace_cons hon' htr'
      · have hnext : engine'.books symbol = next.books symbol := by
          rw [hbook, (onOrder_some hon).2 symbol (Ne.symm hs)]
        obtain ⟨last', htr', hlast⟩ := ih hnext htr
        refine ⟨last', ?_, hlast⟩
        rw [List.filter_cons_of_neg (by simpa using hs), htr']
        have hev : symbolEvents symbol (o :: os) (first :: rest) =
            symbolEvents symbol os rest := by
          simp [symbolEvents, hs]
        rw [hev]

end MatchCore
