import Mathlib

/-!
# Orders, events and commands of the fixed-point engine

The fixed-point engine counts prices in ticks and quantities in lots.  Both are
signed 64-bit integers in the source and integers here.  The only sums that
can leave the 64-bit range are the totals of the price levels, and those wrap
in the model too (`MatchRust.Hp.LevelIndex`).  Identifiers are natural numbers.
-/

namespace MatchCoreHp

/-- Fixed-point scales of a symbol: digits after the point. -/
structure SymbolScale where
  priceScale : Nat
  qtyScale : Nat
deriving DecidableEq

/-- Bid or ask side. -/
inductive Side where
  | buy
  | sell
deriving DecidableEq

namespace Side

/-- The other side. -/
def opp : Side → Side
  | buy => sell
  | sell => buy

@[simp] theorem opp_opp (side : Side) : side.opp.opp = side := by
  cases side with
  | buy => rfl
  | sell => rfl

theorem opp_ne (side : Side) : side.opp ≠ side := by
  cases side with
  | buy => nofun
  | sell => nofun

theorem eq_or_opp (side s : Side) : s = side ∨ s = side.opp := by
  cases side with
  | buy => cases s with
    | buy => exact Or.inl rfl
    | sell => exact Or.inr rfl
  | sell => cases s with
    | buy => exact Or.inr rfl
    | sell => exact Or.inl rfl

/-- The tick `a` rests in front of the tick `b` on this side. -/
def better : Side → Int → Int → Prop
  | buy, a, b => b < a
  | sell, a, b => a < b

instance (side : Side) (a b : Int) : Decidable (side.better a b) := by
  cases side with
  | buy => exact inferInstanceAs (Decidable (b < a))
  | sell => exact inferInstanceAs (Decidable (a < b))

theorem better_irrefl (side : Side) (a : Int) : ¬ side.better a a := by
  cases side with
  | buy => exact Int.lt_irrefl a
  | sell => exact Int.lt_irrefl a

theorem better_asymm {side : Side} {a b : Int} (h : side.better a b) : ¬ side.better b a := by
  cases side with
  | buy => exact Int.lt_asymm h
  | sell => exact Int.lt_asymm h

theorem better_trans {side : Side} {a b c : Int} (hab : side.better a b) (hbc : side.better b c) :
    side.better a c := by
  cases side with
  | buy => exact Int.lt_trans hbc hab
  | sell => exact Int.lt_trans hab hbc

instance (side : Side) : Std.Irrefl side.better := ⟨side.better_irrefl⟩

instance (side : Side) : Std.Antisymm side.better :=
  ⟨fun _ _ hab hba => absurd hba (better_asymm hab)⟩

/-- Ticks neither of which is better are equal. -/
theorem eq_of_not_better {side : Side} {a b : Int} (hab : ¬ side.better a b)
    (hba : ¬ side.better b a) : a = b := by
  cases side with
  | buy => exact Int.le_antisymm (Int.not_lt.mp hab) (Int.not_lt.mp hba)
  | sell => exact Int.le_antisymm (Int.not_lt.mp hba) (Int.not_lt.mp hab)

/-- Of two different ticks one is better. -/
theorem better_of_ne {side : Side} {a b : Int} (hab : ¬ side.better a b) (hne : a ≠ b) :
    side.better b a := by
  by_contra hba
  exact hne (eq_of_not_better hab hba)

end Side

/-- Resting or working order. -/
structure HpOrder where
  id : Nat
  side : Side
  priceTick : Int
  qtyLot : Int
  openLot : Int
  ts : Nat
  clientId : Nat
deriving DecidableEq

/-- Engine output. -/
inductive HpEvent where
  | fill (makerId takerId makerClientId takerClientId : Nat)
      (priceTick qtyLot makerOpenLot takerOpenLot : Int)
  | rest (id clientId : Nat) (side : Side) (priceTick qtyLot : Int)
  /-- Reason 0 is a user's cancel, reason 1 the rest of a market order. -/
  | revoke (id clientId : Nat) (reason : Nat)
deriving DecidableEq

/-- The event is a fill. -/
def HpEvent.isFill : HpEvent → Bool
  | .fill .. => true
  | _ => false

/-- Inbound commands. -/
inductive HpCommand where
  | limit (side : Side) (priceTick qtyLot : Int) (ts clientId : Nat)
  | cancel (id : Nat)
  | market (side : Side) (qtyLot : Int) (ts : Nat) (maxFills : Option Nat) (clientId : Nat)
deriving DecidableEq

end MatchCoreHp
