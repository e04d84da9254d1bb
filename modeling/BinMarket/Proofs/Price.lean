import BinMarket.Deposit.Plan
import BinMarket.Proofs.Decimal.Finite
import BinMarket.Proofs.Outcome

/-!
Prices that are in the range of decimals. The operations that make them end with a finite number or
with a fault, so nothing else is needed to round a price down to an integer.
-/

namespace BinMarket

variable {bin step : Int} {price : Decimal}

theorem eq_ok_of_liftM {α : Type} {x : Except Decimal.Failure α} {a : α}
    (h : (liftM x : Except Fault α) = .ok a) : x = .ok a := by
  cases x <;> cases h
  rfl

theorem Price.isFinite_of_ofBin (h : Price.ofBin step bin = .ok price) : price.IsFinite := by
  have ⟨_, _, h⟩ := bind_eq_ok_iff.mp h
  have ⟨_, _, h⟩ := bind_eq_ok_iff.mp h
  exact Decimal.isFinite_of_power (eq_ok_of_liftM h)

-- A bin whose price is in the range of decimals, also at the scale at which it enters a plan.
def Priced (step bin : Int) : Prop :=
  ∃ price scaled, Price.ofBin step bin = .ok price ∧
    Decimal.mul Price.digits price (.ofInt Shape.valueScale) = .ok scaled

theorem priced_iff : Priced step bin ↔ ∃ n, Shape.flooredPrice bin step = .ok n := by
  constructor
  case mp =>
    intro ⟨price, scaled, hp, hs⟩
    have ⟨n, hn⟩ := ((Price.isFinite_of_ofBin hp).of_mul .intro hs).exists_truncate
    exact ⟨n, bind_eq_ok_iff.mpr ⟨price, hp,
      bind_eq_ok_iff.mpr ⟨scaled, by rw [hs]; rfl, by rw [hn]; rfl⟩⟩⟩
  case mpr =>
    intro ⟨n, h⟩
    have ⟨price, hp, h⟩ := bind_eq_ok_iff.mp h
    have ⟨scaled, hs, _⟩ := bind_eq_ok_iff.mp h
    exact ⟨price, scaled, hp, eq_ok_of_liftM hs⟩

instance : Decidable (Priced step bin) :=
  decidable_of_iff ((Shape.flooredPrice bin step).toOption.isSome) <| by
    rw [priced_iff]
    cases Shape.flooredPrice bin step <;> simp [Except.toOption]

end BinMarket
