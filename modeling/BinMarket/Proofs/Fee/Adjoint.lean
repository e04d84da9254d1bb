import BinMarket.Proofs.Fee
import Mathlib.Order.Bounds.Basic

/-!
The fee on top of a net amount and the fee inside a gross amount undo each other. A gross amount
leaves a net amount exactly if it covers it together with the fee on top, whatever the remainders of
the two divisions are, so the net amount and the fee on top make the least gross amount that will do.
-/

namespace BinMarket.DynamicFee

-- What is left of a gross amount asks for no more on top than was taken out of it ...
theorem onTop_sub_inside_le (f : DynamicFee) (gross : Int) :
    f.onTop (gross - f.inside gross) ≤ f.inside gross := by
  have h := le_sub_inside_iff.mp (le_refl (gross - f.inside gross))
  omega

-- ... and for one unit less at most, as no rate exceeds a half.
theorem inside_sub_one_le (f : DynamicFee) (gross : Int) :
    f.inside gross - 1 ≤ f.onTop (gross - f.inside gross) := by
  have hr := f.two_mul_rate_le
  have hin := (le_ceil_iff ratePrecision_pos).mp (le_refl (f.inside gross))
  apply (le_ceil_iff f.rest_pos).mpr
  linarith

-- How a fee on top and a fee inside go together.
-- 1. A gross amount leaves a net amount exactly if it covers it and the fee on top of it
-- 2. So these two make the least gross amount that leaves the net amount
-- 3. What the fee on top is divided by is positive
-- 4. At a rate that is not negative, the fee inside of that least gross amount is the fee on top
-- 5. The fee on top of what a gross amount leaves is the fee inside of it, or one unit less
theorem onTop_adjoint_inside (f : DynamicFee) (net gross : Int) :
    (net ≤ gross - f.inside gross ↔ net + f.onTop net ≤ gross) ∧
    IsLeast {g | net ≤ g - f.inside g} (net + f.onTop net) ∧
    0 < ratePrecision - f.rate ∧
    (0 ≤ f.rate → f.inside (net + f.onTop net) = f.onTop net) ∧
    f.inside gross - 1 ≤ f.onTop (gross - f.inside gross) ∧
    f.onTop (gross - f.inside gross) ≤ f.inside gross :=
  ⟨le_sub_inside_iff, ⟨le_sub_inside_iff.mpr le_rfl, fun _ h => le_sub_inside_iff.mp h⟩, f.rest_pos,
    fun hr => inside_add_onTop hr net, f.inside_sub_one_le gross, f.onTop_sub_inside_le gross⟩

-- At a negative rate the fee inside can fall short of the fee on top.
example : ∃ f : DynamicFee, f.rate < 0 ∧ f.inside (1 + f.onTop 1) < f.onTop 1 :=
  ⟨⟨10, { baseFactor := -10000000 }, {}⟩, by decide⟩

-- A fee at the highest rate, which is a tenth.
def capped : DynamicFee := ⟨10, { baseFactor := 1000000 }, {}⟩

-- Twelve units are needed to leave ten. Eleven leave nine, which ask for one unit less on top than
-- was taken out of eleven.
theorem onTop_adjoint_inside_capped :
    0 ≤ capped.rate ∧ capped.inside (10 + capped.onTop 10) = capped.onTop 10 ∧
    capped.onTop 10 = 2 ∧ ¬10 ≤ 11 - capped.inside 11 ∧
    capped.inside 11 - 1 = capped.onTop (11 - capped.inside 11) := by
  have hr : 0 ≤ capped.rate := by decide
  have htop : capped.onTop 10 = 2 := by decide
  have ⟨hnet, _, _, hexact, _, _⟩ := onTop_adjoint_inside capped 10 11
  refine ⟨hr, hexact hr, htop, ?_, by decide⟩
  rw [hnet, htop]
  decide

end BinMarket.DynamicFee
