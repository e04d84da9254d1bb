import BinMarket.Fee.Dynamic
import BinMarket.Proofs.Rounding
import Mathlib.Tactic.Linarith
import Mathlib.Tactic.Positivity

/-!
Bounds on what a swap is charged. A fee on top and a fee inside are both rounded up, and the
protocol's cut is rounded down.
-/

namespace BinMarket.DynamicFee

variable {f : DynamicFee} {a b c bin net gross : Int}

@[simp] theorem track_track (f : DynamicFee) (a b : Int) : (f.track a).track b = f.track b := rfl

@[simp] theorem track_binStep (f : DynamicFee) (bin : Int) :
    (f.track bin).binStep = f.binStep := rfl

@[simp] theorem track_parameters (f : DynamicFee) (bin : Int) :
    (f.track bin).parameters = f.parameters := rfl

@[simp] theorem protocolCut_track (f : DynamicFee) (bin a : Int) :
    (f.track bin).protocolCut a = f.protocolCut a := rfl

@[simp] theorem refresh_binStep (f : DynamicFee) (active now : Int) :
    (f.refresh active now).binStep = f.binStep := by
  simp only [refresh]
  split <;> rfl

@[simp] theorem refresh_parameters (f : DynamicFee) (active now : Int) :
    (f.refresh active now).parameters = f.parameters := by
  simp only [refresh]
  split <;> rfl

theorem basisPoints_pos : 0 < basisPoints := by decide

theorem ratePrecision_pos : 0 < ratePrecision := by decide

theorem variableRate_nonneg (f : DynamicFee) : 0 ≤ f.variableRate := by
  unfold variableRate
  split
  case isTrue    => exact le_rfl
  case isFalse h =>
    have hv : 0 ≤ f.parameters.variableControl := by omega
    exact ceil_nonneg (by decide) (mul_nonneg hv (mul_self_nonneg _))

-- Fee parameters that no part of a rate can make negative.
structure Charges (f : DynamicFee) : Prop where
  step : 0 ≤ f.binStep
  base : 0 ≤ f.parameters.baseFactor

theorem Charges.baseRate_nonneg (h : f.Charges) : 0 ≤ f.baseRate :=
  mul_nonneg (mul_nonneg h.base h.step) (by decide)

theorem Charges.rate_nonneg (h : f.Charges) : 0 ≤ f.rate :=
  le_min (add_nonneg h.baseRate_nonneg f.variableRate_nonneg) (by decide)

theorem Charges.track (h : f.Charges) (bin : Int) : (f.track bin).Charges := ⟨h.step, h.base⟩

theorem onTop_le_iff : f.onTop a ≤ b ↔ a * f.rate ≤ b * (ratePrecision - f.rate) :=
  ceil_le_iff f.rest_pos

theorem inside_le_iff : f.inside a ≤ b ↔ a * f.rate ≤ b * ratePrecision :=
  ceil_le_iff ratePrecision_pos

-- A gross amount leaves a net amount exactly if it covers it and the fee on top of it. The divisors
-- of the two fees differ, but either way the net amount as a whole is weighed against what the rate
-- leaves of the gross amount.
theorem le_sub_inside_iff : net ≤ gross - f.inside gross ↔ net + f.onTop net ≤ gross := by
  rw [le_sub_comm, inside_le_iff, ←le_sub_iff_add_le', onTop_le_iff]
  constructor <;> intro h <;> linarith

theorem Charges.onTop_nonneg (h : f.Charges) (ha : 0 ≤ a) : 0 ≤ f.onTop a :=
  ceil_nonneg f.rest_pos (mul_nonneg ha h.rate_nonneg)

theorem Charges.inside_nonneg (h : f.Charges) (ha : 0 ≤ a) : 0 ≤ f.inside a :=
  ceil_nonneg ratePrecision_pos (mul_nonneg ha h.rate_nonneg)

theorem rate_le_ratePrecision (f : DynamicFee) : f.rate ≤ ratePrecision :=
  Int.le_of_lt (Int.sub_pos.mp f.rest_pos)

-- No rate exceeds a half.
theorem two_mul_rate_le (f : DynamicFee) : 2 * f.rate ≤ ratePrecision := by
  have := f.rate_le
  simp only [maxRate, ratePrecision] at *
  omega

theorem inside_le (ha : 0 ≤ a) : f.inside a ≤ a :=
  inside_le_iff.mpr (mul_le_mul_of_nonneg_left f.rate_le_ratePrecision ha)

theorem onTop_le (ha : 0 ≤ a) : f.onTop a ≤ a := by
  have hr := f.two_mul_rate_le
  exact onTop_le_iff.mpr (mul_le_mul_of_nonneg_left (by omega) ha)

-- A fee inside grows with the amount, but not by more than the amount does.
theorem Charges.inside_mono (h : f.Charges) (hle : a ≤ b) : f.inside a ≤ f.inside b := by
  refine inside_le_iff.mpr ?_
  calc a * f.rate
    _ ≤ b * f.rate               := mul_le_mul_of_nonneg_right hle h.rate_nonneg
    _ ≤ f.inside b * ratePrecision := inside_le_iff.mp le_rfl

-- At a higher rate no fee is lower.
theorem inside_le_of_rate_le {g : DynamicFee} (hr : f.rate ≤ g.rate) (ha : 0 ≤ a) :
    f.inside a ≤ g.inside a :=
  inside_le_iff.mpr ((mul_le_mul_of_nonneg_left hr ha).trans (inside_le_iff.mp le_rfl))

theorem Charges.onTop_le_of_rate_le {g : DynamicFee} (h : g.Charges) (hr : f.rate ≤ g.rate)
    (ha : 0 ≤ a) : f.onTop a ≤ g.onTop a := by
  have hin := inside_le_of_rate_le hr (add_nonneg ha (h.onTop_nonneg ha))
  have hnet := le_sub_inside_iff.mpr (le_refl (a + g.onTop a))
  have hgross : a + f.onTop a ≤ a + g.onTop a := le_sub_inside_iff.mp (by omega)
  omega

theorem sub_inside_mono (hle : a ≤ b) : a - f.inside a ≤ b - f.inside b :=
  le_sub_inside_iff.mpr ((le_sub_inside_iff.mp le_rfl).trans hle)

-- The fee on top of a net amount is the fee inside the gross amount that it makes.
theorem inside_add_onTop (hr : 0 ≤ f.rate) (a : Int) : f.inside (a + f.onTop a) = f.onTop a := by
  apply le_antisymm
  · have hnet := le_sub_inside_iff.mpr (le_refl (a + f.onTop a))
    omega
  · apply (le_ceil_iff ratePrecision_pos).mpr
    have htop := (le_ceil_iff f.rest_pos).mp (le_refl (f.onTop a))
    linarith

-- So of any lower amount it is at most the fee on top.
theorem Charges.inside_le_onTop (h : f.Charges) (hle : a ≤ b + f.onTop b) :
    f.inside a ≤ f.onTop b := by
  calc f.inside a
    _ ≤ f.inside (b + f.onTop b) := h.inside_mono hle
    _ = f.onTop b                := inside_add_onTop h.rate_nonneg b

-- Fees that are rounded up one by one add up to no less than the fee on the sum.
theorem inside_add_le (f : DynamicFee) (a b : Int) :
    f.inside (a + b) ≤ f.inside a + f.inside b := by
  refine inside_le_iff.mpr ?_
  have ha := inside_le_iff.mp (le_refl (f.inside a))
  have hb := inside_le_iff.mp (le_refl (f.inside b))
  linarith

-- Two of them exceed it by one unit at most.
theorem add_inside_le (f : DynamicFee) (a b : Int) :
    f.inside a + f.inside b ≤ f.inside (a + b) + 1 := by
  have ha := (le_ceil_iff ratePrecision_pos).mp (le_refl (f.inside a))
  have hb := (le_ceil_iff ratePrecision_pos).mp (le_refl (f.inside b))
  apply sub_le_iff_le_add.mp
  apply (le_ceil_iff ratePrecision_pos).mpr
  linarith

-- Without a variable fee the rate does not depend on the volatility.
theorem rate_eq_of_variableControl_le {g : DynamicFee} (hs : f.binStep = g.binStep)
    (hp : f.parameters = g.parameters) (h : f.parameters.variableControl ≤ 0) :
    f.rate = g.rate := by
  simp [rate, baseRate, variableRate, ←hs, ←hp, h]

-- So it is the same at every distance.
theorem rate_track_of_variableControl_le (h : f.parameters.variableControl ≤ 0) (bin : Int) :
    (f.track bin).rate = f.rate :=
  rate_eq_of_variableControl_le rfl rfl h

theorem inside_eq_of_rate_eq {g : DynamicFee} (h : f.rate = g.rate) (a : Int) :
    f.inside a = g.inside a := by
  simp [inside, h]

theorem protocolCut_mono (hs : 0 ≤ f.parameters.protocolShare) (hle : a ≤ b) :
    f.protocolCut a ≤ f.protocolCut b :=
  Int.ediv_le_ediv basisPoints_pos (mul_le_mul_of_nonneg_right hle hs)

theorem protocolCut_nonneg (hs : 0 ≤ f.parameters.protocolShare) (ha : 0 ≤ a) :
    0 ≤ f.protocolCut a :=
  Int.ediv_nonneg (mul_nonneg ha hs) (by decide)

-- Cuts that are rounded down one by one add up to no more than the cut of the sum.
theorem protocolCut_add_le (f : DynamicFee) (a b : Int) :
    f.protocolCut a + f.protocolCut b ≤ f.protocolCut (a + b) := by
  simp only [protocolCut, Int.le_ediv_iff_mul_le basisPoints_pos]
  have ha := Int.ediv_mul_le (a * f.parameters.protocolShare) (ne_of_gt basisPoints_pos)
  have hb := Int.ediv_mul_le (b * f.parameters.protocolShare) (ne_of_gt basisPoints_pos)
  linarith

theorem protocolCut_le (hs : f.parameters.protocolShare ≤ basisPoints) (ha : 0 ≤ a) :
    f.protocolCut a ≤ a := by
  rw [protocolCut, Int.ediv_le_iff_le_mul basisPoints_pos]
  have := mul_le_mul_of_nonneg_left hs ha
  have := basisPoints_pos
  omega

end BinMarket.DynamicFee
