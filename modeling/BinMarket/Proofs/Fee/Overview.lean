import BinMarket.Fee.Overview
import BinMarket.Proofs.Decimal.Operations
import BinMarket.Proofs.Fee
import BinMarket.Proofs.FixedPoint

/-!
Fees read out in percent. A percentage of a rate has seven places more than the rate has, so it is
written exactly, and a fee inside an amount is that percentage of it, rounded up.
-/

namespace BinMarket

open Decimal

variable {p : Pool} {rate whole : Int}

-- A percentage is rounded twice, once when it is scaled and once when it is divided.
theorem scaled_rounded (part : ℤ) :
    Rounded readingDigits (part * 100) (mul readingDigits (ofInt part) (ofInt 100)) := by
  have h := mul_rounded (p := readingDigits) (by decide) (x := ofInt part) (y := ofInt 100)
    .intro .intro
  rw [value_ofInt, value_ofInt] at h
  exact_mod_cast h

theorem divided_rounded {y : Decimal} (hy : y.IsFinite) (hw : whole ≠ 0) :
    Rounded readingDigits (y.value / whole) (div readingDigits y (ofInt whole)) := by
  have h := div_rounded (p := readingDigits) (by decide) hy (y := ofInt whole) .intro
    (by rw [value_ofInt]; exact_mod_cast hw)
  rwa [value_ofInt, Rat.cast_intCast] at h

namespace DynamicFee

theorem percentage_eq (h : |rate| < 10 ^ 26) :
    ∃ x, percentage rate = .ok x ∧ x.IsFinite ∧ x.value = rate / 10 ^ 7 := by
  have hmul := scaled_rounded rate
  have hscaled : (rate * 100 : ℝ) = (rate * 100 : ℤ) * 10 ^ (0 : ℤ) := by
    push_cast
    ring
  rw [hscaled] at hmul
  obtain ⟨y, hy, hyf, hyv⟩ := hmul.exists_eq (by decide)
    (by rw [abs_mul, readingDigits]; norm_num; omega) (by decide) (by decide)
  have hdiv := divided_rounded hyf ratePrecision_pos.ne'
  have hquot : (y.value / (ratePrecision : ℤ) : ℝ) = rate * 10 ^ (-7 : ℤ) := by
    rw [hyv, ratePrecision]
    push_cast
    norm_num
    ring
  rw [hquot] at hdiv
  obtain ⟨x, hx, hxf, hxv⟩ := hdiv.exists_eq (by decide)
    (h.trans (by rw [readingDigits]; norm_num)) (by decide) (by decide)
  refine ⟨x, ?_, hxf, ?_⟩
  · rw [percentage, BinMarket.percentage, hy]
    exact hx
  · have hcast : (x.value : ℝ) = ((rate / 10 ^ 7 : ℚ) : ℝ) := by
      rw [hxv, zpow_neg]
      push_cast
      norm_num
      ring
    exact_mod_cast hcast

theorem inside_eq_ceil (f : DynamicFee) (a : Int) :
    f.inside a = ⌈(a * (f.rate / 10 ^ 7) / 100 : ℚ)⌉ := by
  rw [inside, ediv_eq_ceil ratePrecision_pos, ratePrecision]
  congr 1
  push_cast
  ring

end DynamicFee

namespace Pool

@[simp] theorem parameters_feeAt (p : Pool) (now : Int) : (p.feeAt now).parameters = p.fees := by
  simp [feeAt, DynamicFee.ofPool]

theorem charges_feeAt (hb : 0 ≤ p.fees.baseFactor) (now : Int) : (p.feeAt now).Charges where
  step := by simpa [feeAt, DynamicFee.ofPool] using le_of_lt p.binStep_pos
  base := by simpa using hb

-- The percentage that is read out is the rate of the fee state at the active bin.
theorem currentFee_eq (hb : 0 ≤ p.fees.baseFactor) (now : Int) :
    ∃ percent, p.currentFee now = .ok percent ∧ percent.IsFinite ∧
      percent.value = (p.feeAt now).rate / 10 ^ 7 := by
  have hr := (charges_feeAt hb now).rate_nonneg
  have hle := (p.feeAt now).rate_le
  have hsmall : |(p.feeAt now).rate| < 10 ^ 26 := by
    rw [abs_of_nonneg hr]
    exact hle.trans_lt (by decide)
  have ⟨percent, he, hf, hv⟩ := DynamicFee.percentage_eq hsmall
  refine ⟨percent, ?_, hf, hv⟩
  rw [currentFee, he]
  rfl

end Pool

end BinMarket
