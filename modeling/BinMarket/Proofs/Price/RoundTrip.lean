import BinMarket.Proofs.Decimal.Power
import BinMarket.Proofs.Price.Steps

/-!
Bins are found again from their prices. A price is rounded a few times on its way, its logarithm and
that of the base once each, and all of this together is far less than half a place of what a bin id
is cut to.
-/

namespace BinMarket

open Decimal
open Real (log)

variable {step bin n decimalsX decimalsY : ℤ} {b price scaled y : Decimal} {v w : ℝ}

namespace Decimal

-- A number and its rounding have nearly the same logarithm.
theorem abs_log_sub_log_le {d : ℝ} (hw : 0 < w) (hd : d ≤ 1 / 2) (h : |v - w| ≤ d * w) :
    |log v - log w| ≤ 2 * d := by
  have ⟨h₁, h₂⟩ := abs_le.mp h
  have hd₀ : 0 ≤ d := nonneg_of_mul_nonneg_left ((abs_nonneg _).trans h) hw
  have hv : 0 < v := by nlinarith
  have hlow : 1 - d ≤ v / w := by
    rw [le_div_iff₀ hw]
    linarith
  have hhigh : v / w ≤ 1 + d := by
    rw [div_le_iff₀ hw]
    linarith
  have hup := Real.log_le_sub_one_of_pos (div_pos hv hw)
  have hdown := Real.one_sub_inv_le_log_of_pos (div_pos hv hw)
  have hinv : (v / w)⁻¹ ≤ 1 + 2 * d := by
    rw [inv_le_iff_one_le_mul₀ (div_pos hv hw)]
    nlinarith
  rw [Real.log_div hv.ne' hw.ne'] at hup hdown
  exact abs_le.mpr ⟨by linarith, by linarith⟩

end Decimal

namespace Price

-- A price whose logarithm is that of a whole number of steps, but for a distance of at most `d`.
structure NearBin (d : ℝ) (b : Decimal) (n : ℤ) (y : Decimal) : Prop where
  finite : y.IsFinite
  fits   : Fits digits y.value
  low    : 10 ^ minExponent ≤ (y.value : ℝ)
  high   : (y.value : ℝ) < limit digits
  close  : |log y.value - n * log b.value| ≤ d

theorem toBin_eq {d : ℝ} (hb : base step = .ok b) (hstep : 0 < step) (hy : NearBin d b n y)
    (hd : d ≤ 1 / 10 ^ 47) (roundDown : Bool) : toBin step (.decimal y) roundDown = .ok n := by
  have ⟨l, hl⟩ := exists_isBase hstep hb
  have hy₀ : 0 < y.value := by exact_mod_cast (ten_zpow_pos _).trans_le hy.low
  have hlog := abs_log_le hy.low (le_of_lt_limit hy.high)
  have ⟨r, hr⟩ := hl.exists_steps hy.finite hy₀ hlog
  have hsteps := hl.stepsOf hy.finite hy₀ hr
  have hexact : |Real.logb b.value y.value - n| ≤ 1 / 10 ^ 42 := by
    have hge := hl.log_ge
    rw [Real.logb, div_sub' (by linarith), abs_div, abs_of_pos (show 0 < log b.value by linarith),
      mul_comm, div_le_iff₀ (by linarith)]
    linarith [hy.close]
  have hcut : r.value = n := by
    refine hsteps.eq_of_close ?_
    have h := abs_sub_le (r.value : ℝ) (Real.logb b.value y.value) n
    rw [abs_sub_comm (r.value : ℝ) (Real.logb ..)] at h
    linarith [hsteps.within_place (hl.abs_logb_le hlog)]
  refine (toBin_eq_ok_iff hl hstep).mpr ⟨hy.finite, hy₀, r, hr, hsteps, ?_⟩
  rw [hcut, whole_intCast]

theorem value_of_ofBin (hprice : ofBin step bin = .ok price) :
    ∃ b, base step = .ok b ∧ 0 < step ∧ 0 < (b.value : ℝ) ∧
      Rounded digits (b.value ^ bin) (.ok price) := by
  have ⟨_, hcheck, hprice⟩ := bind_eq_ok_iff.mp hprice
  have ⟨b, hb, hpower⟩ := bind_eq_ok_iff.mp hprice
  have hstep : 0 < step := by
    rw [checkStep] at hcheck
    split at hcheck
    case isTrue  => contradiction
    case isFalse => omega
  have hb := eq_ok_of_liftM hb
  have ⟨hfin, hone, _⟩ := base_bounds hstep hb
  have hpos : (0 : ℝ) < b.value := by linarith
  refine ⟨b, hb, hstep, hpos, ?_⟩
  rw [←eq_ok_of_liftM hpower]
  exact power_rounded (by decide) hfin (by exact_mod_cast hpos) bin

theorem low_of_isNormal (h : Rounded digits v (.ok y)) (hv : 0 ≤ v) (hy : y.IsNormal) :
    10 ^ minExponent ≤ (y.value : ℝ) := by
  have hpos : (0 : ℝ) ≤ y.value := h.rounds.le_of_fits (.zero _) hv
  rw [←abs_of_nonneg hpos]
  exact hy.le_abs_value

-- Rounding to a normal number hardly changes a logarithm.
theorem log_close (h : Rounded digits v (.ok y)) (hlow : 10 ^ minExponent ≤ (y.value : ℝ)) :
    |log v - log y.value| ≤ 2 / 10 ^ 49 := by
  have hpos := (ten_zpow_pos _).trans_le hlow
  have hnear := h.rounds.near_relative (by decide) (by rwa [abs_of_pos hpos])
  rw [abs_of_pos hpos, unit_eq] at hnear
  refine (abs_log_sub_log_le hpos (by norm_num) hnear).trans (by norm_num)

theorem nearBin_of_ofBin (hprice : ofBin step bin = .ok price) (hnormal : price.IsNormal) :
    ∃ b, base step = .ok b ∧ 0 < step ∧ NearBin (2 / 10 ^ 49) b bin price := by
  have ⟨b, hb, hstep, hpos, hrounded⟩ := value_of_ofBin hprice
  have hlow := low_of_isNormal hrounded (zpow_nonneg hpos.le bin) hnormal
  have hclose := log_close hrounded hlow
  rw [Real.log_zpow, abs_sub_comm] at hclose
  have hhigh := (le_abs_self _).trans_lt hrounded.lt_limit
  exact ⟨b, hb, hstep, hrounded.isFinite, hrounded.rounds.fits, hlow, hhigh, hclose⟩

-- The factor between two tokens is a power of ten, unless it is too small to be written at all.
theorem eq_ten_zpow_of_ne_zero {k : ℤ} (h : Rounded digits (10 ^ k) (.ok y))
    (hy : (y.value : ℝ) ≠ 0) : tiny digits ≤ k ∧ (y.value : ℝ) = 10 ^ k := by
  have hp : 0 < digits := by decide
  by_cases hk : tiny digits ≤ k
  case pos => exact ⟨hk, h.rounds.eq_of_fits (.ten_zpow hp hk)⟩
  case neg =>
    obtain ⟨m, j, -, hj, hm⟩ := h.rounds.fits
    have hu := ten_zpow_pos j
    have hnonneg : (0 : ℝ) ≤ y.value := h.rounds.le_of_fits (.zero _) (ten_zpow_pos k).le
    have hzero := (abs_le.mp (h.rounds.nearest 0 (.zero _))).left
    have hten : (10 : ℝ) * 10 ^ k ≤ 10 ^ j := by
      rw [←zpow_one_add₀ (by norm_num)]
      exact zpow_le_zpow_right₀ (by norm_num) (by omega)
    rw [sub_zero, abs_of_pos (ten_zpow_pos k)] at hzero
    have hone : (m : ℝ) * 10 ^ j < 1 * 10 ^ j := by linarith [ten_zpow_pos k]
    have h₁ : (m : ℝ) < 1 := lt_of_mul_lt_mul_right hone hu.le
    have h₀ : (0 : ℝ) ≤ m := nonneg_of_mul_nonneg_left (hm ▸ hnonneg) hu
    have hm₁ : m < 1 := by exact_mod_cast h₁
    have hm₀ : 0 ≤ m := by exact_mod_cast h₀
    rw [hm, show m = 0 by omega] at hy
    simp at hy

-- A price that was shifted and then shifted back stays in the range of decimals. It is the same
-- price again unless it lost digits at the least exponent, and then it is far from the greatest.
theorem shifted_bounds {k : ℤ} (hfits : Fits digits v) (hv₀ : 10 ^ minExponent ≤ v)
    (hlt : v < limit digits) (hk : tiny digits ≤ k) (h : Rounded digits (v * 10 ^ k) (.ok y))
    (hlow : 10 ^ minExponent ≤ (y.value : ℝ)) :
    10 ^ minExponent ≤ (y.value / 10 ^ k : ℝ) ∧ (y.value / 10 ^ k : ℝ) < limit digits := by
  have hp : 0 < digits := by decide
  have hu := ten_zpow_pos k
  have hpos := (ten_zpow_pos _).trans_le hlow
  obtain ⟨m, j, hm, hj, hmj⟩ := hfits
  by_cases hjk : tiny digits ≤ j + k
  case pos =>
    have hfits : Fits digits (v * 10 ^ k) :=
      ⟨m, j + k, hm, hjk, by rw [hmj, mul_assoc, ←zpow_add₀ (by norm_num)]⟩
    rw [h.rounds.eq_of_fits hfits, mul_div_cancel_right₀ _ hu.ne']
    exact ⟨hv₀, hlt⟩
  case neg =>
    have hone : (10 : ℝ) ^ k ≤ 1 := zpow_le_one_of_nonpos₀ (by norm_num) (by omega)
    refine ⟨hlow.trans (le_div_self hpos.le hu hone), ?_⟩
    have hnear := h.rounds.near_relative hp (by rwa [abs_of_pos hpos])
    rw [abs_of_pos hpos, unit_eq] at hnear
    have hdouble : (y.value : ℝ) ≤ 2 * v * 10 ^ k := by
      have := (abs_le.mp hnear).left
      linarith
    have hv : v ≤ 10 ^ 50 := by
      have hj₀ : (10 : ℝ) ^ j ≤ 1 := zpow_le_one_of_nonpos₀ (by norm_num) (by omega)
      have hm' : (m : ℝ) ≤ 10 ^ digits := by exact_mod_cast (le_abs_self m).trans hm.le
      rw [hmj]
      calc (m : ℝ) * 10 ^ j
        _ ≤ 10 ^ digits * 10 ^ j := mul_le_mul_of_nonneg_right hm' (ten_zpow_pos j).le
        _ ≤ 10 ^ digits := mul_le_of_le_one_right (by positivity) hj₀
        _ = 10 ^ 50 := rfl
    rw [div_lt_iff₀ hu]
    have hmax := ten_pow_le_maxExponent.trans (ten_zpow_le_limit hp)
    refine hdouble.trans_lt (mul_lt_mul_of_pos_right ?_ hu)
    linarith

-- A price per token is the price per lamport times a power of ten that decimals can write.
theorem exists_shift {d : ℝ} (hnear : NearBin d b bin price)
    (hscaled : perToken (.decimal price) decimalsX decimalsY = .ok scaled)
    (hnormal : scaled.IsNormal) :
    ∃ shift k, tokenScale decimalsX decimalsY = .ok shift ∧ shift.IsFinite ∧ tiny digits ≤ k ∧
      (shift.value : ℝ) = 10 ^ k ∧ Rounded digits (price.value * 10 ^ k) (.ok scaled) ∧
      10 ^ minExponent ≤ (scaled.value : ℝ) := by
  have ⟨_, hdecimal, hscaled⟩ := bind_eq_ok_iff.mp hscaled
  cases hdecimal
  have ⟨shift, hshift, hmul⟩ := bind_eq_ok_iff.mp hscaled
  have hshift := eq_ok_of_liftM hshift
  have hpower := power_rounded (p := digits) (x := ofInt 10) (by decide) .intro
    (by rw [value_ofInt]; norm_num) (decimalsX - decimalsY)
  rw [show power digits (ofInt 10) (decimalsX - decimalsY) = .ok shift from hshift, value_ofInt,
    show (((10 : ℤ) : ℚ) : ℝ) = 10 by norm_num] at hpower
  have hprod := mul_rounded (p := digits) (by decide) hnear.finite hpower.isFinite
  rw [eq_ok_of_liftM hmul] at hprod
  have hpos := (ten_zpow_pos _).trans_le hnear.low
  have hshift₀ : (0 : ℝ) ≤ shift.value := hpower.rounds.le_of_fits (.zero _) (ten_zpow_pos _).le
  have hlow := low_of_isNormal hprod (mul_nonneg hpos.le hshift₀) hnormal
  have hne : (shift.value : ℝ) ≠ 0 := by
    intro hzero
    have h₀ := hprod.rounds.eq_of_fits (by rw [hzero, mul_zero]; exact .zero _)
    rw [hzero, mul_zero] at h₀
    exact absurd hlow (not_le.mpr (h₀ ▸ ten_zpow_pos _))
  have ⟨hk, hten⟩ := eq_ten_zpow_of_ne_zero hpower hne
  exact ⟨shift, _, hshift, hpower.isFinite, hk, hten, hten ▸ hprod, hlow⟩

theorem exists_back {d : ℝ} (hnear : NearBin d b bin price)
    (hscaled : perToken (.decimal price) decimalsX decimalsY = .ok scaled)
    (hnormal : scaled.IsNormal) :
    ∃ y, perLamport (.decimal scaled) decimalsX decimalsY = .ok y ∧
      NearBin (d + 4 / 10 ^ 49) b bin y := by
  have ⟨shift, k, hshift, hfinite, hk, hten, hprod, hlow⟩ := exists_shift hnear hscaled hnormal
  have hu := ten_zpow_pos k
  have hpos := (ten_zpow_pos _).trans_le hlow
  have ⟨hquot, hlt⟩ := shifted_bounds hnear.fits hnear.low hnear.high hk hprod hlow
  have hquot₀ := (ten_zpow_pos _).trans_le hquot
  have hdiv := div_rounded (p := digits) (by decide) hprod.isFinite hfinite
    (by exact_mod_cast hten.trans_ne hu.ne')
  rw [hten] at hdiv
  have ⟨y, hy, hfin, hrounds⟩ := hdiv.exists_ok (by rwa [abs_of_pos hquot₀])
  rw [hy] at hdiv
  have hylow : 10 ^ minExponent ≤ (y.value : ℝ) :=
    hrounds.le_of_fits (.ten_zpow (by decide) (by decide)) hquot
  refine ⟨y, ?back, hfin, hrounds.fits, hylow, (le_abs_self _).trans_lt hdiv.lt_limit, ?close⟩
  case back =>
    refine bind_eq_ok_iff.mpr ⟨scaled, rfl, bind_eq_ok_iff.mpr ⟨shift, ?_, ?_⟩⟩
    · rw [hshift]
      rfl
    · rw [hy]
      rfl
  case close =>
    -- each of the two shifts leaves the logarithm nearly where the power of ten moves it
    have hthere := log_close hprod hlow
    have hback := log_close hdiv hylow
    rw [Real.log_mul ((ten_zpow_pos _).trans_le hnear.low).ne' hu.ne'] at hthere
    rw [Real.log_div hpos.ne' hu.ne'] at hback
    have ⟨h₁, h₂⟩ := abs_le.mp hthere
    have ⟨h₃, h₄⟩ := abs_le.mp hback
    have ⟨h₅, h₆⟩ := abs_le.mp hnear.close
    exact abs_le.mpr ⟨by linarith, by linarith⟩

-- The bin of a price is the bin that it was worked out for, whichever way the rest is rounded, also
-- after the price was brought to whole tokens and back.
theorem toBin_ofBin (hprice : ofBin step bin = .ok price) (hnormal : price.IsNormal)
    (roundDown : Bool) :
    toBin step (.decimal price) roundDown = .ok bin ∧
    ∀ decimalsX decimalsY scaled, ofBinPerToken bin step decimalsX decimalsY = .ok scaled →
      scaled.IsNormal →
      perTokenToBin (.decimal scaled) step decimalsX decimalsY roundDown = .ok bin := by
  have ⟨b, hb, hstep, hnear⟩ := nearBin_of_ofBin hprice hnormal
  refine ⟨toBin_eq hb hstep hnear (by norm_num) roundDown, ?_⟩
  intro decimalsX decimalsY scaled hscaled hnormal'
  have ⟨price', hprice', hscaled⟩ := bind_eq_ok_iff.mp hscaled
  obtain rfl : price = price' := Except.ok.inj (hprice.symm.trans hprice')
  have ⟨y, hy, hback⟩ := exists_back hnear hscaled hnormal'
  exact bind_eq_ok_iff.mpr ⟨y, hy, toBin_eq hb hstep hback (by norm_num) roundDown⟩

-- Ten bins below one, as a price of two tokens that have 9 and 6 decimals.
theorem toBin_ofBin_below : ∃ price scaled,
    ofBin 25 (-10) = .ok price ∧ price.IsNormal ∧
    ofBinPerToken (-10) 25 9 6 = .ok scaled ∧ scaled.IsNormal ∧
    toBin 25 (.decimal price) true = .ok (-10) ∧
    perTokenToBin (.decimal scaled) 25 9 6 false = .ok (-10) := by
  have hprice : ofBin 25 (-10) =
      .ok (finite false 97534034023539466581577262811014277262984032306298 (-50)) := by
    decide +kernel
  have hscaled : ofBinPerToken (-10) 25 9 6 =
      .ok (finite false 97534034023539466581577262811014277262984032306298 (-47)) := by
    decide +kernel
  have hnormal :
      IsNormal (finite false 97534034023539466581577262811014277262984032306298 (-50)) := by
    decide +kernel
  have hnormal' :
      IsNormal (finite false 97534034023539466581577262811014277262984032306298 (-47)) := by
    decide +kernel
  exact ⟨_, _, hprice, hnormal, hscaled, hnormal', (toBin_ofBin hprice hnormal true).left,
    (toBin_ofBin hprice hnormal false).right 9 6 _ hscaled hnormal'⟩

end Price

end BinMarket
