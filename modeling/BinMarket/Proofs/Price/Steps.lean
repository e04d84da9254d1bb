import BinMarket.Proofs.Decimal.Log
import BinMarket.Proofs.Decimal.Order
import BinMarket.Proofs.Decimal.Whole
import BinMarket.Proofs.Price
import Mathlib.Analysis.SpecialFunctions.Log.Base

/-!
How many steps lie between one and a price. Two logarithms, their quotient and the places that it is
cut to are rounded one after the other, and all of this together moves the exact number by hardly
more than half of the last place. Bins are what is left when that number is made an integer.
-/

namespace BinMarket.Price

open Decimal
open Real (log logb)

variable {step bin n : ℤ} {b l price r : Decimal} {roundDown : Bool} {v : ℝ}

theorem unit_eq : (10 : ℝ) ^ (1 - digits : ℤ) = 1 / 10 ^ 49 := by
  norm_num [digits]

theorem places_eq : (10 : ℝ) ^ (-binPlaces) = 1 / 10 ^ 20 := by
  norm_num [binPlaces]

theorem ten_pow_le_maxExponent : (10 : ℝ) ^ 60 ≤ 10 ^ maxExponent := by
  rw [←zpow_natCast]
  exact zpow_le_zpow_right₀ (by norm_num) (by decide)

theorem minExponent_le_ten_pow : (10 : ℝ) ^ minExponent ≤ 1 / 10 ^ 7 := by
  rw [one_div, ←zpow_natCast, ←zpow_neg]
  exact zpow_le_zpow_right₀ (by norm_num) (by decide)

theorem abs_log_le (hlow : 10 ^ minExponent ≤ v) (hhigh : v ≤ 10 ^ (maxExponent + 1)) :
    |log v| ≤ 3 * 10 ^ 6 := by
  have hpos := (ten_zpow_pos _).trans_le hlow
  have hten₀ : 0 ≤ log 10 := Real.log_nonneg (by norm_num)
  have hten : log 10 ≤ 3 := by
    have h : log 10 ≤ log 16 := Real.log_le_log (by norm_num) (by norm_num)
    have h₁₆ : log 16 = 4 * log 2 := by
      rw [←Real.log_rpow (by norm_num)]
      norm_num
    linarith [Real.log_two_lt_d9]
  have h₁ := Real.log_le_log (ten_zpow_pos _) hlow
  have h₂ := Real.log_le_log hpos hhigh
  rw [Real.log_zpow] at h₁ h₂
  have hmin : ((minExponent : ℤ) : ℝ) = -999999 := by norm_num [minExponent]
  have htop : ((maxExponent + 1 : ℤ) : ℝ) = 1000000 := by norm_num [maxExponent]
  rw [hmin] at h₁
  rw [htop] at h₂
  exact abs_le.mpr ⟨by linarith, by linarith⟩

theorem le_of_lt_limit (h : v < limit digits) : v ≤ 10 ^ (maxExponent + 1) :=
  h.le.trans (limit_le_ten_zpow digits)

-- The base of the bins and its logarithm, as both are worked out.
structure IsBase (step : ℤ) (b l : Decimal) : Prop where
  base   : base step = .ok b
  ln     : ln digits b = .ok l
  finite : l.IsFinite
  low    : (10001 / 10000 : ℝ) ≤ b.value
  log_ge : 9 / 10 ^ 5 ≤ log b.value
  close  : |log b.value - l.value| ≤ 1 / 10 ^ 49 * log b.value

theorem base_bounds (hstep : 0 < step) (hb : base step = .ok b) :
    b.IsFinite ∧ (10001 / 10000 : ℝ) ≤ b.value ∧ (b.value : ℝ) < limit digits := by
  have hp : 0 < digits := by decide
  have ⟨q, hq, hadd⟩ := bind_eq_ok_iff.mp hb
  have hdiv := div_rounded (p := digits) hp (x := ofInt step) (y := ofInt 10000) .intro .intro
    (by rw [value_ofInt]; norm_num)
  rw [hq, value_ofInt, value_ofInt] at hdiv
  have hsum := add_rounded hp (x := one) .intro hdiv.isFinite
  rw [hadd] at hsum
  have hone : ((one.value : ℚ) : ℝ) = 1 := by norm_num [one, value, signed]
  rw [hone] at hsum
  have htiny : tiny digits ≤ -4 := by decide
  have hq₁ : (1 / 10000 : ℝ) ≤ q.value := by
    refine hdiv.rounds.le_of_fits ⟨1, -4, by norm_num [digits], htiny, by norm_num⟩ ?_
    have : (1 : ℝ) ≤ step := by exact_mod_cast hstep
    push_cast
    linarith
  refine ⟨hsum.isFinite, ?_, (le_abs_self _).trans_lt hsum.lt_limit⟩
  exact hsum.rounds.le_of_fits ⟨10001, -4, by norm_num [digits], htiny, by norm_num⟩ (by linarith)

theorem exists_isBase (hstep : 0 < step) (hb : base step = .ok b) : ∃ l, IsBase step b l := by
  have hp : 0 < digits := by decide
  have hmin := minExponent_le_ten_pow
  have hmax := ten_pow_le_maxExponent
  have ⟨hfin, hlow, hlt⟩ := base_bounds hstep hb
  have hpos : (0 : ℝ) < b.value := by linarith
  have hpos' : 0 < b.value := by exact_mod_cast hpos
  have hlog : 9 / 10 ^ 5 ≤ log b.value := by
    have := Real.one_sub_inv_le_log_of_pos hpos
    have hinv : (b.value : ℝ)⁻¹ ≤ (10001 / 10000)⁻¹ := inv_anti₀ (by norm_num) hlow
    norm_num at hinv
    linarith
  have hbound := abs_log_le (v := b.value) (by linarith) (le_of_lt_limit hlt)
  have ⟨l, hl⟩ := exists_ln hp hfin hpos' (by linarith)
  have ⟨hlfin, hnear⟩ := ln_near hp hfin hpos' hl
  rw [unit_eq, abs_of_pos (show 0 < log b.value by linarith)] at hnear
  refine ⟨l, hb, hl, hlfin, hlow, hlog, hnear.trans ?_⟩
  exact mul_le_mul_of_nonneg_left (max_le le_rfl (by linarith)) (by positivity)

namespace IsBase

theorem one_lt (h : IsBase step b l) : (1 : ℝ) < b.value := by
  have := h.low
  linarith

theorem ln_ge (h : IsBase step b l) : 8 / 10 ^ 5 ≤ (l.value : ℝ) := by
  have hlog := h.log_ge
  have := (abs_le.mp h.close).right
  linarith

theorem ln_ne_zero (h : IsBase step b l) : l.value ≠ 0 := by
  have hpos : (0 : ℝ) < l.value := by linarith [h.ln_ge]
  exact_mod_cast hpos.ne'

theorem steps_eq_ok_iff (h : IsBase step b l) :
    steps step price = .ok r ↔ ∃ k q, Decimal.ln digits price = .ok k ∧ div digits k l = .ok q ∧
      quantize digits (-binPlaces) q = .ok r := by
  constructor
  case mp =>
    intro hr
    have ⟨k, hk, hr⟩ := bind_eq_ok_iff.mp hr
    have ⟨b', hb, hr⟩ := bind_eq_ok_iff.mp hr
    obtain rfl : b' = b := Except.ok.inj (hb.symm.trans h.base)
    have ⟨l', hl, hr⟩ := bind_eq_ok_iff.mp hr
    obtain rfl : l' = l := Except.ok.inj (hl.symm.trans h.ln)
    have ⟨q, hq, hr⟩ := bind_eq_ok_iff.mp hr
    exact ⟨k, q, hk, hq, hr⟩
  case mpr =>
    intro ⟨k, q, hk, hq, hr⟩
    exact bind_eq_ok_iff.mpr ⟨k, hk, bind_eq_ok_iff.mpr ⟨b, h.base, bind_eq_ok_iff.mpr ⟨l, h.ln,
      bind_eq_ok_iff.mpr ⟨q, hq, hr⟩⟩⟩⟩

end IsBase

-- A quotient hardly notices that its two parts are rounded.
theorem quotient_close {u u' w w' : ℝ} (hw : 9 / 10 ^ 5 ≤ w)
    (hu : |u - u'| ≤ 1 / 10 ^ 49 * (|u| + 1 / 10 ^ 7)) (hw' : |w - w'| ≤ 1 / 10 ^ 49 * w) :
    |u / w - u' / w'| ≤ 22 / 10 ^ 50 * (|u / w| + 1) := by
  have hlow : 99 / 100 * w ≤ w' := by
    have := (abs_le.mp hw').right
    linarith
  have hpos : 0 < w' := by linarith
  have hsame : |u| = |u / w| * w := by
    rw [abs_div, abs_of_pos (show 0 < w by linarith), div_mul_cancel₀ _ (by linarith)]
  have hdiff : (u / w - u' / w') * w' = u - u' - u / w * (w - w') := by
    have : w ≠ 0 := by linarith
    field_simp
    ring
  have hquot : |u / w * (w - w')| ≤ |u / w| * (1 / 10 ^ 49 * w) := by
    rw [abs_mul]
    exact mul_le_mul_of_nonneg_left hw' (abs_nonneg _)
  have hkept := mul_le_mul_of_nonneg_left hlow (abs_nonneg (u / w))
  have hnonneg := hsame ▸ abs_nonneg u
  refine le_of_mul_le_mul_right ?_ hpos
  calc |u / w - u' / w'| * w'
    _ = |u - u' - u / w * (w - w')| := by rw [←hdiff, abs_mul, abs_of_pos hpos]
    _ ≤ |u - u'| + |u / w * (w - w')| := abs_sub ..
    _ ≤ 1 / 10 ^ 49 * (|u / w| * w + 1 / 10 ^ 7) + |u / w| * (1 / 10 ^ 49 * w) :=
      add_le_add (hsame ▸ hu) hquot
    _ ≤ 22 / 10 ^ 50 * (|u / w| + 1) * w' := by linarith

-- What is off by a part of a number is not much greater than that number.
theorem abs_le_of_near {u w d m c : ℝ} (h : |u - w| ≤ d * max |u| m) (hd : 0 ≤ d) (hu : |u| ≤ c)
    (hm : m ≤ c) : |w| ≤ c + d * c := by
  have hdiff := abs_sub_abs_le_abs_sub w u
  rw [abs_sub_comm] at hdiff
  linarith [mul_le_mul_of_nonneg_left (max_le hu hm) hd]

-- What is known of a number of steps that was worked out.
structure StepsOf (b price r : Decimal) : Prop where
  finite  : r.IsFinite
  on_grid : ∃ n : ℤ, (r.value : ℝ) = n * 10 ^ (-binPlaces)
  small   : |(r.value : ℝ)| < 10 ^ 30
  near    : |logb b.value price.value - r.value| ≤
    1 / 10 ^ 20 / 2 + 3 / 10 ^ 49 * (|logb b.value price.value| + 1)

namespace StepsOf

theorem add_le_of_lt (h : StepsOf b price r) (hn : (r.value : ℝ) < n) :
    r.value + 1 / 10 ^ 20 ≤ (n : ℝ) := by
  have ⟨k, hk⟩ := h.on_grid
  rw [places_eq] at hk
  have hlt : (k : ℝ) < n * 10 ^ 20 := by
    rw [hk, mul_one_div, div_lt_iff₀ (by positivity)] at hn
    exact hn
  have hle : (k : ℝ) + 1 ≤ n * 10 ^ 20 := by exact_mod_cast hlt
  rw [hk, ←add_one_mul, mul_one_div, div_le_iff₀ (by positivity)]
  exact hle

theorem add_le_of_gt (h : StepsOf b price r) (hn : (n : ℝ) < r.value) :
    n + 1 / 10 ^ 20 ≤ (r.value : ℝ) := by
  have ⟨k, hk⟩ := h.on_grid
  rw [places_eq] at hk
  have hlt : (n : ℝ) * 10 ^ 20 < k := by
    rw [hk, mul_one_div, lt_div_iff₀ (by positivity)] at hn
    exact hn
  have hle : (n : ℝ) * 10 ^ 20 + 1 ≤ k := by exact_mod_cast hlt
  rw [hk, mul_one_div, le_div_iff₀ (by positivity)]
  linarith

-- A number that is cut to places and nearly an integer is that integer.
theorem eq_of_close (h : StepsOf b price r) (hn : |(r.value - n : ℝ)| < 1 / 10 ^ 20) :
    r.value = n := by
  have ⟨h₁, h₂⟩ := abs_lt.mp hn
  have heq : (r.value : ℝ) = n := by
    rcases lt_trichotomy (r.value : ℝ) n with hlt | heq | hgt
    · linarith [h.add_le_of_lt hlt]
    · exact heq
    · linarith [h.add_le_of_gt hgt]
  exact_mod_cast heq

-- Prices that are in the range of decimals are well within one place.
theorem within_place (h : StepsOf b price r) (hsteps : |logb b.value price.value| ≤ 4 * 10 ^ 10) :
    |logb b.value price.value - r.value| ≤ 6 / 10 ^ 21 := by
  linarith [h.near]

-- All other prices that have a bin still are within a quarter of a bin.
theorem within_quarter (h : StepsOf b price r) : |logb b.value price.value - r.value| ≤ 1 / 4 := by
  have hsmall := h.small
  have hnear := h.near
  have := abs_sub_abs_le_abs_sub (logb b.value price.value) r.value
  linarith

end StepsOf

theorem IsBase.abs_logb_le (h : IsBase step b l) (hlog : |log v| ≤ 3 * 10 ^ 6) :
    |logb b.value v| ≤ 4 * 10 ^ 10 := by
  have hge := h.log_ge
  rw [logb, abs_div, abs_of_pos (show 0 < log b.value by linarith), div_le_iff₀ (by linarith)]
  linarith

theorem IsBase.stepsOf (h : IsBase step b l) (hfin : price.IsFinite) (hpos : 0 < price.value)
    (hr : steps step price = .ok r) : StepsOf b price r := by
  have hp : 0 < digits := by decide
  have hmin := minExponent_le_ten_pow
  have ⟨k, q, hk, hq, hcut⟩ := h.steps_eq_ok_iff.mp hr
  have ⟨hkfin, hknear⟩ := ln_near hp hfin hpos hk
  have hdiv := div_rounded hp hkfin h.finite h.ln_ne_zero
  rw [hq] at hdiv
  have ⟨hrfin, hrcut, hsmall⟩ := quantize_cut hp hdiv.isFinite hcut
  have hqnear := hdiv.rounds.near hp
  have hrnear := hrcut.near
  rw [unit_eq] at hknear hqnear
  rw [places_eq] at hrnear
  refine ⟨hrfin, hrcut.on_grid, ?small, ?near⟩
  case small =>
    convert hsmall using 1
    norm_num [digits, binPlaces]
  case near =>
    have hmax {w : ℝ} : max |w| (10 ^ minExponent) ≤ |w| + 1 / 10 ^ 7 :=
      max_le (by linarith) (by linarith [abs_nonneg w])
    have hknear := hknear.trans (mul_le_mul_of_nonneg_left hmax (by positivity))
    have hquot := quotient_close h.log_ge hknear h.close
    have hqnear := hqnear.trans (mul_le_mul_of_nonneg_left hmax (by positivity))
    rw [←logb] at hquot
    have hratio := abs_sub_abs_le_abs_sub (k.value / l.value : ℝ) (logb b.value price.value)
    rw [abs_sub_comm] at hratio
    have h₁ := abs_sub_le (logb b.value price.value) (k.value / l.value) q.value
    have h₂ := abs_sub_le (logb b.value price.value) q.value r.value
    linarith [abs_nonneg (logb b.value price.value)]

theorem IsBase.exists_steps (h : IsBase step b l) (hfin : price.IsFinite) (hpos : 0 < price.value)
    (hlog : |log price.value| ≤ 3 * 10 ^ 6) : ∃ r, steps step price = .ok r := by
  have hp : 0 < digits := by decide
  have hmin := minExponent_le_ten_pow
  have hmax := ten_pow_le_maxExponent
  have hlimit := ten_zpow_le_limit hp
  have ⟨k, hk⟩ := exists_ln hp hfin hpos (by linarith)
  have ⟨hkfin, hknear⟩ := ln_near hp hfin hpos hk
  have hl := h.ln_ge
  rw [unit_eq] at hknear
  have hksmall := abs_le_of_near hknear (by positivity) hlog (by linarith)
  have hratio : |(k.value / l.value : ℝ)| ≤ 5 * 10 ^ 10 := by
    rw [abs_div, abs_of_pos (show (0 : ℝ) < l.value by linarith), div_le_iff₀ (by linarith)]
    linarith
  have ⟨q, hq, hqfin, hrounds⟩ :=
    (div_rounded hp hkfin h.finite h.ln_ne_zero).exists_ok (by linarith)
  have hqnear := hrounds.near hp
  rw [unit_eq] at hqnear
  have hqsmall : |(q.value : ℝ)| < 10 ^ (12 : ℤ) := by
    have := abs_le_of_near hqnear (by positivity) hratio (by linarith)
    rw [zpow_ofNat]
    linarith
  have ⟨r, hr⟩ := exists_quantize hp hqfin hqsmall (by decide) (e := -binPlaces) (by decide)
  exact ⟨r, h.steps_eq_ok_iff.mpr ⟨k, q, hk, hq, hr⟩⟩

-- What is left of a number of steps.
def whole (roundDown : Bool) (v : ℚ) : ℤ := if roundDown then ⌊v⌋ else ⌈v⌉

theorem whole_mono {v w : ℚ} (h : v ≤ w) : whole roundDown v ≤ whole roundDown w := by
  cases roundDown
  case false => exact Int.ceil_le_ceil h
  case true  => exact Int.floor_le_floor h

theorem whole_intCast (roundDown : Bool) (n : ℤ) : whole roundDown n = n := by
  cases roundDown <;> simp [whole]

theorem toWhole_eq (hr : r.IsFinite) :
    (if roundDown then floor r else ceil r) = .ok (whole roundDown r.value) := by
  cases roundDown
  case false => exact ceil_eq hr
  case true  => exact floor_eq hr

theorem toBin_eq_ok_iff_steps (hstep : 0 < step) :
    toBin step (.decimal price) roundDown = .ok n ↔ price.le zero = .ok false ∧
      ∃ r, steps step price = .ok r ∧ (if roundDown then floor r else ceil r) = .ok n := by
  constructor
  case mp =>
    intro hn
    have ⟨_, _, hn⟩ := bind_eq_ok_iff.mp hn
    have ⟨_, hprice, hn⟩ := bind_eq_ok_iff.mp hn
    cases hprice
    have ⟨t, ht, hn⟩ := bind_eq_ok_iff.mp hn
    cases t
    case true  => contradiction
    case false =>
      have ⟨r, hr, hn⟩ := bind_eq_ok_iff.mp hn
      refine ⟨eq_ok_of_liftM ht, r, eq_ok_of_liftM hr, ?_⟩
      cases roundDown <;> exact eq_ok_of_liftM hn
  case mpr =>
    intro ⟨hle, r, hr, hn⟩
    refine bind_eq_ok_iff.mpr ⟨(), if_neg (not_le.mpr hstep), bind_eq_ok_iff.mpr ⟨price, rfl, ?_⟩⟩
    refine bind_eq_ok_iff.mpr ⟨false, by rw [hle]; rfl, ?_⟩
    refine bind_eq_ok_iff.mpr ⟨r, by rw [hr]; rfl, ?_⟩
    cases roundDown
    case false => rw [show r.ceil = .ok n from hn]; rfl
    case true  => rw [show r.floor = .ok n from hn]; rfl

theorem IsBase.finite_of_steps (h : IsBase step b l) (hle : price.le zero = .ok false)
    (hr : steps step price = .ok r) : price.IsFinite := by
  have ⟨k, q, hk, hq, hcut⟩ := h.steps_eq_ok_iff.mp hr
  cases price
  case finite    => exact .intro
  case nan g s c => cases g <;> cases hle
  case infinity s =>
    cases s
    case true  => cases hle
    case false =>
      -- the quotient is infinite too, and that has no places
      cases hk
      have hlfin := h.finite
      generalize l = l' at hq hlfin
      cases hlfin
      cases hq
      cases hcut

-- Only finite prices above zero have bins.
theorem toBin_eq_ok_iff (h : IsBase step b l) (hstep : 0 < step) :
    toBin step (.decimal price) roundDown = .ok n ↔ price.IsFinite ∧ 0 < price.value ∧
      ∃ r, steps step price = .ok r ∧ StepsOf b price r ∧ whole roundDown r.value = n := by
  rw [toBin_eq_ok_iff_steps hstep]
  constructor
  case mp =>
    intro ⟨hnot, r, hr, hn⟩
    have hfin := h.finite_of_steps hnot hr
    have hpos := (le_zero_eq_false_iff hfin).mp hnot
    have hsteps := h.stepsOf hfin hpos hr
    rw [toWhole_eq hsteps.finite] at hn
    exact ⟨hfin, hpos, r, hr, hsteps, Except.ok.inj hn⟩
  case mpr =>
    intro ⟨hfin, hpos, r, hr, hsteps, hn⟩
    refine ⟨(le_zero_eq_false_iff hfin).mpr hpos, r, hr, ?_⟩
    rw [toWhole_eq hsteps.finite, hn]

end BinMarket.Price
