import BinMarket.Price.Ledger
import BinMarket.Proofs.Rounding
import Mathlib.Algebra.Order.Ring.Int
import Mathlib.Data.Nat.EvenOddRec
import Mathlib.Data.Nat.Find
import Mathlib.Tactic.Linarith

/-!
The order of the ledger's prices. Products are cut down at every step of a power, and an exponent
may share no digit with the one before it. Still no power exceeds the one before it, since the
product of all squares up to a digit is no less than the square for that digit. The prices below the
middle bin are such powers, those above it are their inverses, so prices rise with the bins and end
equally far from the middle on either side.
-/

namespace BinMarket.Ledger

open FixedPoint

variable {base acc acc' x x' y y' step : Int} {a b bin : Int} {m n : Nat}

theorem times_nonneg (hx : 0 ≤ x) (hy : 0 ≤ y) : 0 ≤ times x y := by
  apply le_mulShr_down_iff.mpr
  simpa using mul_nonneg hx hy

theorem times_le_times (hx : x ≤ x') (hy : y ≤ y') (hx' : 0 ≤ x') (hy₀ : 0 ≤ y) :
    times x y ≤ times x' y' := by
  apply le_mulShr_down_iff.mpr
  calc times x y * twoTo places
    _ ≤ x * y   := le_mulShr_down_iff.mp le_rfl
    _ ≤ x' * y' := mul_le_mul hx hy hy₀ hx'

@[simp] theorem unit_times (x : Int) : times unit x = x := by
  rw [times, mulShr, shiftRight_eq, twoTo_places]
  exact Int.mul_ediv_cancel_left x (by decide)

@[simp] theorem powerOf_zero (base acc : Int) : powerOf base acc 0 = acc := by
  simp [powerOf]

theorem powerOf_two_mul (base acc : Int) (n : Nat) :
    powerOf base acc (2 * n) = powerOf (times base base) acc n := by
  cases n
  case zero => simp
  case succ => rw [powerOf]; simp

theorem powerOf_two_mul_add_one (base acc : Int) (n : Nat) :
    powerOf base acc (2 * n + 1) = powerOf (times base base) (times acc base) n := by
  rw [powerOf, if_neg (by omega), if_pos (by omega)]
  congr
  omega

@[simp] theorem powerOf_one (base acc : Int) : powerOf base acc 1 = times acc base := by
  simpa using powerOf_two_mul_add_one base acc 0

theorem powerOf_nonneg (hb : 0 ≤ base) (ha : 0 ≤ acc) (n : Nat) : 0 ≤ powerOf base acc n := by
  induction n using Nat.evenOddRec generalizing base acc
  case h0 => simpa using ha
  case h_even n hi =>
    rw [powerOf_two_mul]
    exact hi (times_nonneg hb hb) ha
  case h_odd n hi =>
    rw [powerOf_two_mul_add_one]
    exact hi (times_nonneg hb hb) (times_nonneg ha hb)

theorem powerOf_le_powerOf (hb : 0 ≤ base) (h : acc ≤ acc') (ha : 0 ≤ acc') (n : Nat) :
    powerOf base acc n ≤ powerOf base acc' n := by
  induction n using Nat.evenOddRec generalizing base acc acc'
  case h0 => simpa using h
  case h_even n hi =>
    simp only [powerOf_two_mul]
    exact hi (times_nonneg hb hb) h ha
  case h_odd n hi =>
    simp only [powerOf_two_mul_add_one]
    exact hi (times_nonneg hb hb) (times_le_times h le_rfl ha hb) (times_nonneg ha hb)

-- The power to the next exponent. While that exponent ends in zeros nothing has been multiplied for
-- it, whereas `acc` is the product of the squares so far. The induction keeps it at no less than the
-- square whose turn is next.
theorem powerOf_succ_le (hb : 0 ≤ base) (h : base ≤ acc) (n : Nat) :
    powerOf base unit (n + 1) ≤ powerOf base acc n := by
  induction n using Nat.evenOddRec generalizing base acc
  case h0 => simpa using h
  case h_even n hi =>
    rw [powerOf_two_mul_add_one, powerOf_two_mul, unit_times]
    exact powerOf_le_powerOf (times_nonneg hb hb) h (hb.trans h) n
  case h_odd n hi =>
    rw [show 2 * n + 1 + 1 = 2 * (n + 1) by omega, powerOf_two_mul, powerOf_two_mul_add_one]
    exact hi (times_nonneg hb hb) (times_le_times h le_rfl (hb.trans h) hb)

-- What the price falls to over `n` bins down from the middle one.
def descent (step : Int) (n : Nat) : Int := powerOf (maxU128 / baseOf step) unit n

@[simp] theorem descent_zero (step : Int) : descent step 0 = unit := powerOf_zero ..

@[simp] theorem descent_one (step : Int) : descent step 1 = maxU128 / baseOf step := by
  simp [descent]

section Step

variable (hs : 0 < step)
include hs

theorem unit_lt_baseOf : unit < baseOf step := by
  have hunit : unit ≤ step * unit := le_mul_of_one_le_left (by decide) hs
  have hrise : 1 ≤ step * unit / 10000 := by
    apply (Int.le_ediv_iff_mul_le (by decide)).mpr
    exact le_trans (by decide) hunit
  rw [baseOf]
  omega

theorem inverse_nonneg : 0 ≤ maxU128 / baseOf step :=
  Int.ediv_nonneg (by decide) (le_trans (by decide) (unit_lt_baseOf hs).le)

theorem inverse_lt_unit : maxU128 / baseOf step < unit := by
  have hbase := unit_lt_baseOf hs
  apply (Int.ediv_lt_iff_lt_mul (lt_trans (by decide) hbase)).mpr
  calc maxU128
    _ < unit * unit        := by decide
    _ ≤ unit * baseOf step := mul_le_mul_of_nonneg_left hbase.le (by decide)

theorem descent_nonneg (n : Nat) : 0 ≤ descent step n :=
  powerOf_nonneg (inverse_nonneg hs) (by decide) n

theorem descent_le_descent (h : m ≤ n) : descent step n ≤ descent step m := by
  induction h
  case refl        => exact le_rfl
  case step k _ hi =>
    exact (powerOf_succ_le (inverse_nonneg hs) (inverse_lt_unit hs).le k).trans hi

theorem descent_le_unit (n : Nat) : descent step n ≤ unit := by
  simpa using descent_le_descent hs (Nat.zero_le n)

theorem descent_lt_unit (h : 0 < n) : descent step n < unit := by
  calc descent step n
    _ ≤ descent step 1 := descent_le_descent hs h
    _ < unit           := by simpa using inverse_lt_unit hs

end Step

-- The price of a bin that is not too far from the middle.
def price (step bin : Int) : Int :=
  if 0 < bin then maxU128 / descent step bin.natAbs else descent step bin.natAbs

theorem price_bounds (hs : 0 < step) (h : descent step bin.natAbs ≠ 0) :
    1 ≤ price step bin ∧ price step bin ≤ maxU128 := by
  have hpos := lt_of_le_of_ne (descent_nonneg hs bin.natAbs) h.symm
  have hle := descent_le_unit hs bin.natAbs
  rw [price]
  split
  case isTrue =>
    refine ⟨?_, Int.ediv_le_self _ (by decide)⟩
    apply (Int.le_ediv_iff_mul_le hpos).mpr
    exact le_trans (by simpa using hle) (show unit ≤ maxU128 by decide)
  case isFalse => exact ⟨hpos, hle.trans (by decide)⟩

-- On either side of the middle the order is that of the powers. From one side to the other the price
-- passes the middle price, as the first power already lies below it.
theorem price_le_price (hs : 0 < step) (h : a < b) (hb : descent step b.natAbs ≠ 0) :
    price step a ≤ price step b := by
  have hpos := lt_of_le_of_ne (descent_nonneg hs b.natAbs) hb.symm
  rw [price, price]
  split
  case isTrue ha =>
    rw [if_pos (ha.trans h)]
    exact div_le_div_left (by decide) hpos (descent_le_descent hs (by omega))
  case isFalse ha =>
    split
    case isTrue hb =>
      apply (Int.le_ediv_iff_mul_le hpos).mpr
      have hlt := descent_lt_unit hs (n := b.natAbs) (by omega)
      calc descent step a.natAbs * descent step b.natAbs
        _ ≤ unit * (unit - 1) := mul_le_mul (descent_le_unit hs _) (by omega) hpos.le (by decide)
        _ ≤ maxU128           := by decide
    case isFalse hb => exact descent_le_descent hs (by omega)

theorem inverts_baseOf (hs : 0 < step) : inverts (baseOf step) = true :=
  decide_eq_true (unit_lt_baseOf hs).le

theorem inverse_eq (hs : 0 < step) :
    (if inverts (baseOf step) then maxU128.fdiv (baseOf step) else baseOf step) =
      maxU128 / baseOf step := by
  rw [inverts_baseOf hs, if_pos rfl]
  exact Int.fdiv_eq_ediv_of_nonneg _ (le_trans (by decide) (unit_lt_baseOf hs).le)

-- The base is inverted first, so it is the powers of positive bins that are inverted back.
theorem price_eq (hs : 0 < step) (hz : bin ≠ 0) :
    (if (bin < 0) != inverts (baseOf step) then maxU128.fdiv (descent step bin.natAbs)
      else descent step bin.natAbs) = price step bin := by
  rw [price, inverts_baseOf hs, Int.fdiv_eq_ediv_of_nonneg _ (descent_nonneg hs _)]
  refine if_congr ?_ rfl rfl
  simp
  omega

-- The three things that the ledger can say of a bin. No price is too large for 128 bits.
theorem priceOf_eq (hs : 0 < step) (bin : Int) :
    priceOf bin step =
      if maxExponent ≤ bin.natAbs then .error (.invalid (.exponentOutOfRange bin.natAbs))
      else if descent step bin.natAbs = 0 then .error (.invalid .priceUnderflow)
      else .ok (price step bin) := by
  rw [priceOf, if_neg (not_le.mpr hs), power]
  by_cases hz : bin = 0
  case pos => simp [hz, price, maxExponent, unit]
  case neg =>
    simp only [if_neg hz, inverse_eq hs]
    split
    case isTrue  => rfl
    case isFalse =>
      rw [←descent]
      split
      case isTrue    => rfl
      case isFalse h => rw [price_eq hs hz, if_neg (not_lt.mpr (price_bounds hs h).right)]

theorem priceOf_eq_ok_iff (hs : 0 < step) :
    priceOf bin step = .ok x ↔
      bin.natAbs < maxExponent ∧ descent step bin.natAbs ≠ 0 ∧ price step bin = x := by
  rw [priceOf_eq hs]
  split
  case isTrue h  => simp [h]
  case isFalse h =>
    split
    case isTrue hz  => simp [hz]
    case isFalse hz => simp [hz, not_le.mp h]

-- How far from the middle the ledger has prices.
def reach (step : Int) : Nat := Nat.findGreatest (descent step · ≠ 0) (maxExponent - 1)

-- A power that is not zero has none before it that is, so all bins up to the farthest have a price.
theorem le_reach_iff (hs : 0 < step) :
    n ≤ reach step ↔ n < maxExponent ∧ descent step n ≠ 0 := by
  constructor
  case mp =>
    intro h
    have hlast : descent step (reach step) ≠ 0 :=
      Nat.findGreatest_spec (P := (descent step · ≠ 0)) (Nat.zero_le _) (by simp [unit])
    have hle := Nat.findGreatest_le (P := (descent step · ≠ 0)) (maxExponent - 1)
    have hfall := descent_le_descent hs h
    have hnonneg := descent_nonneg hs (reach step)
    refine ⟨?_, by omega⟩
    calc n
      _ ≤ reach step      := h
      _ ≤ maxExponent - 1 := hle
      _ < maxExponent     := by decide
  case mpr =>
    intro ⟨hn, hz⟩
    exact Nat.le_findGreatest (Nat.le_sub_one_of_lt hn) hz

-- The ledger's prices for a bin step.
-- 1. They end equally far from the middle bin on either side, and all bins in between have one. It
--    is at least one unit and fits 128 bits
-- 2. A bin beyond them has none as its power falls to zero, or as it is out of range itself. Never is
--    a price too large
-- 3. They do not fall from one bin to a higher one
-- 4. The price of a bin above the middle is the inverse of that of its mirror image
theorem priceOf_symmetric_mono (hs : 0 < step) :
    ∃ limit < maxExponent,
      (∀ bin : Int, bin.natAbs ≤ limit →
        ∃ price, priceOf bin step = .ok price ∧ 1 ≤ price ∧ price ≤ maxU128) ∧
      (∀ bin : Int, limit < bin.natAbs →
        priceOf bin step = .error (.invalid
          (if bin.natAbs < maxExponent then .priceUnderflow
            else .exponentOutOfRange bin.natAbs))) ∧
      (∀ a b low high, a < b → priceOf a step = .ok low → priceOf b step = .ok high →
        low ≤ high) ∧
      ∀ bin high, 0 < bin → priceOf bin step = .ok high →
        ∃ low, priceOf (-bin) step = .ok low ∧ high = maxU128 / low := by
  refine ⟨reach step, ((le_reach_iff hs).mp le_rfl).left, ?within, ?beyond, ?rising, ?mirrored⟩
  case within =>
    intro bin h
    have ⟨hn, hz⟩ := (le_reach_iff hs).mp h
    exact ⟨price step bin, (priceOf_eq_ok_iff hs).mpr ⟨hn, hz, rfl⟩, price_bounds hs hz⟩
  case beyond =>
    intro bin h
    rw [priceOf_eq hs]
    split
    case isTrue hn  => rw [if_neg (not_lt.mpr hn)]
    case isFalse hn =>
      have hz : descent step bin.natAbs = 0 := by
        by_contra hz
        exact absurd ((le_reach_iff hs).mpr ⟨not_le.mp hn, hz⟩) (not_le.mpr h)
      rw [if_pos hz, if_pos (not_le.mp hn)]
  case rising =>
    intro a b low high h ha hb
    have ⟨_, _, hlow⟩ := (priceOf_eq_ok_iff hs).mp ha
    have ⟨_, hz, hhigh⟩ := (priceOf_eq_ok_iff hs).mp hb
    rw [←hlow, ←hhigh]
    exact price_le_price hs h hz
  case mirrored =>
    intro bin high h hb
    have ⟨hn, hz, hhigh⟩ := (priceOf_eq_ok_iff hs).mp hb
    rw [price, if_pos h] at hhigh
    refine ⟨descent step bin.natAbs, ?_, hhigh.symm⟩
    rw [priceOf_eq_ok_iff hs, Int.natAbs_neg]
    refine ⟨hn, hz, ?_⟩
    rw [price, if_neg (by omega), Int.natAbs_neg]

-- At ten steps to a percent the prices end at bin 44383, with the greatest that fits 128 bits, and at
-- its mirror image, with a single unit.
theorem priceOf_symmetric_mono_ten :
    (0 : Int) < 10 ∧ priceOf 44384 10 = .error (.invalid .priceUnderflow) ∧
    ∃ low high, priceOf (-44383) 10 = .ok low ∧ priceOf 44383 10 = .ok high ∧
      low ≤ high ∧ high = maxU128 / low ∧ low = 1 := by
  have hs : (0 : Int) < 10 := by decide
  have hlow : priceOf (-44383) 10 = .ok 1 := by decide +kernel
  have hhigh : priceOf 44383 10 = .ok maxU128 := by decide +kernel
  have hnone : priceOf 44384 10 = .error (.invalid .priceUnderflow) := by decide +kernel
  have ⟨_, _, _, _, hrising, hmirrored⟩ := priceOf_symmetric_mono hs
  have ⟨low, hl, he⟩ := hmirrored 44383 _ (by decide) hhigh
  cases hlow.symm.trans hl
  exact ⟨hs, hnone, 1, _, hlow, hhigh, hrising _ _ _ _ (by decide) hlow hhigh, he, rfl⟩

end BinMarket.Ledger
