import BinMarket.Proofs.Price.Ledger
import Mathlib.Algebra.Order.Field.Basic
import Mathlib.Algebra.Order.Field.Rat
import Mathlib.Tactic.Ring

/-!
How far the ledger's prices fall short of exact powers. Whatever is cut down is never above what it
stands for, and a product falls short by what its two factors do and one unit. So the shortfall of
the squares doubles with each digit of the exponent, and that of a power is two units for each bin.
-/

namespace BinMarket.Ledger

open FixedPoint

variable {base acc x y step : ℤ} {c d α β : ℚ} {n : ℕ}

theorem unit_pos : (0 : ℚ) < unit := by norm_num [unit]

-- A fixed point number that stands for `α`. It is not above it, and at most `d` units below.
structure Short (d : ℚ) (x : ℤ) (α : ℚ) : Prop where
  le    : x ≤ unit * α
  short : unit * α ≤ x + d

namespace Short

theorem nonneg (h : Short d x α) : 0 ≤ d := by
  have := h.le.trans h.short
  linarith

theorem one : Short 0 unit 1 where
  le    := by rw [mul_one]
  short := by rw [mul_one, add_zero]

-- The factors are at most one, so a product adds up what they fall short by, and cutting it down
-- takes less than one unit.
theorem times (hx : Short d x α) (hy : Short c y β) (hx₀ : 0 ≤ x) (hy₀ : 0 ≤ y) (hα : α ≤ 1)
    (hβ : β ≤ 1) : Short (d + c + 1) (times x y) (α * β) := by
  have hunit := unit_pos
  have hx₀ : (0 : ℚ) ≤ x := by exact_mod_cast hx₀
  have hy₀ : (0 : ℚ) ≤ y := by exact_mod_cast hy₀
  have hcut : (Ledger.times x y * unit : ℚ) ≤ x * y := by
    exact_mod_cast (le_mulShr_down_iff (k := places)).mp le_rfl
  have hnext : (x * y : ℚ) < (Ledger.times x y + 1) * unit := by
    exact_mod_cast lt_of_not_ge (mt le_mulShr_down_iff.mpr (not_le.mpr (lt_add_one _)))
  constructor
  case le =>
    refine le_of_mul_le_mul_right ?_ hunit
    calc (Ledger.times x y * unit : ℚ)
      _ ≤ x * y                 := hcut
      _ ≤ unit * α * (unit * β) := mul_le_mul hx.le hy.le hy₀ (hx₀.trans hx.le)
      _ = unit * (α * β) * unit := by ring
  case short =>
    have hleft : unit * (d * β) ≤ unit * d :=
      mul_le_mul_of_nonneg_left (mul_le_of_le_one_right hx.nonneg hβ) hunit.le
    have hright : x * c ≤ unit * c :=
      mul_le_mul_of_nonneg_right (hx.le.trans (mul_le_of_le_one_right hunit.le hα)) hy.nonneg
    refine le_of_mul_le_mul_right ?_ hunit
    calc unit * (α * β) * unit
      _ = unit * α * (unit * β)           := by ring
      _ ≤ (x + d) * (unit * β)            := mul_le_mul_of_nonneg_right hx.short (hy₀.trans hy.le)
      _ = x * (unit * β) + unit * (d * β) := by ring
      _ ≤ x * (y + c) + unit * d          :=
        add_le_add (mul_le_mul_of_nonneg_left hy.short hx₀) hleft
      _ ≤ (Ledger.times x y + (d + c + 1)) * unit := by linarith

-- The base falls short by less than `c` units and its square by less than twice as many. Each digit
-- of the exponent counts for as many bins as the base has been squared for.
theorem powerOf (hbase : Short (c - 1) base β) (hacc : Short d acc α) (hbase₀ : 0 ≤ base)
    (hacc₀ : 0 ≤ acc) (hα : α ≤ 1) (hβ : β ≤ 1) (n : ℕ) :
    Short (d + c * n) (powerOf base acc n) (α * β ^ n) := by
  have hβ₀ : 0 ≤ β := by
    have : (0 : ℚ) ≤ base := by exact_mod_cast hbase₀
    exact nonneg_of_mul_nonneg_right (this.trans hbase.le) unit_pos
  induction n using Nat.evenOddRec generalizing base acc c d α β
  case h0 => simpa using hacc
  case h_even n hi =>
    have hsquare := hbase.times hbase hbase₀ hbase₀ hβ hβ
    rw [show c - 1 + (c - 1) + 1 = 2 * c - 1 by ring] at hsquare
    rw [powerOf_two_mul]
    convert hi hsquare hacc (times_nonneg hbase₀ hbase₀) hacc₀ hα (mul_le_one₀ hβ hβ₀ hβ)
      (mul_nonneg hβ₀ hβ₀) using 1
    · push_cast
      ring
    · ring
  case h_odd n hi =>
    have hsquare := hbase.times hbase hbase₀ hbase₀ hβ hβ
    rw [show c - 1 + (c - 1) + 1 = 2 * c - 1 by ring] at hsquare
    have hprod := hacc.times hbase hacc₀ hbase₀ hα hβ
    rw [show d + (c - 1) + 1 = d + c by ring] at hprod
    rw [powerOf_two_mul_add_one]
    convert hi hsquare hprod (times_nonneg hbase₀ hbase₀) (times_nonneg hacc₀ hbase₀)
      (mul_le_one₀ hα hβ₀ hβ) (mul_le_one₀ hβ hβ₀ hβ) (mul_nonneg hβ₀ hβ₀) using 1
    · push_cast
      ring
    · ring

-- The greatest number of 128 bits is one less than the square of the unit. So the inverse of a base
-- that divides the square is one too small, and any other is only cut down.
theorem inverse (hs : 0 < step) : Short 1 (maxU128 / baseOf step) (unit / baseOf step) := by
  have hbase := unit_lt_baseOf hs
  have hbase₀ : 0 < baseOf step := lt_trans (by decide) hbase
  have hbase₀' : (0 : ℚ) < baseOf step := by exact_mod_cast hbase₀
  have hmax : (unit * unit : ℤ) = maxU128 + 1 := by decide
  constructor
  case le =>
    have hle := Int.ediv_mul_le maxU128 hbase₀.ne'
    rw [←mul_div_assoc, le_div_iff₀ hbase₀']
    exact_mod_cast show maxU128 / baseOf step * baseOf step ≤ unit * unit by omega
  case short =>
    have hlt := Int.lt_ediv_add_one_mul_self maxU128 hbase₀
    rw [←mul_div_assoc, div_le_iff₀ hbase₀']
    exact_mod_cast show unit * unit ≤ (maxU128 / baseOf step + 1) * baseOf step by omega

theorem descent (hs : 0 < step) (n : ℕ) :
    Short (2 * n) (descent step n) ((unit / baseOf step) ^ n) := by
  have hbase := unit_lt_baseOf hs
  have hbase₀ : (0 : ℚ) < baseOf step := by exact_mod_cast lt_trans (by decide) hbase
  have hone : (unit / baseOf step : ℚ) ≤ 1 := by
    rw [div_le_one hbase₀]
    exact_mod_cast hbase.le
  have h := Short.powerOf (c := 2) (by convert inverse hs; norm_num) .one (inverse_nonneg hs)
    (by decide) le_rfl hone n
  rwa [zero_add, one_mul] at h

end Short

-- The same without quotients, the power of the base on the other side.
theorem descent_accurate (hs : 0 < step) (n : ℕ) :
    descent step n * baseOf step ^ n ≤ 2 ^ (64 * (n + 1)) ∧
      2 ^ (64 * (n + 1)) ≤ (descent step n + 2 * n) * baseOf step ^ n := by
  have h := Short.descent hs n
  have hbase₀ : (0 : ℚ) < baseOf step := by exact_mod_cast lt_trans (by decide) (unit_lt_baseOf hs)
  have hpow : (0 : ℚ) < baseOf step ^ n := pow_pos hbase₀ n
  have hunit : (2 : ℤ) ^ (64 * (n + 1)) = unit * unit ^ n := by
    rw [pow_mul, pow_succ']
    rfl
  have hle := h.le
  have hshort := h.short
  rw [div_pow, ←mul_div_assoc] at hle hshort
  rw [le_div_iff₀ hpow] at hle
  rw [div_le_iff₀ hpow] at hshort
  rw [hunit]
  exact ⟨by exact_mod_cast hle, by exact_mod_cast hshort⟩

-- A bin below the middle has a price that is below the exact power of the base by at most two units
-- for each bin on the way, and never above it. Where the price falls to zero, the power itself is no
-- more than that.
theorem priceOf_accurate (hs : 0 < step) (hn : 0 < n) (hlt : n < maxExponent) :
    (∃ r, priceOf (-n) step = .ok r ∧ r * baseOf step ^ n ≤ 2 ^ (64 * (n + 1)) ∧
      2 ^ (64 * (n + 1)) ≤ (r + 2 * n) * baseOf step ^ n) ∨
    (priceOf (-n) step = .error (.invalid .priceUnderflow) ∧
      2 ^ (64 * (n + 1)) ≤ 2 * n * baseOf step ^ n) := by
  have ⟨hle, hshort⟩ := descent_accurate hs n
  rw [priceOf_eq hs, Int.natAbs_neg, Int.natAbs_natCast, if_neg (not_le.mpr hlt)]
  split
  case isTrue hz =>
    rw [hz, zero_add] at hshort
    exact .inr ⟨rfl, hshort⟩
  case isFalse hz =>
    refine .inl ⟨descent step n, ?_, hle, hshort⟩
    rw [price, if_neg (by omega), Int.natAbs_neg, Int.natAbs_natCast]

-- With a base of 101, nine bins below the middle the price is 16 units, and at the tenth it is gone.
theorem priceOf_accurate_steep :
    (0 : Int) < 1000000 ∧ 0 < 9 ∧ 9 < maxExponent ∧ 0 < 10 ∧ 10 < maxExponent ∧
    priceOf (-9) 1000000 = .ok 16 ∧
    16 * baseOf 1000000 ^ 9 ≤ 2 ^ 640 ∧ 2 ^ 640 ≤ (16 + 18) * baseOf 1000000 ^ 9 ∧
    priceOf (-10) 1000000 = .error (.invalid .priceUnderflow) ∧
    2 ^ 704 ≤ 20 * baseOf 1000000 ^ 10 := by
  have hs : (0 : Int) < 1000000 := by decide
  have hlast : priceOf (-9) 1000000 = .ok 16 := by decide +kernel
  have hnone : priceOf (-10) 1000000 = .error (.invalid .priceUnderflow) := by decide +kernel
  obtain ⟨r, hr, hle, hshort⟩ | ⟨hnone', _⟩ :=
    priceOf_accurate hs (show 0 < 9 by decide) (by decide)
  case inr => exact absurd (hlast.symm.trans hnone') nofun
  case inl =>
    cases hlast.symm.trans hr
    obtain ⟨r, hr, _⟩ | ⟨_, hgone⟩ := priceOf_accurate hs (show 0 < 10 by decide) (by decide)
    case inl => exact absurd (hnone.symm.trans hr) nofun
    case inr =>
      exact ⟨hs, by decide, by decide, by decide, by decide, hlast, hle, hshort, hnone, hgone⟩

end BinMarket.Ledger
