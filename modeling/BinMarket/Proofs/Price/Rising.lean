import BinMarket.Proofs.Decimal.Order
import BinMarket.Proofs.Price.RoundTrip

/-!
Bin prices in order. A step is a great deal more than what rounding moves a price by, so a bin costs
more than every bin below it, and what one bin costs a bin as far on the other side of zero costs
the reciprocal of.
-/

namespace BinMarket.Price

open Decimal

variable {step low high bin : ℤ} {b x y : Decimal} {v w r s : ℝ}

-- Rounding to a number that has all of its digits moves a number by little more than half of a unit
-- in its last place, even one that is itself below the least normal number.
theorem near_of_rounds (h : Rounds digits v r) (hv : 0 < v) (hr : 10 ^ minExponent ≤ r) :
    |r - v| ≤ 6 / 10 ^ 50 * v := by
  have hnear := h.near (by decide)
  have hmax : max |v| (10 ^ minExponent) ≤ max v r := by
    rw [abs_of_pos hv]
    exact max_le_max_left v hr
  rw [unit_eq] at hnear
  have hhalf : |v - r| ≤ 1 / 10 ^ 49 / 2 * max v r :=
    hnear.trans (mul_le_mul_of_nonneg_left hmax (by norm_num))
  rw [abs_sub_comm]
  rcases max_choice v r with hm | hm <;> rw [hm] at hhalf
  · linarith
  · have := (abs_le.mp hhalf).left
    linarith

-- Numbers that are a ten thousandth apart stay apart.
theorem lt_of_rounds (h : Rounds digits v r) (h' : Rounds digits w s) (hv : 0 < v)
    (hs : 10 ^ minExponent ≤ s) (hvw : v * (10001 / 10000) ≤ w) : r < s := by
  by_contra! hle
  have hlow := (abs_le.mp (near_of_rounds h' (by linarith) hs)).left
  have hhigh := (abs_le.mp (near_of_rounds h hv (hs.trans hle))).right
  linarith

theorem exists_relative {e : ℝ} (hv : 0 < v) (h : |r - v| ≤ e * v) :
    ∃ c, |c| ≤ e ∧ r = v * (1 + c) := by
  refine ⟨(r - v) / v, ?_, ?_⟩
  · rwa [abs_div, abs_of_pos hv, div_le_iff₀ hv]
  · rw [mul_add, mul_one, mul_div_cancel₀ _ hv.ne', add_sub_cancel]

-- A number and its reciprocal, both rounded, are nearly reciprocals.
theorem mul_near_one (h : Rounds digits v r) (h' : Rounds digits v⁻¹ s) (hv : 0 < v)
    (hr : 10 ^ minExponent ≤ r) (hs : 10 ^ minExponent ≤ s) : |r * s - 1| ≤ 2 / 10 ^ 49 := by
  have hv' := inv_pos.mpr hv
  have ⟨c, hc, hrc⟩ := exists_relative hv (near_of_rounds h hv hr)
  have ⟨d, hd, hsd⟩ := exists_relative hv' (near_of_rounds h' hv' hs)
  have hcd : |c * d| ≤ 6 / 10 ^ 50 * (6 / 10 ^ 50) := by
    rw [abs_mul]
    exact mul_le_mul hc hd (abs_nonneg d) (by norm_num)
  have hprod : r * s - 1 = c + d + c * d := by
    rw [hrc, hsd, mul_mul_mul_comm, mul_inv_cancel₀ hv.ne']
    ring
  rw [hprod]
  linarith [abs_add_three c d (c * d)]

-- Prices of bins of one step are roundings of powers of one base.
theorem exists_base (hx : ofBin step low = .ok x) (hy : ofBin step high = .ok y) :
    ∃ b : ℝ, 10001 / 10000 ≤ b ∧ Rounded digits (b ^ low) (.ok x) ∧
      Rounded digits (b ^ high) (.ok y) := by
  have ⟨b, hb, hstep, _, hlow⟩ := value_of_ofBin hx
  have ⟨b', hb', _, _, hhigh⟩ := value_of_ofBin hy
  obtain rfl : b' = b := Except.ok.inj (hb'.symm.trans hb)
  exact ⟨b'.value, (base_bounds hstep hb).right.left, hlow, hhigh⟩

theorem ofBin_lt (hlt : low < high) (hx : ofBin step low = .ok x) (hy : ofBin step high = .ok y)
    (hnormal : y.IsNormal) : x.value < y.value := by
  have ⟨b, hb, hlow, hhigh⟩ := exists_base hx hy
  have hpos : 0 < b := by linarith
  have hstep : b ^ low * (10001 / 10000) ≤ b ^ high :=
    calc b ^ low * (10001 / 10000)
      _ ≤ b ^ low * b    := mul_le_mul_of_nonneg_left hb (zpow_nonneg hpos.le low)
      _ = b ^ (low + 1)  := (zpow_add_one₀ hpos.ne' low).symm
      _ ≤ b ^ high       := zpow_le_zpow_right₀ (by linarith) hlt
  have hleast := low_of_isNormal hhigh (zpow_nonneg hpos.le high) hnormal
  exact_mod_cast lt_of_rounds hlow.rounds hhigh.rounds (zpow_pos hpos low) hleast hstep

theorem ofBin_mul_ofBin_neg (hx : ofBin step bin = .ok x) (hy : ofBin step (-bin) = .ok y)
    (hnormal : x.IsNormal) (hnormal' : y.IsNormal) : |x.value * y.value - 1| ≤ 2 / 10 ^ 49 := by
  have ⟨b, hb, hthere, hback⟩ := exists_base hx hy
  have hpos : 0 < b := by linarith
  have hx₀ := low_of_isNormal hthere (zpow_nonneg hpos.le _) hnormal
  have hy₀ := low_of_isNormal hback (zpow_nonneg hpos.le _) hnormal'
  rw [zpow_neg] at hback
  have h := mul_near_one hthere.rounds hback.rounds (zpow_pos hpos bin) hx₀ hy₀
  rw [←Rat.cast_le (K := ℝ)]
  push_cast
  exact h

-- Of two bins of one step that both have a price the upper one costs more, as numbers and as
-- decimals, unless its price is below the normal numbers and has lost digits. Two bins as far on
-- both sides of zero have prices whose product is one but for two units in the last place.
theorem ofBin_rising_reciprocal (step : ℤ) :
    (∀ low high x y, low < high → ofBin step low = .ok x → ofBin step high = .ok y →
      y.IsNormal → x.value < y.value ∧ y.gt x = .ok true) ∧
    ∀ bin x y, ofBin step bin = .ok x → ofBin step (-bin) = .ok y → x.IsNormal → y.IsNormal →
      |x.value * y.value - 1| ≤ 2 / 10 ^ 49 := by
  refine ⟨?rising, fun _ _ _ => ofBin_mul_ofBin_neg⟩
  case rising =>
    intro low high x y hlt hx hy hnormal
    have h := ofBin_lt hlt hx hy hnormal
    exact ⟨h, by rw [gt_eq (isFinite_of_ofBin hy) (isFinite_of_ofBin hx), decide_eq_true h]⟩

-- Steps of a hundred percent: the last bin down with a normal price, the bin below it, which has
-- one digit less, and the bin as far above.
theorem ofBin_rising_reciprocal_edge : ∃ x y z,
    ofBin 10000 (-3321925) = .ok x ∧ ¬x.IsNormal ∧ ofBin 10000 (-3321924) = .ok y ∧ y.IsNormal ∧
    ofBin 10000 3321924 = .ok z ∧ z.IsNormal ∧ x.value < y.value ∧ y.gt x = .ok true ∧
    |z.value * y.value - 1| ≤ 2 / 10 ^ 49 := by
  have hx : ofBin 10000 (-3321925) =
      .ok (finite false 8543856181290429280856368684328086849476387468357 (-1000048)) := by
    decide +kernel
  have hy : ofBin 10000 (-3321924) =
      .ok (finite false 17087712362580858561712737368656173698952774936713 (-1000048)) := by
    decide +kernel
  have hz : ofBin 10000 3321924 =
      .ok (finite false 58521584328036059476483028975790812199694300307842 999949) := by
    decide +kernel
  have hx' :
      ¬IsNormal (finite false 8543856181290429280856368684328086849476387468357 (-1000048)) := by
    decide +kernel
  have hy' :
      IsNormal (finite false 17087712362580858561712737368656173698952774936713 (-1000048)) := by
    decide +kernel
  have hz' :
      IsNormal (finite false 58521584328036059476483028975790812199694300307842 999949) := by
    decide +kernel
  have ⟨hrising, hreciprocal⟩ := ofBin_rising_reciprocal 10000
  have ⟨hlt, hgt⟩ := hrising _ _ _ _ (by decide) hx hy hy'
  exact ⟨_, _, _, hx, hx', hy, hy', hz, hz', hlt, hgt, hreciprocal _ _ _ hz hy hz' hy'⟩

end BinMarket.Price
