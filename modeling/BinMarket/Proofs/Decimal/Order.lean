import BinMarket.Proofs.Decimal.Finish
import Mathlib.Algebra.Order.Ring.Cast

/-!
The order of finite numbers is that of their values. Leading digits decide where they can, and where
they do not the coefficients are brought to one exponent.
-/

namespace BinMarket.Decimal

variable {c₁ c₂ : Nat} {e₁ e₂ : ℤ} {x y : Decimal}

theorem adjusted_le (hc : 0 < c₁) : (10 : ℝ) ^ adjusted c₁ e₁ ≤ c₁ * 10 ^ e₁ :=
  (Stands.exactly (p := 1) rfl).lead_le one_pos hc

theorem lt_adjusted (c : Nat) (e : ℤ) : (c * 10 ^ e : ℝ) < 10 ^ (adjusted c e + 1) :=
  natCast_mul_lt (lt_tenTo_digitCount c) (by rw [adjusted]; omega)

theorem lt_of_adjusted_lt (h₂ : 0 < c₂) (h : adjusted c₁ e₁ < adjusted c₂ e₂) :
    (c₁ * 10 ^ e₁ : ℝ) < c₂ * 10 ^ e₂ :=
  calc (c₁ * 10 ^ e₁ : ℝ)
    _ < 10 ^ (adjusted c₁ e₁ + 1) := lt_adjusted c₁ e₁
    _ ≤ 10 ^ adjusted c₂ e₂ := zpow_le_zpow_right₀ (by norm_num) h
    _ ≤ c₂ * 10 ^ e₂ := adjusted_le h₂

-- Two coefficients at the smaller one of their exponents.
theorem cmp_aligned (c₁ c₂ : Nat) (e₁ e₂ : ℤ) :
    compare (c₁ * tenTo (e₁ - e₂).toNat) (c₂ * tenTo (e₂ - e₁).toNat) =
      cmp (c₁ * 10 ^ e₁ : ℝ) (c₂ * 10 ^ e₂) := by
  have haligned (c : Nat) {e k : ℤ} (hk : k = min e₁ e₂) (he : k ≤ e) :
      (c * 10 ^ e : ℝ) = (c * tenTo (e - k).toNat : Nat) * 10 ^ k := by
    push_cast
    rw [natCast_tenTo_toNat (by omega), mul_assoc, ←zpow_add₀ (by norm_num), sub_add_cancel]
  rw [haligned c₁ rfl (min_le_left ..), haligned c₂ rfl (min_le_right ..),
    cmp_mul_pos_right (ten_zpow_pos _), Nat.strictMono_cast.cmp_map_eq, cmp_eq_compare]
  congr 3 <;> omega

theorem compareSizes_eq (h₁ : 0 < c₁) (h₂ : 0 < c₂) :
    compareSizes c₁ e₁ c₂ e₂ = cmp (c₁ * 10 ^ e₁ : ℝ) (c₂ * 10 ^ e₂) := by
  rcases lt_trichotomy (adjusted c₁ e₁) (adjusted c₂ e₂) with hlt | heq | hgt
  · rw [compareSizes, compare_lt_iff_lt.mpr hlt]
    exact ((cmp_eq_lt_iff ..).mpr (lt_of_adjusted_lt h₂ hlt)).symm
  · rw [compareSizes, compare_eq_iff_eq.mpr heq]
    exact cmp_aligned c₁ c₂ e₁ e₂
  · rw [compareSizes, compare_gt_iff_gt.mpr hgt]
    exact ((cmp_eq_gt_iff ..).mpr (lt_of_adjusted_lt h₁ hgt)).symm

-- Numbers on the two sides of zero compare as their coefficients do, whatever the exponents are.
theorem cmp_of_signs {m n : ℤ} {u w : ℝ} (hu : 0 < u) (hw : 0 < w) (hm : m ≤ 0) (hn : 0 ≤ n) :
    compare m n = cmp (m * u) (n * w) := by
  rcases hm.eq_or_lt with rfl | hneg
  case inl =>
    have h := (Int.cast_strictMono (R := ℝ)).cmp_map_eq 0 n
    rw [Int.cast_zero] at h ⊢
    rw [zero_mul, ←zero_mul w, cmp_mul_pos_right hw, h, cmp_eq_compare]
  case inr =>
    have hneg' : (m : ℝ) < 0 := by exact_mod_cast hneg
    have hn' : (0 : ℝ) ≤ n := by exact_mod_cast hn
    have hlt := (mul_neg_of_neg_of_pos hneg' hu).trans_le (mul_nonneg hn' hw.le)
    rw [compare_lt_iff_lt.mpr (hneg.trans_le hn), (cmp_eq_lt_iff ..).mpr hlt]

theorem order_eq (hx : x.IsFinite) (hy : y.IsFinite) :
    order x y = .ok (compare x.value y.value) := by
  cases hx
  case intro s₁ c₁ e₁ =>
  cases hy
  case intro s₂ c₂ e₂ =>
  have hvalue (s : Bool) (c : Nat) (e : ℤ) :
      ((finite s c e).value : ℝ) = signed s c * 10 ^ e := by
    rw [value]
    push_cast
    rfl
  have hcast (a b : ℚ) : compare a b = cmp (a : ℝ) b := by
    rw [Rat.cast_strictMono.cmp_map_eq, cmp_eq_compare]
  simp only [order]
  split
  case isTrue h =>
    have hsigns : signed s₁ c₁ ≤ 0 ∧ 0 ≤ signed s₂ c₂ ∨ signed s₂ c₂ ≤ 0 ∧ 0 ≤ signed s₁ c₁ := by
      cases s₁ <;> cases s₂ <;> simp only [signed] <;> simp at h <;> simp <;> omega
    have hu₁ := ten_zpow_pos e₁
    have hu₂ := ten_zpow_pos e₂
    rw [hcast, hvalue, hvalue]
    rcases hsigns with ⟨h₁, h₂⟩ | ⟨h₂, h₁⟩
    · rw [cmp_of_signs hu₁ hu₂ h₁ h₂]
    · rw [←cmp_eq_compare, ←cmp_swap, cmp_eq_compare, cmp_of_signs hu₂ hu₁ h₂ h₁, cmp_swap]
  case isFalse h =>
    obtain ⟨h₁, h₂, rfl⟩ : c₁ ≠ 0 ∧ c₂ ≠ 0 ∧ s₁ = s₂ := by simpa using h
    have h₁ := Nat.pos_of_ne_zero h₁
    have h₂ := Nat.pos_of_ne_zero h₂
    rw [hcast, value_finite, value_finite]
    cases s₁
    case false =>
      rw [if_neg (by decide), compareSizes_eq h₁ h₂]
      rfl
    case true  =>
      rw [if_pos rfl, compareSizes_eq h₂ h₁]
      have hanti : StrictAnti fun v : ℝ => -v := strictMono_id.neg
      exact congrArg Except.ok (hanti.cmp_map_eq ..).symm

theorem gt_eq (hx : x.IsFinite) (hy : y.IsFinite) : x.gt y = .ok (decide (y.value < x.value)) := by
  rw [gt, order_eq hx hy]
  refine congrArg Except.ok ?_
  rw [Bool.beq_eq_decide_eq, decide_eq_decide, compare_gt_iff_gt]

theorem le_eq (hx : x.IsFinite) (hy : y.IsFinite) : x.le y = .ok (decide (x.value ≤ y.value)) := by
  rw [le, order_eq hx hy]
  refine congrArg Except.ok ?_
  rw [bne, Bool.beq_eq_decide_eq, ←decide_not, decide_eq_decide, compare_gt_iff_gt, not_lt]

theorem le_zero_eq_false_iff (hx : x.IsFinite) : x.le zero = .ok false ↔ 0 < x.value := by
  rw [le_eq hx (y := zero) .intro, value_zero, Except.ok.injEq, decide_eq_false_iff_not, not_le]

end BinMarket.Decimal
