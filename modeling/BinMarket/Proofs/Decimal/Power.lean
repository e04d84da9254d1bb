import BinMarket.Proofs.Decimal.Operations

/-!
Powers of positive numbers are rounded correctly. Brackets hold what they were made around, so an
end that both of their limits round to is the rounding of the power itself.
-/

namespace BinMarket.Decimal

variable {p w c n : Nat} {e : ℤ} {u v : ℝ} {a b : Bracket} {r : Except Failure Decimal}
  {x : Decimal}

namespace Bracket

structure Holds (b : Bracket) (v : ℝ) : Prop where
  lower : b.lower * 10 ^ b.exponent ≤ v
  upper : v ≤ b.upper * 10 ^ b.exponent

theorem Holds.nonneg (h : b.Holds v) : 0 ≤ v :=
  le_trans (coefficient_nonneg _ _) h.lower

theorem holds_exactly (c : Nat) (e : ℤ) : (exactly c e).Holds (c * 10 ^ e) :=
  ⟨le_rfl, le_rfl⟩

theorem Holds.trim (h : b.Holds v) (w : Nat) : (b.trim w).Holds v := by
  have hz (k : Nat) : (10 : ℝ) ^ (b.exponent + k) = tenTo k * 10 ^ b.exponent := by
    rw [natCast_tenTo, zpow_add₀ (by norm_num), zpow_natCast, mul_comm]
  constructor
  case lower =>
    refine le_trans ?_ h.lower
    simp only [Bracket.trim]
    rw [hz, ←mul_assoc]
    refine mul_le_mul_of_nonneg_right ?_ (ten_zpow_pos _).le
    exact_mod_cast Nat.div_mul_le_self ..
  case upper =>
    refine h.upper.trans ?_
    simp only [Bracket.trim]
    rw [hz, ←mul_assoc]
    refine mul_le_mul_of_nonneg_right ?_ (ten_zpow_pos _).le
    exact_mod_cast le_ceilDiv_mul _ (tenTo_pos _)

theorem Holds.mul (ha : a.Holds u) (hb : b.Holds v) (w : Nat) : (a.mul w b).Holds (u * v) := by
  have hz : (10 : ℝ) ^ (a.exponent + b.exponent) = 10 ^ a.exponent * 10 ^ b.exponent :=
    zpow_add₀ (by norm_num) ..
  refine Holds.trim ⟨?lower, ?upper⟩ w
  case lower =>
    dsimp only
    rw [hz, Nat.cast_mul, mul_mul_mul_comm]
    exact mul_le_mul ha.lower hb.lower (coefficient_nonneg ..) ha.nonneg
  case upper =>
    dsimp only
    rw [hz, Nat.cast_mul, mul_mul_mul_comm]
    exact mul_le_mul ha.upper hb.upper hb.nonneg (coefficient_nonneg ..)

theorem Holds.pow (h : b.Holds v) (w n : Nat) : (b.pow w n).Holds (v ^ n) := by
  fun_induction Bracket.pow w b n
  case case1 => simpa using holds_exactly 1 0
  case case2 n _ half square he ih =>
    have hn : v ^ n = v ^ (n / 2) * v ^ (n / 2) := by
      rw [←pow_add]
      congr 1
      omega
    rw [hn]
    exact ih.mul ih w
  case case3 n _ half square ho ih =>
    have hn : v ^ n = v ^ (n / 2) * v ^ (n / 2) * v := by
      rw [←pow_add, ←pow_succ]
      congr 1
      omega
    rw [hn]
    exact (ih.mul ih w).mul h w

theorem holds_inverse (w : Nat) (hc : 0 < c) (e : ℤ) :
    (inverse w c e).Holds (c * 10 ^ e : ℝ)⁻¹ := by
  have hc' : (0 : ℝ) < c := Nat.cast_pos.mpr hc
  unfold inverse
  dsimp only
  generalize w + digitCount c = k
  have hinv : (c * 10 ^ e : ℝ)⁻¹ = (tenTo k / c : ℝ) * 10 ^ (-e - k) := by
    rw [natCast_tenTo, zpow_sub₀ (by norm_num), zpow_neg, zpow_natCast, mul_inv]
    field_simp
  rw [hinv]
  have hdm := Nat.div_add_mod (tenTo k) c
  have hml := Nat.mod_lt (tenTo k) hc
  generalize tenTo k = t at *
  have hu := ten_zpow_pos (-e - k)
  split
  case isTrue hz =>
    have ht : (t / c : ℝ) = (t / c : Nat) := by
      rw [div_eq_iff hc'.ne', mul_comm]
      exact_mod_cast (show t = c * (t / c) by omega)
    rw [ht, ←value_reduce (-e)]
    exact holds_exactly ..
  case isFalse =>
    constructor
    case lower =>
      refine mul_le_mul_of_nonneg_right ?_ hu.le
      rw [le_div_iff₀ hc', mul_comm]
      exact_mod_cast (show c * (t / c) ≤ t by omega)
    case upper =>
      refine mul_le_mul_of_nonneg_right ?_ hu.le
      rw [div_le_iff₀ hc', mul_comm]
      exact_mod_cast (show t ≤ c * (t / c + 1) by rw [Nat.mul_add]; omega)

theorem Holds.rounded (h : b.Holds v) (hp : 0 < p) (hr : b.settle? p false = some r) :
    Rounded p v r := by
  have ⟨hlow, hhigh⟩ := settle?_eq_some_iff.mp hr
  have hl := finish_rounded hp (.exactly rfl) false (c := b.lower) (e := b.exponent)
  have hu := finish_rounded hp (.exactly rfl) false (c := b.upper) (e := b.exponent)
  rw [hlow] at hl
  rw [hhigh] at hu
  exact hl.between hu (coefficient_nonneg _ _) h.lower h.upper

end Bracket

theorem natAbs_pow_of_neg {n : ℤ} (hn : n < 0) (v : ℝ) : v⁻¹ ^ n.natAbs = v ^ n := by
  rw [inv_pow, ←zpow_natCast, ←zpow_neg]
  congr 1
  omega

theorem natAbs_pow_of_nonneg {n : ℤ} (hn : 0 ≤ n) (v : ℝ) : v ^ n.natAbs = v ^ n := by
  rw [←zpow_natCast]
  congr 1
  omega

theorem holds_powerBracket (w : Nat) (hc : 0 < c) (e n : ℤ) :
    (powerBracket w c e n).Holds ((c * 10 ^ e) ^ n) := by
  unfold powerBracket
  dsimp only
  split
  case isTrue hn =>
    rw [←natAbs_pow_of_neg hn]
    exact (Bracket.holds_inverse w hc e).pow ..
  case isFalse hn =>
    rw [←natAbs_pow_of_nonneg (not_lt.mp hn)]
    exact (Bracket.holds_exactly c e).pow ..

theorem wholePower_rounded (hp : 0 < p) (hc : 0 < c) (e n : ℤ) :
    Rounded p ((c * 10 ^ e) ^ n) (wholePower p c e n) := by
  unfold wholePower
  split
  case isTrue hn =>
    have h := divCoefficients_stands (p := p) one_pos (Nat.pow_pos hc (n := n.natAbs))
      (-(e * n.natAbs))
    have hv : ((c * 10 ^ e) ^ n : ℝ) =
        turn false (((1 : Nat) / (c ^ n.natAbs : Nat) : ℝ) * 10 ^ (-(e * n.natAbs))) := by
      rw [←natAbs_pow_of_neg hn, turn, if_neg (by decide), inv_pow, mul_pow, zpow_neg, zpow_mul,
        zpow_natCast]
      push_cast
      rw [mul_inv, one_div]
    rw [hv]
    exact finish_rounded hp h false
  case isFalse hn =>
    have hv : ((c * 10 ^ e) ^ n : ℝ) = turn false ((c ^ n.natAbs : Nat) * 10 ^ (e * n)) := by
      rw [turn, if_neg (by decide), mul_zpow, zpow_mul,
        ←natAbs_pow_of_nonneg (not_lt.mp hn) (c : ℝ)]
      push_cast
      rfl
    rw [hv]
    exact finish_rounded hp (.exactly rfl) false

theorem power_rounded (hp : 0 < p) (hx : x.IsFinite) (h₀ : 0 < x.value) (n : ℤ) :
    Rounded p (x.value ^ n) (power p x n) := by
  have ⟨c, e, he, hc, hv⟩ := hx.exists_of_pos h₀
  rw [hv, he]
  simp only [power]
  rw [if_neg hc.ne']
  split
  case h_1 hs => exact (holds_powerBracket _ hc e n).rounded hp hs
  case h_2 =>
    split
    case h_1 hs => exact (holds_powerBracket _ hc e n).rounded hp hs
    case h_2    => exact wholePower_rounded hp hc e n

end BinMarket.Decimal
