import BinMarket.Proofs.Decimal.Finish

/-!
Operations on finite numbers are rounded correctly: each of them ends with the rounding of its exact
result, or is refused for its size.
-/

namespace BinMarket.Decimal

variable {p c c₁ c₂ : Nat} {e n : ℤ} {x y : Decimal}

theorem turn_mul_turn (s t : Bool) (a b : ℝ) : turn s a * turn t b = turn (s != t) (a * b) := by
  cases s <;> cases t <;> simp [turn]

theorem turn_div_turn (s t : Bool) (a b : ℝ) : turn s a / turn t b = turn (s != t) (a / b) := by
  cases s <;> cases t <;> simp [turn, neg_div, div_neg]

theorem mul_rounded (hp : 0 < p) (hx : x.IsFinite) (hy : y.IsFinite) :
    Rounded p (x.value * y.value) (mul p x y) := by
  cases hx
  cases hy
  rw [value_finite, value_finite, turn_mul_turn]
  refine finish_rounded hp (.exactly ?_) _
  rw [zpow_add₀ (by norm_num)]
  push_cast
  ring

theorem value_reduce (ideal : ℤ) (c : Nat) (e : ℤ) :
    ((reduce ideal c e).1 * 10 ^ (reduce ideal c e).2 : ℝ) = c * 10 ^ e := by
  fun_induction reduce ideal c e
  case case1 c e h ih =>
    obtain ⟨b, rfl⟩ := Nat.dvd_of_mod_eq_zero h.right.left
    rw [ih, Nat.mul_div_cancel_left b (by decide), zpow_add_one₀ (by norm_num)]
    push_cast
    ring
  case case2 => rfl

theorem natCast_tenTo_div (k : ℤ) : (tenTo k.toNat / tenTo (-k).toNat : ℝ) = 10 ^ k := by
  rcases le_total 0 k with hk | hk
  · rw [natCast_tenTo_toNat hk, Int.toNat_of_nonpos (by omega), tenTo_zero, Nat.cast_one, div_one]
  · rw [natCast_tenTo_toNat (show 0 ≤ -k by omega), Int.toNat_of_nonpos hk, tenTo_zero,
      Nat.cast_one, one_div, zpow_neg, inv_inv]

-- A quotient that does not come out even stands between two multiples of five, next to the last
-- digit that is worked out.
theorem stands_of_quotient {a b : Nat} (hb : 0 < b) (hbig : 10 ^ p * b ≤ a) (hm : a % b ≠ 0) :
    Stands p (if a / b % 5 = 0 then a / b + 1 else a / b) e (a / b * 10 ^ e) := by
  have hdm := Nat.div_add_mod a b
  have hml := Nat.mod_lt a hb
  have hb' : (0 : ℝ) < b := Nat.cast_pos.mpr hb
  have hu := ten_zpow_pos e
  have hq := (Nat.le_div_iff_mul_le hb).mpr hbig
  have hlow : ((a / b : Nat) : ℝ) < a / b := by
    rw [lt_div_iff₀ hb', mul_comm]
    exact_mod_cast (show b * (a / b) < a by omega)
  have hhigh : (a / b : ℝ) < (a / b : Nat) + 1 := by
    rw [div_lt_iff₀ hb', add_mul, one_mul, mul_comm]
    exact_mod_cast (show a < b * (a / b) + b by omega)
  generalize a / b = q at *
  have hfive : (5 * (q / 5 : Nat) : ℝ) ≤ q := by exact_mod_cast (show 5 * (q / 5) ≤ q by omega)
  have hnext : (q + 1 : ℝ) ≤ 5 * (q / 5 : Nat) + 5 := by
    exact_mod_cast (show q + 1 ≤ 5 * (q / 5) + 5 by omega)
  refine .between (a := q / 5) ?_ ?_ ?_ (mul_lt_mul_of_pos_right (by linarith) hu)
    (mul_lt_mul_of_pos_right (by linarith) hu)
  all_goals split <;> omega

theorem divCoefficients_stands (h₁ : 0 < c₁) (h₂ : 0 < c₂) (ideal : ℤ) :
    Stands p (divCoefficients p c₁ c₂ ideal).1 (divCoefficients p c₁ c₂ ideal).2
      (c₁ / c₂ * 10 ^ ideal) := by
  unfold divCoefficients
  dsimp only
  obtain ⟨k, hk⟩ : ∃ k : ℤ, k = digitCount c₂ - digitCount c₁ + p + 1 := ⟨_, rfl⟩
  rw [←hk]
  have hpos : 0 < c₂ * tenTo (-k).toNat := Nat.mul_pos h₂ (tenTo_pos _)
  have hquot : (c₁ / c₂ * 10 ^ ideal : ℝ) =
      (c₁ * tenTo k.toNat : Nat) / (c₂ * tenTo (-k).toNat : Nat) * 10 ^ (ideal - k) := by
    have hz : (10 : ℝ) ^ ideal = 10 ^ k * 10 ^ (ideal - k) := by
      rw [←zpow_add₀ (by norm_num), add_sub_cancel]
    rw [hz, ←natCast_tenTo_div k]
    push_cast
    ring
  have hbig : 10 ^ p * (c₂ * tenTo (-k).toNat) ≤ c₁ * tenTo k.toNat := by
    have hd := digitCount_pos c₁
    calc 10 ^ p * (c₂ * tenTo (-k).toNat)
      _ ≤ tenTo p * (tenTo (digitCount c₂) * tenTo (-k).toNat) :=
        Nat.mul_le_mul_left _ (Nat.mul_le_mul_right _ (lt_tenTo_digitCount c₂).le)
      _ = tenTo (digitCount c₁ - 1) * tenTo k.toNat := by
        rw [←tenTo_add, ←tenTo_add, ←tenTo_add]
        congr 1
        omega
      _ ≤ c₁ * tenTo k.toNat := Nat.mul_le_mul_right _ (tenTo_le_of_digitCount h₁)
  rw [hquot]
  generalize c₁ * tenTo k.toNat = a at *
  generalize c₂ * tenTo (-k).toNat = b at *
  split
  case isFalse hm => exact stands_of_quotient hpos hbig hm
  case isTrue hm  =>
    refine .exactly ?_
    have ha : (a : ℝ) = (a / b : Nat) * b := by
      exact_mod_cast (Nat.div_mul_cancel (Nat.dvd_of_mod_eq_zero hm)).symm
    rw [value_reduce, (div_eq_iff (Nat.cast_ne_zero.mpr hpos.ne')).mpr ha]

theorem div_rounded (hp : 0 < p) (hx : x.IsFinite) (hy : y.IsFinite) (hy₀ : y.value ≠ 0) :
    Rounded p (x.value / y.value) (div p x y) := by
  cases hx
  case intro s₁ c₁ e₁ =>
  cases hy
  case intro s₂ c₂ e₂ =>
  have h₂ : c₂ ≠ 0 := by
    rintro rfl
    cases s₂ <;> simp [value, signed] at hy₀
  rw [value_finite, value_finite, turn_div_turn]
  simp only [div, nanResult?]
  rw [if_neg h₂]
  split
  case isTrue h₁ =>
    refine finish_rounded hp (.exactly ?_) _
    simp [h₁]
  case isFalse h₁ =>
    refine finish_rounded hp ?_ _
    convert divCoefficients_stands (p := p) (Nat.pos_of_ne_zero h₁) (Nat.pos_of_ne_zero h₂)
      (e₁ - e₂) using 1
    rw [zpow_sub₀ (by norm_num), mul_div_mul_comm]

theorem finish_signed_rounded (hp : 0 < p) (n e : ℤ) :
    Rounded p (n * 10 ^ e) (finish p (n < 0) n.natAbs e) := by
  have h := finish_rounded (p := p) hp (c := n.natAbs) (e := e) (.exactly rfl) (decide (n < 0))
  rwa [turn_eq, ←mul_assoc, ←Int.cast_natCast (n.natAbs), ←Int.cast_mul, ←signed_eq,
    signed_natAbs] at h

theorem finish_signed (p : Nat) (s : Bool) {c : Nat} (hc : 0 < c) (e : ℤ) :
    finish p (signed s c < 0) (signed s c).natAbs e = finish p s c e := by
  cases s
  case false => simp [signed, not_lt.mpr (Int.natCast_nonneg c)]
  case true  => simp [signed, hc]

-- What lies wholly below the last digit that rounding looks at moves a multiple of ten by less than
-- one, and one unit does the same.
theorem stands_of_far {N : Nat} (hN : 10 ∣ N) (hbig : 10 ^ (p + 1) ≤ N) {w : ℝ} (h₀ : 0 < w)
    (h₁ : w < 10 ^ e) :
    Stands p (N + 1) e (N * 10 ^ e + w) ∧ Stands p (N - 1) e (N * 10 ^ e - w) := by
  obtain ⟨q, rfl⟩ := hN
  have hp : 1 ≤ 10 ^ p := Nat.one_le_pow _ _ (by decide)
  rw [pow_succ] at hbig
  have hq : ((10 * q : Nat) : ℝ) * 10 ^ e = 10 * (q * 10 ^ e) := by
    push_cast
    ring
  constructor
  · refine .between (a := 2 * q) (by omega) (by omega) (by omega) ?_ ?_
    · push_cast
      linarith
    · push_cast
      linarith
  · obtain ⟨r, rfl⟩ : ∃ r, q = r + 1 := ⟨q - 1, by omega⟩
    refine .between (a := 2 * r + 1) (by omega) (by omega) (by omega) ?_ ?_
    · push_cast at *
      linarith
    · push_cast at *
      linarith

-- A coefficient that is moved to a smaller exponent gets as many more digits.
theorem value_align {k : ℤ} (hk : k ≤ e) (s : Bool) (c : Nat) :
    ((finite s c e).value : ℝ) = signed s (c * tenTo (e - k).toNat) * 10 ^ k := by
  have hz : (10 : ℝ) ^ e = tenTo (e - k).toNat * 10 ^ k := by
    rw [natCast_tenTo_toNat (by omega), ←zpow_add₀ (by norm_num), sub_add_cancel]
  rw [value, signed_eq s c, signed_eq s (_ * _)]
  push_cast
  rw [hz]
  ring

-- One unit stands for all that lies below it, whether it is added or taken away.
theorem finish_far_rounded (hp : 0 < p) {N : Nat} (hN : 10 ∣ N) (hbig : 10 ^ (p + 1) ≤ N)
    {w : ℝ} (h₀ : 0 < w) (h₁ : w < 10 ^ e) (s s' : Bool) :
    Rounded p (signed s N * 10 ^ e + turn s' w)
      (finish p (signed s N + signed s' 1 < 0) (signed s N + signed s' 1).natAbs e) := by
  obtain ⟨hplus, hminus⟩ := stands_of_far hN hbig h₀ h₁
  have hN₁ : 1 < N := lt_of_lt_of_le (Nat.one_lt_pow (by omega) (by decide)) hbig
  by_cases hs : s' = s
  case pos =>
    have hsum : signed s N + signed s 1 = signed s (N + 1 : Nat) := by
      cases s <;> simp [signed]
      omega
    rw [hs, hsum, finish_signed p s (by omega)]
    convert finish_rounded hp hplus s using 1
    rw [turn_eq, turn_eq, signed_eq s N]
    push_cast
    ring
  case neg =>
    obtain rfl : s' = !s := by
      cases s <;> cases s' <;> simp at hs ⊢
    have hsum : signed s N + signed (!s) 1 = signed s (N - 1 : Nat) := by
      cases s <;> simp [signed] <;> omega
    rw [hsum, finish_signed p s (by omega)]
    convert finish_rounded hp hminus s using 1
    cases s <;> simp only [turn, signed, Bool.not_true, Bool.not_false] <;> push_cast <;> ring

theorem addAligned_rounded (hp : 0 < p) {s₁ s₂ : Bool} {e₁ e₂ : ℤ} (h₁ : 0 < c₁) (h₂ : 0 < c₂)
    (he : e₂ ≤ e₁) : Rounded p ((finite s₁ c₁ e₁).value + (finite s₂ c₂ e₂).value)
      (addAligned p s₁ c₁ e₁ s₂ c₂ e₂) := by
  unfold addAligned
  dsimp only
  obtain ⟨f, hf⟩ : ∃ f : ℤ, f = e₁ + min (-1) ((digitCount c₁ : ℤ) - p - 2) := ⟨_, rfl⟩
  rw [←hf]
  split
  case isFalse =>
    have h := finish_signed_rounded hp (signed s₁ (c₁ * tenTo (e₁ - e₂).toNat) + signed s₂ c₂) e₂
    convert h using 1
    rw [value_align he, value]
    push_cast
    ring
  case isTrue hfar =>
    dsimp only
    rw [value_align (show f ≤ e₁ by omega), value_finite]
    have hw₀ : (0 : ℝ) < c₂ * 10 ^ e₂ := mul_pos (Nat.cast_pos.mpr h₂) (ten_zpow_pos e₂)
    have hw₁ : (c₂ * 10 ^ e₂ : ℝ) < 10 ^ f := by
      rw [adjusted] at hfar
      exact natCast_mul_lt (lt_tenTo_digitCount c₂) (by omega)
    refine finish_far_rounded hp ?_ ?_ hw₀ hw₁ s₁ s₂
    · obtain ⟨i, hi⟩ : ∃ i, (e₁ - f).toNat = i + 1 := ⟨(e₁ - f).toNat - 1, by omega⟩
      rw [hi, tenTo_succ]
      exact Dvd.dvd.mul_left (Nat.dvd_mul_right ..) _
    · have hd := digitCount_pos c₁
      calc 10 ^ (p + 1)
        _ ≤ tenTo (digitCount c₁ - 1 + (e₁ - f).toNat) := tenTo_le_tenTo (show p + 1 ≤ _ by omega)
        _ ≤ c₁ * tenTo (e₁ - f).toNat := by
          rw [tenTo_add]
          exact Nat.mul_le_mul_right _ (tenTo_le_of_digitCount h₁)

theorem pad_rounded (hp : 0 < p) (s : Bool) (c : Nat) (e wanted : ℤ) :
    Rounded p (finite s c e).value (pad p s c e wanted) := by
  rw [value_finite]
  refine finish_rounded hp (.exactly ?_) s
  push_cast
  rw [natCast_tenTo_toNat (by omega), mul_assoc, ←zpow_add₀ (by norm_num), sub_add_cancel]

theorem add_rounded (hp : 0 < p) (hx : x.IsFinite) (hy : y.IsFinite) :
    Rounded p (x.value + y.value) (add p x y) := by
  cases hx
  case intro s₁ c₁ e₁ =>
  cases hy
  case intro s₂ c₂ e₂ =>
  have hzero (s : Bool) (e : ℤ) : ((finite s 0 e).value : ℝ) = 0 := by simp [value, signed]
  simp only [add, nanResult?]
  split
  case isTrue hz =>
    obtain ⟨rfl, rfl⟩ := hz
    rw [hzero, hzero, add_zero, ←hzero (s₁ && s₂) (min e₁ e₂), value_finite]
    exact finish_rounded hp (.exactly rfl) _
  case isFalse =>
    split
    case isTrue hz =>
      subst hz
      rw [hzero, zero_add]
      exact pad_rounded hp ..
    case isFalse h₁ =>
      split
      case isTrue hz =>
        subst hz
        rw [hzero, add_zero]
        exact pad_rounded hp ..
      case isFalse h₂ =>
        have h₁ := Nat.pos_of_ne_zero h₁
        have h₂ := Nat.pos_of_ne_zero h₂
        split
        case isTrue hlt =>
          rw [add_comm]
          exact addAligned_rounded hp h₂ h₁ hlt.le
        case isFalse hle => exact addAligned_rounded hp h₁ h₂ (not_lt.mp hle)

end BinMarket.Decimal
