import BinMarket.Proofs.Decimal.Finish
import Mathlib.Algebra.Order.Floor.Semifield
import Mathlib.Data.Rat.Floor

/-!
Decimals and integers. The floor and the ceiling of a finite number are those of its value, and a
number that is cut to some places moves by half a unit of the last of them at most. All of this keeps
the order of numbers.
-/

namespace BinMarket.Decimal

variable {p : Nat} {c : Nat} {e k : ℤ} {x r : Decimal} {v v' w w' : ℝ}

theorem wholePart_eq (c : Nat) (e : ℤ) :
    wholePart c e = (⌊(c * 10 ^ e : ℚ)⌋₊, decide ((⌊(c * 10 ^ e : ℚ)⌋₊ : ℚ) ≠ c * 10 ^ e)) := by
  unfold wholePart
  split
  case isTrue he =>
    have hz : (c * 10 ^ e : ℚ) = (c * tenTo e.toNat : Nat) := by
      rw [tenTo, Nat.pow_eq, Nat.cast_mul, Nat.cast_pow, ←zpow_natCast, Int.toNat_of_nonneg he]
      rfl
    rw [hz, Nat.floor_natCast]
    simp
  case isFalse he =>
    obtain ⟨t, ht⟩ : ∃ t, t = tenTo (-e).toNat := ⟨_, rfl⟩
    have hpos : 0 < t := ht ▸ tenTo_pos _
    have hz : (c * 10 ^ e : ℚ) = c / t := by
      rw [ht, tenTo, Nat.pow_eq, Nat.cast_pow, div_eq_mul_inv, ←zpow_natCast, ←zpow_neg,
        Int.toNat_of_nonneg (by omega), neg_neg]
      rfl
    have hfraction : ((c / t : Nat) : ℚ) = c / t ↔ c % t = 0 := by
      have hdm := Nat.div_add_mod c t
      rw [eq_div_iff (Nat.cast_ne_zero.mpr hpos.ne'), mul_comm]
      norm_cast
      omega
    rw [hz, Nat.floor_div_eq_div, ←ht]
    have hdec : decide (((c / t : Nat) : ℚ) ≠ c / t) = (c % t != 0) := by
      rw [bne, Bool.beq_eq_decide_eq, ←decide_not, decide_eq_decide, ne_eq, hfraction]
    rw [hdec]
    split
    case isFalse => rfl
    case isTrue hshort =>
      -- a number below one is left whole as the fraction
      have hlt : c < t := (lt_tenTo_digitCount c).trans_le (ht ▸ tenTo_le_tenTo hshort.le)
      rw [Nat.div_eq_of_lt hlt, Nat.mod_eq_of_lt hlt]

theorem ceil_eq_natFloor {w : ℚ} (hw : 0 ≤ w) :
    ⌈w⌉ = ⌊w⌋₊ + if (⌊w⌋₊ : ℚ) ≠ w then 1 else 0 := by
  rw [Int.natCast_floor_eq_floor hw, natCast_floor_eq_intCast_floor hw]
  split
  case isTrue hne =>
    refine (Int.ceil_eq_floor_add_one_iff_notMem w).mpr ?_
    rintro ⟨n, rfl⟩
    exact hne (by simp)
  case isFalse heq =>
    rw [←not_not.mp heq, Int.floor_intCast, Int.ceil_intCast, add_zero]

theorem value_eq (s : Bool) (c : Nat) (e : ℤ) :
    (finite s c e).value = if s then -(c * 10 ^ e : ℚ) else c * 10 ^ e := by
  cases s <;> simp [value, signed]

theorem floor_eq (hx : x.IsFinite) : x.floor = .ok ⌊x.value⌋ := by
  cases hx
  case intro s c e =>
  have hw := coefficient_nonneg (K := ℚ) c e
  rw [floor, wholePart_eq, value_eq]
  cases s
  case false => simp [signed, Int.natCast_floor_eq_floor hw]
  case true  =>
    simp only [signed, if_true, Bool.true_and, decide_eq_true_eq, Int.floor_neg,
      ceil_eq_natFloor hw]
    congr 1
    omega

theorem ceil_eq (hx : x.IsFinite) : x.ceil = .ok ⌈x.value⌉ := by
  cases hx
  case intro s c e =>
  have hw := coefficient_nonneg (K := ℚ) c e
  rw [ceil, wholePart_eq, value_eq]
  cases s
  case false => simp [signed, ceil_eq_natFloor hw]
  case true  => simp [signed, Int.ceil_neg, Int.natCast_floor_eq_floor hw]

theorem isFinite_of_truncate {n : ℤ} (h : x.truncate = .ok n) : x.IsFinite := by
  cases x
  case finite => exact .intro
  all_goals contradiction

theorem truncate_eq (hx : x.IsFinite) :
    x.truncate = .ok (if 0 ≤ x.value then ⌊x.value⌋ else ⌈x.value⌉) := by
  cases hx
  case intro s c e =>
  have hw := coefficient_nonneg (K := ℚ) c e
  rw [truncate, wholePart_eq, value_eq]
  cases s
  case false => simp [signed, hw, Int.natCast_floor_eq_floor hw]
  case true  =>
    rcases hw.eq_or_lt with hzero | hpos
    · simp [signed, ←hzero]
    · simp [signed, not_le.mpr hpos, Int.ceil_neg, Int.natCast_floor_eq_floor hw]

theorem truncate_mono {v v' : ℚ} (h : v ≤ v') :
    (if 0 ≤ v then ⌊v⌋ else ⌈v⌉) ≤ if 0 ≤ v' then ⌊v'⌋ else ⌈v'⌉ := by
  by_cases hv : 0 ≤ v
  case pos =>
    rw [if_pos hv, if_pos (hv.trans h)]
    exact Int.floor_le_floor h
  case neg =>
    have hv₀ : ⌈v⌉ ≤ 0 := Int.ceil_le.mpr (by simpa using (not_le.mp hv).le)
    rw [if_neg hv]
    split
    case isTrue hv' => exact hv₀.trans (Int.floor_nonneg.mpr hv')
    case isFalse    => exact Int.ceil_le_ceil h

-- A number as it is when it was cut to its places down to `e`, half to even.
inductive Cut (e : ℤ) (v : ℝ) : ℝ → Prop
  | intro {n : ℤ} : |v - n * 10 ^ e| ≤ 10 ^ e / 2 → (|v - n * 10 ^ e| = 10 ^ e / 2 → Even n) →
    Cut e v (n * 10 ^ e)

namespace Cut

theorem near (h : Cut e v w) : |v - w| ≤ 10 ^ e / 2 := by
  cases h
  assumption

theorem on_grid (h : Cut e v w) : ∃ n : ℤ, w = n * 10 ^ e := by
  cases h
  exact ⟨_, rfl⟩

-- A greater number could only be cut to less half way between two places that are next to each
-- other, and there both are cut to the even one.
theorem mono (h : Cut e v w) (h' : Cut e v' w') (hv : v ≤ v') : w ≤ w' := by
  have hu := ten_zpow_pos e
  cases h
  case intro n hnear heven =>
  cases h'
  case intro n' hnear' heven' =>
  refine mul_le_mul_of_nonneg_right (Int.cast_le.mpr ?_) hu.le
  by_contra! hlt
  have ⟨h₁, h₂⟩ := abs_le.mp hnear
  have ⟨h₃, h₄⟩ := abs_le.mp hnear'
  have hone : n = n' + 1 := by
    refine le_antisymm ?_ hlt
    have : (n : ℝ) * 10 ^ e ≤ (n' + 1) * 10 ^ e := by linarith
    exact_mod_cast le_of_mul_le_mul_right this hu
  rw [hone] at h₁ h₂ heven
  push_cast at h₁ h₂ heven
  have ⟨a, ha⟩ := heven (by rw [abs_of_nonpos (by linarith)]; linarith)
  have ⟨b, hb⟩ := heven' (by rw [abs_of_nonneg (by linarith)]; linarith)
  omega

theorem turn (h : Cut e v w) (s : Bool) : Cut e (Decimal.turn s v) (Decimal.turn s w) := by
  cases s
  case false => exact h
  case true  =>
    cases h
    case intro n hnear heven =>
    have habs : |-v - (-n : ℤ) * 10 ^ e| = |v - n * 10 ^ e| := by
      rw [←abs_neg]
      push_cast
      congr 1
      ring
    have hneg := Cut.intro (e := e) (v := -v) (n := -n) (habs ▸ hnear) (habs ▸ fun h => (heven h).neg)
    rwa [Int.cast_neg, neg_mul] at hneg

end Cut

-- What a number is cut to, in units of the last place that is kept.
def units (c : Nat) (e₀ e : ℤ) : Nat :=
  if e ≤ e₀ then c * tenTo (e₀ - e).toNat else dropDigits c (e - e₀).toNat

theorem units_cut (c : Nat) (e₀ e : ℤ) : Cut e (c * 10 ^ e₀) (units c e₀ e * 10 ^ e) := by
  have hu := ten_zpow_pos e
  unfold units
  split
  case isTrue hle =>
    have hsame : (c * 10 ^ e₀ : ℝ) = (c * tenTo (e₀ - e).toNat : Nat) * 10 ^ e := by
      push_cast
      rw [natCast_tenTo_toNat (by omega), mul_assoc, ←zpow_add₀ (by norm_num), sub_add_cancel]
    rw [hsame, ←Int.cast_natCast (R := ℝ)]
    refine .intro ?_ ?_
    · rw [sub_self, abs_zero]
      linarith
    · rw [sub_self, abs_zero]
      intro h
      linarith
  case isFalse hlt =>
    have h := (Stands.exactly (p := 1) (c := c) (e := e₀) rfl).cut (j := (e - e₀).toNat) (by omega)
    rw [Int.toNat_of_nonneg (by omega), add_sub_cancel] at h
    rw [←Int.cast_natCast (R := ℝ)] at h ⊢
    exact .intro h.left fun heq => by exact_mod_cast h.right heq

theorem units_lt (hp : 0 < p) {e₀ : ℤ} (hlt : (c * 10 ^ e₀ : ℝ) < 10 ^ k) (hd : k < p + e) :
    units c e₀ e < tenTo p := by
  have hu := ten_zpow_pos e
  have hnear := (abs_le.mp (units_cut c e₀ e).near).left
  obtain ⟨q, rfl⟩ : ∃ q, p = q + 1 := ⟨p - 1, by omega⟩
  have hk : (10 : ℝ) ^ k ≤ 10 ^ q * 10 ^ e := by
    rw [←zpow_natCast, ←zpow_add₀ (by norm_num)]
    exact zpow_le_zpow_right₀ (by norm_num) (by omega)
  have h1 : (1 : ℝ) ≤ 10 ^ q := one_le_pow₀ (by norm_num)
  have hq : (units c e₀ e : ℝ) * 10 ^ e < 10 ^ (q + 1) * 10 ^ e := by
    have : (10 : ℝ) ^ e ≤ 10 ^ q * 10 ^ e := le_mul_of_one_le_left hu.le h1
    rw [pow_succ']
    linarith
  rw [tenTo, Nat.pow_eq]
  exact_mod_cast lt_of_mul_lt_mul_right hq hu.le

theorem quantize_finite (p : Nat) (s : Bool) (c : Nat) (e₀ e : ℤ) :
    quantize p e (finite s c e₀) =
      if c = 0 then finish p s 0 e
      else if maxExponent < adjusted c e₀ ∨ p < adjusted c e₀ - e + 1 then .error .invalid
      else if p < digitCount (units c e₀ e) then .error .invalid
      else .ok (finite s (units c e₀ e) e) := rfl

-- Cutting a number to its places down to `e` needs digits for all of those in front of them.
theorem exists_quantize (hp : 0 < p) (hx : x.IsFinite) (hlt : |(x.value : ℝ)| < 10 ^ k)
    (hk : k ≤ maxExponent) (hd : k < p + e) : ∃ r, quantize p e x = .ok r := by
  cases hx
  case intro s c e₀ =>
  rw [value_finite, abs_turn, abs_of_nonneg (coefficient_nonneg c e₀)] at hlt
  rw [quantize_finite]
  split
  case isTrue => exact ⟨_, rfl⟩
  case isFalse hc =>
    have hadj : adjusted c e₀ < k := by
      have hlead := (Stands.exactly (p := p) (c := c) (e := e₀) rfl).lead_le hp
        (Nat.pos_of_ne_zero hc)
      exact (zpow_lt_zpow_iff_right₀ (by norm_num)).mp (hlead.trans_lt hlt)
    have hm : digitCount (units c e₀ e) ≤ p := (digitCount_le_iff hp).mpr (units_lt hp hlt hd)
    rw [if_neg (by omega), if_neg (not_lt.mpr hm)]
    exact ⟨_, rfl⟩

theorem quantize_cut (hp : 0 < p) (hx : x.IsFinite) (h : quantize p e x = .ok r) :
    r.IsFinite ∧ Cut e x.value r.value ∧ |(r.value : ℝ)| < 10 ^ (p + e) := by
  cases hx
  case intro s c e₀ =>
  rw [quantize_finite] at h
  split at h
  case isTrue hc =>
    have hzero (k : ℤ) : ((finite s 0 k).value : ℝ) = 0 := by simp [value, signed]
    cases h
    refine ⟨.intro, ?_, ?_⟩
    · rw [hc, hzero, hzero]
      have hcut := units_cut 0 e e
      rwa [units, if_pos le_rfl, Nat.zero_mul, Nat.cast_zero, zero_mul] at hcut
    · rw [hzero, abs_zero]
      exact ten_zpow_pos _
  case isFalse hc =>
    split at h
    case isTrue => contradiction
    case isFalse =>
      split at h
      case isTrue => contradiction
      case isFalse hm =>
        cases h
        refine ⟨.intro, ?_, ?_⟩
        · rw [value_finite, value_finite]
          exact (units_cut c e₀ e).turn s
        · rw [value_finite, abs_turn, abs_of_nonneg (coefficient_nonneg ..)]
          exact natCast_mul_lt ((digitCount_le_iff hp).mp (not_lt.mp hm)) (by omega)

end BinMarket.Decimal
