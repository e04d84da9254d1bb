import BinMarket.Decimal.Arithmetic
import Mathlib.Tactic.Linarith

/-!
How large the results of decimal operations are. Operations on numbers that are far from the largest
exponent do not overflow, and each moves the leading digit by a few places only.
-/

namespace BinMarket.Decimal

variable {p k : Nat} {m e : Int} {s : Bool} {c c₁ c₂ n : Nat} {x y : Decimal}

theorem tenTo_le_tenTo {a b : Nat} (h : a ≤ b) : tenTo a ≤ tenTo b :=
  Nat.pow_le_pow_right (by decide) h

theorem digitCount_le_iff (hk : 0 < k) : digitCount n ≤ k ↔ n < tenTo k := by
  constructor
  case mp => exact fun h => lt_of_lt_of_le (lt_tenTo_digitCount n) (tenTo_le_tenTo h)
  case mpr =>
    intro h
    by_contra hlt
    rcases Nat.eq_zero_or_pos n with rfl | hn
    · have : digitCount 0 = 1 := by rw [digitCount]; rfl
      omega
    · have h₁ := tenTo_le_of_digitCount hn
      have h₂ := tenTo_le_tenTo (show k ≤ digitCount n - 1 by omega)
      omega

theorem digitCount_zero : digitCount 0 = 1 := by
  rw [digitCount]
  rfl

theorem digitCount_mul_le (a b : Nat) : digitCount (a * b) ≤ digitCount a + digitCount b := by
  have hb := digitCount_pos b
  rw [digitCount_le_iff (by omega), tenTo_add]
  exact Nat.mul_lt_mul'' (lt_tenTo_digitCount a) (lt_tenTo_digitCount b)

theorem digitCount_succ_le (n : Nat) : digitCount (n + 1) ≤ digitCount n + 1 := by
  have h := lt_tenTo_digitCount n
  rw [digitCount_le_iff (by omega), tenTo_succ]
  omega

theorem digitCount_div_ten (h : 10 ≤ n) : digitCount (n / 10) + 1 ≤ digitCount n := by
  have hn := lt_tenTo_digitCount n
  have h₁ : 1 < digitCount n := by
    by_contra hc
    have := (digitCount_le_iff (n := n) (k := 1) (by decide)).mp (by omega)
    simp [tenTo] at this
    omega
  obtain ⟨k, hk⟩ : ∃ k, digitCount n = k + 1 := ⟨digitCount n - 1, by omega⟩
  rw [hk, tenTo_succ] at hn
  have := (digitCount_le_iff (n := n / 10) (k := k) (by omega)).mpr (by omega)
  omega

theorem digitCount_div_ten_le (hp : 0 < p) (h : n ≤ tenTo p) : digitCount (n / 10) ≤ p := by
  have := tenTo_pos p
  rw [digitCount_le_iff hp]
  omega

-- Rounding away the last digits may carry, but never past the next power of ten.
theorem dropDigits_le (h : digitCount c ≤ p + k) : dropDigits c k ≤ tenTo p := by
  unfold dropDigits
  split
  case isTrue => exact Nat.zero_le _
  case isFalse =>
    have hc := lt_of_lt_of_le (lt_tenTo_digitCount c) (tenTo_le_tenTo h)
    rw [tenTo_add] at hc
    have := Nat.div_lt_of_lt_mul (hc.trans_eq (Nat.mul_comm ..))
    have := halfEven_le c (tenTo k)
    omega

theorem le_reduce (ideal : Int) (c : Nat) (e : Int) :
    (reduce ideal c e).2 + digitCount (reduce ideal c e).1 ≤ e + digitCount c := by
  fun_induction reduce ideal c e
  case case1 c e h ih =>
    have := digitCount_div_ten (n := c) (by omega)
    omega
  case case2 => exact le_rfl

-- A quotient is worked out to at most `p + 2` digits, and one more stands in for what is cut off.
theorem divCoefficients_le (ideal : Int) (h₁ : digitCount c₁ ≤ p) (h₂ : 0 < c₂) :
    (divCoefficients p c₁ c₂ ideal).2 + digitCount (divCoefficients p c₁ c₂ ideal).1 ≤
      ideal + digitCount c₁ - digitCount c₂ + 2 := by
  have hp₂ := digitCount_pos c₂
  obtain ⟨k, hk⟩ : ∃ k : Nat, (digitCount c₂ : Int) - digitCount c₁ + p + 1 = k :=
    ⟨digitCount c₂ + p + 1 - digitCount c₁, by omega⟩
  have hq : digitCount (c₁ * tenTo k / c₂) ≤ p + 2 := by
    rw [digitCount_le_iff (by omega)]
    refine Nat.div_lt_of_lt_mul ?_
    calc c₁ * tenTo k
      _ < tenTo (digitCount c₁) * tenTo k :=
        Nat.mul_lt_mul_of_pos_right (lt_tenTo_digitCount c₁) (tenTo_pos k)
      _ = tenTo (digitCount c₂ - 1) * tenTo (p + 2) := by
        rw [←tenTo_add, ←tenTo_add]
        congr 1
        omega
      _ ≤ c₂ * tenTo (p + 2) := Nat.mul_le_mul_right _ (tenTo_le_of_digitCount h₂)
  have hs := digitCount_succ_le (c₁ * tenTo k / c₂)
  have hn : (-(k : Int)).toNat = 0 := by omega
  simp only [divCoefficients, hk, Int.toNat_natCast, hn, tenTo_zero, Nat.mul_one]
  split
  case isTrue =>
    have := le_reduce ideal (c₁ * tenTo k / c₂) (ideal - k)
    omega
  case isFalse => dsimp only; split <;> omega

-- A finite number of at most `p` digits that is smaller than ten to the `m`.
inductive Below (p : Nat) (m : Int) : Decimal → Prop
  | intro {s : Bool} {c : Nat} {e : Int} :
    digitCount c ≤ p → e + digitCount c ≤ m → Below p m (finite s c e)

section Bounds

variable (hp : 0 < p) (hl : minExponent < m)
include hp hl

theorem finish_below (hm : m ≤ maxExponent) (h : e + digitCount c ≤ m) :
    ∃ x, finish p s c e = .ok x ∧ x.Below p (m + 1) := by
  have hc₀ := digitCount_pos c
  unfold finish
  split
  case isTrue hz =>
    refine ⟨_, rfl, .intro ?_ ?_⟩
    · rw [digitCount_zero]
      omega
    · rw [hz, digitCount_zero] at h
      rw [digitCount_zero, tiny]
      omega
  case isFalse hz =>
    have ht : ¬top p < e + digitCount c - p := by
      rw [top]
      omega
    dsimp only
    rw [if_neg ht]
    by_cases hfit : max (e + digitCount c - p) (tiny p) ≤ e
    case pos =>
      -- no digit is lost
      rw [if_pos hfit]
      exact ⟨_, rfl, .intro (by omega) (by omega)⟩
    case neg =>
      rw [if_neg hfit]
      generalize hk : max (e + digitCount c - p) (tiny p) = least at *
      have hleast : least + p ≤ m := by
        rw [tiny] at hk
        omega
      have hd := dropDigits_le (c := c) (p := p) (k := (least - e).toNat) (by omega)
      by_cases hcarry : digitCount (dropDigits c (least - e).toNat) ≤ p
      case pos =>
        rw [if_pos hcarry]
        exact ⟨_, rfl, .intro hcarry (by omega)⟩
      case neg =>
        -- the carry left a power of ten, which is written with one digit less
        have ht' : ¬top p < least + 1 := by
          rw [top]
          omega
        rw [if_neg hcarry, if_neg ht']
        have hcut := digitCount_div_ten_le hp hd
        exact ⟨_, rfl, .intro hcut (by omega)⟩

theorem mul_ofInt_below (hx : x.Below p m) {n : Int} {k : Nat} (hn : digitCount n.natAbs ≤ k)
    (hm : m + k ≤ maxExponent) : ∃ y, mul p x (ofInt n) = .ok y ∧ y.Below p (m + k + 1) := by
  cases hx
  case intro s c e hc he =>
    have hd := digitCount_mul_le c n.natAbs
    exact finish_below hp (by omega) hm (by omega)

theorem div_ofInt_below (hx : x.Below p m) {n : Int} (hn : n ≠ 0) (hm : m + 1 ≤ maxExponent) :
    ∃ y, div p x (ofInt n) = .ok y ∧ y.Below p (m + 2) := by
  cases hx
  case intro s c e hc he =>
    have hn' : 0 < n.natAbs := Int.natAbs_pos.mpr hn
    have hd := digitCount_pos n.natAbs
    simp only [div, nanResult?, ofInt]
    rw [if_neg (by omega)]
    split
    case isTrue hz =>
      rw [hz, digitCount_zero] at he
      have ⟨y, hy, hb⟩ := finish_below (s := s != decide (n < 0)) (c := 0) (e := e - 0) hp
        (m := m + 1) (by omega) hm (by rw [digitCount_zero]; omega)
      exact ⟨y, hy, by simpa [add_assoc] using hb⟩
    case isFalse =>
      have hq := divCoefficients_le (e - 0) hc hn'
      have ⟨y, hy, hb⟩ := finish_below (s := s != decide (n < 0)) hp (m := m + 1)
        (c := (divCoefficients p c n.natAbs (e - 0)).1)
        (e := (divCoefficients p c n.natAbs (e - 0)).2) (by omega) hm (by omega)
      exact ⟨y, hy, by simpa [add_assoc] using hb⟩

end Bounds

theorem pad_self (p : Nat) (s : Bool) (c : Nat) : pad p s c 0 0 = finish p s c 0 := by
  simp [pad]

theorem signed_natAbs (a : Int) : signed (decide (a < 0)) a.natAbs = a := by
  simp only [signed, decide_eq_true_iff]
  split <;> omega

theorem signed_not_natAbs (a : Int) : signed (!decide (a < 0)) a.natAbs = -a := by
  simp only [signed, Bool.not_eq_true', decide_eq_false_iff_not]
  split <;> omega

-- Integers are subtracted exactly before the difference is rounded.
theorem sub_ofInt (p : Nat) (a b : Int) :
    ∃ s, signed s (a - b).natAbs = a - b ∧
      sub p (ofInt a) (ofInt b) = finish p s (a - b).natAbs 0 := by
  simp only [sub, ofInt, flip, add, nanResult?]
  split
  case isTrue hz =>
    have h : a - b = 0 := by omega
    rw [h, min_self]
    exact ⟨_, by simp [signed], rfl⟩
  case isFalse =>
    split
    case isTrue =>
      have h : a - b = -b := by omega
      rw [h, Int.natAbs_neg, pad_self]
      exact ⟨_, signed_not_natAbs b, rfl⟩
    case isFalse =>
      split
      case isTrue =>
        have h : a - b = a := by omega
        rw [h, pad_self]
        exact ⟨_, signed_natAbs a, rfl⟩
      case isFalse =>
        have hd := digitCount_pos b.natAbs
        have hfloor :
            ¬adjusted b.natAbs 0 < 0 + min (-1) ((digitCount a.natAbs : Int) - p - 2) := by
          rw [adjusted]
          omega
        rw [if_neg (lt_irrefl 0), addAligned]
        simp only [if_neg hfloor, sub_self, Int.toNat_zero, tenTo_zero, Nat.mul_one, signed_natAbs,
          signed_not_natAbs, ←sub_eq_add_neg]
        exact ⟨_, signed_natAbs (a - b), rfl⟩

end BinMarket.Decimal
