import BinMarket.Proofs.Decimal.Size
import Mathlib.Algebra.Order.Round
import Mathlib.Data.Int.Log
import Mathlib.Algebra.Order.Archimedean.Real.Basic
import Mathlib.Tactic.LinearCombination
import Mathlib.Tactic.Ring

/-!
Correct rounding, said without any digits being cut. A real number rounds to the nearest of all
numbers that `p` digits can write, and half way between two of them to the one that is an even
number of times their distance.
-/

namespace BinMarket.Decimal

variable {p : Nat} {s : Bool} {c : Nat} {e m n k : ℤ} {g l r r' u v v' : ℝ}

-- The number that a decimal writes.
def value : Decimal → ℚ
  | finite s c e => signed s c * 10 ^ e
  | _            => 0

-- What `p` digits can write, down to the least exponent. There is no greatest number here: one that
-- is too large is refused, it does not change what is nearest.
def Fits (p : Nat) (v : ℝ) : Prop :=
  ∃ m k : ℤ, |m| < 10 ^ p ∧ tiny p ≤ k ∧ v = m * 10 ^ k

structure Rounds (p : Nat) (v r : ℝ) : Prop where
  fits    : Fits p r
  nearest : ∀ g, Fits p g → |v - r| ≤ |v - g|
  even    : ∀ g, Fits p g → |v - g| = |v - r| → g ≠ r → ∃ n : ℤ, r = 2 * n * (g - r)

theorem ten_zpow_pos (k : ℤ) : (0 : ℝ) < 10 ^ k :=
  zpow_pos (by norm_num) k

theorem coefficient_nonneg {K : Type*} [Field K] [LinearOrder K] [IsStrictOrderedRing K] (c : Nat)
    (e : ℤ) : (0 : K) ≤ c * 10 ^ e :=
  mul_nonneg (Nat.cast_nonneg c) (zpow_nonneg (by norm_num) e)

theorem natCast_tenTo (k : Nat) : ((tenTo k : Nat) : ℝ) = 10 ^ k := by
  rw [tenTo, Nat.pow_eq]
  push_cast
  rfl

theorem natCast_tenTo_toNat (hk : 0 ≤ k) : ((tenTo k.toNat : Nat) : ℝ) = 10 ^ k := by
  rw [natCast_tenTo, ←zpow_natCast, Int.toNat_of_nonneg hk]

theorem abs_mul_zpow_lt (hm : |m| < 10 ^ p) (hk : k + p ≤ n) : |(m * 10 ^ k : ℝ)| < 10 ^ n := by
  rw [abs_mul, abs_of_pos (ten_zpow_pos k)]
  calc |(m : ℝ)| * 10 ^ k
    _ < 10 ^ p * 10 ^ k := mul_lt_mul_of_pos_right (by exact_mod_cast hm) (ten_zpow_pos k)
    _ = 10 ^ (k + p) := by rw [zpow_add₀ (by norm_num), zpow_natCast, mul_comm]
    _ ≤ 10 ^ n := zpow_le_zpow_right₀ (by norm_num) hk

-- A number with a greater exponent is also written with a smaller one.
theorem exists_on_grid (h : k ≤ e) (m : ℤ) : ∃ n : ℤ, (m * 10 ^ e : ℝ) = n * 10 ^ k := by
  refine ⟨m * 10 ^ (e - k).toNat, ?_⟩
  push_cast
  rw [←zpow_natCast, Int.toNat_of_nonneg (by omega), mul_assoc, ←zpow_add₀ (by norm_num)]
  congr 2
  omega

namespace Fits

theorem zero (p : Nat) : Fits p 0 :=
  ⟨0, tiny p, by simp, le_rfl, by simp⟩

theorem neg (h : Fits p v) : Fits p (-v) := by
  obtain ⟨m, k, hm, hk, rfl⟩ := h
  exact ⟨-m, k, by rwa [abs_neg], hk, by push_cast; ring⟩

-- The next power of ten is written with one digit, if there is any.
theorem of_le (hp : 0 < p) (hm : |m| ≤ 10 ^ p) (hk : tiny p ≤ k) : Fits p (m * 10 ^ k) := by
  rcases lt_or_eq_of_le hm with hlt | heq
  · exact ⟨m, k, hlt, hk, rfl⟩
  · obtain ⟨q, rfl⟩ : ∃ q, p = q + 1 := ⟨p - 1, by omega⟩
    have hq : m = 10 ^ q * 10 ∨ m = -(10 ^ q * 10) := by
      rw [pow_succ] at heq
      exact eq_or_eq_neg_of_abs_eq heq
    have hlt : (10 : ℤ) ^ q < 10 ^ (q + 1) := pow_lt_pow_right₀ (by norm_num) (by omega)
    have hz : (10 : ℝ) ^ (k + 1) = 10 * 10 ^ k := by
      rw [zpow_add_one₀ (by norm_num), mul_comm]
    rcases hq with rfl | rfl
    · refine ⟨10 ^ q, k + 1, by simpa using hlt, by omega, ?_⟩
      rw [hz]
      push_cast
      ring
    · refine ⟨-10 ^ q, k + 1, by simpa using hlt, by omega, ?_⟩
      rw [hz]
      push_cast
      ring

theorem ten_zpow (hp : 0 < p) (hk : tiny p ≤ k) : Fits p (10 ^ k) := by
  have h := of_le (m := 1) hp (by simpa using one_le_pow₀ (by norm_num)) hk
  simpa using h

theorem one (hp : 0 < p) : Fits p 1 := by
  have h := ten_zpow (k := 0) hp (by rw [tiny, minExponent]; omega)
  rwa [zpow_zero] at h

end Fits

theorem nearer_iff_of_lt (h : g < r) : |v - r| ≤ |v - g| ↔ g + r ≤ 2 * v := by
  rw [←sq_le_sq]
  constructor <;> intro hv <;> nlinarith

theorem nearer_iff_of_gt (h : r < g) : |v - r| ≤ |v - g| ↔ 2 * v ≤ g + r := by
  rw [←sq_le_sq]
  constructor <;> intro hv <;> nlinarith

-- Two points of a grid are no further from each other than a number is from both.
theorem grid_gap_le (v : ℝ) (m n k : ℤ) :
    |((m - n : ℤ) : ℝ)| * 10 ^ k ≤ |v - m * 10 ^ k| + |v - n * 10 ^ k| := by
  have hu := ten_zpow_pos k
  rw [←abs_of_pos hu, ←abs_mul, abs_of_pos hu, abs_sub_comm v, add_comm, add_comm]
  refine le_of_eq_of_le ?_ (abs_add_le ..)
  push_cast
  congr 1
  ring

theorem nearest_on_grid (hm : |v - m * 10 ^ k| ≤ 10 ^ k / 2) (n : ℤ) :
    |v - m * 10 ^ k| ≤ |v - n * 10 ^ k| := by
  by_cases hmn : m = n
  case pos => rw [hmn]
  case neg =>
    have h₁ : (1 : ℝ) ≤ |((m - n : ℤ) : ℝ)| := by
      exact_mod_cast Int.one_le_abs (sub_ne_zero.mpr hmn)
    have := (le_mul_of_one_le_left (ten_zpow_pos k).le h₁).trans (grid_gap_le v m n k)
    linarith

-- Points of a grid that are as near are next to each other, half a step away.
theorem neighbours_on_grid (hm : |v - m * 10 ^ k| ≤ 10 ^ k / 2)
    (heq : |v - n * 10 ^ k| = |v - m * 10 ^ k|) (hne : m ≠ n) :
    |m - n| = 1 ∧ |v - m * 10 ^ k| = 10 ^ k / 2 := by
  have hgap := grid_gap_le v m n k
  have hone : |m - n| = 1 := by
    refine le_antisymm ?_ (Int.one_le_abs (sub_ne_zero.mpr hne))
    have : |((m - n : ℤ) : ℝ)| ≤ 1 := le_of_mul_le_mul_right (by linarith) (ten_zpow_pos k)
    exact_mod_cast this
  have h₁ : |((m - n : ℤ) : ℝ)| = 1 := by exact_mod_cast hone
  rw [h₁] at hgap
  exact ⟨hone, by linarith⟩

-- What is written with a smaller exponent is nearer to zero than all numbers that round to a grid,
-- and on the way there is a point of the grid.
theorem nearer_than_off_grid (hv : 10 ^ (k + p - 1) ≤ |v|) (hp : 0 < p)
    (hm : |v - m * 10 ^ k| ≤ 10 ^ k / 2) (hn : |n| < 10 ^ p) (hlt : e < k) :
    |v - m * 10 ^ k| < |v - n * 10 ^ e| := by
  have hsmall : |(n * 10 ^ e : ℝ)| < 10 ^ (k + p - 1) := abs_mul_zpow_lt hn (by omega)
  have hpoint : (10 : ℝ) ^ (k + p - 1) = ((10 ^ (p - 1) : ℤ) : ℝ) * 10 ^ k := by
    push_cast
    rw [←zpow_natCast, ←zpow_add₀ (by norm_num)]
    congr 1
    omega
  have ⟨h₁, h₂⟩ := abs_lt.mp hsmall
  rcases le_total 0 v with h0 | h0
  · rw [abs_of_nonneg h0] at hv
    refine (nearest_on_grid hm (10 ^ (p - 1))).trans_lt ?_
    rw [←hpoint, abs_of_nonneg (by linarith), abs_of_pos (by linarith)]
    linarith
  · rw [abs_of_nonpos h0] at hv
    refine (nearest_on_grid hm (-10 ^ (p - 1))).trans_lt ?_
    rw [Int.cast_neg, neg_mul, ←hpoint, abs_of_nonpos (by linarith), abs_of_neg (by linarith)]
    linarith

namespace Rounds

theorem of_fits (h : Fits p v) : Rounds p v v where
  fits := h
  nearest := by simp
  even g _ hg hne := by
    rw [sub_self, abs_zero, abs_eq_zero, sub_eq_zero] at hg
    exact absurd hg.symm hne

theorem eq_of_fits (h : Rounds p v r) (hv : Fits p v) : r = v := by
  have h₀ := h.nearest v hv
  rw [sub_self, abs_zero] at h₀
  have := abs_eq_zero.mp (le_antisymm h₀ (abs_nonneg _))
  linarith

theorem neg (h : Rounds p v r) : Rounds p (-v) (-r) where
  fits := h.fits.neg
  nearest g hg := by
    rw [←abs_neg (-v - -r), ←abs_neg (-v - g)]
    convert h.nearest (-g) hg.neg using 2 <;> ring
  even g hg he hne := by
    have he' : |v - -g| = |v - r| := by
      rw [←abs_neg (v - -g), ←abs_neg (v - r)]
      convert he using 2 <;> ring
    have ⟨n, hn⟩ := h.even (-g) hg.neg he' (by rintro rfl; simp at hne)
    exact ⟨n, by linear_combination -hn⟩

-- Only one of two numbers that are as near can be an even number of their distances.
theorem unique (h : Rounds p v r) (h' : Rounds p v r') : r = r' := by
  have he := le_antisymm (h.nearest r' h'.fits) (h'.nearest r h.fits)
  by_contra hne
  have ⟨n, hn⟩ := h.even r' h'.fits he.symm (Ne.symm hne)
  have ⟨n', hn'⟩ := h'.even r h.fits he hne
  have hz : ((1 + 2 * (n + n') : ℤ) : ℝ) * (r' - r) = 0 := by
    push_cast
    linear_combination hn' - hn
  rcases mul_eq_zero.mp hz with hz | hz
  · have := Int.cast_eq_zero.mp hz
    omega
  · exact hne (by linarith)

theorem mono (h : Rounds p v r) (h' : Rounds p v' r') (hv : v ≤ v') : r ≤ r' := by
  rcases eq_or_lt_of_le hv with rfl | hlt
  · exact (h.unique h').le
  · by_contra! hr
    have h₁ := (nearer_iff_of_lt hr).mp (h.nearest r' h'.fits)
    have h₂ := (nearer_iff_of_gt hr).mp (h'.nearest r h.fits)
    linarith

theorem le_of_fits (h : Rounds p v r) (hg : Fits p g) (hv : g ≤ v) : g ≤ r :=
  (of_fits hg).mono h hv

theorem between (hl : Rounds p l r) (hu : Rounds p u r) (hlv : l ≤ v) (hvu : v ≤ u) :
    Rounds p v r where
  fits := hl.fits
  nearest g hg := by
    rcases lt_trichotomy g r with hlt | rfl | hgt
    · have := (nearer_iff_of_lt hlt).mp (hl.nearest g hg)
      exact (nearer_iff_of_lt hlt).mpr (by linarith)
    · exact le_rfl
    · have := (nearer_iff_of_gt hgt).mp (hu.nearest g hg)
      exact (nearer_iff_of_gt hgt).mpr (by linarith)
  even g hg he hne := by
    rcases lt_or_gt_of_ne hne with hlt | hgt
    · -- what is half way down to `g` is the lower end
      have h₁ := (nearer_iff_of_lt hlt).mp (hl.nearest g hg)
      have h₂ := (nearer_iff_of_gt hlt).mp he.le
      obtain rfl : l = v := by linarith
      exact hl.even g hg he hne
    · have h₁ := (nearer_iff_of_gt hgt).mp (hu.nearest g hg)
      have h₂ := (nearer_iff_of_lt hgt).mp he.le
      obtain rfl : u = v := by linarith
      exact hu.even g hg he hne

-- On a grid the nearest point is at most half a step away, and of two points at that distance the
-- even one is taken. Numbers outside of the grid lie between zero and one of its points.
theorem of_grid (hp : 0 < p) (hk : tiny p ≤ k) (hv : k = tiny p ∨ 10 ^ (k + p - 1) ≤ |v|)
    (hm : |m| ≤ 10 ^ p) (hn : |v - m * 10 ^ k| ≤ 10 ^ k / 2)
    (he : |v - m * 10 ^ k| = 10 ^ k / 2 → Even m) : Rounds p v (m * 10 ^ k) := by
  refine ⟨Fits.of_le hp hm hk, ?nearest, ?even⟩
  case nearest =>
    rintro _ ⟨n, e, hlt, he, rfl⟩
    by_cases hke : k ≤ e
    case pos =>
      have ⟨n', hn'⟩ := exists_on_grid hke n
      rw [hn']
      exact nearest_on_grid hn n'
    case neg =>
      exact (nearer_than_off_grid (hv.resolve_left (by omega)) hp hn hlt (not_le.mp hke)).le
  case even =>
    rintro _ ⟨n, e, hlt, he', rfl⟩ heq hne
    by_cases hke : k ≤ e
    case neg =>
      have h := nearer_than_off_grid (hv.resolve_left (by omega)) hp hn hlt (not_le.mp hke)
      exact absurd heq h.ne'
    case pos =>
      have ⟨n', hn'⟩ := exists_on_grid hke n
      rw [hn'] at heq hne ⊢
      have ⟨hone, hhalf⟩ := neighbours_on_grid hn heq fun h => hne (by rw [h])
      have ⟨a, ha⟩ := he hhalf
      rcases eq_or_eq_neg_of_abs_eq hone with h | h
      · obtain rfl : n' = a + a - 1 := by omega
        exact ⟨-a, by rw [ha]; push_cast; ring⟩
      · obtain rfl : n' = a + a + 1 := by omega
        exact ⟨a, by rw [ha]; push_cast; ring⟩

-- Rounding moves a number by half a unit in its last place at most. Numbers that are smaller than
-- any normal one have the last place of those.
theorem near (hp : 0 < p) (h : Rounds p v r) :
    |v - r| ≤ 10 ^ (1 - p : ℤ) / 2 * max |v| (10 ^ minExponent) := by
  rcases eq_or_ne v 0 with rfl | hv
  · rw [h.eq_of_fits (.zero p), sub_self, abs_zero]
    have := ten_zpow_pos (1 - p)
    positivity
  obtain ⟨k, hk⟩ : ∃ k, k = max (tiny p) (Int.log 10 |v| + 1 - p) := ⟨_, rfl⟩
  have hu := ten_zpow_pos k
  have hbig : |v| < 10 ^ (k + p) := by
    refine (Int.lt_zpow_succ_log_self (b := 10) (by norm_num) |v|).trans_le ?_
    push_cast
    exact zpow_le_zpow_right₀ (by norm_num) (by omega)
  have hm : |round (v / 10 ^ k)| ≤ 10 ^ p := by
    have h₁ : |v / 10 ^ k| < 10 ^ p := by
      rw [abs_div, abs_of_pos hu, div_lt_iff₀ hu, ←zpow_natCast, ←zpow_add₀ (by norm_num), add_comm]
      exact hbig
    have h₂ := abs_sub_round (v / 10 ^ k)
    have h₃ : |(round (v / 10 ^ k) : ℝ)| < 10 ^ p + 1 := by
      have := abs_sub_abs_le_abs_sub (round (v / 10 ^ k) : ℝ) (v / 10 ^ k)
      rw [abs_sub_comm] at this
      linarith
    exact Int.lt_add_one_iff.mp (by exact_mod_cast h₃)
  have hk' : tiny p ≤ k := hk ▸ le_max_left ..
  refine (h.nearest _ (Fits.of_le hp hm hk')).trans ?_
  calc |v - round (v / 10 ^ k) * 10 ^ k|
    _ = |v / 10 ^ k - round (v / 10 ^ k)| * 10 ^ k := by
      rw [←abs_of_pos hu, ←abs_mul, abs_of_pos hu, sub_mul, div_mul_cancel₀ _ hu.ne']
    _ ≤ 1 / 2 * 10 ^ k := mul_le_mul_of_nonneg_right (abs_sub_round _) hu.le
    _ ≤ 10 ^ (1 - p : ℤ) / 2 * max |v| (10 ^ minExponent) := by
      have hmax : (10 : ℝ) ^ k ≤ 10 ^ (1 - p : ℤ) * max |v| (10 ^ minExponent) := by
        have hlog : (10 : ℝ) ^ Int.log 10 |v| ≤ |v| := by
          exact_mod_cast Int.zpow_log_le_self (b := 10) (by norm_num) (abs_pos.mpr hv)
        rcases max_choice (tiny p) (Int.log 10 |v| + 1 - p) with hc | hc <;> rw [hc] at hk
        · rw [hk, tiny, sub_add, sub_eq_neg_add, zpow_add₀ (by norm_num), neg_sub]
          exact mul_le_mul_of_nonneg_left (le_max_right ..) (ten_zpow_pos _).le
        · rw [hk, add_sub_assoc, add_comm, zpow_add₀ (by norm_num)]
          exact mul_le_mul_of_nonneg_left (hlog.trans (le_max_left ..)) (ten_zpow_pos _).le
      linarith

theorem near_relative (hp : 0 < p) (h : Rounds p v r) (hr : 10 ^ minExponent ≤ |r|) :
    |v - r| ≤ 10 ^ (1 - p : ℤ) * |r| := by
  have hnear := h.near hp
  have hq : (10 : ℝ) ^ (1 - p : ℤ) ≤ 1 := zpow_le_one_of_nonpos₀ (by norm_num) (by omega)
  have hv := abs_sub_abs_le_abs_sub v r
  have hu := ten_zpow_pos (1 - p)
  have hmax : max |v| (10 ^ minExponent) ≤ 2 * |r| := by
    rcases max_choice |v| (10 ^ minExponent) with hc | hc <;> rw [hc] at hnear ⊢
    · have : (10 : ℝ) ^ (1 - p : ℤ) / 2 * |v| ≤ 1 / 2 * |v| :=
        mul_le_mul_of_nonneg_right (by linarith) (abs_nonneg v)
      linarith
    · linarith [abs_nonneg r]
  calc |v - r|
    _ ≤ 10 ^ (1 - p : ℤ) / 2 * (2 * |r|) :=
      hnear.trans (mul_le_mul_of_nonneg_left hmax (by linarith))
    _ = 10 ^ (1 - p : ℤ) * |r| := by ring

end Rounds

end BinMarket.Decimal
