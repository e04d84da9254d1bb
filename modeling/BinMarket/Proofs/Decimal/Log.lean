import BinMarket.Proofs.Decimal.Operations
import BinMarket.Proofs.Decimal.Series
import Mathlib.Analysis.Complex.ExponentialBounds

/-!
Logarithms of positive numbers. Spans hold the logarithms that they were made around and are narrow,
so a result is within a unit in its last place, even one that no number of places could settle.
-/

namespace BinMarket.Decimal

open Real (log)

variable {p places c : Nat} {e k : ℤ} {s u v : ℝ} {a b : Span} {x : NearOne}

namespace Span

theorem Holds.add (ha : a.Holds u) (hb : b.Holds v) : (a.add b).Holds (u + v) := by
  constructor
  case lower =>
    have := add_le_add ha.lower hb.lower
    rw [Span.add]
    push_cast
    exact this
  case upper =>
    have := add_le_add ha.upper hb.upper
    rw [Span.add]
    push_cast
    exact this

theorem Holds.neg (ha : a.Holds u) : a.neg.Holds (-u) := by
  constructor
  case lower =>
    rw [Span.neg, Int.cast_neg]
    exact neg_le_neg ha.upper
  case upper =>
    rw [Span.neg, Int.cast_neg]
    exact neg_le_neg ha.lower

theorem Holds.scale (ha : a.Holds u) (k : ℤ) : (a.scale k).Holds (k * u) := by
  unfold Span.scale
  split
  case isTrue hk =>
    have hk : (0 : ℝ) ≤ k := by exact_mod_cast hk
    constructor
    case lower => simpa using mul_le_mul_of_nonneg_left ha.lower hk
    case upper => simpa using mul_le_mul_of_nonneg_left ha.upper hk
  case isFalse hk =>
    have hk : (k : ℝ) ≤ 0 := by exact_mod_cast (not_le.mp hk).le
    constructor
    case lower => simpa using mul_le_mul_of_nonpos_left ha.upper hk
    case upper => simpa using mul_le_mul_of_nonpos_left ha.lower hk

theorem width_add (a b : Span) : (a.add b).width = a.width + b.width := by
  simp only [width, Span.add]
  ring

theorem width_neg (a : Span) : a.neg.width = a.width := by
  simp only [width, Span.neg]
  ring

theorem width_scale (k : ℤ) (a : Span) : (a.scale k).width = |k| * a.width := by
  unfold Span.scale width
  split
  case isTrue hk =>
    rw [abs_of_nonneg hk]
    ring
  case isFalse hk =>
    rw [abs_of_neg (not_le.mp hk)]
    ring

-- What both ends of a span are rounded to, all that it holds is rounded to.
theorem Holds.rounded {r : Decimal} (ha : a.Holds (10 ^ places * v)) (hp : 0 < p)
    (h : a.settle? p places = some (.ok r)) : Rounded p v (.ok r) := by
  have ⟨hlower, hupper⟩ := agreed?_eq_some_iff.mp h
  have hlow := finish_signed_rounded hp a.lower (-places)
  have hhigh := finish_signed_rounded hp a.upper (-places)
  rw [hlower] at hlow
  rw [hupper] at hhigh
  have hscale : (10 : ℝ) ^ (-places : ℤ) = (10 ^ places)⁻¹ := by rw [zpow_neg, zpow_natCast]
  have hpos : (0 : ℝ) < 10 ^ places := by positivity
  refine hlow.between_ok hhigh ?_ ?_
  · rw [hscale, mul_inv_le_iff₀ hpos, mul_comm]
    exact ha.lower
  · rw [hscale, le_mul_inv_iff₀ hpos, mul_comm]
    exact ha.upper

theorem Holds.abs_sub_lower_le (ha : a.Holds u) : |u - a.lower| ≤ a.width := by
  rw [abs_of_nonneg (sub_nonneg.mpr ha.lower), width]
  push_cast
  exact sub_le_sub_right ha.upper _

end Span

namespace NearOne

noncomputable def ln (x : NearOne) : ℝ :=
  log (x.num / x.den) + x.twos * log (2 : Nat) + x.tens * log (10 : Nat)

-- The ratio can be summed, and the powers are used for numbers only that are not near one.
structure Sound (x : NearOne) : Prop where
  num_pos : 0 < x.num
  den_pos : 0 < x.den
  num_le  : x.num ≤ 2 * x.den
  den_le  : x.den ≤ 2 * x.num
  twos_le : x.twos ≤ 3
  far     : ¬(x.twos = 0 ∧ x.tens = 0) → (1 + |(x.tens : ℝ)|) / 10 ≤ |x.ln|

end NearOne

theorem one_le_log_ten : 1 ≤ log 10 := by
  have h : log 8 ≤ log 10 := Real.log_le_log (by norm_num) (by norm_num)
  have h₈ : log 8 = 3 * log 2 := by
    rw [←Real.log_rpow (by norm_num)]
    norm_num
  linarith [Real.log_two_gt_d9]

-- A number between two powers of ten that are not next to one is not near one either.
theorem far_of_lead {y : ℝ} (hlo : 10 ^ k ≤ y) (hhi : y < 10 ^ (k + 1)) (h₀ : k = 0 → 7 / 5 ≤ y)
    (h₁ : k = -1 → y ≤ 7 / 10) : (1 + |(k : ℝ)|) / 10 ≤ |log y| := by
  have hpos := (ten_zpow_pos k).trans_le hlo
  have hten := one_le_log_ten
  have hlo' := Real.log_le_log (ten_zpow_pos k) hlo
  have hhi' := Real.log_le_log hpos hhi.le
  rw [Real.log_zpow] at hlo' hhi'
  push_cast at hhi'
  rcases lt_trichotomy k 0 with hneg | hzero | hpos'
  · rw [abs_of_neg (by exact_mod_cast hneg)]
    rcases eq_or_lt_of_le (show k ≤ -1 by omega) with hone | hlt
    · have hy := h₁ hone
      have := Real.log_le_sub_one_of_pos hpos
      rw [hone, abs_of_nonpos (by linarith)]
      push_cast
      linarith
    · have hk : (k : ℝ) ≤ -2 := by exact_mod_cast (show k ≤ -2 by omega)
      have : (k + 1) * log 10 ≤ (k + 1) * 1 := mul_le_mul_of_nonpos_left hten (by linarith)
      rw [abs_of_nonpos (by linarith)]
      linarith
  · have hy := h₀ hzero
    have := Real.one_sub_inv_le_log_of_pos hpos
    have hinv : y⁻¹ ≤ (7 / 5)⁻¹ := inv_anti₀ (by norm_num) hy
    rw [hzero, Int.cast_zero, abs_zero]
    refine le_trans ?_ (le_abs_self _)
    norm_num at hinv ⊢
    linarith
  · have hk : (1 : ℝ) ≤ k := by exact_mod_cast hpos'
    have : (k : ℝ) * 1 ≤ k * log 10 := mul_le_mul_of_nonneg_left hten (by linarith)
    rw [abs_of_pos (by linarith)]
    exact le_trans (by linarith) (le_abs_self _)

namespace NearOne

section Lead

variable {unit : Nat} {lead : ℤ} (hunit : 0 < unit) (hlow : unit ≤ c) (hhigh : c < 10 * unit)
  (hlead : (10 : ℝ) ^ lead = unit * 10 ^ e)
include hunit hlow hhigh hlead

theorem log_eq_of_lead {m : Nat} (hm : 0 < m) :
    log (c * 10 ^ e) = log (c / (m * unit : Nat)) + log m + lead * log 10 := by
  have hc : (c : ℝ) ≠ 0 := Nat.cast_ne_zero.mpr (by omega)
  have hu : (unit : ℝ) ≠ 0 := Nat.cast_ne_zero.mpr (by omega)
  have hm : (m : ℝ) ≠ 0 := Nat.cast_ne_zero.mpr (by omega)
  have hy : (c * 10 ^ e : ℝ) = c / (m * unit : Nat) * m * 10 ^ lead := by
    rw [hlead]
    push_cast
    field_simp
  rw [hy, Real.log_mul, Real.log_mul, Real.log_zpow]
  · push_cast
    positivity
  · exact hm
  · push_cast
    positivity
  · positivity

-- A number from 0.7 on and below one is taken as it is.
theorem sound_of_near (hbelow : lead = -1) (hnear : 7 * unit ≤ c) :
    Sound ⟨c, 10 * unit, 0, 0⟩ ∧ NearOne.ln ⟨c, 10 * unit, 0, 0⟩ = log (c * 10 ^ e) := by
  refine ⟨?sound, ?ln⟩
  case sound =>
    constructor
    case far => exact fun h => absurd ⟨rfl, rfl⟩ h
    all_goals
      dsimp only
      omega
  case ln =>
    rw [log_eq_of_lead hunit hlow hhigh hlead (show 0 < 10 by decide), hbelow, NearOne.ln]
    push_cast
    ring

theorem sound_of_lead {t : Nat} (ht : t ≤ 3) (hnum : c ≤ 2 * (2 ^ t * unit))
    (hden : 2 ^ t * unit ≤ 2 * c) (h₀ : t ≠ 0 → 7 * unit ≤ 5 * c)
    (h₁ : ¬(lead = -1 ∧ 7 * unit ≤ c)) :
    Sound ⟨c, 2 ^ t * unit, t, lead⟩ ∧
      NearOne.ln ⟨c, 2 ^ t * unit, t, lead⟩ = log (c * 10 ^ e) := by
  have hln : NearOne.ln ⟨c, 2 ^ t * unit, t, lead⟩ = log (c * 10 ^ e) := by
    rw [log_eq_of_lead hunit hlow hhigh hlead (Nat.two_pow_pos t), NearOne.ln]
    push_cast
    rw [Real.log_pow]
  have hu : (0 : ℝ) < unit := Nat.cast_pos.mpr hunit
  have hten := ten_zpow_pos lead
  have hy : (c * 10 ^ e : ℝ) = c / unit * 10 ^ lead := by
    rw [hlead]
    field_simp
  have hden₀ : 0 < 2 ^ t * unit := Nat.mul_pos (Nat.two_pow_pos t) hunit
  refine ⟨⟨hunit.trans_le hlow, hden₀, hnum, hden, ht, fun hfar => ?_⟩, hln⟩
  rw [hln]
  push_cast
  refine far_of_lead ?lo ?hi ?zero ?one
  case lo =>
    rw [hlead]
    exact mul_le_mul_of_nonneg_right (by exact_mod_cast hlow) (ten_zpow_pos e).le
  case hi =>
    rw [zpow_add_one₀ (by norm_num), hlead, mul_right_comm, mul_comm (unit : ℝ)]
    exact mul_lt_mul_of_pos_right (by exact_mod_cast hhigh) (ten_zpow_pos e)
  case zero =>
    intro hz
    have : (7 * unit : ℝ) ≤ 5 * c := by exact_mod_cast h₀ (fun ht => hfar ⟨ht, hz⟩)
    rw [hy, hz, zpow_zero, mul_one, le_div_iff₀ hu]
    linarith
  case one =>
    intro hz
    have : (c : ℝ) ≤ 7 * unit := by exact_mod_cast (show c ≤ 7 * unit by omega)
    rw [hy, hz, zpow_neg_one, ←div_eq_mul_inv, div_div, div_le_iff₀ (by linarith)]
    linarith

end Lead

theorem sound_of (hc : 0 < c) (e : ℤ) : (of c e).Sound ∧ (of c e).ln = log (c * 10 ^ e) := by
  have hd := digitCount_pos c
  have hunit := tenTo_pos (digitCount c - 1)
  have hlow := tenTo_le_of_digitCount hc
  have hhigh : c < 10 * tenTo (digitCount c - 1) := by
    rw [←tenTo_succ, show digitCount c - 1 + 1 = digitCount c by omega]
    exact lt_tenTo_digitCount c
  have hlead : (10 : ℝ) ^ adjusted c e = tenTo (digitCount c - 1) * 10 ^ e := by
    rw [natCast_tenTo, ←zpow_natCast, ←zpow_add₀ (by norm_num), adjusted]
    congr 1
    omega
  unfold of
  dsimp only
  generalize tenTo (digitCount c - 1) = unit at *
  generalize adjusted c e = lead at *
  have hscaled (t : Nat) := sound_of_lead hunit hlow hhigh hlead (t := t)
  by_cases hnear : lead = -1 ∧ 7 * unit ≤ c
  case pos =>
    rw [if_pos hnear]
    exact sound_of_near hunit hlow hhigh hlead hnear.left hnear.right
  case neg =>
    rw [if_neg hnear]
    split
    case isTrue => simpa using hscaled 0 (by omega) (by omega) (by omega) (by omega) hnear
    case isFalse =>
      split
      case isTrue => simpa using hscaled 1 (by omega) (by omega) (by omega) (by omega) hnear
      case isFalse =>
        split
        case isTrue => simpa using hscaled 2 (by omega) (by omega) (by omega) (by omega) hnear
        case isFalse => simpa using hscaled 3 (by omega) (by omega) (by omega) (by omega) hnear

end NearOne

theorem log_ten_eq : log 10 = 3 * log 2 + log (5 / 4) := by
  rw [←Real.log_rpow (by norm_num), ←Real.log_mul (by norm_num) (by norm_num)]
  norm_num

theorem lnSpan_holds (hx : x.Sound) (places : Nat) :
    (lnSpan places x).Holds (10 ^ places * x.ln) := by
  have hs := tenTo_pos places
  have hratio : (if x.den ≤ x.num then lnRatio (tenTo places) (2 * places) x.num x.den
      else (lnRatio (tenTo places) (2 * places) x.den x.num).neg).Holds
        (10 ^ places * log (x.num / x.den)) := by
    rw [←natCast_tenTo]
    split
    case isTrue hle => exact lnRatio_holds hx.den_pos hle hx.num_le hs _
    case isFalse hlt =>
      rw [←inv_div, Real.log_inv, mul_neg]
      exact (lnRatio_holds hx.num_pos (not_le.mp hlt).le hx.den_le hs _).neg
  unfold lnSpan
  dsimp only
  split
  case isTrue hnone =>
    rw [NearOne.ln, hnone.left, hnone.right]
    simpa using hratio
  case isFalse =>
    have hpower {a b : Nat} (hb : 0 < b) (hba : b ≤ a) (hab : a ≤ 2 * b) :=
      lnRatio_holds hb hba hab hs (2 * places)
    have htwo := hpower (a := 2) (b := 1) (by decide) (by decide) (by decide)
    have hfive := hpower (a := 5) (b := 4) (by decide) (by decide) (by decide)
    rw [natCast_tenTo] at htwo hfive
    convert (hratio.add (htwo.scale (x.twos + 3 * x.tens))).add (hfive.scale x.tens) using 1
    rw [NearOne.ln]
    push_cast
    rw [div_one, log_ten_eq]
    ring

theorem lnSpan_width (hx : x.Sound) (hp : 2 ≤ places) :
    (lnSpan places x).width ≤ 80 * (1 + |x.tens|) := by
  have hs : 100 ≤ tenTo places := tenTo_le_tenTo hp
  have ht : tenTo places ≤ 4 ^ (2 * places) := by
    rw [pow_mul]
    exact Nat.pow_le_pow_left (by decide) places
  have hwidth {a b : Nat} (hb : 0 < b) (hba : b ≤ a) (hab : a ≤ 2 * b) :
      (lnRatio (tenTo places) (2 * places) a b).width ≤ 20 := lnRatio_width hb hba hab hs ht
  have hratio : (if x.den ≤ x.num then lnRatio (tenTo places) (2 * places) x.num x.den
      else (lnRatio (tenTo places) (2 * places) x.den x.num).neg).width ≤ 20 := by
    split
    case isTrue hle => exact hwidth hx.den_pos hle hx.num_le
    case isFalse hlt =>
      rw [Span.width_neg]
      exact hwidth hx.num_pos (not_le.mp hlt).le hx.den_le
  have htens := abs_nonneg x.tens
  unfold lnSpan
  dsimp only
  split
  case isTrue => omega
  case isFalse =>
    have htwo := hwidth (a := 2) (b := 1) (by decide) (by decide) (by decide)
    have hfive := hwidth (a := 5) (b := 4) (by decide) (by decide) (by decide)
    have hk : |x.twos + 3 * x.tens| ≤ 3 + 3 * |x.tens| := by
      have := hx.twos_le
      refine (abs_add_le ..).trans ?_
      rw [abs_mul, Nat.abs_cast, Nat.abs_ofNat]
      omega
    have h₁ := mul_le_mul_of_nonneg_left htwo (abs_nonneg (x.twos + 3 * x.tens : ℤ))
    have h₂ := mul_le_mul_of_nonneg_left hfive htens
    rw [Span.width_add, Span.width_add, Span.width_scale, Span.width_scale]
    omega

-- How many places after the point are empty because the ratio is near one.
def NearOne.gap (x : NearOne) : Nat :=
  digitCount x.den - digitCount (max x.num x.den - min x.num x.den)

theorem le_abs_log_ratio {a b : Nat} (ha : 0 < a) (hb : 0 < b) (hab : a ≤ 2 * b) :
    ((max a b - min a b : Nat) / (2 * b) : ℝ) ≤ |log (a / b)| := by
  have ha' : (0 : ℝ) < a := Nat.cast_pos.mpr ha
  have hb' : (0 : ℝ) < b := Nat.cast_pos.mpr hb
  have hab' : (a : ℝ) ≤ 2 * b := by exact_mod_cast hab
  rcases le_total b a with hle | hle
  · have hlog := Real.one_sub_inv_le_log_of_pos (div_pos ha' hb')
    have hle' : (b : ℝ) ≤ a := by exact_mod_cast hle
    rw [max_eq_left hle, min_eq_right hle, Nat.cast_sub hle]
    refine le_trans ?_ (hlog.trans (le_abs_self _))
    rw [inv_div, one_sub_div ha'.ne']
    exact div_le_div_of_nonneg_left (by linarith) ha' hab'
  · have hlog := Real.log_le_sub_one_of_pos (div_pos ha' hb')
    have hle' : (a : ℝ) ≤ b := by exact_mod_cast hle
    rw [max_eq_right hle, min_eq_left hle, Nat.cast_sub hle]
    refine le_trans ?_ ((neg_le_neg hlog).trans (neg_le_abs _))
    rw [neg_sub, one_sub_div hb'.ne']
    exact div_le_div_of_nonneg_left (by linarith) hb' (by linarith)

-- However small a logarithm is, the places that are asked for see it.
theorem NearOne.Sound.le_abs_ln (hx : x.Sound)
    (hne : ¬(x.num = x.den ∧ x.twos = 0 ∧ x.tens = 0)) :
    10 ^ (-2 - x.gap : ℤ) * (1 + |(x.tens : ℝ)|) ≤ |x.ln| := by
  by_cases hnone : x.twos = 0 ∧ x.tens = 0
  case neg =>
    refine le_trans ?_ (hx.far hnone)
    rw [div_eq_inv_mul]
    refine mul_le_mul_of_nonneg_right ?_ (by positivity)
    rw [←zpow_neg_one]
    exact zpow_le_zpow_right₀ (by norm_num) (by omega)
  case pos =>
    have hdiff : 0 < max x.num x.den - min x.num x.den := by omega
    have hden : (0 : ℝ) < x.den := Nat.cast_pos.mpr hx.den_pos
    have hln : x.ln = log (x.num / x.den) := by simp [NearOne.ln, hnone.left, hnone.right]
    rw [hln, hnone.right, Int.cast_zero, abs_zero, add_zero, mul_one]
    refine le_trans ?_ (le_abs_log_ratio hx.num_pos hx.den_pos hx.num_le)
    have hlow := tenTo_le_of_digitCount hdiff
    have hhigh := lt_tenTo_digitCount x.den
    have hd := digitCount_pos (max x.num x.den - min x.num x.den)
    rw [le_div_iff₀ (by linarith)]
    calc (10 : ℝ) ^ (-2 - x.gap : ℤ) * (2 * x.den)
      _ ≤ 10 ^ (-2 - x.gap : ℤ) * (10 * tenTo (digitCount x.den)) := by
        have : (x.den : ℝ) ≤ tenTo (digitCount x.den) := by exact_mod_cast hhigh.le
        exact mul_le_mul_of_nonneg_left (by linarith) (ten_zpow_pos _).le
      _ = 10 ^ (-1 - x.gap + digitCount x.den : ℤ) := by
        rw [natCast_tenTo, ←zpow_natCast, ←zpow_one_add₀ (by norm_num), ←zpow_add₀ (by norm_num)]
        congr 1
        omega
      _ ≤ tenTo (digitCount (max x.num x.den - min x.num x.den) - 1) := by
        rw [natCast_tenTo, ←zpow_natCast]
        refine zpow_le_zpow_right₀ (by norm_num) ?_
        rw [NearOne.gap]
        omega
      _ ≤ (max x.num x.den - min x.num x.den : Nat) := by exact_mod_cast hlow

-- The end of a span that is much narrower than a unit in the last place.
theorem Rounds.near_of_close {l r v : ℝ} (hp : 0 < p) (h : Rounds p l r)
    (hl : |v - l| ≤ 10 ^ (-8 - p : ℤ) * |v|) :
    |v - r| ≤ 10 ^ (1 - p : ℤ) * max |v| (10 ^ minExponent) := by
  have hnear := h.near hp
  obtain ⟨q, hq⟩ : ∃ q : ℝ, q = 10 ^ (-p : ℤ) := ⟨_, rfl⟩
  obtain ⟨b, hb⟩ : ∃ b : ℝ, b = max |v| (10 ^ minExponent) := ⟨_, rfl⟩
  have hq₀ : 0 < q := hq ▸ ten_zpow_pos _
  have hq₁ : q ≤ 1 := hq ▸ zpow_le_one_of_nonpos₀ (by norm_num) (by omega)
  have hv : |v| ≤ b := hb ▸ le_max_left ..
  have hone : (10 : ℝ) ^ (1 - p : ℤ) = 10 * q := by
    rw [sub_eq_add_neg, zpow_one_add₀ (by norm_num), hq]
  have height : (10 : ℝ) ^ (-8 - p : ℤ) = q / 10 ^ 8 := by
    rw [sub_eq_add_neg, zpow_add₀ (by norm_num), ←hq, zpow_neg, inv_mul_eq_div]
    rfl
  rw [height] at hl
  rw [hone] at hnear
  rw [hone, ←hb]
  have hclose : |v - l| ≤ q / 10 ^ 8 * b :=
    hl.trans (mul_le_mul_of_nonneg_left hv (by positivity))
  have hl' : max |l| (10 ^ minExponent) ≤ 3 / 2 * b := by
    have h₁ : q / 10 ^ 8 * b ≤ 1 / 2 * b :=
      mul_le_mul_of_nonneg_right (by linarith) ((abs_nonneg v).trans hv)
    have h₂ : (10 : ℝ) ^ minExponent ≤ b := hb ▸ le_max_right ..
    have h₃ := abs_sub_abs_le_abs_sub l v
    rw [abs_sub_comm l v] at h₃
    exact max_le (by linarith) (by linarith [(ten_zpow_pos minExponent)])
  calc |v - r|
    _ ≤ |v - l| + |l - r| := abs_sub_le ..
    _ ≤ q / 10 ^ 8 * b + 10 * q / 2 * (3 / 2 * b) :=
      add_le_add hclose (hnear.trans (mul_le_mul_of_nonneg_left hl' (by positivity)))
    _ = (1 / 10 ^ 8 + 15 / 2) * (q * b) := by ring
    _ ≤ 10 * (q * b) := by
      have : 0 ≤ q * b := mul_nonneg hq₀.le ((abs_nonneg v).trans hv)
      exact mul_le_mul_of_nonneg_right (by norm_num) this
    _ = 10 * q * b := by ring

section Near

variable (hx : x.Sound) (hne : ¬(x.num = x.den ∧ x.twos = 0 ∧ x.tens = 0))
include hx hne

theorem lnSpan_close (hplaces : p + 12 + x.gap ≤ places) :
    |x.ln - (lnSpan places x).lower * 10 ^ (-places : ℤ)| ≤ 10 ^ (-8 - p : ℤ) * |x.ln| := by
  have hu := ten_zpow_pos (-places)
  have hscale : (10 : ℝ) ^ places * 10 ^ (-places : ℤ) = 1 := by
    rw [zpow_neg, zpow_natCast, mul_inv_cancel₀ (by positivity)]
  have hwidth : ((lnSpan places x).width : ℝ) ≤ 80 * (1 + |(x.tens : ℝ)|) := by
    exact_mod_cast lnSpan_width hx (by omega)
  have htens : 1 + |(x.tens : ℝ)| ≤ 10 ^ (2 + x.gap : ℤ) * |x.ln| := by
    have h := mul_le_mul_of_nonneg_left (hx.le_abs_ln hne) (ten_zpow_pos (2 + x.gap)).le
    rwa [←mul_assoc, ←zpow_add₀ (by norm_num), show (2 + x.gap + (-2 - x.gap) : ℤ) = 0 by ring,
      zpow_zero, one_mul] at h
  calc |x.ln - (lnSpan places x).lower * 10 ^ (-places : ℤ)|
    _ = |10 ^ places * x.ln - (lnSpan places x).lower| * 10 ^ (-places : ℤ) := by
      rw [←abs_of_pos hu, ←abs_mul, abs_of_pos hu, sub_mul, mul_right_comm, hscale, one_mul]
    _ ≤ 80 * (10 ^ (2 + x.gap : ℤ) * |x.ln|) * 10 ^ (-places : ℤ) := by
      refine mul_le_mul_of_nonneg_right ?_ hu.le
      exact (lnSpan_holds hx places).abs_sub_lower_le.trans
        (hwidth.trans (mul_le_mul_of_nonneg_left htens (by norm_num)))
    _ ≤ 100 * (10 ^ (2 + x.gap : ℤ) * |x.ln|) * 10 ^ (-places : ℤ) := by
      refine mul_le_mul_of_nonneg_right ?_ hu.le
      exact mul_le_mul_of_nonneg_right (by norm_num)
        (mul_nonneg (ten_zpow_pos _).le (abs_nonneg _))
    _ = 10 ^ (4 + x.gap - places : ℤ) * |x.ln| := by
      have hz : (10 : ℝ) ^ (4 + x.gap - places : ℤ) =
          100 * (10 ^ (2 + x.gap : ℤ) * 10 ^ (-places : ℤ)) := by
        rw [←zpow_add₀ (by norm_num), show (100 : ℝ) = 10 ^ (2 : ℤ) by norm_num,
          ←zpow_add₀ (by norm_num)]
        congr 1
        ring
      rw [hz]
      ring
    _ ≤ 10 ^ (-8 - p : ℤ) * |x.ln| :=
      mul_le_mul_of_nonneg_right (zpow_le_zpow_right₀ (by norm_num) (by omega)) (abs_nonneg _)

-- Every number of places is enough to come this near, also the one at which nothing is settled.
theorem lower_near {r : Decimal} (hp : 0 < p) (hplaces : p + 12 + x.gap ≤ places)
    (h : finish p ((lnSpan places x).lower < 0) (lnSpan places x).lower.natAbs (-places) = .ok r) :
    r.IsFinite ∧ |x.ln - r.value| ≤ 10 ^ (1 - p : ℤ) * max |x.ln| (10 ^ minExponent) := by
  have hrounded := finish_signed_rounded hp (lnSpan places x).lower (-places)
  rw [h] at hrounded
  exact ⟨hrounded.isFinite, hrounded.rounds.near_of_close hp (lnSpan_close hx hne hplaces)⟩

theorem exists_lower (hp : 0 < p) (hplaces : p + 12 + x.gap ≤ places)
    (hbig : 2 * |x.ln| < 10 ^ maxExponent) :
    ∃ r, finish p ((lnSpan places x).lower < 0) (lnSpan places x).lower.natAbs (-places) =
      .ok r := by
  have hclose := lnSpan_close (p := p) hx hne hplaces
  have hsmall : |((lnSpan places x).lower * 10 ^ (-places : ℤ) : ℝ)| < limit p := by
    have h₁ : (10 : ℝ) ^ (-8 - p : ℤ) * |x.ln| ≤ 1 * |x.ln| :=
      mul_le_mul_of_nonneg_right (zpow_le_one_of_nonpos₀ (by norm_num) (by omega)) (abs_nonneg _)
    have h₂ := abs_sub_abs_le_abs_sub ((lnSpan places x).lower * 10 ^ (-places : ℤ) : ℝ) x.ln
    rw [abs_sub_comm] at h₂
    refine lt_of_lt_of_le ?_ (ten_zpow_le_limit hp)
    linarith
  have ⟨r, hr, _⟩ := (finish_signed_rounded hp _ _).exists_ok hsmall
  exact ⟨r, hr⟩

theorem lnWith_near {r : Decimal} {tries : Nat} (hp : 0 < p) (hplaces : p + 12 + x.gap ≤ places)
    (h : lnWith p places x tries = .ok r) :
    r.IsFinite ∧ |x.ln - r.value| ≤ 10 ^ (1 - p : ℤ) * max |x.ln| (10 ^ minExponent) := by
  induction tries generalizing places
  case zero => exact lower_near hx hne hp hplaces h
  case succ tries ih =>
    rw [lnWith] at h
    split at h
    case h_1 hs =>
      exact lower_near hx hne hp hplaces ((agreed?_eq_some_iff.mp hs).left.trans h)
    case h_2 => exact ih (by omega) h

theorem exists_lnWith (hp : 0 < p) (hplaces : p + 12 + x.gap ≤ places)
    (hbig : 2 * |x.ln| < 10 ^ maxExponent) (tries : Nat) : ∃ r, lnWith p places x tries = .ok r := by
  induction tries generalizing places
  case zero => exact exists_lower hx hne hp hplaces hbig
  case succ tries ih =>
    rw [lnWith]
    split
    case h_1 hs =>
      have ⟨r, hr⟩ := exists_lower hx hne hp hplaces hbig
      exact ⟨r, (agreed?_eq_some_iff.mp hs).left.symm.trans hr⟩
    case h_2 => exact ih (by omega)

end Near

theorem ln_finite {c : Nat} (hc : 0 < c) (e : ℤ) :
    ln p (finite false c e) =
      if (NearOne.of c e).num = (NearOne.of c e).den ∧ (NearOne.of c e).twos = 0 ∧
        (NearOne.of c e).tens = 0 then .ok zero
      else lnWith p (p + 12 + (NearOne.of c e).gap) (NearOne.of c e) 6 := by
  simp only [ln]
  rw [if_neg hc.ne']
  rfl

theorem NearOne.Sound.ln_eq_zero (hx : x.Sound) (h : x.num = x.den ∧ x.twos = 0 ∧ x.tens = 0) :
    x.ln = 0 := by
  have hden : (x.den : ℝ) ≠ 0 := Nat.cast_ne_zero.mpr hx.den_pos.ne'
  simp [NearOne.ln, h, hden]

theorem ln_near {y r : Decimal} (hp : 0 < p) (hy : y.IsFinite) (h₀ : 0 < y.value)
    (h : ln p y = .ok r) :
    r.IsFinite ∧
      |log y.value - r.value| ≤ 10 ^ (1 - p : ℤ) * max |log y.value| (10 ^ minExponent) := by
  have ⟨c, e, he, hc, hv⟩ := hy.exists_of_pos h₀
  have ⟨hx, hln⟩ := NearOne.sound_of hc e
  rw [hv, ←hln]
  rw [he, ln_finite hc] at h
  split at h
  case isTrue hone =>
    cases h
    refine ⟨.intro, ?_⟩
    rw [hx.ln_eq_zero hone, value_zero, Rat.cast_zero, sub_zero, abs_zero]
    have := ten_zpow_pos minExponent
    positivity
  case isFalse hne => exact lnWith_near hx hne hp le_rfl h

theorem exists_ln {y : Decimal} (hp : 0 < p) (hy : y.IsFinite) (h₀ : 0 < y.value)
    (hbig : 2 * |log y.value| < 10 ^ maxExponent) : ∃ r, ln p y = .ok r := by
  have ⟨c, e, he, hc, hv⟩ := hy.exists_of_pos h₀
  have ⟨hx, hln⟩ := NearOne.sound_of hc e
  rw [hv, ←hln] at hbig
  rw [he, ln_finite hc]
  split
  case isTrue      => exact ⟨_, rfl⟩
  case isFalse hne => exact exists_lnWith hx hne hp le_rfl hbig 6

-- Whether the first number of places is enough to round the logarithm of this number.
def settles (p c : Nat) (e : ℤ) : Bool :=
  let x := NearOne.of c e
  let places := p + 12 + x.gap
  ((lnSpan places x).settle? p places).any Except.isOk

theorem ln_rounded_of_settles (hp : 0 < p) (hc : 0 < c) (h : settles p c e) :
    Rounded p (log (finite false c e).value) (ln p (finite false c e)) := by
  have ⟨hx, hln⟩ := NearOne.sound_of hc e
  have hv : ((finite false c e).value : ℝ) = c * 10 ^ e := value_finite ..
  have ⟨o, ho, hok⟩ := Option.any_eq_true .. |>.mp h
  cases o
  case error => contradiction
  case ok r  =>
    rw [hv, ←hln, ln_finite hc]
    split
    case isTrue hone =>
      rw [hx.ln_eq_zero hone]
      refine .ok .intro ?_ ?_
      · rw [value_zero, Rat.cast_zero, abs_zero]
        exact (ten_zpow_pos _).trans_le (ten_zpow_le_limit hp)
      · rw [value_zero, Rat.cast_zero]
        exact .of_fits (.zero p)
    case isFalse =>
      rw [lnWith, ho]
      exact (lnSpan_holds hx _).rounded hp ho

end BinMarket.Decimal
