import BinMarket.Decimal.Log
import Mathlib.Analysis.SpecialFunctions.Log.Deriv

/-!
The series behind logarithms. Its sums rounded down and rounded up stay on their sides of the
logarithm of a ratio, and they differ by a few units however many places there are.
-/

namespace BinMarket

variable {n d : Nat}

section Quotients

theorem natCast_div_le (n d : Nat) : ((n / d : Nat) : ℝ) ≤ n / d := by
  rcases Nat.eq_zero_or_pos d with rfl | hd
  · simp
  · rw [le_div_iff₀ (Nat.cast_pos.mpr hd)]
    exact_mod_cast Nat.div_mul_le_self n d

theorem lt_natCast_div (n : Nat) (hd : 0 < d) : (n / d : ℝ) < (n / d : Nat) + 1 := by
  rw [div_lt_iff₀ (Nat.cast_pos.mpr hd)]
  exact_mod_cast Nat.lt_mul_of_div_lt (Nat.lt_succ_self _) hd

theorem le_natCast_ceilDiv (n : Nat) (hd : 0 < d) : (n / d : ℝ) ≤ ceilDiv n d := by
  rw [div_le_iff₀ (Nat.cast_pos.mpr hd)]
  exact_mod_cast le_ceilDiv_mul n hd

theorem natCast_ceilDiv_lt (n : Nat) (hd : 0 < d) : (ceilDiv n d : ℝ) < n / d + 1 := by
  have hd' : (0 : ℝ) < d := Nat.cast_pos.mpr hd
  rw [div_add_one hd'.ne', lt_div_iff₀ hd']
  exact_mod_cast ceilDiv_mul_lt n hd

-- Products of numbers in units of `s`, brought back to units of `s`.
theorem mul_div_le {s m n : Nat} {u v : ℝ} (hs : 0 < s) (hm : m ≤ s * u) (hn : n ≤ s * v)
    (hu : 0 ≤ u) : ((m * n / s : Nat) : ℝ) ≤ s * (u * v) := by
  have hs' : (0 : ℝ) < s := Nat.cast_pos.mpr hs
  refine (natCast_div_le ..).trans ?_
  rw [div_le_iff₀ hs', Nat.cast_mul]
  calc (m : ℝ) * n
    _ ≤ (s * u) * (s * v) := mul_le_mul hm hn (Nat.cast_nonneg n) (mul_nonneg hs'.le hu)
    _ = s * (u * v) * s   := by ring

theorem le_mul_ceilDiv {s m n : Nat} {u v : ℝ} (hs : 0 < s) (hm : s * u ≤ m) (hn : s * v ≤ n)
    (hv : 0 ≤ v) : s * (u * v) ≤ (ceilDiv (m * n) s : ℝ) := by
  have hs' : (0 : ℝ) < s := Nat.cast_pos.mpr hs
  refine le_trans ?_ (le_natCast_ceilDiv _ hs)
  rw [le_div_iff₀ hs', Nat.cast_mul]
  calc s * (u * v) * s
    _ = (s * u) * (s * v) := by ring
    _ ≤ m * n             := mul_le_mul hm hn (mul_nonneg hs'.le hv) (Nat.cast_nonneg m)

theorem div_le_ceilDiv (n : Nat) (hd : 0 < d) : n / d ≤ ceilDiv n d :=
  Nat.div_le_div_right (by omega)

theorem ceilDiv_le (n : Nat) (hd : 0 < d) : ceilDiv n d ≤ n / d + 1 := by
  rw [←Nat.add_div_right n hd]
  exact Nat.div_le_div_right (by omega)

-- Two products, brought back to units of `s`, differ by what their first factors differ by, twice,
-- and by a part of what their second factors differ by.
theorem mul_div_sub_le {s m m' a b : Nat} {c q w : ℝ} (hs : 0 < s) (hm : (m' - m : ℝ) ≤ c)
    (hq : m ≤ q * s) (ha : (a : ℝ) ≤ 2 * s) (hw : (a - b : ℝ) ≤ w) (hc₀ : 0 ≤ c) (hw₀ : 0 ≤ w) :
    (m' * a / s - m * b / s : ℝ) ≤ 2 * c + q * w := by
  rw [←sub_div, div_le_iff₀ (Nat.cast_pos.mpr hs)]
  calc (m' * a - m * b : ℝ)
    _ = (m' - m) * a + m * (a - b) := by ring
    _ ≤ c * (2 * s) + q * s * w := by
      refine add_le_add (mul_le_mul hm ha (Nat.cast_nonneg a) hc₀) ?_
      exact (mul_le_mul_of_nonneg_left hw (Nat.cast_nonneg m)).trans
        (mul_le_mul_of_nonneg_right hq hw₀)
    _ = (2 * c + q * w) * s := by ring

end Quotients

namespace Decimal

variable {s x y k a b : Nat} {z : ℝ}

-- The series that logarithms are summed from, from its term `k` on.
noncomputable def series (z : ℝ) (k : Nat) : ℝ :=
  tsum fun j : Nat => (z ^ 2) ^ j / (2 * (k + j : Nat) + 1)

theorem series_nonneg (z : ℝ) (k : Nat) : 0 ≤ series z k :=
  tsum_nonneg fun j => by positivity

theorem log_sub_log_eq (h : |z| < 1) :
    Real.log (1 + z) - Real.log (1 - z) = 2 * z * series z 0 := by
  rw [←(Real.hasSum_log_sub_log_of_abs_lt_one h).tsum_eq, series, ←tsum_mul_left]
  congr 1
  funext j
  rw [pow_succ, pow_mul, zero_add]
  ring

section Series

variable (hz : z ^ 2 ≤ 1 / 2)
include hz

theorem series_summable (k : Nat) :
    Summable fun j : Nat => (z ^ 2) ^ j / (2 * (k + j : Nat) + 1) := by
  refine Summable.of_nonneg_of_le (fun j => by positivity) (fun j => ?_)
    (summable_geometric_of_lt_one (sq_nonneg z) (by linarith))
  exact div_le_self (by positivity) (by linarith [Nat.cast_nonneg (α := ℝ) (k + j)])

theorem series_eq (k : Nat) : series z k = 1 / (2 * k + 1) + z ^ 2 * series z (k + 1) := by
  rw [series, (series_summable hz k).tsum_eq_zero_add, series, ←tsum_mul_left]
  simp only [pow_zero, add_zero, pow_succ']
  congr 2
  funext j
  rw [mul_div_assoc, show k + (j + 1) = k + 1 + j by omega]

theorem series_le (k : Nat) : series z k ≤ 2 := by
  have hlt : z ^ 2 < 1 := by linarith
  calc series z k
    _ ≤ tsum fun j : Nat => (z ^ 2) ^ j :=
      (series_summable hz k).tsum_le_tsum
        (fun j => div_le_self (by positivity) (by linarith [Nat.cast_nonneg (α := ℝ) (k + j)]))
        (summable_geometric_of_lt_one (sq_nonneg z) hlt)
    _ = (1 - z ^ 2)⁻¹ := tsum_geometric_of_lt_one (sq_nonneg z) hlt
    _ ≤ (1 / 2)⁻¹ := inv_anti₀ (by norm_num) (by linarith)
    _ = 2 := by norm_num

-- The terms are cut to whole units, those of the lower sum down and those of the upper sum up.
theorem seriesBelow_le (hs : 0 < s) (hx : x ≤ s * z ^ 2) (n k : Nat) :
    seriesBelow s x n k ≤ s * series z k := by
  induction n generalizing k
  case zero =>
    have := mul_nonneg (Nat.cast_nonneg (α := ℝ) s) (series_nonneg z k)
    simpa [seriesBelow] using this
  case succ n ih =>
    have hterm := natCast_div_le s (2 * k + 1)
    have hrest := mul_div_le hs hx (ih (k + 1)) (sq_nonneg z)
    rw [seriesBelow, series_eq hz k]
    push_cast at *
    calc _ ≤ (s / (2 * k + 1) + s * (z ^ 2 * series z (k + 1)) : ℝ) := add_le_add hterm hrest
      _ = s * (1 / (2 * k + 1) + z ^ 2 * series z (k + 1)) := by ring

theorem le_seriesAbove (hs : 0 < s) (hx : s * z ^ 2 ≤ x) (n k : Nat) :
    s * series z k ≤ seriesAbove s x n k := by
  induction n generalizing k
  case zero =>
    have := mul_le_mul_of_nonneg_left (series_le hz k) (Nat.cast_nonneg (α := ℝ) s)
    rw [seriesAbove]
    push_cast
    linarith
  case succ n ih =>
    have hterm := le_natCast_ceilDiv s (show 0 < 2 * k + 1 by omega)
    have hrest := le_mul_ceilDiv hs hx (ih (k + 1)) (series_nonneg ..)
    rw [seriesAbove, series_eq hz k]
    push_cast at *
    calc (s * (1 / (2 * k + 1) + z ^ 2 * series z (k + 1)) : ℝ)
      _ = s / (2 * k + 1) + s * (z ^ 2 * series z (k + 1)) := by ring
      _ ≤ _ := add_le_add hterm hrest

end Series

section Width

variable (hs : 4 ≤ s)
include hs

theorem seriesAbove_le (hx : 4 * x ≤ s) (n k : Nat) : (seriesAbove s x n k : ℝ) ≤ 2 * s := by
  have hs' : (4 : ℝ) ≤ s := by exact_mod_cast hs
  induction n generalizing k
  case zero => simp [seriesAbove]
  case succ n ih =>
    have hterm : (ceilDiv s (2 * k + 1) : ℝ) < s + 1 := by
      refine (natCast_ceilDiv_lt s (by omega)).trans_le (add_le_add_left (div_le_self ?_ ?_) 1)
      · linarith
      · exact_mod_cast (show 1 ≤ 2 * k + 1 by omega)
    have hrest : (ceilDiv (x * seriesAbove s x n (k + 1)) s : ℝ) < s / 2 + 1 := by
      refine (natCast_ceilDiv_lt _ (by omega)).trans_le (add_le_add_left ?_ 1)
      rw [div_le_iff₀ (by linarith)]
      have hx' : (4 * x : ℝ) ≤ s := by exact_mod_cast hx
      push_cast
      calc (x : ℝ) * seriesAbove s x n (k + 1)
        _ ≤ (s / 4) * (2 * s) :=
          mul_le_mul (by linarith) (ih _) (Nat.cast_nonneg _) (by linarith)
        _ = s / 2 * s := by ring
    rw [seriesAbove]
    push_cast
    linarith

-- Each term adds a few units to what the sums differ by, and takes away three quarters of the
-- difference that they came with.
theorem series_width {x' : Nat} (hx : x ≤ x') (hx' : x' ≤ x + 3) (hs' : 4 * x' ≤ s) (n k : Nat) :
    (seriesAbove s x' n k : ℝ) - seriesBelow s x n k ≤ 14 + 2 * s / 4 ^ n := by
  induction n generalizing k
  case zero => simp [seriesAbove, seriesBelow]
  case succ n ih =>
    obtain ⟨w, hw⟩ : ∃ w : ℝ, w = 14 + 2 * s / 4 ^ n := ⟨_, rfl⟩
    have hw₀ : 0 ≤ w := by
      rw [hw]
      positivity
    have hd := ih (k + 1)
    have hA := seriesAbove_le hs hs' n (k + 1)
    have ha₁ := natCast_ceilDiv_lt s (show 0 < 2 * k + 1 by omega)
    have hb₁ := lt_natCast_div s (show 0 < 2 * k + 1 by omega)
    have ha₂ := natCast_ceilDiv_lt (x' * seriesAbove s x' n (k + 1)) (show 0 < s by omega)
    have hb₂ := lt_natCast_div (x * seriesBelow s x n (k + 1)) (show 0 < s by omega)
    rw [←hw] at hd
    have hrest : (x' * seriesAbove s x' n (k + 1) / s : ℝ) - x * seriesBelow s x n (k + 1) / s ≤
        2 * 3 + 1 / 4 * w := by
      have h₁ : (x' : ℝ) ≤ x + 3 := by exact_mod_cast hx'
      have h₂ : (4 * x : ℝ) ≤ s := by exact_mod_cast (show 4 * x ≤ s by omega)
      exact mul_div_sub_le (by omega) (by linarith) (by linarith) hA hd (by norm_num) hw₀
    have hnext : (2 * s / 4 ^ (n + 1) : ℝ) = (w - 14) / 4 := by
      rw [hw, pow_succ]
      ring
    rw [seriesAbove, seriesBelow, hnext]
    push_cast at *
    linarith

end Width

-- The quotient that the series is summed in, in whole units from below and from above.
theorem below_le (hba : b ≤ a) :
    (((a - b) * s / (a + b) : Nat) : ℝ) ≤ s * ((a - b) / (a + b)) := by
  refine (natCast_div_le ..).trans_eq ?_
  rw [Nat.cast_mul, Nat.cast_sub hba, Nat.cast_add]
  ring

theorem le_above (hb : 0 < b) (hba : b ≤ a) :
    s * ((a - b) / (a + b)) ≤ (ceilDiv ((a - b) * s) (a + b) : ℝ) := by
  refine le_trans (le_of_eq ?_) (le_natCast_ceilDiv _ (by omega))
  rw [Nat.cast_mul, Nat.cast_sub hba, Nat.cast_add]
  ring

section Ratio

variable (hb : 0 < b) (hba : b ≤ a) (hab : a ≤ 2 * b)
include hb hba hab

theorem ratio_bounds : 0 ≤ ((a - b) / (a + b) : ℝ) ∧ ((a - b) / (a + b) : ℝ) ≤ 1 / 3 := by
  have h₁ : (0 : ℝ) < b := Nat.cast_pos.mpr hb
  have h₂ : (b : ℝ) ≤ a := by exact_mod_cast hba
  have h₃ : (a : ℝ) ≤ 2 * b := by exact_mod_cast hab
  exact ⟨div_nonneg (by linarith) (by linarith), by rw [div_le_iff₀ (by linarith)]; linarith⟩

theorem log_ratio_eq :
    Real.log (a / b) = 2 * ((a - b) / (a + b)) * series ((a - b) / (a + b)) 0 := by
  have ⟨h₀, h₁⟩ := ratio_bounds hb hba hab
  have hb' : (0 : ℝ) < b := Nat.cast_pos.mpr hb
  have ha' : (0 : ℝ) < a := Nat.cast_pos.mpr (by omega)
  rw [←log_sub_log_eq (abs_lt.mpr ⟨by linarith, by linarith⟩),
    ←Real.log_div (by linarith) (by linarith)]
  congr 1
  rw [div_eq_div_iff hb'.ne' (by linarith)]
  field_simp
  ring

end Ratio

-- The squares of two neighbours that are at most a third of the scale.
theorem squares_close {below above : Nat} (hs : 100 ≤ s) (hthird : (below : ℝ) ≤ s / 3)
    (hle : below ≤ above) (hnext : (above : ℝ) ≤ below + 1) :
    below * below / s ≤ ceilDiv (above * above) s ∧
      ceilDiv (above * above) s ≤ below * below / s + 3 ∧ 4 * ceilDiv (above * above) s ≤ s := by
  have hs' : (100 : ℝ) ≤ s := by exact_mod_cast hs
  have hsq : (above * above : ℝ) ≤ below * below + s := by nlinarith
  have hsq' : (above * above : ℝ) ≤ (s / 9 + 1) * s := by nlinarith
  have hup := natCast_ceilDiv_lt (above * above) (show 0 < s by omega)
  have hdown := lt_natCast_div (below * below) (show 0 < s by omega)
  rw [Nat.cast_mul] at hup hdown
  refine ⟨?le, ?close, ?quarter⟩
  case le =>
    exact (Nat.div_le_div_right (Nat.mul_le_mul hle hle)).trans (div_le_ceilDiv _ (by omega))
  case close =>
    have hsq : (above * above / s : ℝ) ≤ below * below / s + 1 := by
      rw [div_add_one (by linarith)]
      exact div_le_div_of_nonneg_right hsq (by linarith)
    have : (ceilDiv (above * above) s : ℝ) < (below * below / s : Nat) + 3 := by linarith
    exact_mod_cast this.le
  case quarter =>
    have hsq' : (above * above / s : ℝ) ≤ s / 9 + 1 := by rwa [div_le_iff₀ (by linarith)]
    have : (4 * ceilDiv (above * above) s : ℝ) ≤ s := by linarith
    exact_mod_cast this

-- The numbers between two limits.
structure Span.Holds (a : Span) (v : ℝ) : Prop where
  lower : a.lower ≤ v
  upper : v ≤ a.upper

def Span.width (a : Span) : Int := a.upper - a.lower

section Ratio

variable (hb : 0 < b) (hba : b ≤ a) (hab : a ≤ 2 * b)
include hb hba hab

theorem lnRatio_holds (hs : 0 < s) (terms : Nat) :
    (lnRatio s terms a b).Holds (s * Real.log (a / b)) := by
  have ⟨h₀, h₁⟩ := ratio_bounds hb hba hab
  have hlow := below_le (s := s) hba
  have hhigh := le_above (s := s) hb hba
  rw [log_ratio_eq hb hba hab]
  unfold lnRatio
  dsimp only
  generalize ((a - b) / (a + b) : ℝ) = z at *
  generalize (a - b) * s / (a + b) = below at *
  generalize ceilDiv ((a - b) * s) (a + b) = above at *
  have hz : z ^ 2 ≤ 1 / 2 := by nlinarith
  constructor
  case lower =>
    have hx := mul_div_le hs hlow hlow h₀
    rw [←sq z] at hx
    have hquot := mul_div_le hs hlow (seriesBelow_le hz hs hx terms 0) h₀
    rw [Int.cast_natCast, Nat.cast_mul, Nat.cast_ofNat]
    linarith
  case upper =>
    have hx := le_mul_ceilDiv hs hhigh hhigh h₀
    rw [←sq z] at hx
    have hquot := le_mul_ceilDiv hs hhigh (le_seriesAbove hz hs hx terms 0) (series_nonneg z 0)
    rw [Int.cast_natCast, Nat.cast_mul, Nat.cast_ofNat]
    linarith

theorem lnRatio_width (hs : 100 ≤ s) {terms : Nat} (ht : s ≤ 4 ^ terms) :
    (lnRatio s terms a b).width ≤ 20 := by
  have hs' : (100 : ℝ) ≤ s := by exact_mod_cast hs
  have hlow := below_le (s := s) hba
  have hgap : ceilDiv ((a - b) * s) (a + b) ≤ (a - b) * s / (a + b) + 1 :=
    ceilDiv_le _ (by omega)
  have hle : (a - b) * s / (a + b) ≤ ceilDiv ((a - b) * s) (a + b) :=
    div_le_ceilDiv _ (by omega)
  unfold Span.width lnRatio
  dsimp only
  generalize (a - b) * s / (a + b) = below at *
  generalize ceilDiv ((a - b) * s) (a + b) = above at *
  have hthird : (below : ℝ) ≤ s / 3 := by
    refine hlow.trans ?_
    have ⟨_, h₁⟩ := ratio_bounds hb hba hab
    linarith [mul_le_mul_of_nonneg_left h₁ (show (0 : ℝ) ≤ s by linarith)]
  have habove : (above : ℝ) ≤ below + 1 := by exact_mod_cast hgap
  have ⟨hquot, hclose, hquarter⟩ := squares_close hs hthird hle habove
  have hA := seriesAbove_le (show 4 ≤ s by omega) hquarter terms 0
  have hD := series_width (show 4 ≤ s by omega) hquot hclose hquarter terms 0
  have htail : (2 * s / 4 ^ terms : ℝ) ≤ 2 := by
    rw [div_le_iff₀ (by positivity)]
    exact mul_le_mul_of_nonneg_left (by exact_mod_cast ht) (by norm_num)
  generalize seriesAbove s (ceilDiv (above * above) s) terms 0 = A at *
  generalize seriesBelow s (below * below / s) terms 0 = B at *
  have hdiff : (above * A / s : ℝ) - below * B / s ≤ 2 * 1 + 1 / 3 * 16 :=
    mul_div_sub_le (by omega) (by linarith) (by linarith) hA (by linarith) (by norm_num)
      (by norm_num)
  have hup := natCast_ceilDiv_lt (above * A) (show 0 < s by omega)
  have hdown := lt_natCast_div (below * B) (show 0 < s by omega)
  rw [Nat.cast_mul] at hup hdown
  have hunits : (ceilDiv (above * A) s : ℝ) < (below * B / s : Nat) + 10 := by linarith
  have : ceilDiv (above * A) s < below * B / s + 10 := by exact_mod_cast hunits
  omega

end Ratio

end Decimal

end BinMarket
