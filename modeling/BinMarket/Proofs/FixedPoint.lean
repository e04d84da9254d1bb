import BinMarket.Proofs.Rounding
import Mathlib.Data.Rat.Floor

/-!
Fixed point products and quotients beside the exact ones. Each is the exact number, rounded the way
the caller names, also below zero. So a product that is rounded down asks for a quotient that is
rounded up, and a quotient that is rounded down for a product that is rounded up.
-/

namespace BinMarket

variable {a b d p : ℤ} {k : ℕ}

-- The integer that stands for an exact number.
def Rounding.toInt : Rounding → ℚ → ℤ
  | .up, v   => ⌈v⌉
  | .down, v => ⌊v⌋

theorem ediv_eq_floor (hd : 0 < d) (n : ℤ) : n / d = ⌊(n / d : ℚ)⌋ := by
  have hd' : (0 : ℚ) < d := by exact_mod_cast hd
  refine eq_of_forall_le_iff fun c => ?_
  rw [Int.le_ediv_iff_mul_le hd, Int.le_floor, le_div_iff₀ hd']
  norm_cast

theorem ediv_eq_ceil (hd : 0 < d) (n : ℤ) : (n + d - 1) / d = ⌈(n / d : ℚ)⌉ := by
  have hd' : (0 : ℚ) < d := by exact_mod_cast hd
  refine eq_of_forall_ge_iff fun c => ?_
  rw [ceil_le_iff hd, Int.ceil_le, div_le_iff₀ hd']
  norm_cast

namespace FixedPoint

theorem cast_twoTo (k : ℕ) : ((twoTo k : ℤ) : ℚ) = 2 ^ k := by
  rw [twoTo, Nat.pow_eq]
  push_cast
  rfl

theorem mulShr_eq_toInt (a p : ℤ) (k : ℕ) (r : Rounding) :
    mulShr a p k r = r.toInt (a * p / 2 ^ k) := by
  have hk := twoTo_pos' k
  rw [←cast_twoTo, ←Int.cast_mul]
  cases r
  case up   => rw [mulShr_up_eq, ediv_eq_ceil hk, Rounding.toInt]
  case down => rw [mulShr, shiftRight_eq, ediv_eq_floor hk, Rounding.toInt]

theorem shlDiv_eq_toInt (hp : 0 < p) (a : ℤ) (k : ℕ) (r : Rounding) :
    shlDiv a p k r = .ok (r.toInt (a * 2 ^ k / p)) := by
  rw [←cast_twoTo, ←Int.cast_mul]
  cases r
  case up   => rw [shlDiv_up_eq hp, ediv_eq_ceil hp, Rounding.toInt]
  case down => rw [shlDiv_down_eq hp, ediv_eq_floor hp, Rounding.toInt]

theorem mulShrBy_natCast (a p : ℤ) (k : ℕ) (r : Rounding) :
    mulShrBy a p k r = .ok (mulShr a p k r) := by
  rw [mulShrBy, places?, if_neg (Int.natCast_nonneg k).not_gt]
  rfl

theorem shlDivBy_natCast (a p : ℤ) (k : ℕ) (r : Rounding) :
    shlDivBy a p k r = shlDiv a p k r := by
  rw [shlDivBy, places?, if_neg (Int.natCast_nonneg k).not_gt]
  by_cases hp : p = 0
  case pos => rw [if_pos hp, shlDiv.eq_def, if_pos hp]; rfl
  case neg => rw [if_neg hp]; rfl

theorem shlDiv_up_le_iff (hp : 0 < p) :
    (∃ q, shlDiv b p k .up = .ok q ∧ q ≤ a) ↔ b * twoTo k ≤ a * p := by
  rw [shlDiv_up_eq hp, ←ceil_le_iff hp]
  simp

theorem le_shlDiv_down_iff (hp : 0 < p) :
    (∃ q, shlDiv a p k .down = .ok q ∧ b ≤ q) ↔ b * p ≤ a * twoTo k := by
  rw [shlDiv_down_eq hp, ←Int.le_ediv_iff_mul_le hp]
  simp

-- Products and quotients of any integer with a price, whatever the number of places:
-- 1. Each is the exact number, rounded as it is named, also where the places come with a call
-- 2. A product rounded down reaches just what a quotient rounded up asks for
-- 3. A quotient rounded down reaches just what a product rounded up asks for
theorem mulShr_shlDiv_adjoint (hp : 0 < p) (a b : ℤ) (k : ℕ) :
    (∀ r, mulShr a p k r = r.toInt (a * p / 2 ^ k) ∧ mulShrBy a p k r = .ok (mulShr a p k r)) ∧
    (∀ r, shlDiv a p k r = .ok (r.toInt (a * 2 ^ k / p)) ∧
      shlDivBy a p k r = shlDiv a p k r) ∧
    (b ≤ mulShr a p k .down ↔ ∃ q, shlDiv b p k .up = .ok q ∧ q ≤ a) ∧
    ((∃ q, shlDiv a p k .down = .ok q ∧ b ≤ q) ↔ mulShr b p k .up ≤ a) := by
  refine ⟨fun r => ⟨mulShr_eq_toInt a p k r, mulShrBy_natCast a p k r⟩,
    fun r => ⟨shlDiv_eq_toInt hp a k r, shlDivBy_natCast a p k r⟩, ?_, ?_⟩
  · rw [le_mulShr_down_iff, shlDiv_up_le_iff hp]
  · rw [le_shlDiv_down_iff hp, mulShr_up_le_iff]

-- Minus seven times five quarters is between minus nine and minus eight, and minus seven times four
-- fifths between minus six and minus five.
theorem mulShr_shlDiv_adjoint_negative :
    mulShr (-7) 5 2 .down = -9 ∧ mulShr (-7) 5 2 .up = -8 ∧
    shlDiv (-7) 5 2 .down = .ok (-6) ∧ shlDiv (-7) 5 2 .up = .ok (-5) ∧
    (-9 ≤ mulShr (-7) 5 2 .down ↔ ∃ q, shlDiv (-9) 5 2 .up = .ok q ∧ q ≤ -7) ∧
    ((∃ q, shlDiv (-7) 5 2 .down = .ok q ∧ -5 ≤ q) ↔ mulShr (-5) 5 2 .up ≤ -7) := by
  have hp : (0 : ℤ) < 5 := by decide
  have ⟨_, _, hproduct, _⟩ := mulShr_shlDiv_adjoint hp (-7) (-9) 2
  have ⟨_, _, _, hquotient⟩ := mulShr_shlDiv_adjoint hp (-7) (-5) 2
  exact ⟨by decide, by decide, by decide, by decide, hproduct, hquotient⟩

end FixedPoint

end BinMarket
