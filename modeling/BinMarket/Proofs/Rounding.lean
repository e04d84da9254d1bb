import BinMarket.FixedPoint

/-!
Quotients rounded down are the greatest integers that fit, quotients rounded up the least that
suffice. Fixed point products and quotients are both, as the caller names it.
-/

namespace BinMarket

variable {a b c d x y : Int} {k : Nat}

theorem ceil_le_iff (hd : 0 < d) : (a + d - 1) / d ≤ c ↔ a ≤ c * d := by
  rw [←Int.lt_add_one_iff, Int.ediv_lt_iff_lt_mul hd, Int.add_mul, Int.one_mul]
  omega

theorem le_ceil_iff (hd : 0 < d) : c ≤ (a + d - 1) / d ↔ (c - 1) * d < a := by
  rw [Int.le_ediv_iff_mul_le hd, Int.sub_mul, Int.one_mul]
  omega

-- What is divided by more is no more.
theorem div_le_div_left (ha : 0 ≤ a) (hc : 0 < c) (h : c ≤ d) : a / d ≤ a / c := by
  have hd := Int.lt_of_lt_of_le hc h
  refine (Int.le_ediv_iff_mul_le hc).mpr (Int.le_trans ?_ (Int.ediv_mul_le a (Int.ne_of_gt hd)))
  exact Int.mul_le_mul_of_nonneg_left h (Int.ediv_nonneg ha (Int.le_of_lt hd))

theorem ceil_nonneg (hd : 0 < d) (ha : 0 ≤ a) : 0 ≤ (a + d - 1) / d :=
  Int.ediv_nonneg (by omega) (by omega)

theorem ceil_pos (hd : 0 < d) (ha : 0 < a) : 0 < (a + d - 1) / d := by
  rw [Int.lt_iff_add_one_le, Int.zero_add, le_ceil_iff hd, Int.sub_self, Int.zero_mul]
  exact ha

namespace FixedPoint

theorem twoTo_pos' (k : Nat) : (0 : Int) < twoTo k := Int.natCast_pos.mpr (twoTo_pos k)

theorem twoTo_places : (twoTo places : Int) = unit := by decide

theorem shiftRight_eq (x : Int) (k : Nat) : x >>> k = x / twoTo k := by
  rw [Int.shiftRight_eq_div_pow, twoTo, Nat.pow_eq]

theorem shiftRight_nonneg (hx : 0 ≤ x) (k : Nat) : 0 ≤ x >>> k := by
  rw [shiftRight_eq]
  exact Int.ediv_nonneg hx (Int.le_of_lt (twoTo_pos' k))

theorem le_mulShr_down_iff : b ≤ mulShr x y k .down ↔ b * twoTo k ≤ x * y := by
  simp only [mulShr, shiftRight_eq]
  exact Int.le_ediv_iff_mul_le (twoTo_pos' k)

-- The place after the last counts as one unit as soon as any bit that is shifted out is set.
theorem mulShr_up_eq : mulShr x y k .up = (x * y + twoTo k - 1) / twoTo k := by
  have hk := twoTo_pos' k
  have hd := Int.mul_ediv_add_emod (x * y) (twoTo k)
  have hm := Int.emod_nonneg (x * y) (Int.ne_of_gt hk)
  have hl := Int.emod_lt_of_pos (x * y) hk
  simp only [mulShr, shiftRight_eq]
  rw [Int.mul_comm] at hd
  split
  case isTrue hz =>
    apply Int.le_antisymm
    · rw [Int.add_zero, le_ceil_iff hk, Int.sub_mul, Int.one_mul]
      omega
    · rw [Int.add_zero, ceil_le_iff hk]
      omega
  case isFalse hz =>
    apply Int.le_antisymm
    · rw [le_ceil_iff hk, Int.add_sub_cancel]
      omega
    · rw [ceil_le_iff hk, Int.add_mul, Int.one_mul]
      omega

theorem mulShr_up_le_iff : mulShr x y k .up ≤ b ↔ x * y ≤ b * twoTo k := by
  rw [mulShr_up_eq, ceil_le_iff (twoTo_pos' k)]

theorem shlDiv_down_eq (hy : 0 < y) : shlDiv x y k .down = .ok (x * twoTo k / y) := by
  rw [shlDiv, if_neg (Int.ne_of_gt hy), Int.fdiv_eq_ediv_of_nonneg _ (Int.le_of_lt hy)]

theorem shlDiv_up_eq (hy : 0 < y) : shlDiv x y k .up = .ok ((x * twoTo k + y - 1) / y) := by
  rw [shlDiv, if_neg (Int.ne_of_gt hy), Int.fdiv_eq_ediv_of_nonneg _ (Int.le_of_lt hy)]

theorem shlDiv_ne_zero {r : Rounding} {q : Int} (h : shlDiv x y k r = .ok q) : y ≠ 0 := by
  rintro rfl
  simp [shlDiv] at h

end FixedPoint

end BinMarket
