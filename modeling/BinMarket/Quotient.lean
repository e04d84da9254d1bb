/-!
Integer quotients that say how they round.
-/

namespace BinMarket

-- The quotient rounded to the nearest integer, a half going to the even neighbour.
def halfEven (n d : Nat) : Nat :=
  let q := n / d
  let r := n % d
  if d < 2 * r ∨ 2 * r = d ∧ q % 2 = 1 then q + 1 else q

def ceilDiv (n d : Nat) : Nat :=
  (n + d - 1) / d

theorem halfEven_le (n d : Nat) : halfEven n d ≤ n / d + 1 := by
  unfold halfEven; dsimp only; split <;> omega

-- No integer is nearer to `n / d` than `halfEven n d`: twice the distance is at most one unit.
theorem halfEven_near (n : Nat) {d : Nat} (h : 0 < d) :
    2 * (d * halfEven n d) ≤ 2 * n + d ∧ 2 * n ≤ 2 * (d * halfEven n d) + d := by
  have hm := Nat.mod_lt n h
  have hd := Nat.div_add_mod n d
  unfold halfEven
  dsimp only
  split
  · rename_i hc
    rw [Nat.mul_add, Nat.mul_one]
    omega
  · rename_i hc
    simp only [not_or, not_and] at hc
    omega

-- Half way between two integers the even one is taken.
theorem even_halfEven {n d : Nat} (h : 0 < d)
    (hh : 2 * (d * halfEven n d) = 2 * n + d ∨ 2 * n = 2 * (d * halfEven n d) + d) :
    halfEven n d % 2 = 0 := by
  have hm := Nat.mod_lt n h
  have hd := Nat.div_add_mod n d
  unfold halfEven at *
  dsimp only at *
  split at hh
  · rename_i hc
    rw [if_pos hc]
    rw [Nat.mul_add, Nat.mul_one] at hh
    omega
  · rename_i hc
    rw [if_neg hc]
    simp only [not_or, not_and] at hc
    omega

theorem halfEven_eq_zero {n d : Nat} (h : 2 * n < d) : halfEven n d = 0 := by
  have hn : n < d := by omega
  unfold halfEven
  simp only [Nat.div_eq_of_lt hn, Nat.mod_eq_of_lt hn]
  rw [if_neg (by omega)]

theorem le_ceilDiv_mul (n : Nat) {d : Nat} (h : 0 < d) : n ≤ ceilDiv n d * d := by
  have := Nat.div_add_mod (n + d - 1) d
  have := Nat.mod_lt (n + d - 1) h
  unfold ceilDiv
  rw [Nat.mul_comm]
  omega

theorem ceilDiv_mul_lt (n : Nat) {d : Nat} (h : 0 < d) : ceilDiv n d * d < n + d := by
  have := Nat.div_mul_le_self (n + d - 1) d
  unfold ceilDiv
  omega

end BinMarket
