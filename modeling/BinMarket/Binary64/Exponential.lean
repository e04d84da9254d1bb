import BinMarket.Binary64.Basic

/-!
Decaying exponentials. The series of the growing one is bracketed from both sides; its reciprocal is
rounded from both, with more digits until they agree.
-/

namespace BinMarket.Binary64

/-!
Summed from its far end, the series is `1 + t/k * (1 + t/(k+1) * (1 + …))` with `k = 1`. Once `k`
is at least `2 * t` the part in the innermost brackets is between one and two.
-/

-- At most `s` times the series from its term `k`, where `t` is `num / den`.
def growthBelow (s num den : Nat) : Nat → Nat → Nat
  | 0, _ => s
  | n + 1, k => s + num * growthBelow s num den n (k + 1) / (den * k)

-- At least `s` times the series from its term `k`, where `t` is `num / den`.
def growthAbove (s num den : Nat) : Nat → Nat → Nat
  | 0, _ => 2 * s
  | n + 1, k => s + ceilDiv (num * growthAbove s num den n (k + 1)) (den * k)

-- Tries ever more digits, and takes the upper end when no number of them was enough.
def decayWith (bits num den : Nat) : Nat → Binary64
  | 0 => ofRatio false (twoTo bits) (growthBelow (twoTo bits) num den bits 1)
  | tries + 1 =>
    let terms := bits + 2 * (num / den + 1)
    let low := ofRatio false (twoTo bits) (growthAbove (twoTo bits) num den terms 1)
    if low = ofRatio false (twoTo bits) (growthBelow (twoTo bits) num den terms 1) then low
    else decayWith (2 * bits) num den tries

-- The number nearest to `exp (-num / den)`.
def decay (num den : Nat) : Binary64 := decayWith 128 num den 4

example : decay 0 1 = finite false (twoTo 52) (-52) := by decide +kernel

end BinMarket.Binary64
