import BinMarket.Decimal.Bracket

/-!
The natural logarithm, correctly rounded. A number is written as `y * 2 ^ a * 10 ^ b` with `y` near
one, each logarithm is bracketed by its series, and digits are added until both ends of the sum
round to one decimal.
-/

namespace BinMarket.Decimal

-- All numbers from `lower` to `upper` units of an implied scale.
structure Span where
  lower : Int
  upper : Int
deriving DecidableEq, Repr

namespace Span

def add (a b : Span) : Span := ⟨a.lower + b.lower, a.upper + b.upper⟩

def neg (a : Span) : Span := ⟨-a.upper, -a.lower⟩

-- An integer multiple.
def scale (k : Int) (a : Span) : Span :=
  if 0 ≤ k then ⟨k * a.lower, k * a.upper⟩ else ⟨k * a.upper, k * a.lower⟩

end Span

/-!
The series is `1 / (2k+1) + z² / (2k+3) + z⁴ / (2k+5) + …`, summed from its far end. With `z² ≤ 1/2`
the part after the last term is at least nothing and at most two.
-/

-- At most `s` times the series from its term `k`, where `x` is at most `s * z²`.
def seriesBelow (s x : Nat) : Nat → Nat → Nat
  | 0, _ => 0
  | n + 1, k => s / (2 * k + 1) + x * seriesBelow s x n (k + 1) / s

-- At least `s` times the series from its term `k`, where `x` is at least `s * z²`.
def seriesAbove (s x : Nat) : Nat → Nat → Nat
  | 0, _ => 2 * s
  | n + 1, k => ceilDiv s (2 * k + 1) + ceilDiv (x * seriesAbove s x n (k + 1)) s

-- Around `s * ln (a / b)` for `b ≤ a ≤ 2 * b`: twice `z` times the series, with
-- `z = (a - b) / (a + b)`.
def lnRatio (s terms a b : Nat) : Span :=
  let below := (a - b) * s / (a + b)
  let above := ceilDiv ((a - b) * s) (a + b)
  let low := 2 * (below * seriesBelow s (below * below / s) terms 0 / s)
  let high := 2 * ceilDiv (above * seriesAbove s (ceilDiv (above * above) s) terms 0) s
  ⟨low, high⟩

-- A positive number as `num / den * 2 ^ twos * 10 ^ tens` with a ratio between 0.7 and 1.4.
structure NearOne where
  num  : Nat
  den  : Nat
  twos : Nat
  tens : Int

-- Numbers that are near one already use no powers at all, so nothing cancels.
def NearOne.of (c : Nat) (e : Int) : NearOne :=
  let digits := digitCount c
  let unit := tenTo (digits - 1)
  let lead := adjusted c e
  if lead = -1 ∧ 7 * unit ≤ c then ⟨c, 10 * unit, 0, 0⟩
  else if 5 * c < 7 * unit then ⟨c, unit, 0, lead⟩
  else if 5 * c < 14 * unit then ⟨c, 2 * unit, 1, lead⟩
  else if 5 * c < 28 * unit then ⟨c, 4 * unit, 2, lead⟩
  else ⟨c, 8 * unit, 3, lead⟩

-- Around `10 ^ places * ln x`. The logarithm of ten is three of two and that of five quarters.
def lnSpan (places : Nat) (x : NearOne) : Span :=
  let s := tenTo places
  let terms := 2 * places
  let ratio :=
    if x.den ≤ x.num then lnRatio s terms x.num x.den else (lnRatio s terms x.den x.num).neg
  if x.twos = 0 ∧ x.tens = 0 then ratio
  else
    (ratio.add ((lnRatio s terms 2 1).scale (x.twos + 3 * x.tens))).add
      ((lnRatio s terms 5 4).scale x.tens)

-- The common rounding of both ends, if they have one.
def Span.settle? (p places : Nat) (a : Span) : Option (Except Failure Decimal) :=
  agreed? (finish p (a.lower < 0) a.lower.natAbs (-places))
    (finish p (a.upper < 0) a.upper.natAbs (-places))

-- Tries ever more places. The last resort is the lower end of a bracket `2 ^ tries` times as long
-- as any answer.
def lnWith (p places : Nat) (x : NearOne) : Nat → Except Failure Decimal
  | 0 => let a := lnSpan places x; finish p (a.lower < 0) a.lower.natAbs (-places)
  | tries + 1 =>
    match (lnSpan places x).settle? p places with
    | some r => r
    | none => lnWith p (2 * places) x tries

-- The natural logarithm of a positive number. Near one it has as many zeros after the point as the
-- number has between its one and its next digit, so that many more places are asked for.
def ln (p : Nat) : Decimal → Except Failure Decimal
  | finite false c e =>
    if c = 0 then .ok (infinity true)
    else
      let x := NearOne.of c e
      if x.num = x.den ∧ x.twos = 0 ∧ x.tens = 0 then .ok zero
      else
        let gap := digitCount x.den - digitCount (max x.num x.den - min x.num x.den)
        lnWith p (p + 12 + gap) x 6
  | finite true c _ => if c = 0 then .ok (infinity true) else .error .invalid
  | infinity s => if s then .error .invalid else .ok (infinity false)
  | nan true .. => .error .invalid
  | nan false s k => .ok (finishNaN p s k)

end BinMarket.Decimal
