import BinMarket.Decimal.Arithmetic

/-!
Brackets around positive numbers. A bracket keeps its two ends to a bounded number of digits and
rounds them apart, so whatever it started around stays inside. When both ends round to one decimal
that decimal is the rounding of every number between them.
-/

namespace BinMarket

namespace Decimal

def agreed? : Except Failure Decimal → Except Failure Decimal → Option (Except Failure Decimal)
  | .ok a, .ok b => if a = b then some (.ok a) else none
  | .error a, .error b => if a = b then some (.error a) else none
  | _, _ => none

theorem agreed?_eq_some_iff {a b r : Except Failure Decimal} :
    agreed? a b = some r ↔ a = r ∧ b = r := by
  cases a <;> cases b <;> simp only [agreed?]
  case error.error x y => by_cases h : x = y <;> cases r <;> grind
  case ok.ok x y => by_cases h : x = y <;> cases r <;> grind
  all_goals cases r <;> simp

-- All numbers from `lower` to `upper` units of ten to the `exponent`.
structure Bracket where
  lower    : Nat
  upper    : Nat
  exponent : Int
deriving DecidableEq, Repr

namespace Bracket

-- The bracket around a single number.
def exactly (c : Nat) (e : Int) : Bracket := ⟨c, c, e⟩

-- Cuts both ends to about `w` digits, the lower end down and the upper end up.
def trim (w : Nat) (b : Bracket) : Bracket :=
  let k := digitCount b.upper - w
  ⟨b.lower / tenTo k, ceilDiv b.upper (tenTo k), b.exponent + k⟩

def mul (w : Nat) (a b : Bracket) : Bracket :=
  trim w ⟨a.lower * b.lower, a.upper * b.upper, a.exponent + b.exponent⟩

-- A power by repeated squaring.
def pow (w : Nat) (b : Bracket) (n : Nat) : Bracket :=
  if n = 0 then exactly 1 0
  else
    let half := pow w b (n / 2)
    let square := mul w half half
    if n % 2 = 0 then square else mul w square b
termination_by n

-- Around one divided by `c` units of ten to the `e`: the exact quotient when `w` more digits than
-- `c` has can hold it, with as few trailing zeros as the exponent `-e` allows.
def inverse (w c : Nat) (e : Int) : Bracket :=
  let k := w + digitCount c
  let q := tenTo k / c
  if tenTo k % c = 0 then
    let (q, e') := reduce (-e) q (-e - k)
    exactly q e'
  else ⟨q, q + 1, -e - k⟩

-- The common rounding of both ends, if they have one.
def settle? (p : Nat) (negative : Bool) (b : Bracket) : Option (Except Failure Decimal) :=
  agreed? (finish p negative b.lower b.exponent) (finish p negative b.upper b.exponent)

theorem settle?_eq_some_iff {p : Nat} {s : Bool} {b : Bracket} {r : Except Failure Decimal} :
    b.settle? p s = some r ↔
      finish p s b.lower b.exponent = r ∧ finish p s b.upper b.exponent = r :=
  agreed?_eq_some_iff

end Bracket

end Decimal

end BinMarket
