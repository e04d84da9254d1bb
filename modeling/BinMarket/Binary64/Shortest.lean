import BinMarket.Binary64.Basic
import BinMarket.Decimal.Text

/-!
Between decimals and binary numbers: the nearest binary number of a decimal, and the decimal with the
fewest digits that reads back as a given binary number.
-/

namespace BinMarket.Binary64

-- The binary number nearest to a decimal. Far outside the range nothing is multiplied out.
def ofDecimal : Decimal → Binary64
  | .finite s c e =>
    let lead := Decimal.adjusted c e
    if c = 0 ∨ lead < -400 then ofRatio s 0 1
    else if 400 < lead then infinity s
    else ofRatio s (c * tenTo e.toNat) (tenTo (-e).toNat)
  | .infinity s => infinity s
  | .nan .. => nan

-- The exponent of the leading decimal digit of a quotient.
def leadOf (num den : Nat) : Int :=
  let k : Int := (Decimal.digitCount num : Int) - Decimal.digitCount den
  if num * tenTo (-k).toNat < den * tenTo k.toNat then k - 1 else k

-- The numbers that round to `m` units of two to the `e`, from `lower` to `upper` quarter units, the
-- ends included when `m` is even. Below a power of two the numbers lie half as far apart.
structure Cell where
  lower  : Nat
  upper  : Nat
  closed : Bool

def cell (m : Nat) (e : Int) : Cell :=
  ⟨if m = twoTo 52 ∧ minExponent < e then 4 * m - 1 else 4 * m - 2, 4 * m + 2, m % 2 == 0⟩

-- Whether `n` units of ten to the `g` lie in a cell, whose quarter unit is `num / den`.
def Cell.contains (c : Cell) (num den : Nat) (n : Nat) (g : Int) : Bool :=
  let x := n * tenTo g.toNat * den
  let scale := tenTo (-g).toNat * num
  if c.closed then c.lower * scale ≤ x && x ≤ c.upper * scale
  else c.lower * scale < x && x < c.upper * scale

-- The decimal with the fewest digits inside a cell, and of those the one nearest to `m`. Only the
-- two neighbours of `m` on each grid can be inside when any point of the grid is.
def shortestFrom (m : Nat) (e : Int) (digits : Nat) : Nat → Nat × Int
  | 0 => (0, 0)
  | tries + 1 =>
    let num := twoTo (e - 2).toNat
    let den := twoTo (2 - e).toNat
    let g := leadOf (4 * m * num) den - digits + 1
    let a := 4 * m * num * tenTo (-g).toNat
    let b := den * tenTo g.toNat
    let n := a / b
    let near := halfEven a b
    let far := if near = n then n + 1 else n
    let c := cell m e
    if c.contains num den near g then (near, g)
    else if c.contains num den far g then (far, g)
    else shortestFrom m e (digits + 1) tries

-- A grid point that rounding carried up to the next power of ten gives its zeros back.
def shortest (m : Nat) (e : Int) : Nat × Int :=
  let (n, g) := shortestFrom m e 1 17
  Decimal.reduce (g + 17) n g

-- The decimal that writes a binary number with the fewest digits. From a ten thousandth up to ten
-- to the 16 it has at least one place after the point; outside it has no zeros at its end.
def toDecimal : Binary64 → Decimal
  | finite s m e =>
    if m = 0 then .finite s 0 (-1)
    else
      let (n, g) := shortest m e
      let lead := Decimal.adjusted n g
      if 0 ≤ g ∧ lead < 16 then .finite s (n * tenTo (g + 1).toNat) (-1)
      else .finite s n g
  | infinity s => .infinity s
  | nan => .nan false false 0

-- Plain notation with a fixed number of places, the exact binary value rounded half to even.
def fixed (places : Nat) : Binary64 → String
  | finite s m e =>
    Decimal.signText s ++
      Decimal.pointed (halfEven (m * twoTo e.toNat * tenTo places) (twoTo (-e).toNat)) places
  | infinity s => Decimal.signText s ++ "inf"
  | nan => "nan"

end BinMarket.Binary64
