import BinMarket.Fault
import BinMarket.Scale

/-!
Fixed point numbers: integers that stand for multiples of a power of a half. Products are shifted
back and quotients shifted forth, each rounded the way the caller names.
-/

namespace BinMarket

inductive Rounding
  | up
  | down
deriving DecidableEq, Repr

namespace FixedPoint

-- Binary places of a price or accumulator.
def places : Nat := 64

-- Two to the 64.
def unit : Int := 18446744073709551616

-- All 128 bits.
def maxU128 : Int := 340282366920938463463374607431768211455

-- The product without its last `k` binary places.
def mulShr (x y : Int) (k : Nat) (r : Rounding) : Int :=
  let product := x * y
  match r with
  | .down => product >>> k
  | .up => product >>> k + if product % twoTo k = 0 then 0 else 1

-- The quotient with `k` more binary places.
def shlDiv (x y : Int) (k : Nat) (r : Rounding) : Except Fault Int :=
  if y = 0 then .error (.invalid .divisorZero)
  else
    match r with
    | .down => .ok ((x * twoTo k).fdiv y)
    | .up => .ok ((x * twoTo k + y - 1).fdiv y)

-- A number of places is not negative.
def places? (k : Int) : Except Fault Nat :=
  if k < 0 then .error .negativeShift else .ok k.toNat

def mulShrBy (x y k : Int) (r : Rounding) : Except Fault Int :=
  return mulShr x y (← places? k) r

-- A zero divisor is noticed before a negative number of places.
def shlDivBy (x y k : Int) (r : Rounding) : Except Fault Int := do
  if y = 0 then throw (.invalid .divisorZero)
  shlDiv x y (← places? k) r

end FixedPoint

end BinMarket
