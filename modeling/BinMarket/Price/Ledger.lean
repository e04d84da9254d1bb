import BinMarket.FixedPoint

/-!
Prices as the ledger computes them: fixed point with 64 binary places, raised to the bin id by
squaring, every product cut down. A base of one or more is inverted first, so that the squares only
ever shrink, and the result is inverted back.
-/

namespace BinMarket.Ledger

open FixedPoint

-- Exponents from here on have no power.
def maxExponent : Nat := 0x80000

-- The product of two prices, rounded down.
def times (x y : Int) : Int := mulShr x y places .down

-- `acc` times the base to the `n`, one square per binary digit of `n`.
def powerOf (base acc : Int) (n : Nat) : Int :=
  if n = 0 then acc
  else powerOf (times base base) (if n % 2 = 1 then times acc base else acc) (n / 2)
termination_by n

-- Whether the base is inverted before it is raised.
def inverts (base : Int) : Bool := unit ≤ base

def power (base : Int) (n : Int) : Except Fault Int :=
  if n = 0 then .ok unit
  else if maxExponent ≤ n.natAbs then .error (.invalid (.exponentOutOfRange n.natAbs))
  else
    let small := if inverts base then maxU128.fdiv base else base
    let result := powerOf small unit n.natAbs
    if result = 0 then .error (.invalid .priceUnderflow)
    else
      let result := if (n < 0) != inverts base then maxU128.fdiv result else result
      if maxU128 < result then .error (.invalid .priceOverflow) else .ok result

-- One plus a bin step, which counts ten thousandths.
def baseOf (step : Int) : Int := unit + step * unit / 10000

def priceOf (bin step : Int) : Except Fault Int :=
  if step ≤ 0 then .error (.invalid (.binStepNotPositive step))
  else power (baseOf step) bin

end BinMarket.Ledger
