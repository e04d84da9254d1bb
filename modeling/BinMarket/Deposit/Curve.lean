import BinMarket.Binary64.Exponential
import BinMarket.Deposit.Shape

/-!
Bell curves. The weight of a bin falls with the square of its distance from the centre, measured in
quarters of the range's width. Distances and weights are binary numbers, so they are rounded at every
step.
-/

namespace BinMarket.Curve

-- The binary number for an integer, which must not be too large for one.
def binary (n : Int) : Except Fault Binary64 :=
  let b := Binary64.ofInt n
  if b.isInfinite then .error .tooLargeForBinary else .ok b

-- The active bin, or the end of the range that is nearest to it.
def centre (active lower upper : Int) : Int := min (max active lower) upper

-- A quarter of the width of a range, and at least one bin.
def deviation (lower upper : Int) : Except Fault Binary64 :=
  let width := upper - lower + 1
  let quarter := Binary64.ofRatio false width.natAbs 4
  if quarter.isInfinite then .error .tooLargeForBinary
  else .ok (if width < 4 then Binary64.ofInt 1 else quarter)

-- The weight scale: a bin in the centre weighs this much.
def scale : Int := 1000000000

-- A billion times `exp (-z² / 2)`, cut to an integer, where `z` counts deviations.
def weightAt (z : Binary64) : Int :=
  let exponent := (z.mul (.finite true 1 (-1))).mul z
  let decayed := match exponent with
    | .finite _ m e => Binary64.decay (m * twoTo e.toNat) (twoTo (-e).toNat)
    | _ => Binary64.ofInt 0
  (decayed.mul (Binary64.ofInt scale)).truncate

def weight (centre : Int) (deviation : Binary64) (bin : Int) : Except Fault Int :=
  return weightAt ((← binary (bin - centre)).div deviation)

def weights (active : Int) (bins : List Int) : Except Fault Weights := do
  let some lower := bins.min? | throw .noBins
  let some upper := bins.max? | throw .noBins
  let deviation ← deviation lower upper
  let pairs ← bins.mapM fun b => return (b, ← weight (centre active lower upper) deviation b)
  return Weights.ofPairs pairs

end BinMarket.Curve

namespace BinMarket.Shape

def curve (active : Int) (bins : List Int) : Except Fault Shape := do
  ofWeights active (← Curve.weights active bins)

end BinMarket.Shape
