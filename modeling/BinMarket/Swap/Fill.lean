import BinMarket.BinArray.Basic
import BinMarket.Fee.Dynamic
import BinMarket.FixedPoint

/-!
A swap against a single bin. The bin sells at its own price until its reserve is gone; the fee comes
off the input.
-/

namespace BinMarket

open FixedPoint

-- What a bin took in, fee included, and gave out.
structure Fill where
  amountIn    : Int := 0
  amountOut   : Int := 0
  fee         : Int := 0
  protocolFee : Int := 0
deriving DecidableEq, Repr

def Fill.isEmpty (f : Fill) : Bool := f.amountIn == 0

namespace Bin

-- What a net input buys at the bin's price, rounded down.
def buys (b : Bin) (net : Int) : Direction → Except Fault Int
  | .xToY => .ok (mulShr net b.price places .down)
  | .yToX => shlDiv net b.price places .down

-- The net input that buys the whole reserve, rounded up.
def netForAll (b : Bin) : Direction → Except Fault Int
  | .xToY => shlDiv b.amountY b.price places .up
  | .yToX => .ok (mulShr b.amountX b.price places .up)

-- Fills as much of an input as the bin allows. A bin without a reserve fills nothing.
def fill (b : Bin) (fee : DynamicFee) (amount : Int) (d : Direction) : Except Fault Fill := do
  if b.output d = 0 then return {}
  let net ← b.netForAll d
  let feeForAll := fee.onTop net
  let gross := net + feeForAll
  if gross < amount then
    return { amountIn := gross, amountOut := b.output d, fee := feeForAll
             protocolFee := fee.protocolCut feeForAll }
  else
    let charged := fee.inside amount
    let bought ← b.buys (amount - charged) d
    return { amountIn := amount, amountOut := min bought (b.output d), fee := charged
             protocolFee := fee.protocolCut charged }

end Bin

end BinMarket
