import BinMarket.Direction

/-!
Bins, each with the reserves of one price level.
-/

namespace BinMarket

-- The reserves of one price level, and what it has earned per share so far.
structure Bin where
  amountX         : Int := 0
  amountY         : Int := 0
  price           : Int := 0
  supply          : Int := 0
  rewardsPerShare : List Int := [0, 0]
  feeXPerShare    : Int := 0
  feeYPerShare    : Int := 0
deriving DecidableEq, Repr

instance : Inhabited Bin := ⟨{}⟩

namespace Bin

def isEmpty (b : Bin) : Bool := b.amountX == 0 && b.amountY == 0

-- The reserve that a swap takes from.
def output (b : Bin) : Direction → Int
  | .xToY => b.amountY
  | .yToX => b.amountX

end Bin

end BinMarket
