import BinMarket.Deposit.Plan
import BinMarket.Position.Holdings
import BinMarket.Price.Range
import BinMarket.Settings
import BinMarket.Swap.Quote

/-!
Calculations for callers who leave something out. What is missing comes from the defaults.
-/

namespace BinMarket.Defaults

def decimals (d : Defaults) (x y : Option Int) : Int × Int :=
  (x.getD d.decimalsX, y.getD d.decimalsY)

def pricePerToken (d : Defaults) (step bin : Int) (x y : Option Int) : Except Fault Decimal := do
  let (x, y) := d.decimals x y
  Price.perToken (.decimal (← Price.ofBin step bin)) x y

def perTokenToBin (d : Defaults) (step : Int) (price : Price.Given) (roundDown : Bool)
    (x y : Option Int) : Except Fault Int :=
  let (x, y) := d.decimals x y
  Price.perTokenToBin price step x y roundDown

def quote (d : Defaults) (p : Pool) (e : Option Extension) (arrays : List BinArray) (amount : Int)
    (direction : Direction) (slippage : Option Int) (now : Int) : Except Fault SwapQuote :=
  p.quote e arrays amount direction (slippage.getD d.slippage) now

-- The nearest array with liquidity, from the active bin on when no other is named.
def nextArray (p : Pool) (e : Option Extension) (direction : Direction) (active : Option Int) :
    Option Int :=
  p.nextArray e direction (active.getD p.activeId)

def arraysForSwap (d : Defaults) (p : Pool) (e : Option Extension) (direction : Direction)
    (count : Option Int) : List Int :=
  p.arraysForSwap e direction (count.getD d.arrayCount)

def holdings (d : Defaults) (p : Position) (pool : Pool) (now : Int)
    (lower upper : Option BinArray) (x y : Option Int) : Except Fault Holdings :=
  let (x, y) := d.decimals x y
  p.holdings pool now lower upper x y

def binsBetween (d : Defaults) (p : Pool) (lowest highest : Int) (arrays : List BinArray)
    (x y : Option Int) : Except Fault (List BinLiquidity) :=
  let (x, y) := d.decimals x y
  p.binsBetween lowest highest arrays x y

-- The shape that a strategy gives a deposit into a price range.
def strategyShape (p : Pool) (range : PriceRange) (strategy : Int) : Except Fault Shape := do
  let (lowest, highest) ← range.binBounds p.activeId p.binStep
  (← Strategy.ofNumber strategy).shape p.activeId (binsFrom lowest highest)

end BinMarket.Defaults
