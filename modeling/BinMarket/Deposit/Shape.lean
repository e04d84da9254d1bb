import BinMarket.Fault
import BinMarket.Scale

/-!
Shapes of deposits: how much of each token's total goes to each bin, in ten thousandths. Bins below
the active one take token Y, bins above it take token X, and the active one counts half on each side.
-/

namespace BinMarket

-- A bin's part of the two totals, in ten thousandths.
structure BinShare where
  bin : Int
  x   : Int := 0
  y   : Int := 0
deriving DecidableEq, Repr

abbrev Shape := List BinShare

-- Weights by bin id, ascending, each bin once.
abbrev Weights := List (Int × Int)

namespace Weights

def set (w : Weights) (bin weight : Int) : Weights :=
  match w with
  | [] => [(bin, weight)]
  | (b, v) :: rest =>
    if bin < b then (bin, weight) :: (b, v) :: rest
    else if bin = b then (bin, weight) :: rest
    else (b, v) :: set rest bin weight

-- Weights from pairs in any order. Of two pairs for one bin the later counts.
def ofPairs (pairs : List (Int × Int)) : Weights := pairs.foldl (fun w p => w.set p.1 p.2) []

def ofBins (f : Int → Int) (bins : List Int) : Weights := ofPairs (bins.map fun b => (b, f b))

def get? (w : Weights) (bin : Int) : Option Int := w.lookup bin

def total (w : Weights) : Int := sumOf (w.map (·.2))

-- Splits 10000 in proportion to the weights. What rounding down leaves over goes to one bin.
def spread (w : Weights) (remainder : Int) : Except Fault Weights :=
  if w.total = 0 then .ok (w.map fun p => (p.1, 0))
  else
    let parts := w.map fun p => (p.1, (10000 * p.2).fdiv w.total)
    if (w.get? remainder).isNone then .error .unknownBin
    else .ok (parts.map fun p =>
      (p.1, if p.1 = remainder then p.2 + (10000 - total parts) else p.2))

end Weights

namespace Shape

-- One side of a shape. The left over goes to the active bin, or to the outermost one.
def side (w : Weights) (active : Option Int) (outermost : Option (Int × Int)) :
    Except Fault Weights :=
  match active, outermost with
  | some active, _ => w.spread active
  | none, some (bin, _) => w.spread bin
  | none, none => .ok []

-- The shape with these weights. Weights are doubled off the active bin, so that the half that the
-- active bin adds to each side is whole.
def ofWeights (active : Int) (w : Weights) : Except Fault Shape := do
  let some (first, _) := w.head? | throw .noBins
  let some (last, _) := w.getLast? | throw .noBins
  let inRange := first ≤ active ∧ active ≤ last
  let below := (w.filter (·.1 < active)).map fun p => (p.1, 2 * p.2)
  let above := (w.filter (active < ·.1)).map fun p => (p.1, 2 * p.2)
  let middle ← if inRange then
      match w.get? active with
      | some v => pure [(active, v)]
      | none => throw .unknownBin
    else pure []
  let half : Option Int := if inRange then some active else none
  let ys := below ++ middle
  let xs := middle ++ above
  let yShares ← side ys half ys.head?
  let xShares ← side xs half xs.getLast?
  return w.map fun p =>
    { bin := p.1, x := (Weights.get? xShares p.1).getD 0, y := (Weights.get? yShares p.1).getD 0 }

def spot (active : Int) (bins : List Int) : Except Fault Shape :=
  ofWeights active (.ofBins (fun _ => 1) bins)

def bidAsk (active : Int) (bins : List Int) : Except Fault Shape :=
  ofWeights active (.ofBins (fun b => (b - active).natAbs + 1) bins)

end Shape

end BinMarket
