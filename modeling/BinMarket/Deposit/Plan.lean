import BinMarket.Deposit.Curve
import BinMarket.Price.Bin

/-!
Deposit plans: the exact amounts of both tokens for each bin of a shape, and the relative value of
each bin's part.
-/

namespace BinMarket

inductive Strategy
  | spot
  | curve
  | bidAsk
deriving DecidableEq, Repr

namespace Strategy

def ofNumber (n : Int) : Except Fault Strategy :=
  match n with
  | 0 => .ok spot
  | 1 => .ok curve
  | 2 => .ok bidAsk
  | _ => .error (.invalid (.unknownStrategy n))

def shape (s : Strategy) (active : Int) (bins : List Int) : Except Fault Shape :=
  match s with
  | spot => Shape.spot active bins
  | curve => Shape.curve active bins
  | bidAsk => Shape.bidAsk active bins

end Strategy

-- A shape taken apart by columns.
structure Columns where
  lowest  : Int
  highest : Int
  x       : List Int
  y       : List Int
  bins    : List Int
deriving DecidableEq, Repr

-- One bin's part of a plan. The weight compares its value with the whole, in 65535ths.
structure Allocation where
  bin     : Int
  amountX : Int
  amountY : Int
  weight  : Int
deriving DecidableEq, Repr

namespace Shape

-- The first bin that does not follow the one before it, with that one.
def gap? : List Int → Option (Int × Int)
  | a :: b :: rest => if b = a + 1 then gap? (b :: rest) else some (a, b)
  | _ => none

def columns (s : Shape) : Except Fault Columns := do
  let bins := s.map (·.bin)
  let some lowest := bins.head? | throw .emptyDistribution
  let some highest := bins.getLast? | throw .emptyDistribution
  match gap? bins with
  | some (previous, bin) => throw (.gap previous bin)
  | none => return { lowest, highest, x := s.map (·.x), y := s.map (·.y), bins }

-- The scale at which prices enter the value of a bin's part.
def valueScale : Int := 1000000000000

def maxWeight : Int := 65535

def flooredPrice (bin step : Int) : Except Fault Int := do
  let price ← Price.ofBin step bin
  Decimal.truncate (← Decimal.mul Price.digits price (Decimal.ofInt valueScale))

-- A value's part of a total, in 65535ths.
def weightOf (value total : Int) : Int := (value * maxWeight).fdiv total

-- The value of a bin's part in token Y, from its shares of the totals.
def value (totalX totalY step : Int) (b : BinShare) : Except Fault Int := do
  let price ← flooredPrice b.bin step
  return totalX * b.x * price / 10000 / valueScale + totalY * b.y / 10000

-- The weights of a deposit by value. Bins that would weigh nothing are left out.
def byWeight (s : Shape) (totalX totalY step : Int) : Except Fault (List (Int × Int)) := do
  let values ← s.mapM (value totalX totalY step)
  let total := sumOf values
  if total = 0 then return []
  return ((s.map (·.bin)).zip (values.map (weightOf · total))).filter (0 < ·.2)

-- Splits a total in proportion to shares. What rounding down leaves over goes to one place.
def split (total : Int) (shares : List Int) (remainder : Nat) : List Int :=
  let parts := shares.map fun s => (total * s).fdiv (sumOf shares)
  parts.modify remainder (· + (total - sumOf parts))

-- The amounts of one token. A positive total needs a bin that takes it; `place` picks the bin that
-- the left over goes to among those that do.
def amounts (token : Token) (total : Int) (shares : List Int) (place : List Nat → Option Nat) :
    Except Fault (List Int) :=
  if total ≤ 0 then .ok (List.replicate shares.length 0)
  else
    match place ((List.range shares.length).filter fun i => 0 < shares.getD i 0) with
    | none => .error (.tokenWithoutBins token total)
    | some i => .ok (split total shares i)

def maxBins : Int := 70

-- What a plan requires of a shape and its totals beyond the bins following each other.
def check (c : Columns) (totalX totalY : Int) : Except Fault Unit := do
  if maxBins < c.highest - c.lowest + 1 then throw (.invalid .tooManyBins)
  if totalX < 0 ∨ totalY < 0 then throw (.invalid (.totalNegative totalX totalY))
  if (c.x ++ c.y).any (· < 0) then throw (.invalid .shareNegative)

-- The exact amounts for each bin that gets any. What rounding leaves of token X goes to the highest
-- bin that takes it, and of token Y to the lowest.
def plan (s : Shape) (totalX totalY step : Int) : Except Fault (List Allocation) := do
  let c ← s.columns
  check c totalX totalY
  let xs ← amounts .x totalX c.x (·.getLast?)
  let ys ← amounts .y totalY c.y (·.head?)
  let prices ← c.bins.mapM (flooredPrice · step)
  let values := (xs.zip prices).zipWith (fun (x, price) y => x * price / valueScale + y) ys
  let total := sumOf values
  let weights := values.map fun v => if 0 < total then weightOf v total else 0
  let all := (c.bins.zip (xs.zip ys)).zipWith
    (fun (bin, amountX, amountY) weight => { bin, amountX, amountY, weight : Allocation }) weights
  let allocations := all.filter fun a => a.amountX ≠ 0 ∨ a.amountY ≠ 0
  if allocations.isEmpty then throw .nothingToAdd
  return allocations

end Shape

end BinMarket
