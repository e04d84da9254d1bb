import BinMarket.Binary64.Shortest
import BinMarket.Decimal.Log
import BinMarket.Decimal.Power
import BinMarket.FixedPoint

/-!
Bin prices as decimals of 50 digits, and the bins of a price. A price per lamport relates the smallest
units of two tokens; a price per token shifts it by the difference of their decimals.
-/

namespace BinMarket.Price

open Decimal

-- The digits that prices are computed with.
def digits : Nat := 50

-- A price as a caller may give it.
inductive Given
  | text (s : String)
  | whole (n : Int)
  | binary (b : Binary64)
  | decimal (d : Decimal)

def Given.decimal? : Given → Except Failure Decimal
  | text s => read s
  | whole n => .ok (ofInt n)
  | binary b => .ok b.toDecimal
  | decimal d => .ok d

def ofFixedPoint (value : Int) : Except Failure Decimal :=
  div digits (ofInt value) (ofInt FixedPoint.unit)

def base (step : Int) : Except Failure Decimal := do
  add digits one (← div digits (ofInt step) (ofInt 10000))

def checkStep (step : Int) : Except Fault Unit :=
  if step ≤ 0 then .error (.invalid (.binStepNotPositive step)) else .ok ()

def ofBin (step bin : Int) : Except Fault Decimal := do
  checkStep step
  power digits (← base step) bin

-- The places that a bin id keeps before it becomes an integer. They absorb the last digits of the
-- two logarithms, so a price that is exactly a bin's stays in that bin.
def binPlaces : Int := 20

-- How many steps lie between a price of one and this price.
def steps (step : Int) (price : Decimal) : Except Failure Decimal := do
  let ratio ← div digits (← ln digits price) (← ln digits (← base step))
  quantize digits (-binPlaces) ratio

-- The bin of a price, or the one above when it lies between two bins and is not rounded down.
def toBin (step : Int) (price : Given) (roundDown : Bool) : Except Fault Int := do
  checkStep step
  let price ← price.decimal?
  if ← le price zero then throw (.invalid (.priceNotPositive price))
  let n ← steps step price
  if roundDown then floor n else ceil n

-- Ten to the difference of two tokens' decimals.
def tokenScale (decimalsX decimalsY : Int) : Except Failure Decimal :=
  power digits (ofInt 10) (decimalsX - decimalsY)

def perLamport (perToken : Given) (decimalsX decimalsY : Int) : Except Fault Decimal := do
  let price ← perToken.decimal?
  div digits price (← tokenScale decimalsX decimalsY)

def perToken (perLamport : Given) (decimalsX decimalsY : Int) : Except Fault Decimal := do
  let price ← perLamport.decimal?
  mul digits price (← tokenScale decimalsX decimalsY)

def ofBinPerToken (bin step decimalsX decimalsY : Int) : Except Fault Decimal := do
  perToken (.decimal (← ofBin step bin)) decimalsX decimalsY

def perTokenToBin (price : Given) (step decimalsX decimalsY : Int) (roundDown : Bool) :
    Except Fault Int := do
  toBin step (.decimal (← perLamport price decimalsX decimalsY)) roundDown

end BinMarket.Price
