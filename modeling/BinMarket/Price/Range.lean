import BinMarket.Fee.Overview
import BinMarket.Price.Bin

/-!
Price ranges around the active bin or on their own, and the bins that they stand for.
-/

namespace BinMarket

open Decimal

def RangeMode.ofName (s : String) : Except Fault RangeMode :=
  match ofName? s with
  | some m => .ok m
  | none => .error .unknownName

structure PriceRange where
  lower   : Decimal
  upper   : Decimal
  mode    : RangeMode
  ordered : gt lower upper = .ok false
deriving DecidableEq

namespace PriceRange

-- A range from its bounds, which must be numbers, the lower one not above.
def ofBounds (lower upper : Decimal) (mode : RangeMode) : Except Fault PriceRange :=
  match h : gt lower upper with
  | .error f => .error (.arithmetic f)
  | .ok true => .error (.invalid (.boundsReversed lower upper))
  | .ok false => .ok { lower, upper, mode, ordered := h }

def ofGiven (lower upper : Price.Given) (mode : RangeMode) : Except Fault PriceRange := do
  let lower ← lower.decimal?
  let upper ← upper.decimal?
  ofBounds lower upper mode

def oneBin : Except Fault PriceRange := ofBounds zero zero .oneBin

-- The same fraction of the active price to either side.
def percent (fraction : Price.Given) : Except Fault PriceRange :=
  let opposite : Price.Given := match fraction with
    | .whole n => .whole (-n)
    | .binary b => .binary b.neg
    | g => g
  ofGiven opposite fraction .percent

-- The same number of ten thousandths of the active price to either side.
def bps (basisPoints : Int) : Except Fault PriceRange := do
  let fraction ← div readingDigits (ofInt basisPoints) (ofInt 10000)
  ofBounds (← neg readingDigits fraction) fraction .bps

def absolute (lower upper : Price.Given) : Except Fault PriceRange := ofGiven lower upper .absolute

-- Bin offsets from the active bin.
def bins (lower upper : Int) : Except Fault PriceRange :=
  ofBounds (ofInt lower) (ofInt upper) .binRange

def isRelative (r : PriceRange) : Bool := r.mode != .absolute

-- A price moved by a fraction of itself.
def moved (price fraction : Decimal) : Except Failure Decimal := do
  mul readingDigits price (← add readingDigits one fraction)

def prices (r : PriceRange) (current : Decimal) : Except Fault (Decimal × Decimal) :=
  match r.mode with
  | .absolute => .ok (r.lower, r.upper)
  | .percent | .bps => do
    if ← le current zero then throw (.invalid (.currentPriceNotPositive current))
    return (← moved current r.lower, ← moved current r.upper)
  | mode => .error (.invalid (.noAbsoluteForm mode))

-- The bounds as bins, the lower price rounded down and the upper one up, so that no price asked for
-- is left out.
def binBounds (r : PriceRange) (active step : Int) : Except Fault (Int × Int) :=
  match r.mode with
  | .oneBin => .ok (active, active)
  | .binRange => do return (active + (← truncate r.lower), active + (← truncate r.upper))
  | _ => do
    let (lower, upper) ← r.prices (← Price.ofBin step active)
    return (← Price.toBin step (.decimal lower) true, ← Price.toBin step (.decimal upper) false)

-- A fraction in percent with two places, computed in binary.
def percentText (d : Decimal) : String :=
  ((Binary64.ofDecimal d).mul (Binary64.ofInt 100)).fixed 2 ++ "%"

-- Integers of more digits are not written out.
def maxWrittenDigits : Nat := 4300

-- A fraction in ten thousandths, without what is smaller.
def bpsText (d : Decimal) : Except Fault String := do
  let n ← truncate (← mul readingDigits d (ofInt 10000))
  if maxWrittenDigits < digitCount n.natAbs then throw .tooManyDigits
  return toString n

def summary (r : PriceRange) : Except Fault String :=
  match r.mode with
  | .oneBin => .ok "OneBin"
  | .percent => .ok s!"Percent({percentText r.lower}, {percentText r.upper})"
  | .bps => do
    let lower ← bpsText r.lower
    let upper ← bpsText r.upper
    return s!"BPS({lower}, {upper})"
  | .absolute => .ok s!"Absolute({r.lower}, {r.upper})"
  | .binRange => .ok s!"{r.mode.name}({r.lower}, {r.upper})"

end PriceRange

end BinMarket
