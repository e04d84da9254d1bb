import BinMarket.Decimal.Text
import BinMarket.Price.Mode

/-!
Why a calculation has no answer. A fault names its cause; the wording, the code and the advice to the
caller are read off it in `Report`.
-/

namespace BinMarket

inductive Token
  | x
  | y
deriving DecidableEq, Repr

def Token.name : Token → String
  | .x => "X"
  | .y => "Y"

-- An argument that a calculation refuses to work with.
inductive BadArgument
  -- prices and fixed point
  | divisorZero
  | exponentOutOfRange (exponent : Nat)
  | priceUnderflow
  | priceOverflow
  | binStepNotPositive (step : Int)
  | priceNotPositive (price : Decimal)
  | currentPriceNotPositive (price : Decimal)
  | boundsReversed (lower upper : Decimal)
  | noAbsoluteForm (mode : RangeMode)
  -- records
  | binCount (index : Int) (count : Nat)
  | arrayVersion (version : Int)
  | extensionShape (side : String)
  | bitmapWords (count : Nat)
  | rewardSlots (count : Nat)
  | positionWidth (width : Int)
  | tooFewEntries (field : String) (expected : Int) (count : Nat)
  -- swaps
  | amountNegative (amount : Int)
  | slippageOutOfRange (bps : Int)
  -- deposits and ranges
  | unknownStrategy (strategy : Int)
  | tooManyBins
  | shareNegative
  | totalNegative (totalX totalY : Int)
  | binsReversed (lower upper : Int)
deriving DecidableEq

namespace BadArgument

def parameter : BadArgument → String
  | divisorZero => "divisor"
  | exponentOutOfRange _ => "bin_id"
  | priceUnderflow => "bin_id"
  | priceOverflow => "bin_id"
  | binStepNotPositive _ => "bin_step"
  | priceNotPositive _ => "price"
  | currentPriceNotPositive _ => "current_price"
  | boundsReversed _ _ => "price_range"
  | noAbsoluteForm _ => "price_range"
  | binCount _ _ => "bins"
  | arrayVersion _ => "version"
  | extensionShape side => side
  | bitmapWords _ => "bin_array_bitmap"
  | rewardSlots _ => "reward_infos"
  | positionWidth _ => "position"
  | tooFewEntries field _ _ => field
  | amountNegative _ => "in_amount"
  | slippageOutOfRange _ => "allowed_slippage_bps"
  | unknownStrategy _ => "strategy"
  | tooManyBins => "distributions"
  | shareNegative => "distributions"
  | totalNegative _ _ => "amount"
  | binsReversed _ _ => "bin_range"

def reason : BadArgument → String
  | divisorZero => "shl_div by zero"
  | exponentOutOfRange n => s!"exponent {n} out of range"
  | priceUnderflow => "price underflows to zero"
  | priceOverflow => "price overflows u128"
  | binStepNotPositive n => s!"must be positive, got {n}"
  | priceNotPositive d => s!"must be positive, got {d}"
  | currentPriceNotPositive d => s!"must be positive to resolve a relative range, got {d}"
  | boundsReversed l u => s!"lower {l} above upper {u}"
  | noAbsoluteForm m => m.name ++ " has no absolute price form"
  | binCount i n => s!"bin array {i} must hold 70 bins, got {n}"
  | arrayVersion v => s!"unknown bin array version {v}"
  | extensionShape _ => "expected 12 rows of 8 words"
  | bitmapWords n => s!"expected 16 words, got {n}"
  | rewardSlots n => s!"expected 2 slots, got {n}"
  | positionWidth n => s!"width must be within 1..70 bins, got {n}"
  | tooFewEntries _ k n => s!"expected at least {k} entries, got {n}"
  | amountNegative n => s!"must be non-negative, got {n}"
  | slippageOutOfRange n => s!"must be within 0..10000, got {n}"
  | unknownStrategy n => s!"unknown strategy type {n}"
  | tooManyBins => "position must be within a range of 1 to 70 bins"
  | shareNegative => "bps shares must be non-negative"
  | totalNegative x y => s!"totals must be non-negative, got x={x} y={y}"
  | binsReversed l u => s!"lower {l} above upper {u}"

end BadArgument

inductive Fault
  -- a swap walk ran out of bin arrays
  | exhausted (left active : Int)
  | arrayNotSupplied (index left active : Int)
  | nothingFilled
  -- a bin array that a position or a lookup needs
  | arrayNotFound (index : Int)
  | arrayMismatch (expected actual : Int)
  | binNotCovered (bin index : Int)
  -- a deposit with nowhere to go
  | nothingToAdd
  | noBins
  | emptyDistribution
  | tokenWithoutBins (token : Token) (amount : Int)
  | gap (previous bin : Int)
  | invalid (argument : BadArgument)
  -- arithmetic and lookup, which carry no report
  | arithmetic (failure : Decimal.Failure)
  | negativeShift
  | tooLargeForBinary
  | tooManyDigits
  | unknownName
  | unknownBin
  | outOfRange
deriving DecidableEq

instance : MonadLift (Except Decimal.Failure) (Except Fault) where
  monadLift
    | .ok a => .ok a
    | .error f => .error (.arithmetic f)

end BinMarket
