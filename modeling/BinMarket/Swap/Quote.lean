import BinMarket.Fee.Overview
import BinMarket.Swap.Walk

/-!
Quotes for swaps of an exact input.
-/

namespace BinMarket

open Decimal

structure SwapQuote where
  amountIn     : Int
  amountOut    : Int
  fee          : Int
  protocolFee  : Int
  minOut       : Int
  priceImpact  : Decimal := .zero
  arrayIndexes : List Int := []
  arrayKeys    : List PublicKey := []
  endBin       : Option Int := none
  slippage     : Int := 0
deriving DecidableEq

namespace SwapQuote

def exchangeRate (q : SwapQuote) : Except Failure Decimal :=
  if q.amountIn = 0 then .ok zero
  else div readingDigits (ofInt q.amountOut) (ofInt q.amountIn)

def summary (q : SwapQuote) : String :=
  s!"SwapQuote({q.amountIn} -> {q.amountOut}, fee={q.fee}, impact={q.priceImpact.fixed 4}%)"

end SwapQuote

-- How far an output falls behind an ideal one, in percent.
def priceImpact (out ideal : Int) : Except Failure Decimal :=
  if ideal = 0 then .ok zero
  else do
    let short ← sub readingDigits (ofInt out) (ofInt ideal)
    mul readingDigits (← div readingDigits short (ofInt ideal)) (ofInt 100)

namespace Walk

def total (w : Walk) (part : Fill → Int) : Int := sumOf (w.filled.map (part ·.fill))

-- The first bin that was filled.
def startBin? (w : Walk) : Option Bin := w.filled.getLast?.map (·.bin)

-- The quote of a walk that has ended. The ideal output is what the whole input, less the fee at the
-- walk's end, would have bought at the price of the first bin filled.
def quote (w : Walk) (amount slippage : Int) (d : Direction) : Except Fault SwapQuote := do
  let some first := w.startBin? | throw .nothingFilled
  let out := w.total (·.amountOut)
  let ideal ← first.buys (amount - w.fee.inside amount) d
  let priceImpact ← priceImpact out ideal
  let touched := w.touched.reverse
  return {
    amountIn     := amount
    amountOut    := out
    fee          := w.total (·.fee)
    protocolFee  := w.total (·.protocolFee)
    minOut       := out * (DynamicFee.basisPoints - slippage) / DynamicFee.basisPoints
    priceImpact
    arrayIndexes := touched.map (·.index)
    arrayKeys    := touched.filterMap (·.key)
    endBin       := some w.active
    slippage }

end Walk

-- What a swap of an exact input gives, with the arrays at hand.
def Pool.quote (p : Pool) (e : Option Extension) (arrays : List BinArray) (amount : Int)
    (d : Direction) (slippage now : Int) : Except Fault SwapQuote := do
  if amount < 0 then throw (.invalid (.amountNegative amount))
  if slippage < 0 ∨ DynamicFee.basisPoints < slippage then
    throw (.invalid (.slippageOutOfRange slippage))
  let walk ← Walk.run (Route.of p e arrays d) (Walk.start p amount now)
  walk.quote amount slippage d

end BinMarket
