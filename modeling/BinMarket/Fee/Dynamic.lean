import BinMarket.Pool

/-!
The dynamic fee. A base fee is joined by one that grows with the square of the volatility, which
counts how far the active bin has moved from a reference bin. The reference follows the active bin
once a quiet period has passed, and part of the volatility then stays on.
-/

namespace BinMarket

structure DynamicFee where
  binStep    : Int
  parameters : FeeParameters
  state      : Volatility
deriving DecidableEq, Repr

namespace DynamicFee

-- Rates count billionths.
def ratePrecision : Int := 1000000000

def maxRate : Int := 100000000

def variablePrecision : Int := 100000000000

-- Shares and reductions count ten thousandths.
def basisPoints : Int := 10000

def ofPool (p : Pool) : DynamicFee := ⟨p.binStep, p.fees, p.volatility⟩

-- Moves the references. Within the filter period nothing changes; after it the reference bin is the
-- active one, and the volatility is reduced, or forgotten once the decay period has passed as well.
def refresh (f : DynamicFee) (active now : Int) : DynamicFee :=
  let elapsed := now - f.state.updatedAt
  if elapsed < f.parameters.filterPeriod then f
  else
    let kept :=
      if elapsed < f.parameters.decayPeriod then
        f.state.accumulator * f.parameters.reductionFactor / basisPoints
      else 0
    { f with state := { f.state with indexReference := active, reference := kept } }

-- Takes up the distance of a bin from the reference bin.
def track (f : DynamicFee) (active : Int) : DynamicFee :=
  let moved := ((f.state.indexReference - active).natAbs : Int) * basisPoints
  { f with state :=
    { f.state with accumulator := min (f.state.reference + moved) f.parameters.maxAccumulator } }

def baseRate (f : DynamicFee) : Int := f.parameters.baseFactor * f.binStep * 10

-- The part of the rate that volatility adds, rounded up.
def variableRate (f : DynamicFee) : Int :=
  if f.parameters.variableControl ≤ 0 then 0
  else
    let moved := f.state.accumulator * f.binStep
    (f.parameters.variableControl * (moved * moved) + variablePrecision - 1) / variablePrecision

-- The rate charged. It never exceeds a tenth.
def rate (f : DynamicFee) : Int := min (f.baseRate + f.variableRate) maxRate

-- The fee on top of a net amount, rounded up.
def onTop (f : DynamicFee) (net : Int) : Int :=
  let rest := ratePrecision - f.rate
  (net * f.rate + rest - 1) / rest

-- The fee inside a gross amount, rounded up.
def inside (f : DynamicFee) (gross : Int) : Int :=
  (gross * f.rate + ratePrecision - 1) / ratePrecision

-- The part of a fee that goes to the protocol.
def protocolCut (f : DynamicFee) (fee : Int) : Int :=
  fee * f.parameters.protocolShare / basisPoints

theorem rate_le (f : DynamicFee) : f.rate ≤ maxRate := Int.min_le_right ..

-- What is left of a whole after the fee, so no division by it goes wrong.
theorem rest_pos (f : DynamicFee) : 0 < ratePrecision - f.rate := by
  have := f.rate_le
  simp only [maxRate, ratePrecision] at *
  omega

def summary (f : DynamicFee) : String :=
  s!"DynamicFee(va={f.state.accumulator}, vr={f.state.reference}, index_reference={f.state.indexReference})"

end DynamicFee

end BinMarket
