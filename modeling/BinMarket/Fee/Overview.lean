import BinMarket.Decimal.Arithmetic
import BinMarket.Fee.Dynamic
import BinMarket.FixedPoint

/-!
Fees and reward emissions as decimals for people to read.
-/

namespace BinMarket

open Decimal

-- The digits that percentages and rates are computed with.
def readingDigits : Nat := 28

def percentage (part whole : Int) : Except Failure Decimal := do
  div readingDigits (← mul readingDigits (ofInt part) (ofInt 100)) (ofInt whole)

structure FeeInfo where
  base     : Decimal
  max      : Decimal
  protocol : Decimal
deriving DecidableEq

def DynamicFee.percentage (rate : Int) : Except Failure Decimal :=
  BinMarket.percentage rate ratePrecision

namespace Pool

-- The fee at rest, the cap and the protocol's share, in percent.
def feeInfo (p : Pool) : Except Fault FeeInfo := do
  let base ← DynamicFee.percentage (DynamicFee.ofPool p).baseRate
  let max ← DynamicFee.percentage DynamicFee.maxRate
  let protocol ← percentage p.fees.protocolShare DynamicFee.basisPoints
  return { base, max, protocol }

-- The fee state that a swap at the active bin would start with.
def feeAt (p : Pool) (now : Int) : DynamicFee :=
  ((DynamicFee.ofPool p).refresh p.activeId now).track p.activeId

-- The fee that a swap at the active bin would pay, in percent.
def currentFee (p : Pool) (now : Int) : Except Fault Decimal := do
  DynamicFee.percentage (p.feeAt now).rate

-- What a reward slot emits in a second. An unused or ended one emits nothing.
def emission (r : Reward) (now : Int) : Except Failure Decimal :=
  if !r.isInitialized || r.endsAt < now then .ok zero
  else div readingDigits (ofInt r.rate) (ofInt FixedPoint.unit)

def emissions (p : Pool) (now : Int) : Except Fault (PerSlot Decimal) := do
  let one ← emission p.rewards.one now
  let two ← emission p.rewards.two now
  return ⟨one, two⟩

end Pool

end BinMarket
