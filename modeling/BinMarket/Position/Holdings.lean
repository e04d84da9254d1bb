import BinMarket.Position.Accrual
import BinMarket.Price.Bin

/-!
What a position holds, bin by bin, and the reserves of any range of bins.
-/

namespace BinMarket

-- A bin as a position sees it. The share is on the scale of the bin's supply.
structure Holding where
  id            : Int
  price         : Decimal
  pricePerToken : Decimal
  reserveX      : Int
  reserveY      : Int
  supply        : Int
  share         : Int
  amountX       : Int
  amountY       : Int
deriving DecidableEq

structure Holdings where
  lowest    : Int
  highest   : Int
  totalX    : Int
  totalY    : Int
  bins      : List Holding
  fees      : Position.SwapFees
  rewards   : PerSlot Int
  updatedAt : Int

def Holdings.ids (h : Holdings) : List Int := (h.bins.filter (0 < ·.share)).map (·.id)

-- A share's part of a reserve, rounded down.
def partOf (share reserve supply : Int) : Int :=
  if supply = 0 then 0 else (share * reserve).fdiv supply

namespace Position

def holdingIn (step decimalsX decimalsY : Int) (v : PositionVersion) (h : HeldBin) :
    Except Fault Holding := do
  let share := v.reserveShare h.share h.scale
  let price ← Price.ofBin step h.id
  return {
    id            := h.id
    price
    pricePerToken := ← Price.perToken (.decimal price) decimalsX decimalsY
    reserveX      := h.bin.amountX
    reserveY      := h.bin.amountY
    supply        := h.bin.supply
    share
    amountX       := partOf share h.bin.amountX h.bin.supply
    amountY       := partOf share h.bin.amountY h.bin.supply }

-- All that a position is entitled to at one moment.
def holdings (p : Position) (pool : Pool) (now : Int) (lower upper : Option BinArray)
    (decimalsX decimalsY : Int) : Except Fault Holdings := do
  let held ← p.heldBins lower upper
  let bins ← held.mapM (holdingIn pool.binStep decimalsX decimalsY p.version)
  return {
    lowest    := p.lowest
    highest   := p.highest
    totalX    := sumOf (bins.map (·.amountX))
    totalY    := sumOf (bins.map (·.amountY))
    bins
    fees      := ← p.claimableFees lower upper
    rewards   := ← p.claimableRewards pool now lower upper
    updatedAt := p.updatedAt }

end Position

structure BinLiquidity where
  id            : Int
  amountX       : Int
  amountY       : Int
  supply        : Int
  scale         : ShareScale
  price         : Decimal
  pricePerToken : Decimal
deriving DecidableEq

def BinLiquidity.of (step decimalsX decimalsY : Int) (arrays : List BinArray) (id : Int) :
    Except Fault BinLiquidity := do
  let index := BinArray.indexOf id
  let some array := BinArray.find? arrays index | throw (.arrayNotFound index)
  let bin ← array.bin id
  let price ← Price.ofBin step id
  return {
    id
    amountX       := bin.amountX
    amountY       := bin.amountY
    supply        := bin.supply
    scale         := array.scale
    price
    pricePerToken := ← Price.perToken (.decimal price) decimalsX decimalsY }

-- The results for `n` consecutive bins, up to the first one that has none.
def forBins {α : Type} (f : Int → Except Fault α) : Nat → Int → Except Fault (List α)
  | 0, _ => .ok []
  | n + 1, id => do
    let a ← f id
    return a :: (← forBins f n (id + 1))

def Pool.binsBetween (p : Pool) (lowest highest : Int) (arrays : List BinArray)
    (decimalsX decimalsY : Int) : Except Fault (List BinLiquidity) :=
  if highest < lowest then .error (.invalid (.binsReversed lowest highest))
  else forBins (BinLiquidity.of p.binStep decimalsX decimalsY arrays) (highest - lowest + 1).toNat lowest

end BinMarket
