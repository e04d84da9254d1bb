import BinMarket.Position.Basic
import BinMarket.FixedPoint
import BinMarket.Pool

/-!
What a position may claim: swap fees and rewards. Both grow per share in each bin; the difference to
the checkpoint times the share, cut to an integer, joins what is pending.
-/

namespace BinMarket

open FixedPoint

-- The arrays that hold the bins of a position: one, or two when it crosses from one to the next.
structure Cover where
  lower : BinArray
  upper : Option BinArray

namespace Cover

-- Checks an array that must be there and must have this index.
def require (index : Int) : Option BinArray → Except Fault BinArray
  | none => .error (.arrayNotFound index)
  | some a => if a.index = index then .ok a else .error (.arrayMismatch index a.index)

-- The arrays for a position. The upper one counts only when the position reaches into it.
def of (p : Position) (lower upper : Option BinArray) : Except Fault Cover := do
  let lowIndex := BinArray.indexOf p.lowest
  let highIndex := BinArray.indexOf p.highest
  let low ← require lowIndex lower
  if highIndex = lowIndex then return ⟨low, none⟩
  else return ⟨low, some (← require highIndex upper)⟩

def array (c : Cover) (id : Int) : Except Fault BinArray :=
  let index := BinArray.indexOf id
  if c.lower.index = index then .ok c.lower
  else match c.upper with
    | some a => if a.index = index then .ok a else .error .unknownBin
    | none => .error .unknownBin

end Cover

-- A bin of a position with all that is kept about it.
structure HeldBin where
  id    : Int
  bin   : Bin
  scale : ShareScale
  share : Int
  fees  : FeeCheckpoint
  rewards : RewardCheckpoint

namespace Position

def held (p : Position) (c : Cover) (id : Int) : Except Fault HeldBin := do
  let array ← c.array id
  return { id, bin := ← array.bin id, scale := array.scale, share := ← p.share id
           fees := ← p.feeCheckpoint id, rewards := ← p.rewardCheckpoint id }

def heldBins (p : Position) (lower upper : Option BinArray) : Except Fault (List HeldBin) := do
  let cover ← Cover.of p lower upper
  p.ids.mapM (p.held cover)

-- What a share earned since its checkpoint.
def earned (share perShare complete pending : Int) : Int :=
  mulShr share (perShare - complete) places .down + pending

structure SwapFees where
  x : Int
  y : Int
deriving DecidableEq, Repr

-- The fees of one bin.
def feesIn (v : PositionVersion) (h : HeldBin) : SwapFees :=
  let share := v.accrualShare h.share
  ⟨earned share h.bin.feeXPerShare h.fees.xComplete h.fees.xPending,
   earned share h.bin.feeYPerShare h.fees.yComplete h.fees.yPending⟩

def claimableFees (p : Position) (lower upper : Option BinArray) : Except Fault SwapFees := do
  let parts := (← p.heldBins lower upper).map (feesIn p.version)
  return ⟨sumOf (parts.map (·.x)), sumOf (parts.map (·.y))⟩

-- Only this part of what was emitted reaches the shares of the active bin.
def emissionDivisor : Int := 15

-- What was emitted to each share of a bin since a slot's last update, until the slot's end.
def extrapolated (r : Reward) (supply now : Int) : Int :=
  let elapsed := max 0 (min now r.endsAt - r.updatedAt)
  (r.rate * elapsed / emissionDivisor).fdiv supply

-- The supply of a bin on the scale that rewards are spread over.
def accrualSupply (scale : ShareScale) (supply : Int) : Int :=
  match scale with
  | .small => supply
  | .large => supply >>> places

-- The rewards per share of a bin by now, from those that are stored. Only the active bin goes on
-- earning.
def rewardsPerShare (p : Pool) (h : HeldBin) (s : Slot) (now stored : Int) : Int :=
  let supply := accrualSupply h.scale h.bin.supply
  if h.id ≠ p.activeId ∨ supply = 0 then stored
  else stored + extrapolated (p.rewards.get s) supply now

-- The rewards of one bin in a slot. A slot that is not in use gives none.
def rewardIn (p : Pool) (v : PositionVersion) (now : Int) (s : Slot) (h : HeldBin) :
    Except Fault Int := do
  if !(p.rewards.get s).isInitialized then return 0
  let perShare := rewardsPerShare p h s now (← s.entry h.bin.rewardsPerShare)
  return earned (v.accrualShare h.share) perShare (← s.entry h.rewards.completes)
    (← s.entry h.rewards.pendings)

def claimableRewards (p : Position) (pool : Pool) (now : Int) (lower upper : Option BinArray) :
    Except Fault (PerSlot Int) := do
  let bins ← p.heldBins lower upper
  let one ← bins.mapM (rewardIn pool p.version now .one)
  let two ← bins.mapM (rewardIn pool p.version now .two)
  return ⟨sumOf one, sumOf two⟩

end Position

end BinMarket
