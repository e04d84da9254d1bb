import BinMarket.BinArray.Basic

/-!
Positions: shares of consecutive bins, with what was already credited to them in each bin.
-/

namespace BinMarket

-- How a position stores its shares: as they are, or with 64 more binary places.
inductive PositionVersion
  | v1
  | v2
deriving DecidableEq, Repr

namespace PositionVersion

def name : PositionVersion → String
  | v1 => "V1"
  | v2 => "V2"

def ofName (s : String) : Except Fault PositionVersion :=
  if s = "V1" then .ok v1 else if s = "V2" then .ok v2 else .error .unknownName

-- The share that earns per-share amounts.
def accrualShare (v : PositionVersion) (raw : Int) : Int :=
  match v with
  | v1 => raw
  | v2 => raw >>> FixedPoint.places

-- The share on the scale of a bin's supply.
def reserveShare (v : PositionVersion) (raw : Int) (scale : ShareScale) : Int :=
  match v, scale with
  | v1, .large => raw * FixedPoint.unit
  | _, _ => raw

end PositionVersion

-- What a bin's fees had come to when the position was last credited, and the credit itself.
structure FeeCheckpoint where
  xComplete : Int := 0
  yComplete : Int := 0
  xPending  : Int := 0
  yPending  : Int := 0
deriving DecidableEq, Repr

-- The same for the rewards, with an entry for each slot.
structure RewardCheckpoint where
  completes : List Int := [0, 0]
  pendings  : List Int := [0, 0]
deriving DecidableEq, Repr

instance : Inhabited FeeCheckpoint := ⟨{}⟩
instance : Inhabited RewardCheckpoint := ⟨{}⟩

-- The fields of a position. The entries for each bin start at the lowest one; there may be more of
-- them than bins, and checkpoints may be missing altogether.
structure PositionFields where
  version   : PositionVersion
  lowest    : Int
  highest   : Int
  shares    : List Int
  fees      : List FeeCheckpoint := []
  rewards   : List RewardCheckpoint := []
  pool      : PublicKey := .unset
  owner     : PublicKey := .unset
  updatedAt : Int := 0
  key       : Option PublicKey := none
deriving DecidableEq

-- A position spans one to 70 bins, with an entry for each.
structure Position extends PositionFields where
  ordered    : lowest ≤ highest
  narrow     : highest < lowest + 70
  shares_le  : highest - lowest < shares.length
  fees_le    : fees = [] ∨ highest - lowest < fees.length
  rewards_le : rewards = [] ∨ highest - lowest < rewards.length
deriving DecidableEq

namespace Position

-- A position from its fields, which are checked in this order: the width, then the entries.
def ofFields (f : PositionFields) : Except Fault Position :=
  let width := f.highest - f.lowest + 1
  let few (field : String) (n : Nat) : Except Fault Position :=
    .error (.invalid (.tooFewEntries field width n))
  if hw : f.lowest ≤ f.highest ∧ f.highest < f.lowest + 70 then
    if hs : f.highest - f.lowest < f.shares.length then
      if hf : f.fees = [] ∨ f.highest - f.lowest < f.fees.length then
        if hr : f.rewards = [] ∨ f.highest - f.lowest < f.rewards.length then
          .ok { toPositionFields := f, ordered := hw.1, narrow := hw.2, shares_le := hs
                fees_le := hf, rewards_le := hr }
        else few "reward_infos" f.rewards.length
      else few "fee_infos" f.fees.length
    else few "liquidity_shares" f.shares.length
  else .error (.invalid (.positionWidth width))

def width (p : Position) : Int := p.highest - p.lowest + 1

def ids (p : Position) : List Int := binsFrom p.lowest p.highest

-- Entries for consecutive bins, out of those that are named by bin.
def spread {α : Type} (lowest highest : Int) (named : List (Int × α)) (default : α) : List α :=
  (binsFrom lowest highest).map fun id => (named.lookup id).getD default

-- The entry at an offset. A negative offset counts back from the end of the list.
def entry {α : Type} (xs : List α) (offset : Int) : Except Fault α :=
  let i := if offset < 0 then offset + xs.length else offset
  if i < 0 then .error .outOfRange
  else match xs[i.toNat]? with
    | some a => .ok a
    | none => .error .outOfRange

def share (p : Position) (id : Int) : Except Fault Int := entry p.shares (id - p.lowest)

-- The fee checkpoint of a bin. A position without any was never credited.
def feeCheckpoint (p : Position) (id : Int) : Except Fault FeeCheckpoint :=
  if p.fees.isEmpty then .ok {} else entry p.fees (id - p.lowest)

def rewardCheckpoint (p : Position) (id : Int) : Except Fault RewardCheckpoint :=
  if p.rewards.isEmpty then .ok {} else entry p.rewards (id - p.lowest)

theorem mem_ids {p : Position} {id : Int} : id ∈ p.ids ↔ p.lowest ≤ id ∧ id ≤ p.highest :=
  mem_binsFrom

end Position

end BinMarket
