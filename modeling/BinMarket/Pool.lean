import BinMarket.PublicKey
import BinMarket.Slot

/-!
The state of a pool at one moment. Calculations read it and never change it.
-/

namespace BinMarket

-- Fee parameters fixed when a pool is created. Periods are seconds; the reduction and the
-- protocol's share count ten thousandths.
structure FeeParameters where
  baseFactor      : Int
  filterPeriod    : Int := 30
  decayPeriod     : Int := 600
  reductionFactor : Int := 5000
  variableControl : Int := 0
  maxAccumulator  : Int := 350000
  protocolShare   : Int := 0
deriving DecidableEq, Repr

-- How far the active bin has lately moved, as the ledger last wrote it down.
structure Volatility where
  accumulator    : Int := 0
  reference      : Int := 0
  indexReference : Int := 0
  updatedAt      : Int := 0
deriving DecidableEq, Repr

-- A reward slot. The rate per second has 64 binary places.
structure Reward where
  mint      : PublicKey := .unset
  vault     : PublicKey := .unset
  rate      : Int := 0
  endsAt    : Int := 0
  updatedAt : Int := 0
deriving DecidableEq, Repr

-- A slot without a mint is not in use.
def Reward.isInitialized (r : Reward) : Bool := r.mint != .unset

structure Accounts where
  mintX    : PublicKey := .unset
  mintY    : PublicKey := .unset
  reserveX : PublicKey := .unset
  reserveY : PublicKey := .unset
deriving DecidableEq, Repr

structure Pool where
  binStep     : Int
  activeId    : Int
  fees        : FeeParameters
  volatility  : Volatility
  rewards     : PerSlot Reward
  accounts    : Accounts
  words       : Vector Int 16
  key         : Option PublicKey
  binStep_pos : 0 < binStep
deriving DecidableEq

namespace Pool

-- A pool from decoded fields. The step must be positive, and there must be 16 bitmap words and two
-- reward slots, each checked in this order.
def ofFields (binStep activeId : Int) (fees : FeeParameters) (volatility : Volatility)
    (rewards : List Reward) (accounts : Accounts) (words : List Int) (key : Option PublicKey) :
    Except Fault Pool :=
  if h : 0 < binStep then
    if hw : words.toArray.size = 16 then
      match rewards with
      | [one, two] =>
        .ok { binStep, activeId, fees, volatility, rewards := ⟨one, two⟩, accounts
              words := ⟨words.toArray, hw⟩, key, binStep_pos := h }
      | _ => .error (.invalid (.rewardSlots rewards.length))
    else .error (.invalid (.bitmapWords words.length))
  else .error (.invalid (.binStepNotPositive binStep))

def summary (p : Pool) : String :=
  let address := match p.key with
    | some key => String.ofList (key.toList.take 8) ++ "..."
    | none => "unknown"
  s!"LbPair({address}, bin_step={p.binStep}, active_id={p.activeId})"

end Pool

end BinMarket
