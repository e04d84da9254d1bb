import BinMarket.Bin
import BinMarket.BinArray.Geometry
import BinMarket.Price.Ledger
import BinMarket.PublicKey

/-!
Arrays of bins, and the scale on which an array stores its supplies.
-/

namespace BinMarket

-- How shares and supplies are stored: as they are, or with 64 more binary places.
inductive ShareScale
  | small
  | large
deriving DecidableEq, Repr

namespace ShareScale

def version : ShareScale → Int
  | small => 0
  | large => 1

def ofVersion? : Int → Option ShareScale
  | 0 => some small
  | 1 => some large
  | _ => none

-- The scale of an array whose version nobody checked: only version 1 is large.
def ofVersion (version : Int) : ShareScale := if version = 1 then large else small

theorem ofVersion?_version (s : ShareScale) : ofVersion? s.version = some s := by
  cases s <;> rfl

end ShareScale

structure BinArray where
  index : Int
  bins  : Vector Bin 70
  scale : ShareScale
  pool  : PublicKey := .unset
  key   : Option PublicKey := none
deriving DecidableEq

namespace BinArray

-- An array from a list of bins, which must be 70, and a version, which must be known.
def ofList (index : Int) (bins : List Bin) (version : Int) (pool : PublicKey)
    (key : Option PublicKey) : Except Fault BinArray :=
  if h : bins.toArray.size = 70 then
    match ShareScale.ofVersion? version with
    | none => .error (.invalid (.arrayVersion version))
    | some scale => .ok { index, bins := ⟨bins.toArray, h⟩, scale, pool, key }
  else .error (.invalid (.binCount index bins.length))

-- A bin named by its id. One without a price has the ledger's, in a pool of a known step.
structure Listed where
  id     : Int
  bin    : Bin
  priced : Bool

def Listed.complete (l : Listed) (step : Option Int) : Except Fault Bin :=
  match l.priced, step with
  | false, some step => do return { l.bin with price := ← Ledger.priceOf l.id step }
  | _, _ => .ok l.bin

-- A number of bins from an array's lowest one on, empty but for those listed.
def arrange (index : Int) (count : Nat) (step : Option Int) (listed : List Listed) :
    Except Fault (List Bin) := do
  let named ← listed.mapM fun l => return (l.id, ← l.complete step)
  return (List.range count).map fun i => (named.lookup (lowest index + (i : Nat))).getD {}

def bin (a : BinArray) (id : Int) : Except Fault Bin :=
  if Holds a.index id then .ok a.bins[(id - lowest a.index).toNat]!
  else .error (.binNotCovered id a.index)

theorem bin_ok {a : BinArray} {id : Int} (h : Holds a.index id) :
    a.bin id = .ok a.bins[(id - lowest a.index).toNat]! :=
  if_pos h

def summary (a : BinArray) : String :=
  s!"BinArray(index={a.index}, version={a.scale.version})"

-- The offsets of the bins that something was ever put into.
def usedOffsets (a : BinArray) : List Nat :=
  (List.range 70).filter fun i => a.bins[i]! != {}

-- The array with an index. A later array replaces an earlier one.
def find? (arrays : List BinArray) (index : Int) : Option BinArray :=
  arrays.reverse.find? (·.index == index)

theorem index_of_find? {arrays : List BinArray} {index : Int} {a : BinArray}
    (h : find? arrays index = some a) : a.index = index := by
  simpa using List.find?_some h

end BinArray

end BinMarket
