/-!
How the two bounds of a price range are to be read.
-/

namespace BinMarket

inductive RangeMode
  | percent   -- fractions of the active price
  | bps       -- the same, asked for in basis points
  | absolute  -- prices per lamport
  | oneBin    -- the active bin, whatever the bounds
  | binRange  -- bin offsets from the active bin
deriving DecidableEq, Repr

namespace RangeMode

def name : RangeMode → String
  | percent => "percent"
  | bps => "bps"
  | absolute => "absolute"
  | oneBin => "one_bin"
  | binRange => "bin_range"

def all : List RangeMode := [percent, bps, absolute, oneBin, binRange]

def ofName? (s : String) : Option RangeMode := all.find? (·.name == s)

theorem ofName?_name (m : RangeMode) : ofName? m.name = some m := by
  cases m <;> decide

end RangeMode

end BinMarket
