import BinMarket.Fault
import BinMarket.Text.Printable
import BinMarket.Text.Quoted

/-!
What a caller is told about a fault: its kind and code, a message, whether fetching the pool's state
again could help, and the numbers involved.
-/

namespace BinMarket

inductive ErrorCode
  | liquidityInsufficient
  | invalidStartBin
  | binArrayMissing
  | noLiquidityToAdd
  | discontinuousBinRange
  | configInvalid
deriving DecidableEq, Repr

namespace ErrorCode

-- 3 is for swaps, 4 for bin arrays, 5 for positions and deposits, 9 for arguments.
def number : ErrorCode → String
  | liquidityInsufficient => "3003"
  | invalidStartBin => "3004"
  | binArrayMissing => "4004"
  | noLiquidityToAdd => "5004"
  | discontinuousBinRange => "5005"
  | configInvalid => "9001"

def name : ErrorCode → String
  | liquidityInsufficient => "LIQUIDITY_INSUFFICIENT"
  | invalidStartBin => "INVALID_START_BIN"
  | binArrayMissing => "BIN_ARRAY_MISSING"
  | noLiquidityToAdd => "NO_LIQUIDITY_TO_ADD"
  | discontinuousBinRange => "DISCONTINUOUS_BIN_RANGE"
  | configInvalid => "CONFIG_INVALID"

def all : List ErrorCode :=
  [liquidityInsufficient, invalidStartBin, binArrayMissing, noLiquidityToAdd,
   discontinuousBinRange, configInvalid]

def ofNumber? (s : String) : Option ErrorCode := all.find? (·.number == s)

def ofNumber (s : String) : Except Fault ErrorCode :=
  match ofNumber? s with
  | some c => .ok c
  | none => .error .unknownName

theorem ofNumber?_number (c : ErrorCode) : ofNumber? c.number = some c := by
  cases c <;> decide

end ErrorCode

inductive Category
  | general
  | insufficientLiquidity
  | invalidStartBin
  | missingBinArray
  | noLiquidityToAdd
  | discontinuousRange
  | configuration
deriving DecidableEq, Repr

def Category.name : Category → String
  | .general => "DlmmError"
  | .insufficientLiquidity => "InsufficientLiquidity"
  | .invalidStartBin => "InvalidStartBin"
  | .missingBinArray => "MissingBinArray"
  | .noLiquidityToAdd => "NoLiquidityToAdd"
  | .discontinuousRange => "DiscontinuousRange"
  | .configuration => "ConfigurationError"

def Category.all : List Category :=
  [.general, .insufficientLiquidity, .invalidStartBin, .missingBinArray, .noLiquidityToAdd,
   .discontinuousRange, .configuration]

inductive Detail
  | missing
  | number (n : Int)
  | text (s : String)
  | flag (b : Bool)
deriving DecidableEq, Repr

def Detail.ofNumber? (n : Option Int) : Detail := n.elim .missing .number

-- Details that `context` repeats are those a caller may read one by one.
structure Report where
  category    : Category
  message     : String
  code        : ErrorCode
  recoverable : Bool := false
  details     : List (String × Detail) := []
  context     : List (String × Detail) := details

namespace Report

-- A report of no particular kind, with details that only print.
def general (message : String) (code : ErrorCode) (recoverable : Bool)
    (details : List (String × Detail)) : Report where
  category    := .general
  message     := message
  code        := code
  recoverable := recoverable
  details     := details
  context     := []

def insufficientLiquidity (message : String) (left active : Option Int) : Report where
  category    := .insufficientLiquidity
  message     := message
  code        := .liquidityInsufficient
  recoverable := true
  details     := [("in_amount_left", .ofNumber? left), ("active_id", .ofNumber? active)]

def exhausted (left active : Int) : Report :=
  insufficientLiquidity s!"Insufficient liquidity: {left} input left unfilled at bin {active}"
    left active

def arrayNotSupplied (index left active : Int) : Report :=
  insufficientLiquidity
    s!"Insufficient liquidity: bin array {index} has liquidity but was not supplied" left active

def invalidStartBin (message : String := "Invalid start bin: no bin was filled") : Report where
  category := .invalidStartBin
  message  := message
  code     := .invalidStartBin

def missingBinArray (message : String) (index : Option Int) : Report where
  category    := .missingBinArray
  message     := message
  code        := .binArrayMissing
  recoverable := true
  details     := [("bin_array_index", .ofNumber? index)]

def arrayNotFound (index : Int) : Report :=
  missingBinArray s!"Bin array {index} not found" index

def arrayMismatch (expected actual : Int) : Report :=
  missingBinArray s!"Bin array index mismatch: expected {expected}, got {actual}" expected

def binNotCovered (bin index : Int) : Report :=
  missingBinArray s!"Bin {bin} is not covered by bin array {index}" index

def noLiquidityToAdd (message : String := "No liquidity to add") : Report where
  category := .noLiquidityToAdd
  message  := message
  code     := .noLiquidityToAdd

def tokenWithoutBins (token : String) (amount : Int) : Report :=
  noLiquidityToAdd s!"No liquidity to add: {amount} of token {token} but no bin accepts it"

def discontinuousRange (message : String) (previous bin : Option Int) : Report where
  category := .discontinuousRange
  message  := message
  code     := .discontinuousBinRange
  details  := [("previous_bin_id", .ofNumber? previous), ("bin_id", .ofNumber? bin)]

def gap (previous bin : Int) : Report :=
  discontinuousRange s!"Discontinuous bin id: {bin} follows {previous}" previous bin

def configuration (message : String) (code : ErrorCode := .configInvalid) : Report where
  category := .configuration
  message  := message
  code     := code

def invalid (parameter reason : String) : Report :=
  configuration s!"Invalid configuration '{parameter}': {reason}"

def text (r : Report) : String := s!"[{r.code.number}] {r.message}"

-- The report as one line for a person who looks for its parts.
def outline (r : Report) : String :=
  s!"{r.category.name}(code={r.code.number}, message={Text.quoted Text.isPrintable r.message})"

end Report

-- What a caller is told. Arithmetic and lookup faults are told by their name alone.
def Fault.report? : Fault → Option Report
  | exhausted left active => some (.exhausted left active)
  | arrayNotSupplied index left active => some (.arrayNotSupplied index left active)
  | nothingFilled => some .invalidStartBin
  | arrayNotFound index => some (.arrayNotFound index)
  | arrayMismatch expected actual => some (.arrayMismatch expected actual)
  | binNotCovered bin index => some (.binNotCovered bin index)
  | nothingToAdd => some .noLiquidityToAdd
  | noBins => some (.noLiquidityToAdd "No bins to distribute over")
  | emptyDistribution => some (.noLiquidityToAdd "No liquidity to add: empty distribution")
  | tokenWithoutBins token amount => some (.tokenWithoutBins token.name amount)
  | gap previous bin => some (.gap previous bin)
  | invalid argument => some (.invalid argument.parameter argument.reason)
  | arithmetic _ | negativeShift | tooLargeForBinary | tooManyDigits | unknownName | unknownBin
  | outOfRange => none

end BinMarket
