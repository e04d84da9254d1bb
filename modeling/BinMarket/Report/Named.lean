import BinMarket.Report.Basic

/-!
Reports by name, for callers who make one without a fault at hand.
-/

namespace BinMarket

inductive ReportPart
  | detail (d : Detail)
  | code (c : ErrorCode)
  | details (ds : List (String × Detail))

namespace ReportPart

-- A number, also one that is written as text.
def number? : ReportPart → Option Int
  | detail (.number n) => some n
  | detail (.text s) => s.toInt?
  | _ => none

-- A number that may be missing.
def optional? : Option ReportPart → Option (Option Int)
  | none | some (detail .missing) => some none
  | some p => p.number?.map some

def text? : ReportPart → Option String
  | detail (.text s) => some s
  | detail (.number n) => some (toString n)
  | _ => none

def flag? : ReportPart → Option Bool
  | detail (.flag b) => some b
  | _ => none

def details? : ReportPart → Option (List (String × Detail))
  | details ds => some ds
  | _ => none

end ReportPart

namespace Report

open ReportPart

private def ofMessage? (make : String → Report) (standard : Report) :
    List ReportPart → Option Report
  | [] => some standard
  | [m] => m.text?.map make
  | _ => none

-- The report of a category made directly: first the message, then what the category adds.
def ofCategory? (category : Category) (parts : List ReportPart) : Option Report :=
  match category, parts with
  | .insufficientLiquidity, m :: rest => do
    return insufficientLiquidity (← m.text?) (← optional? rest[0]?) (← optional? rest[1]?)
  | .invalidStartBin, parts => ofMessage? (fun m => invalidStartBin m) invalidStartBin parts
  | .missingBinArray, m :: rest => do return missingBinArray (← m.text?) (← optional? rest[0]?)
  | .noLiquidityToAdd, parts => ofMessage? (fun m => noLiquidityToAdd m) noLiquidityToAdd parts
  | .discontinuousRange, m :: rest => do
    return discontinuousRange (← m.text?) (← optional? rest[0]?) (← optional? rest[1]?)
  | .configuration, [m] => m.text?.map fun m => configuration m
  | .configuration, [m, .code c] => do return configuration (← m.text?) c
  | .general, m :: .code c :: rest => do
    return general (← m.text?) c ((rest[0]?.bind flag?).getD false) ((rest[1]?.bind details?).getD [])
  | _, _ => none

def ofCause? (category : Category) (cause : String) (parts : List ReportPart) : Option Report :=
  match category, cause, parts with
  | .insufficientLiquidity, "exhausted", [a, b] => do return exhausted (← a.number?) (← b.number?)
  | .insufficientLiquidity, "bin_array_not_supplied", [a, b, c] => do
    return arrayNotSupplied (← a.number?) (← b.number?) (← c.number?)
  | .missingBinArray, "not_found", [a] => do return arrayNotFound (← a.number?)
  | .missingBinArray, "mismatch", [a, b] => do return arrayMismatch (← a.number?) (← b.number?)
  | .missingBinArray, "bin_not_covered", [a, b] => do
    return binNotCovered (← a.number?) (← b.number?)
  | .noLiquidityToAdd, "token_without_bins", [t, n] => do
    return tokenWithoutBins (← t.text?) (← n.number?)
  | .discontinuousRange, "gap", [a, b] => do return gap (← a.number?) (← b.number?)
  | .configuration, "invalid", [p, r] => do return invalid (← p.text?) (← r.text?)
  | _, _, _ => none

def named? (category : String) (cause : Option String) (parts : List ReportPart) : Option Report := do
  let c ← Category.all.find? (·.name == category)
  match cause with
  | none => ofCategory? c parts
  | some cause => ofCause? c cause parts

end Report

end BinMarket
