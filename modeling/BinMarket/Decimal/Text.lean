import BinMarket.Decimal.Round
import BinMarket.Text.Blank
import BinMarket.Text.DecimalDigit

/-!
Reading and writing decimals. Writing keeps the coefficient and the exponent, so what is written
reads back as the same form.
-/

namespace BinMarket.Decimal

-- Exponents past these bounds are no number at all.
def maxReadable : Int := 999999999999999999
def minReadable : Int := -1999999999999999997

-- A coefficient and exponent that text spelled out, refused when the exponent leaves its bounds.
def ofParts? (negative : Bool) (c : Nat) (e : Int) : Option Decimal :=
  let highest := if c = 0 then e else adjusted c e
  if maxReadable < highest ∨ e < minReadable then none else some (finite negative c e)

-- An optional sign and what follows it.
def splitSign : List Char → Bool × List Char
  | '-' :: cs => (true, cs)
  | '+' :: cs => (false, cs)
  | cs => (false, cs)

def isDigit (c : Char) : Bool := '0' ≤ c && c ≤ '9'

-- The exponent part: nothing, or the letter, an optional sign and at least one digit.
def readExponent? : List Char → Option Int
  | [] => some 0
  | c :: cs =>
    if c = 'e' ∨ c = 'E' then
      let (negative, ds) := splitSign cs
      if ds.isEmpty then none
      else (Text.digitsValue? ds).map fun n => if negative then -(n : Int) else n
    else none

-- A mantissa with an optional point, then the exponent part.
def readNumber? (negative : Bool) (cs : List Char) : Option Decimal := do
  let whole := cs.takeWhile isDigit
  let rest := cs.dropWhile isDigit
  let (fraction, rest) := match rest with
    | '.' :: ds => (ds.takeWhile isDigit, ds.dropWhile isDigit)
    | _ => ([], rest)
  if whole.isEmpty && fraction.isEmpty then none
  else
    let c ← Text.digitsValue? (whole ++ fraction)
    let e ← readExponent? rest
    ofParts? negative c (e - fraction.length)

-- The payload after the letters of a value that is not a number: digits or nothing.
def readPayload? (cs : List Char) : Option Nat :=
  if cs.all isDigit then Text.digitsValue? cs else none

-- The named values, in any mix of cases.
def readNamed? (negative : Bool) (cs : List Char) : Option Decimal :=
  match cs.map Char.toLower with
  | ['i', 'n', 'f'] => some (infinity negative)
  | ['i', 'n', 'f', 'i', 'n', 'i', 't', 'y'] => some (infinity negative)
  | 'n' :: 'a' :: 'n' :: ds => (readPayload? ds).map (nan false negative)
  | 's' :: 'n' :: 'a' :: 'n' :: ds => (readPayload? ds).map (nan true negative)
  | _ => none

-- Digits of any script become the ten of ASCII; any other character outside ASCII is refused.
def toAscii? (c : Char) : Option Char :=
  if 0 < c.toNat ∧ c.toNat < 128 then some c
  else (Text.digit? c).map fun d => Char.ofNat (48 + d)

-- Reads a number, with blanks around it and underscores anywhere in it.
def ofText? (s : String) : Option Decimal := do
  let cs ← ((Text.strip Text.isBlank s.toList).filter (· != '_')).mapM toAscii?
  let (negative, body) := splitSign cs
  (readNamed? negative body).or (readNumber? negative body)

def read (s : String) : Except Failure Decimal :=
  match ofText? s with
  | some d => .ok d
  | none => .error .invalid

-- The digits of a coefficient with a point before the last `places` of them.
def pointed (c places : Nat) : String :=
  if places = 0 then toString c
  else
    let ds := (toString c).toList
    let ds := List.replicate (places + 1 - ds.length) '0' ++ ds
    let k := ds.length - places
    String.ofList (ds.take k) ++ "." ++ String.ofList (ds.drop k)

def signText (negative : Bool) : String := if negative then "-" else ""

-- Plain digits while the exponent is not positive and at most five zeros follow the point, and a
-- power of ten after one leading digit otherwise.
def finiteText (c : Nat) (e : Int) : String :=
  let lead := adjusted c e
  if e ≤ 0 ∧ -6 ≤ lead then pointed c (-e).toNat
  else
    pointed c (digitCount c - 1) ++ "E" ++ (if 0 ≤ lead then "+" else "-") ++ toString lead.natAbs

def toText : Decimal → String
  | finite s c e => signText s ++ finiteText c e
  | infinity s => signText s ++ "Infinity"
  | nan g s k =>
    signText s ++ (if g then "sNaN" else "NaN") ++ (if k = 0 then "" else toString k)

instance : ToString Decimal := ⟨toText⟩

-- Plain notation with a fixed number of places, half to even. A zero keeps its sign.
def fixed (places : Nat) : Decimal → String
  | finite s c e =>
    let cut := -(places : Int) - e
    let m := if 0 ≤ cut then dropDigits c cut.toNat else c * tenTo (-cut).toNat
    signText s ++ pointed m places
  | d => d.toText

end BinMarket.Decimal
