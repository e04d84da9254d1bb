import BinMarket.Text.Blank
import BinMarket.Text.DecimalDigit

/-!
Integers as people type them: blanks around, a sign, digits of any script and single underscores
between them.
-/

namespace BinMarket.Text

-- Blanks that may surround an integer. The ASCII separators are not among them.
def isIntegerBlank (c : Char) : Bool := isAsciiBlank c || (128 ≤ c.toNat && isBlank c)

-- The digits of a run in which an underscore may stand between two digits.
def ungroup? : List Char → Option (List Char)
  | [] => none
  | [c] => if c = '_' then none else some [c]
  | '_' :: _ => none
  | c :: '_' :: rest => (ungroup? rest).map (c :: ·)
  | c :: rest => (ungroup? rest).map (c :: ·)

-- Longer runs of digits are not read.
def maxIntegerDigits : Nat := 4300

def integer? (s : String) : Option Int := do
  let cs := strip isIntegerBlank s.toList
  let (negative, body) := match cs with
    | '-' :: rest => (true, rest)
    | '+' :: rest => (false, rest)
    | rest => (false, rest)
  let digits ← ungroup? body
  if maxIntegerDigits < digits.length then none
  else
    let n ← digitsValue? digits
    return if negative then -(n : Int) else n

end BinMarket.Text
