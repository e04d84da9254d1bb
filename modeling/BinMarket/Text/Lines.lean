/-!
Lines of a text.
-/

namespace BinMarket.Text

-- Characters that end a line. A return before a line feed ends it together with it.
def endsLine (c : Char) : Bool :=
  let n := c.toNat
  (0xA ≤ n && n ≤ 0xD) || (0x1C ≤ n && n ≤ 0x1E) || n == 0x85 || n == 0x2028 || n == 0x2029

-- The lines of a text whose current line is collected in reverse. An unfinished last line counts.
def linesFrom (current : List Char) : List Char → List String
  | [] => if current.isEmpty then [] else [String.ofList current.reverse]
  | '\r' :: '\n' :: cs => String.ofList current.reverse :: linesFrom [] cs
  | c :: cs =>
    if endsLine c then String.ofList current.reverse :: linesFrom [] cs
    else linesFrom (c :: current) cs

def lines (s : String) : List String := linesFrom [] s.toList

end BinMarket.Text
