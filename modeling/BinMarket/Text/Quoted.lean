/-!
Text between quotes. Single quotes unless the text has some and no double quote; a backslash before
what could not stand there otherwise.
-/

namespace BinMarket.Text

def hexDigits (n width : Nat) : String :=
  let ds := Nat.toDigits 16 n
  String.ofList (List.replicate (width - ds.length) '0' ++ ds)

-- A character that has no picture of its own is written by its number.
def numbered (c : Char) : String :=
  let n := c.toNat
  if n < 0x100 then "\\x" ++ hexDigits n 2
  else if n < 0x10000 then "\\u" ++ hexDigits n 4
  else "\\U" ++ hexDigits n 8

def quotedChar (printable : Char → Bool) (quote c : Char) : String :=
  if c = quote ∨ c = '\\' then "\\" ++ c.toString
  else if c = '\n' then "\\n"
  else if c = '\t' then "\\t"
  else if c = '\r' then "\\r"
  else if printable c then c.toString
  else numbered c

def quoted (printable : Char → Bool) (s : String) : String :=
  let quote := if s.contains '\'' && !s.contains '"' then '"' else '\''
  quote.toString ++ String.join (s.toList.map (quotedChar printable quote)) ++ quote.toString

end BinMarket.Text
