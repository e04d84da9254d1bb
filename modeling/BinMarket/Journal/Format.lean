/-!
Formats of log lines: text with fields in it, each a name in brackets behind a percent sign, then
flags, a width, a precision and a letter.
-/

namespace BinMarket.Journal

structure Record where
  logger  : String
  level   : Int
  message : String
deriving DecidableEq, Repr

def Record.levelName (r : Record) : String :=
  match r.level with
  | 0 => "NOTSET"
  | 10 => "DEBUG"
  | 20 => "INFO"
  | 30 => "WARNING"
  | 40 => "ERROR"
  | 50 => "CRITICAL"
  | n => s!"Level {n}"

structure Field where
  name      : String
  flags     : List Char
  width     : Nat
  precision : Option Nat
  letter    : Char
deriving DecidableEq, Repr

inductive Piece
  | text (c : Char)
  | field (f : Field)
deriving DecidableEq, Repr

def isNameChar (c : Char) : Bool := c.isAlphanum || c == '_' || 128 ≤ c.toNat

def isFlag (c : Char) : Bool := "#0+ -".contains c

def isLetter (c : Char) : Bool := "diouxefgcrsa%".contains c.toLower

def number (cs : List Char) : Nat := cs.foldl (fun n c => 10 * n + (c.toNat - 48)) 0

-- The precision after a point, if there is a point.
def precision? : List Char → Option (Option Nat × List Char)
  | '.' :: cs =>
    let digits := cs.takeWhile Char.isDigit
    if digits.isEmpty then none else some (some (number digits), cs.dropWhile Char.isDigit)
  | cs => some (none, cs)

-- A field after its percent sign, with what follows it.
def field? : List Char → Option (Field × List Char)
  | '(' :: cs => do
    let name := cs.takeWhile isNameChar
    let ')' :: cs := cs.dropWhile isNameChar | none
    if name.isEmpty then none
    let flags := cs.takeWhile isFlag
    let cs := cs.dropWhile isFlag
    let width := number (cs.takeWhile Char.isDigit)
    let (precision, cs) ← precision? (cs.dropWhile Char.isDigit)
    let letter :: rest := cs | none
    if isLetter letter then
      some ({ name := String.ofList name, flags, width, precision, letter }, rest)
    else none
  | _ => none

-- A format without any field is refused.
def hasField : List Char → Bool
  | [] => false
  | '%' :: cs => (field? cs).isSome || hasField cs
  | _ :: cs => hasField cs

-- The pieces of a format, or nothing when a percent sign stands for none. The count bounds the
-- pieces, and a format has at most one for each character.
def pieces? : Nat → List Char → Option (List Piece)
  | 0, cs => if cs.isEmpty then some [] else none
  | _, [] => some []
  | n + 1, '%' :: '%' :: cs => (pieces? n cs).map (.text '%' :: ·)
  | n + 1, '%' :: cs => do
    let (f, rest) ← field? cs
    return .field f :: (← pieces? n rest)
  | n + 1, c :: cs => (pieces? n cs).map (.text c :: ·)

-- The value of a field. Fields that hang on the clock or the machine have none here.
def value? (r : Record) (name : String) : Option String :=
  match name with
  | "name" => some r.logger
  | "levelname" => some r.levelName
  | "levelno" => some (toString r.level)
  | "message" => some r.message
  | "msg" => some r.message
  | _ => none

-- Text cut to a precision and filled up to a width, on the left unless a flag says otherwise.
def fit (f : Field) (s : String) : String :=
  let cs := match f.precision with
    | some k => s.toList.take k
    | none => s.toList
  let gap := List.replicate (f.width - cs.length) (if f.flags.contains '0' && f.letter == 'd' then '0' else ' ')
  let blank := List.replicate (f.width - cs.length) ' '
  String.ofList (if f.flags.contains '-' then cs ++ blank else gap ++ cs)

def Piece.render? (r : Record) : Piece → Option String
  | .text c => some c.toString
  | .field f => (value? r f.name).map (fit f)

def line? (format : String) (r : Record) : Option String := do
  let pieces ← pieces? format.length format.toList
  return String.join (← pieces.mapM (Piece.render? r))

-- An empty format shows the message alone.
def effectiveFormat (s : String) : String := if s.isEmpty then "%(message)s" else s

end BinMarket.Journal
