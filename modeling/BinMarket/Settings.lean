import BinMarket.Text.Integer

/-!
Settings, read from named texts such as the environment's. A number that cannot be read gives a
warning and its default.
-/

namespace BinMarket

-- What a caller who names no value gets.
structure Defaults where
  slippage   : Int := 50
  arrayCount : Int := 4
  decimalsX  : Int := 0
  decimalsY  : Int := 0
deriving DecidableEq, Repr

structure LogSettings where
  file     : String
  level    : String := "INFO"
  format   : String := "%(asctime)s - %(name)s - %(levelname)s - %(message)s"
  console  : Bool := true
  maxBytes : Int := 10485760
  backups  : Int := 5
deriving DecidableEq, Repr

structure Settings where
  defaults : Defaults
  log      : LogSettings
deriving DecidableEq, Repr

abbrev Environment := List (String × String)

-- What a log level's name stands for. One name that is looked up alike is a format, and no level.
inductive Level
  | number (n : Int)
  | format (s : String)
deriving DecidableEq, Repr

namespace Level

def names : List (String × Level) :=
  [("DEBUG", number 10), ("INFO", number 20), ("WARN", number 30), ("WARNING", number 30),
   ("ERROR", number 40), ("CRITICAL", number 50), ("FATAL", number 50), ("NOTSET", number 0),
   ("BASIC_FORMAT", format "%(levelname)s:%(name)s:%(message)s")]

-- The capital of a letter, as far as the capital is one of ASCII.
def capital (c : Char) : Char :=
  if c = 'ı' then 'I' else if c = 'ſ' then 'S' else c.toUpper

-- The level of a name in any case. An unknown name stands for the level of information.
def ofName (s : String) : Level :=
  (names.lookup (String.ofList (s.toList.map capital))).getD (number 20)

end Level

namespace Settings

def isTrue (s : String) : Bool := ["true", "1", "yes", "on"].contains s.toLower

def warning (key raw : String) (default : Int) : String :=
  s!"Invalid int value for {key}='{raw}', using default={default}"

-- The integer under a name, with a warning when there is a text that is none.
def integer (env : Environment) (key : String) (default : Int) : Int × List String :=
  match env.lookup key with
  | none => (default, [])
  | some raw =>
    match Text.integer? raw with
    | some n => (n, [])
    | none => (default, [warning key raw default])

def readLog (env : Environment) (defaultFile : String) : LogSettings × List String :=
  let standard : LogSettings := { file := defaultFile }
  let (maxBytes, w₁) := integer env "LOG_MAX_BYTES" standard.maxBytes
  let (backups, w₂) := integer env "LOG_BACKUP_COUNT" standard.backups
  ({ file     := (env.lookup "LOG_FILE").getD standard.file
     level    := (env.lookup "LOG_LEVEL").getD standard.level
     format   := (env.lookup "LOG_FORMAT").getD standard.format
     console  := ((env.lookup "LOG_CONSOLE").map isTrue).getD standard.console
     maxBytes, backups }, w₁ ++ w₂)

-- All settings, with the warnings in the order of the fields.
def read (env : Environment) (defaultFile : String) : Settings × List String :=
  let standard : Defaults := {}
  let (slippage, w₁) := integer env "DEFAULT_SLIPPAGE_BPS" standard.slippage
  let (arrayCount, w₂) := integer env "SWAP_BIN_ARRAY_COUNT" standard.arrayCount
  let (decimalsX, w₃) := integer env "DEFAULT_TOKEN_X_DECIMALS" standard.decimalsX
  let (decimalsY, w₄) := integer env "DEFAULT_TOKEN_Y_DECIMALS" standard.decimalsY
  let (log, w₅) := readLog env defaultFile
  ({ defaults := { slippage, arrayCount, decimalsX, decimalsY }, log }, w₁ ++ w₂ ++ w₃ ++ w₄ ++ w₅)

end Settings

end BinMarket
