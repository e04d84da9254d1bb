import BinMarket.Journal.Basic

/-!
A journal together with the file that the settings in force name for it.
-/

namespace BinMarket

-- All loggers of one program extend its main one, whose name this is.
structure LogBook where
  journal : Journal := {}
  name    : String
  file    : String
deriving DecidableEq, Repr

namespace LogBook

-- Sets a logger up. A refusal leaves what was done before it.
def setup (b : LogBook) (s : LogSettings) (name : String := b.name) :
    Except Fault Journal.Logger × LogBook :=
  let (r, journal) := (Journal.setup s name).run.run b.journal
  (r.map fun _ => journal.logger name, { b with journal })

-- Puts newly read settings in force, with their warnings in the journal.
def reload (b : LogBook) (env : Environment) (defaultFile : String) :
    Except Fault Journal.Logger × LogBook :=
  let (settings, warnings) := Settings.read env defaultFile
  setup { b with journal := b.journal.warn (b.name ++ ".config") warnings, file := settings.log.file }
    settings.log

-- Sets the main logger up from what a caller names. The file in force serves when no other is
-- named; an empty name is no file.
def enable (b : LogBook) (file level format : Option String) (console : Bool) :
    Except Fault Journal.Logger × LogBook :=
  let standard : LogSettings := { file := b.file }
  b.setup { standard with
    file    := file.getD standard.file
    level   := level.getD standard.level
    format  := format.getD standard.format
    console }

def emit (b : LogBook) (r : Journal.Record) : LogBook := { b with journal := b.journal.emit r }

end LogBook

end BinMarket
