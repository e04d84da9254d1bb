import BinMarket.Fault
import BinMarket.Journal.Format
import BinMarket.Settings

/-!
Loggers, the sinks that their records go to, and what the sinks have taken in. A logger's name tells
its ancestors: those that it extends after a point, and last the root. A record goes to the sinks of
its logger and of all ancestors.
-/

namespace BinMarket

namespace Journal

inductive Target
  | console
  | file (path : String) (maxBytes backups : Int)
deriving DecidableEq, Repr

structure Sink where
  target : Target
  level  : Int
  format : String
deriving DecidableEq, Repr

structure Logger where
  level : Int := 0
  sinks : List Sink := []
deriving DecidableEq, Repr

-- A value for each of some names; the latest counts.
def put {α : Type} (entries : List (String × α)) (name : String) (a : α) : List (String × α) :=
  if entries.any (·.1 == name) then entries.map fun e => if e.1 == name then (name, a) else e
  else entries ++ [(name, a)]

def remove {α : Type} (entries : List (String × α)) (name : String) : List (String × α) :=
  entries.filter (·.1 != name)

-- The names that a name extends, nearest first, then the root's, which is empty.
def ancestors (name : String) : List String :=
  let shorter := (List.range name.length).filterMap fun i =>
    if name.toList[i]? = some '.' then some (String.ofList (name.toList.take i)) else none
  shorter.reverse ++ [""]

-- A record that no sink could take is shown on the console from this level on.
def lastResortLevel : Int := 30

end Journal

-- All loggers ever named, and the text in each file and on the console.
structure Journal where
  loggers : List (String × Journal.Logger) := [("", { level := 30 })]
  files   : List (String × String) := []
  console : String := ""
deriving DecidableEq, Repr

namespace Journal

def logger (j : Journal) (name : String) : Logger := (j.loggers.lookup name).getD {}

def setLogger (j : Journal) (name : String) (l : Logger) : Journal :=
  { j with loggers := put j.loggers name l }

def setLevel (j : Journal) (name : String) (level : Int) : Journal :=
  j.setLogger name { j.logger name with level }

-- A logger and its ancestors.
def lineage (j : Journal) (name : String) : List Logger :=
  if name.isEmpty then [j.logger ""] else (name :: ancestors name).map j.logger

-- The level of a logger: its own, or that of the nearest ancestor that has one.
def effectiveLevel (j : Journal) (name : String) : Int :=
  (((j.lineage name).map (·.level)).find? (· != 0)).getD 0

-- Opens a file, which leaves its text as it is.
def openFile (j : Journal) (path : String) : Journal :=
  if j.files.any (·.1 == path) then j else { j with files := put j.files path "" }

def textOf (j : Journal) (path : String) : String := (j.files.lookup path).getD ""

-- Moves a file to another name, over what was there.
def moveFile (j : Journal) (source target : String) : Journal :=
  match j.files.lookup source with
  | none => j
  | some text => { j with files := put (remove j.files source) target text }

-- Moves every backup one number up and the file itself to number one. Without backups the file just
-- goes on.
def rotate (j : Journal) (path : String) (backups : Int) : Journal :=
  if backups ≤ 0 then j
  else
    let numbers := (List.range (backups.toNat - 1)).map fun i => backups.toNat - 1 - i
    let j := numbers.foldl (fun j i => j.moveFile s!"{path}.{i}" s!"{path}.{i + 1}") j
    (j.moveFile path s!"{path}.1").openFile path

-- Adds a line to a file, after a rotation when the file is not empty and would not stay below its
-- size.
def writeFile (j : Journal) (path : String) (maxBytes backups : Int) (line : String) : Journal :=
  let size := (j.textOf path).utf8ByteSize
  let full := 0 < maxBytes && 0 < size && maxBytes ≤ (size + line.length + 1 : Nat)
  let j := if full then j.rotate path backups else j
  { j with files := put j.files path (j.textOf path ++ line ++ "\n") }

def writeConsole (j : Journal) (line : String) : Journal :=
  { j with console := j.console ++ line ++ "\n" }

def deliver (j : Journal) (r : Record) (s : Sink) : Journal :=
  if r.level < s.level then j
  else match line? s.format r with
    | none => j
    | some line =>
      match s.target with
      | .console => j.writeConsole line
      | .file path maxBytes backups => j.writeFile path maxBytes backups line

-- Takes a record in, if its logger's level lets it pass.
def emit (j : Journal) (r : Record) : Journal :=
  if r.level < j.effectiveLevel r.logger then j
  else
    let sinks := (j.lineage r.logger).flatMap (·.sinks)
    if sinks.isEmpty then
      if r.level < lastResortLevel then j else j.writeConsole r.message
    else sinks.foldl (fun j s => j.deliver r s) j

def information : Int := 20
def warningLevel : Int := 30

def warn (j : Journal) (logger : String) (warnings : List String) : Journal :=
  warnings.foldl (fun j message => j.emit { logger, level := warningLevel, message }) j

-- The sinks that settings ask for.
def sinksFor (s : LogSettings) (level : Int) : List Sink :=
  let format := effectiveFormat s.format
  (if s.file.isEmpty then [] else [{ target := .file s.file s.maxBytes s.backups, level, format }]) ++
    (if s.console then [{ target := .console, level, format }] else [])

-- The loggers under a name that share its level.
def children (name : String) : List String := [name ++ ".modules", name ++ ".protocols"]

-- Sets a logger up anew. What was done before a refusal stays done: a name that is no level is
-- refused at once, and a format without fields when the old sinks are gone already.
def setup (s : LogSettings) (name : String) : ExceptT Fault (StateM Journal) Unit := do
  match Level.ofName s.level with
  | .format _ => throw .unknownName
  | .number level =>
    modify (·.setLogger name { level, sinks := [] })
    if !hasField (effectiveFormat s.format).toList then throw .unknownName
    if !s.file.isEmpty then modify (·.openFile s.file)
    modify (·.setLogger name { level, sinks := sinksFor s level })
    for child in children name do
      modify (·.setLevel child level)
    if !s.file.isEmpty then
      let message := s!"Logging initialized: file={s.file}, level={s.level}"
      modify (·.emit { logger := name, level := information, message })

end Journal

end BinMarket
