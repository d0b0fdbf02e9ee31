import Legible.Layout.Emit
import Legible.Report.Summary
import Legible.Settings.Toml
import Legible.Workspace.Discover
import Legible.Workspace.Replace

/-!
# Runs

A run loads the dictionary, finds and parses the sources, and then either records their names in the
dictionary or writes every source anew. A source that cannot be read, parsed or written is reported
and the others go on; only a dictionary that cannot be loaded or saved ends the run.
-/

namespace Legible

variable {m : Type → Type} [Monad m] [Disk m]

abbrev Failure := String × String

def parseFile (parser : FrontEnd) (path : String) : ExceptT Error m SourceUnit := do
  match SourceUnit.ofBytes parser path (← Disk.readFile path) with
  | .ok unit => return unit
  | .error e => throw e

/-- The units of the files that can be parsed, and the failures of the others. -/
def parseAll (parser : FrontEnd) : List String → m (List SourceUnit × List Failure)
  | [] => return ([], [])
  | path :: rest => do
      let parsed ← (parseFile parser path).run
      let (units, failures) ← parseAll parser rest
      match parsed with
      | .ok unit => return (unit :: units, failures)
      | .error e => return (units, (path, e.message) :: failures)

/-- Writes texts to files: how many were written, and the failures of the others. -/
def replaceAll : List (String × String) → m (Nat × List Failure)
  | [] => return (0, [])
  | (path, text) :: rest => do
      let written ← (replaceFile path text).run
      let (fixed, failures) ← replaceAll rest
      match written with
      | .ok () => return (fixed + 1, failures)
      | .error e => return (fixed, (path, e.message) :: failures)

namespace Run

/-- What a run reports: its summary, and the files it set out to fix, in order. -/
structure Outcome where
  summary : Summary
  fixing : List String := []
deriving Repr, DecidableEq

def Outcome.printed (o : Outcome) : String :=
  String.join (o.fixing.map fun path => "Fixing " ++ path ++ "\n")

/-- Records the names of the units in the dictionary and saves it. -/
def dump (settings : Settings) (wanted : Found) (d : Dictionary) (units : List SourceUnit)
    (start : Summary) : ExceptT Error m Outcome := do
  let (d, tallies) := Survey.survey wanted d (analyze d .preserve units)
  d.save settings.symbols
  return { summary := { start with collected := Survey.total tallies, saved := some d.size } }

def fix (settings : Settings) (d : Dictionary) (units : List SourceUnit) (start : Summary) :
    m Outcome := do
  let analyzed := analyze d settings.policy units
  let (fixed, failures) ← replaceAll <| analyzed.map fun a =>
    (a.unit.path, Layout.render a.unit a.symbols d settings.lineEnding)
  let summary : Summary :=
    { start with
      fixed
      renamed := analyzed.foldl (fun n a => n + a.symbols.renamedCount) 0
      failures := start.failures ++ failures }
  return { summary, fixing := units.map (·.path) }

end Run

def run (parser : FrontEnd) (settings : Settings) : ExceptT Error m Run.Outcome := do
  let d ← Dictionary.load settings.symbols
  let files ← (discover settings.paths : m _)
  let (units, failures) ← (parseAll parser files : m _)
  let start : Summary :=
    { mode := settings.mode
      discovered := files.length
      parsed := units.length
      loaded := d.loadedCount
      failures }
  match settings.mode with
  | .dump wanted => Run.dump settings wanted d units start
  | .fix => (Run.fix settings d units start : m _)

def defaultSettingsPath : String := "javafix.toml"

/-- The settings file at a path. The default one need not exist. -/
def loadSettings (path : Option String) : ExceptT Error m (Option FileSettings) := do
  let file := path.getD defaultSettingsPath
  if ← (Disk.exists? file : m Bool) then
    match FileSettings.ofToml file (← Disk.readText file) with
    | .ok settings => return some settings
    | .error e => throw e
  else if path.isSome then throw (.noSettings file)
  else return none

end Legible
