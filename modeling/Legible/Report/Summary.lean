import Legible.Report.Duration
import Legible.Report.Table
import Legible.Settings.Basic
import Legible.Survey

/-!
# Summary of a run

What a run did, as a table followed by one line on success or by one line for every file that
failed.
-/

namespace Legible

structure Summary where
  mode : RunMode := .fix
  discovered : Nat := 0
  parsed : Nat := 0
  fixed : Nat := 0
  renamed : Nat := 0
  collected : Tally := {}
  loaded : Nat := 0
  saved : Option Nat := none
  failures : List (String × String) := []
deriving Repr, DecidableEq

def Summary.isSuccess (s : Summary) : Bool := s.failures.isEmpty

namespace Report

/-- The escape sequences that the parts of a summary begin with; none without colours. -/
structure Theme where
  success : String
  error : String
  path : String
  muted : String
  close : String
deriving Repr, DecidableEq

def Theme.plain : Theme := ⟨"", "", "", "", ""⟩

def Theme.colored : Theme :=
  ⟨"\x1b[32;1m", "\x1b[31;1m", "\x1b[33m", "\x1b[90m", "\x1b[0m"⟩

def Theme.paint (t : Theme) (start text : String) : String := start ++ text ++ t.close

def modeWord : RunMode → String
  | .fix => "fix"
  | .dump wanted => "dump (" ++ wanted.word ++ ")"

/-- The rows on what was done in the run's mode. -/
def workRows (s : Summary) : List Row :=
  match s.mode with
  | .fix => [("Rewritten", toString s.fixed), ("Renamed declarations", toString s.renamed)]
  | .dump _ =>
    [("Valid identifiers", toString s.collected.valid),
      ("Missing identifiers", toString s.collected.missing),
      ("Recorded", toString s.collected.recorded)]

/-- The row on the saved dictionary, if it was saved. -/
def savedRows (s : Summary) : List Row :=
  match s.saved with
  | some n => [("Store entries saved", toString n)]
  | none => []

/-- The rows of a summary; `elapsed` is in nanoseconds. -/
def rows (s : Summary) (elapsed : Nat) : List Row :=
  [("Mode", modeWord s.mode), ("Files", toString s.discovered), ("Parsed", toString s.parsed)]
    ++ workRows s
    ++ [("Store entries loaded", toString s.loaded)]
    ++ savedRows s
    ++ [("Failed", toString s.failures.length), ("Time", duration elapsed)]

def failureLine (t : Theme) (failure : String × String) : String :=
  "  " ++ t.paint t.path failure.1 ++ " " ++ t.paint t.muted failure.2 ++ "\n"

/-- The lines below the table. -/
def verdict (t : Theme) (s : Summary) : String :=
  if s.isSuccess then t.paint t.success "All files processed" ++ "\n"
  else
    t.paint t.error (toString s.failures.length ++ " file(s) failed") ++ "\n"
      ++ String.join (s.failures.map (failureLine t))

/-- The text of a summary; `elapsed` is in nanoseconds. -/
def summary (t : Theme) (s : Summary) (elapsed : Nat) : String :=
  table ("Metric", "Value") (rows s elapsed) ++ "\n" ++ verdict t s

end Report

end Legible
