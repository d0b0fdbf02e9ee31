import Legible.Analysis

/-!
# Survey of names

A survey goes through the names of a unit in source order and counts them by what they refer to.
Of the two classes with a key, one is recorded in the dictionary: names that were found with the
name they have, or names that are missing with the mark for an unresolved symbol. What the
dictionary already names keeps its name.
-/

namespace Legible

/-- Numbers of names by class. -/
structure Tally where
  valid : Nat := 0
  missing : Nat := 0
  kept : Nat := 0
  recorded : Nat := 0
deriving Repr, DecidableEq

def Tally.add (a b : Tally) : Tally :=
  { valid := a.valid + b.valid
    missing := a.missing + b.missing
    kept := a.kept + b.kept
    recorded := a.recorded + b.recorded }

/-- Counts a name of the given class; `recorded` is the number of entries written for it. -/
def Tally.count (t : Tally) (found : Found) (recorded : Nat) : Tally :=
  match found with
  | .valid => { t with valid := t.valid + 1, recorded := t.recorded + recorded }
  | .missing => { t with missing := t.missing + 1, recorded := t.recorded + recorded }

namespace Survey

/-- What a survey writes for a name with the given key, if anything: `wanted` is the class that it
records, and a missing name never replaces a known one. -/
def entryFor (wanted : Found) (d : Dictionary) (key : String) (found : Found) (text : String) :
    Option (Option String) :=
  match wanted, found with
  | .valid, .valid => some (some ((d.lookup? key).getD text))
  | .missing, .missing => if (d.lookup? key).isNone then some none else none
  | _, _ => none

def surveyName (wanted : Found) (a : AnalyzedUnit) (state : Dictionary × Tally) (p : Place) :
    Dictionary × Tally :=
  let (d, t) := state
  match a.symbols.keyOf? p with
  | none => (d, { t with kept := t.kept + 1 })
  | some (key, found) =>
    match entryFor wanted d key found (a.unit.text p) with
    | some name => (d.record key name, t.count found 1)
    | none => (d, t.count found 0)

def surveyUnit (wanted : Found) (d : Dictionary) (a : AnalyzedUnit) : Dictionary × Tally :=
  (Symbols.namePlaces a.unit).foldl (surveyName wanted a) (d, {})

/-- Surveys the units one after the other; the numbers are listed by unit. -/
def survey (wanted : Found) (d : Dictionary) : List AnalyzedUnit → Dictionary × List Tally
  | [] => (d, [])
  | a :: rest =>
    let (d, tally) := surveyUnit wanted d a
    let (d, tallies) := survey wanted d rest
    (d, tally :: tallies)

def total (tallies : List Tally) : Tally := tallies.foldl Tally.add {}

end Survey

end Legible
