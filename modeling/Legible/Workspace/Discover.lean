import Legible.Workspace.Disk

/-!
# Finding sources

A run is given files and directories. Files are taken as they are; of a directory all Java files
below it are taken, except in directories that belong to version control. A lone dash in place of a
directory means the standard input, which has no files below it. Each file is found once,
and the files are in order of their paths.
-/

namespace Legible

namespace Discover

/-- Whether a directory of this name belongs to version control. -/
def isHousekeeping (name : String) : Bool := [".git", ".hg", ".svn"].contains name

def isJava (name : String) : Bool := Path.extension? name == some "java"

/-- Whether a file below a directory is taken; `names` lead to it. -/
def isTaken (names : List String) : Bool :=
  names.getLast?.any isJava && !names.dropLast.any isHousekeeping

/-- Whether a directory to be searched is given as the standard input. -/
def isStandardInput (path : String) : Bool := Path.same path "-"

/-- The files that a path stands for. -/
def found {m : Type → Type} [Monad m] [Disk m] (path : String) : m (List String) := do
  match ← Disk.kind? path with
  | some .file => return [path]
  | some .directory =>
    if isStandardInput path then return []
    return ((← Disk.filesBelow path).filter isTaken).map fun names => names.foldl Path.join path
  | none => return []

end Discover

def Path.sorted (paths : List String) : List String :=
  paths.foldl (fun found path => Path.insert path found) []

def discover {m : Type → Type} [Monad m] [Disk m] (paths : List String) : m (List String) := do
  return Path.sorted (← paths.mapM Discover.found).flatten

end Legible
