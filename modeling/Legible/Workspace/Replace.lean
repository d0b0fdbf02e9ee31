import Legible.Dictionary.Json
import Legible.Workspace.Disk

/-!
# Replacing files

A source is replaced in steps that never leave it half written: the new text goes to a file beside
it, and only when that is complete the old file is deleted and the new one takes its name. The
dictionary is saved to a file beside it, which then takes its place.
-/

namespace Legible

variable {m : Type → Type} [Monad m] [Disk m]

namespace Replace

/-- The path of the file that a new text is written to. -/
def siblingPath (path : String) : String := path ++ ".fixed"

/-- The path of the file that the dictionary is written to. -/
def temporaryPath (path : String) : String := path ++ ".tmp"

/-- Writes a file that is complete and safe at the end. -/
def writeSteps (path : String) (bytes : ByteArray) : List Step :=
  [⟨.create path, path⟩, ⟨.append path bytes, path⟩, ⟨.sync path, path⟩]

/-- Puts the file at `fixed` in the place of the one at `path`. -/
def swapSteps (fixed path : String) : List Step :=
  [⟨.remove path, path⟩, ⟨.rename fixed path, fixed⟩]

def replaceSteps (path : String) (bytes : ByteArray) : List Step :=
  writeSteps (siblingPath path) bytes ++ swapSteps (siblingPath path) path

/-- Saves bytes to a file that need not exist. -/
def saveSteps (path : String) (bytes : ByteArray) : List Step :=
  let temporary := temporaryPath path
  [⟨.create temporary, temporary⟩, ⟨.append temporary bytes, temporary⟩,
    ⟨.rename temporary path, path⟩]

end Replace

def writeSibling (path text : String) : ExceptT Error m Unit :=
  carryOut (Replace.writeSteps (Replace.siblingPath path) text.toUTF8)

def swapIntoPlace (fixed path : String) : ExceptT Error m Unit :=
  carryOut (Replace.swapSteps fixed path)

def replaceFile (path text : String) : ExceptT Error m Unit :=
  carryOut (Replace.replaceSteps path text.toUTF8)

namespace Dictionary

/-- The dictionary at a path; where nothing is, it is empty. -/
def load (path : String) : ExceptT Error m Dictionary := do
  if ← (Disk.exists? path : m Bool) then
    match ofJson path (← Disk.readText path) with
    | .ok d => return d
    | .error e => throw e
  else return empty

/-- Makes the directory that a path is in, if nothing is there. -/
def makeRoom (path : String) : ExceptT Error m Unit := do
  match Path.parent? path with
  | none => return ()
  | some dir =>
    if dir.isEmpty || (← (Disk.exists? dir : m Bool)) then return ()
    else Disk.makeDirectories dir

def save (d : Dictionary) (path : String) : ExceptT Error m Unit := do
  makeRoom path
  carryOut (Replace.saveSteps path d.toJson.toUTF8)

end Dictionary

end Legible
