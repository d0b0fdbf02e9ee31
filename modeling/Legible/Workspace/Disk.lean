import Legible.Workspace.FileSystem

/-!
# Disks

What a run needs of the place where files are kept. A run is written for any such place: for the
disk of a machine, and for a file system that is a value.
-/

namespace Legible

/-- A place where files are kept. -/
class Disk (m : Type → Type) where
  kind? : String → m (Option FileKind)
  read : String → m (Except FileFault ByteArray)
  filesBelow : String → m (List (List String))
  act : Action → m (Except FileFault Unit)

/-- The outcome of an action, and the file system after it: an action that fails changes
nothing. -/
def FileSystem.act (action : Action) (fs : FileSystem) : Except FileFault Unit × FileSystem :=
  match fs.perform action with
  | .ok fs => (.ok (), fs)
  | .error fault => (.error fault, fs)

instance : Disk (StateM FileSystem) where
  kind? path := fun fs => (fs.kind? path, fs)
  read path := fun fs => (fs.read path, fs)
  filesBelow path := fun fs => (fs.filesBelow path, fs)
  act action := FileSystem.act action

variable {m : Type → Type} [Monad m] [Disk m]

namespace Disk

def exists? (path : String) : m Bool := do
  return (← kind? path).isSome

def isDirectory (path : String) : m Bool := do
  return (← kind? path) == some .directory

/-- Makes a directory; one that is there already will do. -/
def ensureDirectory (path : String) : m (Except FileFault Unit) := do
  match ← act (.makeDirectory path) with
  | .ok () => return .ok ()
  | .error fault => if ← isDirectory path then return .ok () else return .error fault

/-- Makes the first directory of a list in which each is inside the next. The ones around it are
made only where they are missing, and those that were made stay when a later one fails. -/
def ensureNested : List String → m (Except FileFault Unit)
  | [] => return .ok ()
  | path :: around => do
      match ← ensureDirectory path with
      | .error .notFound =>
        match ← ensureNested around with
        | .ok () => ensureDirectory path
        | .error fault => return .error fault
      | outcome => return outcome

/-- Makes a directory and the missing ones around it; an error names the directory asked for. -/
def makeDirectories (path : String) : ExceptT Error m Unit := do
  match ← (ensureNested (Path.ancestors path) : m _) with
  | .ok () => return ()
  | .error fault => throw (.file path fault)

/-- The bytes of a file; an error names it. -/
def readFile (path : String) : ExceptT Error m ByteArray := do
  match ← (read path : m _) with
  | .ok bytes => return bytes
  | .error fault => throw (.file path fault)

/-- The text of a file that has to be UTF-8. -/
def readText (path : String) : ExceptT Error m String := do
  match Text.decode (← readFile path) with
  | .ok text => return text
  | .error _ => throw (.file path .notText)

end Disk

/-- An action, and the path that an error of it names. -/
structure Step where
  action : Action
  path : String

/-- Does steps one after the other up to the first that fails. -/
def carryOut : List Step → ExceptT Error m Unit
  | [] => return ()
  | s :: rest => do
      match ← (Disk.act s.action : m _) with
      | .ok () => carryOut rest
      | .error fault => throw (.file s.path fault)

end Legible
