import Legible.Error
import Legible.Workspace.Path

/-!
# File systems

A file system is a map from locations to files and directories, with a directory that relative paths
start from. A path is walked piece by piece, and every piece but the last has to lead to a
directory; names and paths have a greatest length. What can be done to a file system is a set of
small actions, each of which happens as a whole or fails and changes nothing.
-/

namespace Legible

/-- The names from the root down to a file or directory; the root itself is the empty list. -/
abbrev Location := List String

inductive Entry where
  | file (bytes : ByteArray)
  | directory

structure FileSystem where
  entries : List (Location × Entry)
  home : Location

inductive FileKind where
  | file
  | directory
deriving Repr, DecidableEq

inductive Action where
  | create (path : String)
  | append (path : String) (bytes : ByteArray)
  /-- Waits until what was written is safe. -/
  | sync (path : String)
  | remove (path : String)
  /-- Moves a file or directory to another path, in place of a file that is there. -/
  | rename (source target : String)
  | makeDirectory (path : String)

namespace FileSystem

/-! ## Locations -/

/-- What is at a location; the root is always a directory. -/
def entry? (fs : FileSystem) (spot : Location) : Option Entry :=
  if spot.isEmpty then some .directory else fs.entries.lookup spot

/-- The location that a piece of a path leads to. -/
def step (dir : Location) : (piece : String) → Location
  | "" => dir
  | "." => dir
  | ".." => dir.dropLast
  | name => dir ++ [name]

/-- Where pieces of a path lead from a location on. The last location need not exist, those
before it have to be directories. -/
def walk (fs : FileSystem) (dir : Location) : (pieces : List String) → Except FileFault Location
  | [] => .ok dir
  | piece :: rest =>
    match fs.entry? dir with
    | none => .error .notFound
    | some (.file _) => .error .notDirectory
    | some .directory =>
      if Path.longestName < piece.utf8ByteSize then .error .nameTooLong
      else fs.walk (step dir piece) rest

def start (fs : FileSystem) (path : String) : Location :=
  if Path.isAbsolute path then [] else fs.home

/-- Why a path is refused whatever the file system holds. -/
def refusal? (path : String) : Option FileFault :=
  if path.toList.contains '\x00' then some .nulInPath
  else if path.isEmpty then some .notFound
  else if Path.longestPath < path.utf8ByteSize then some .nameTooLong
  else none

def locateBy (fs : FileSystem) (path : String) (pieces : List String) :
    Except FileFault Location :=
  match refusal? path with
  | some fault => .error fault
  | none => fs.walk (fs.start path) pieces

def locate (fs : FileSystem) (path : String) : Except FileFault Location :=
  fs.locateBy path (Path.pieces path)

/-! ## Reading -/

/-- What a path leads to, if anything. -/
def kind? (fs : FileSystem) (path : String) : Option FileKind :=
  match fs.locate path with
  | .error _ => none
  | .ok spot =>
    match fs.entry? spot with
    | some (.file _) => some .file
    | some .directory => some .directory
    | none => none

def read (fs : FileSystem) (path : String) : Except FileFault ByteArray := do
  match fs.entry? (← fs.locate path) with
  | some (.file bytes) => .ok bytes
  | some .directory => .error .isDirectory
  | none => .error .notFound

/-- The names that lead from one location down to another below it. -/
def below? (dir spot : Location) : Option (List String) :=
  if dir.isPrefixOf spot && dir.length < spot.length then some (spot.drop dir.length) else none

/-- Whether the directory of a file below `path` can be opened; `names` lead to the file. -/
def isReachable (path : String) (names : List String) : Bool :=
  (names.dropLast.foldl Path.join path).utf8ByteSize ≤ Path.longestPath

/-- The files below a directory, each by the names that lead to it. Directories whose paths are too
long are left out. -/
def filesBelow (fs : FileSystem) (path : String) : List (List String) :=
  match fs.locate path with
  | .error _ => []
  | .ok dir =>
    fs.entries.filterMap fun (spot, entry) =>
      match entry with
      | .file _ => (below? dir spot).filter (isReachable path)
      | .directory => none

/-- Everything below the directory that relative paths start from, by relative path. -/
def listing (fs : FileSystem) : List (String × Entry) :=
  fs.entries.filterMap fun (spot, entry) =>
    (below? fs.home spot).map fun names => ("/".intercalate names, entry)

/-! ## Actions -/

def put (fs : FileSystem) (spot : Location) (entry : Entry) : FileSystem :=
  { fs with entries := fs.entries.filter (·.1 != spot) ++ [(spot, entry)] }

def erase (fs : FileSystem) (spot : Location) : FileSystem :=
  { fs with entries := fs.entries.filter (·.1 != spot) }

/-- The file system with what is at a location, and below it, moved to another. -/
def move (fs : FileSystem) (source target : Location) : FileSystem :=
  { fs with entries := (fs.erase target).entries.map fun (spot, entry) =>
      if source.isPrefixOf spot then (target ++ spot.drop source.length, entry) else (spot, entry) }

def isEmptyAt (fs : FileSystem) (spot : Location) : Bool :=
  fs.entries.all fun (other, _) => (below? spot other).isNone

def create (fs : FileSystem) (path : String) : Except FileFault FileSystem := do
  let spot ← fs.locate path
  match fs.entry? spot with
  | some .directory => .error .isDirectory
  | _ => .ok (fs.put spot (.file ByteArray.empty))

def append (fs : FileSystem) (path : String) (bytes : ByteArray) :
    Except FileFault FileSystem := do
  let spot ← fs.locate path
  match fs.entry? spot with
  | some (.file old) => .ok (fs.put spot (.file (old ++ bytes)))
  | some .directory => .error .isDirectory
  | none => .error .notFound

def remove (fs : FileSystem) (path : String) : Except FileFault FileSystem := do
  let spot ← fs.locate path
  match fs.entry? spot with
  | some (.file _) => .ok (fs.erase spot)
  | some .directory => .error .isDirectory
  | none => .error .notFound

def renameFile (fs : FileSystem) (source target : Location) : Except FileFault FileSystem :=
  match fs.entry? target with
  | some .directory => .error .isDirectory
  | _ => if source = target then .ok fs else .ok (fs.move source target)

def renameDirectory (fs : FileSystem) (source target : Location) :
    Except FileFault FileSystem :=
  if source = target then .ok fs
  else if source.isPrefixOf target then .error .invalid
  else
    match fs.entry? target with
    | some (.file _) => .error .notDirectory
    | some .directory =>
      if fs.isEmptyAt target then .ok (fs.move source target) else .error .notEmpty
    | none => .ok (fs.move source target)

/-- Moves a file or directory to another path. Both paths have to end in a name, and only a
directory can take a path that ends in a slash. -/
def rename (fs : FileSystem) (source target : String) : Except FileFault FileSystem := do
  let old ← fs.locate source
  let new ← fs.locate target
  if !Path.endsInName source || !Path.endsInName target then .error .busy
  else
    match fs.entry? old with
    | none => .error .notFound
    | some .directory => fs.renameDirectory old new
    | some (.file _) =>
      if target.toList.getLast? == some '/' then .error .notDirectory
      else fs.renameFile old new

/-- Makes a directory where nothing is. Slashes at the end of the path do not count. -/
def makeDirectory (fs : FileSystem) (path : String) : Except FileFault FileSystem := do
  let spot ← fs.locateBy path ((Path.pieces path).reverse.dropWhile (·.isEmpty)).reverse
  match fs.entry? spot with
  | some _ => .error .alreadyExists
  | none => .ok (fs.put spot .directory)

def perform (fs : FileSystem) : Action → Except FileFault FileSystem
  | .create path => fs.create path
  | .append path bytes => fs.append path bytes
  | .sync path => (fs.read path).map fun _ => fs
  | .remove path => fs.remove path
  | .rename source target => fs.rename source target
  | .makeDirectory path => fs.makeDirectory path

end FileSystem

end Legible
