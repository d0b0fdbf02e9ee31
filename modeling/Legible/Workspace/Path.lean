import Legible.Text.Dotted

/-!
# Paths

Paths are texts as a user writes them. Two paths are the same when their components are: repeated
slashes and dots in the middle do not count. They are ordered component by component, the root
before a leading dot, that before a step upwards, and that before names.
-/

namespace Legible.Path

inductive Component where
  | root
  | here
  | up
  | name (text : String)
deriving Repr, DecidableEq

/-- The place of a component in the order of kinds, and the name that decides within a kind. -/
def Component.rank : Component → Nat × String
  | .root => (0, "")
  | .here => (1, "")
  | .up => (2, "")
  | .name text => (3, text)

def Component.precedes (a b : Component) : Bool :=
  a.rank.1 < b.rank.1 || (a.rank.1 == b.rank.1 && a.rank.2 < b.rank.2)

def pieces (path : String) : List String :=
  (Text.pieces '/' path.toList).map String.ofList

def isAbsolute (path : String) : Bool := path.toList.head? == some '/'

/-- The component that a piece after the first stands for, if any. -/
def component? : String → Option Component
  | "" => none
  | "." => none
  | ".." => some .up
  | text => some (.name text)

def components (path : String) : List Component :=
  if isAbsolute path then .root :: (pieces path).filterMap component?
  else
    match pieces path with
    | "." :: rest => .here :: rest.filterMap component?
    | all => all.filterMap component?

/-- Whether one list of components comes before another. -/
def componentsPrecede : List Component → List Component → Bool
  | [], [] => false
  | [], _ :: _ => true
  | _ :: _, [] => false
  | a :: as, b :: bs => a.precedes b || (a == b && componentsPrecede as bs)

def precedes (p q : String) : Bool := componentsPrecede (components p) (components q)

def same (p q : String) : Bool := components p == components q

/-- A path put into an ordered list of paths; one that is there already stays as it is. -/
def insert (path : String) : List String → List String
  | [] => [path]
  | q :: rest =>
    if same path q then q :: rest
    else if precedes path q then path :: q :: rest
    else q :: insert path rest

def join (directory name : String) : String :=
  if directory.isEmpty || directory.toList.getLast? == some '/' then directory ++ name
  else directory ++ "/" ++ name

/-- The path of the directory that a path is in: without its last component and what divides the
two. A path without components has none. -/
def parent? (path : String) : Option String :=
  match (components path).getLast? with
  | none => none
  | some .root => none
  | some last =>
    let trimmed := trimEnd path.toList
    some (String.ofList (trimEnd (trimmed.reverse.drop (lastLength last)).reverse))
where
  lastLength : Component → Nat
    | .root => 1
    | .here => 1
    | .up => 2
    | .name text => text.length
  /-- Drops slashes and dots between slashes from the end, if a component is left before them. -/
  trimEnd (cs : List Char) : List Char := (dropTail cs.reverse).reverse
  dropTail : List Char → List Char
    | ['/'] => ['/']
    | '/' :: rest => dropTail rest
    | ['.', '/'] => ['/']
    | '.' :: '/' :: rest => dropTail rest
    | cs => cs

/-- The path and those of the directories around it, going outward for at most `steps` steps. A
relative path ends before the directory that it starts from. -/
def outward : (steps : Nat) → String → List String
  | 0, _ => []
  | steps + 1, path =>
    if path.isEmpty then []
    else
      match parent? path with
      | some directory => path :: outward steps directory
      | none => [path]

/-- The path and those of the directories around it, the innermost first. Each step outward takes
one component away. -/
def ancestors (path : String) : List String := outward (components path).length path

def longestName : Nat := 255

def longestPath : Nat := 4095

/-- Whether a path ends in a name, and not in a step to where it already is or upwards. -/
def endsInName (path : String) : Bool :=
  match ((pieces path).filter (!·.isEmpty)).getLast? with
  | some "." => false
  | some ".." => false
  | some _ => true
  | none => false

/-- The extension of a file name: what stands after its last dot, if something stands before
it. -/
def extension? (name : String) : Option String :=
  match Text.splitLast name with
  | some (before, after) => if before.isEmpty || name == ".." then none else some after
  | none => none

end Legible.Path
