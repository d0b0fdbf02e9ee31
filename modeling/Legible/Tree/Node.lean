/-!
# Syntax trees

A concrete syntax tree keeps every token of its source. A node carries the grammar's name for what
it is, the bytes of the source it spans, and, when the grammar names its part in the parent, that
role; of several children with one role only the first carries it. Nodes are numbered in preorder,
so the number identifies a node within its tree.
-/

namespace Legible

/-- A range of bytes of a source, from `start` up to but not including `stop`. -/
structure Span where
  start : Nat
  stop : Nat
deriving Repr, DecidableEq

/-- What a node is, apart from its children. -/
structure Label where
  number : Nat
  /-- The grammar's name for the node, or the token itself. -/
  kind : String
  /-- Named nodes are the grammar's own; the others are punctuation and keywords. -/
  named : Bool
  missing : Bool
  /-- Some node of the subtree is an error. -/
  faulty : Bool
  span : Span
  role : Option String
deriving Repr, DecidableEq

inductive Node where
  | mk (label : Label) (children : List Node)

namespace Node

def label : Node → Label
  | .mk label _ => label

def children : Node → List Node
  | .mk _ children => children

def number (n : Node) : Nat := n.label.number

def kind (n : Node) : String := n.label.kind

def named (n : Node) : Bool := n.label.named

def span (n : Node) : Span := n.label.span

def role (n : Node) : Option String := n.label.role

/-- A leaf has no children: it is a token, or a rule that matched nothing. -/
def isLeaf (n : Node) : Bool := n.children.isEmpty

/-- Whether the node is a name of the program: of a variable, member or type. -/
def isName (n : Node) : Bool :=
  n.kind == "identifier" || n.kind == "type_identifier"

def isComment (n : Node) : Bool :=
  n.kind == "line_comment" || n.kind == "block_comment" || n.kind == "comment"

mutual

def height : Node → Nat
  | .mk _ children => heights children + 1

def heights : List Node → Nat
  | [] => 0
  | n :: ns => max n.height (heights ns)

end

def isFault (n : Node) : Bool := n.kind == "ERROR" || n.label.missing

/-- Searches the trees of a stack for the first fault, through at most `steps` nodes. A subtree
without the fault mark is not searched. -/
def searchFault? : (steps : Nat) → List Node → Option Node
  | steps + 1, n :: stack =>
    if n.isFault then some n
    else searchFault? steps (if n.label.faulty then n.children ++ stack else stack)
  | _, _ => none

end Node

/-! ## Preorder listings -/

/-- A node as a preorder listing has it: with the number of its children, which follow it. -/
structure Listed where
  kind : String
  named : Bool
  missing : Bool
  faulty : Bool
  span : Span
  childCount : Nat
  role : Option String
deriving Repr, DecidableEq

/-- The label of the entry at position `number` of a listing. -/
def Listed.label (entry : Listed) (number : Nat) : Label :=
  { number, kind := entry.kind, named := entry.named, missing := entry.missing,
    faulty := entry.faulty, span := entry.span, role := entry.role }

/-- The trees listed from some entry on: it takes as children the first of the trees that the
later entries make. -/
def Node.takeChildren (entry : Listed × Nat) (later : List Node) : List Node :=
  .mk (entry.1.label entry.2) (later.take entry.1.childCount) :: later.drop entry.1.childCount

/-- The tree of a preorder listing; `none` unless the counts of children give one tree. -/
def Node.ofListing? (entries : List Listed) : Option Node :=
  match entries.zipIdx.foldr takeChildren [] with
  | [root] => some root
  | _ => none

end Legible
