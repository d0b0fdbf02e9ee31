import Legible.Tree.Node

/-!
# Places in a tree

A node does not know what stands above it. A place is a node together with its ancestors, so that
the parts of a construct can be asked for in both directions.
-/

namespace Legible

/-- A node of a tree and its ancestors, the parent first. -/
structure Place where
  node : Node
  above : List Node

namespace Place

def number (p : Place) : Nat := p.node.number

def kind (p : Place) : String := p.node.kind

def span (p : Place) : Span := p.node.span

def role (p : Place) : Option String := p.node.role

def top (root : Node) : Place := ⟨root, []⟩

def parent? (p : Place) : Option Place :=
  match p.above with
  | [] => none
  | n :: rest => some ⟨n, rest⟩

def parentKind? (p : Place) : Option String := p.above.head?.map Node.kind

def children (p : Place) : List Place :=
  p.node.children.map fun n => ⟨n, p.node :: p.above⟩

def namedChildren (p : Place) : List Place :=
  p.children.filter (·.node.named)

def child? (p : Place) (role : String) : Option Place :=
  p.children.find? (·.role == some role)

def firstNamed? (p : Place) (kind : String) : Option Place :=
  p.namedChildren.find? (·.kind == kind)

def same (p q : Place) : Bool := p.number == q.number

def isIn (p : Place) (ps : List Place) : Bool := ps.any p.same

end Place

mutual

/-- All places of the subtree `n` below `above`, in preorder. -/
def Node.placesBelow (above : List Node) : Node → List Place
  | n@(.mk _ children) => ⟨n, above⟩ :: Node.placesIn (n :: above) children

/-- All places of the given subtrees, in preorder. -/
def Node.placesIn (above : List Node) : List Node → List Place
  | [] => []
  | n :: ns => n.placesBelow above ++ Node.placesIn above ns

end

def Node.places (root : Node) : List Place := root.placesBelow []

/-- The first node in document order that is an error or was supplied. No node is searched twice. -/
def Node.firstFault? (root : Node) : Option Node := searchFault? root.places.length [root]

end Legible
