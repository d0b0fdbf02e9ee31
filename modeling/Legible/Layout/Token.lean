import Legible.Binding.Symbols
import Legible.Source

/-!
# Tokens

What is written of a unit: the leaves of its tree in source order. Literals and comments are
written as one token each, whatever their parts. A token carries all that the layout rules ask for:
the nodes above it, how deep it is indented when it starts a line, and whether an annotation of a
declaration ends with it.
-/

namespace Legible

structure Token where
  label : Label
  text : String
  parent : Option Label
  grandparent : Option Label
  leads : Bool
  /-- The number of tabs before the token when it starts a line. -/
  depth : Nat
  annotationEnd : Bool
deriving Repr, DecidableEq

namespace Token

def kind (t : Token) : String := t.label.kind

def parentKind? (t : Token) : Option String := t.parent.map (·.kind)

def isUnder (t : Token) (kind : String) : Bool := t.parentKind? == some kind

def isComment (t : Token) : Bool :=
  t.kind == "line_comment" || t.kind == "block_comment" || t.kind == "comment"

end Token

namespace Layout

/-- The kinds of nodes whose braces enclose an indented region. -/
def bodyKinds : List String :=
  ["block", "class_body", "interface_body", "enum_body", "annotation_type_body",
    "constructor_body", "switch_block", "module_body"]

/-- The kinds of nodes that are one token, whatever their parts. -/
def atomicKinds : List String :=
  ["string_literal", "character_literal", "line_comment", "block_comment", "comment"]

/-- The kinds of declarations whose annotations stand on lines of their own. -/
def declarationKinds : List String :=
  ["class_declaration", "interface_declaration", "enum_declaration", "record_declaration",
    "annotation_type_declaration", "method_declaration", "constructor_declaration",
    "compact_constructor_declaration", "field_declaration", "constant_declaration",
    "annotation_type_element_declaration", "package_declaration"]

def isToken (n : Node) : Bool := n.isLeaf || atomicKinds.contains n.kind

/-- How much deeper a child is indented than its parent. The braces of a body stay at the level of
what they belong to, and so do the labels of a switch. -/
def depthStep (parent child : Node) : Nat :=
  (if bodyKinds.contains parent.kind && child.kind != "\x7b" && child.kind != "\x7d" then 1
    else 0)
  + (if parent.kind == "switch_block_statement_group" && child.kind != "switch_label"
      && child.kind != ":" then 1 else 0)

/-- Whether the annotations in a node with the given ancestors belong to a declaration. -/
def annotatesDeclaration : List Node → Bool
  | [] => false
  | holder :: above =>
    let declaration := if holder.kind == "modifiers" then above.head? else some holder
    declaration.any (declarationKinds.contains ·.kind)

/-- Whether an annotation of a declaration ends at the byte `stop`, seen from a token that ends
there; `above` are the ancestors of the token. -/
def endsAtAnnotation (stop : Nat) : (above : List Node) → Bool
  | [] => false
  | n :: above =>
    if n.span.stop != stop then false
    else if n.kind == "annotation" || n.kind == "marker_annotation" then
      annotatesDeclaration above
    else endsAtAnnotation stop above

def tokenAt (p : Place) (text : String) (depth : Nat) : Token :=
  { label := p.node.label
    text
    parent := p.above.head?.map Node.label
    grandparent := (p.above.drop 1).head?.map Node.label
    leads := (p.parent?.bind (·.children.head?)).any p.same
    depth
    annotationEnd := endsAtAnnotation p.span.stop p.above }

mutual

/-- The tokens of a subtree; `write` gives the text for a place. What spans no text is left
out. -/
def tokensBelow (write : Place → String) (above : List Node) (depth : Nat) : Node → List Token
  | n@(.mk _ children) =>
    if isToken n then
      if n.span.start < n.span.stop then [tokenAt ⟨n, above⟩ (write ⟨n, above⟩) depth] else []
    else tokensIn write above depth n children

def tokensIn (write : Place → String) (above : List Node) (depth : Nat) (parent : Node) :
    List Node → List Token
  | [] => []
  | n :: ns =>
    tokensBelow write (parent :: above) (depth + depthStep parent n) n
      ++ tokensIn write above depth parent ns

end

/-- The text written for a place: names may have a replacement, all else stays. -/
def writtenText (u : SourceUnit) (t : Symbols) (d : Dictionary) (p : Place) : String :=
  if p.node.isName then (t.replacement? d p).getD (u.text p) else u.text p

def tokens (u : SourceUnit) (t : Symbols) (d : Dictionary) : List Token :=
  tokensBelow (writtenText u t d) [] 0 u.root

end Layout

end Legible
