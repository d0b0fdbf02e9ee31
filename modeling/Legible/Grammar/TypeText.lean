import Legible.Source
import Legible.Text.Blank

/-!
# Types as written

The text of a type is what its tokens spell without generic arguments and annotations. An array
type ends in one pair of brackets for each dimension; the brackets may also stand after the name
of the variable, and are then moved to the type.
-/

namespace Legible

/-- Parts of a type that its text leaves out. -/
def outsideTypeText (kind : String) : Bool :=
  kind == "type_arguments" || kind == "annotation" || kind == "marker_annotation"

mutual

def Node.typeTokens (source : String) : Node → String
  | .mk label children =>
    if outsideTypeText label.kind then ""
    else if children.isEmpty then Text.slice source label.span
    else Node.typeTokensIn source children

def Node.typeTokensIn (source : String) : List Node → String
  | [] => ""
  | n :: ns => n.typeTokens source ++ Node.typeTokensIn source ns

end

mutual

/-- The type as written; of the alternatives of a catch clause only the first. -/
def Node.typeText (source : String) : Node → String
  | n@(.mk label children) =>
    if label.kind == "catch_type" then Node.firstTypeText source children
    else n.typeTokens source

def Node.firstTypeText (source : String) : List Node → String
  | [] => ""
  | n :: ns => if n.named then n.typeText source else Node.firstTypeText source ns

end

def SourceUnit.typeText (u : SourceUnit) (p : Place) : String := p.node.typeText u.source

/-! ## Dimensions -/

def brackets (dims : Nat) : String := String.join (List.replicate dims "[]")

namespace Text

/-- Takes pairs of brackets, and the white space around them, off the end of a text that is given
backwards; counts the pairs. -/
def peelBrackets : List Char → List Char × Nat
  | [] => ([], 0)
  | ']' :: '[' :: rest =>
    let (back, dims) := peelBrackets rest
    (back, dims + 1)
  | c :: rest => if isBlank c then peelBrackets rest else (c :: rest, 0)

/-- A type text as its element type and the number of dimensions. -/
def splitDims (text : String) : String × Nat :=
  let (back, dims) := peelBrackets text.toList.reverse
  (String.ofList (trimStart back.reverse), dims)

end Text

def dimensionCount (p : Option Place) : Nat :=
  match p with
  | some d => d.children.countP (·.kind == "[")
  | none => 0

/-! ## Declarations of a parameter -/

/-- The name that a parameter declares; a variable arity parameter has it in a declarator. -/
def Place.declaredName? (p : Place) : Option Place :=
  (p.child? "name").or ((p.firstNamed? "variable_declarator").bind (·.child? "name"))

def Place.declaredType? (p : Place) : Option Place :=
  (p.child? "type").or (p.namedChildren.find? fun c =>
    !(c.kind == "modifiers" || c.kind == "variable_declarator" || c.kind == "identifier"
      || c.kind == "dimensions"))

/-- Whether a declaration carries the given modifier. -/
def Place.hasModifier (p : Place) (keyword : String) : Bool :=
  (p.namedChildren.filter (·.kind == "modifiers")).any fun m =>
    m.children.any (·.kind == keyword)

end Legible
