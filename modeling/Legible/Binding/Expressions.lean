import Legible.Binding.Calls
import Legible.Text.LetterCase

/-!
# Expressions

How the names in expressions are resolved, and which expressions have a static type that follows
from their form.
-/

namespace Legible

/-- The type that members of a field access, call or method reference are asked of is written at
`p`. -/
def Place.isReceiver (p : Place) : Bool :=
  match p.parent? with
  | none => false
  | some parent =>
    if parent.kind == "field_access" || parent.kind == "method_invocation" then
      (parent.child? "object").any p.same
    else if parent.kind == "method_reference" then
      parent.namedChildren.head?.any p.same
    else false

/-- Whether the field access at the node is a chain of names, for at most `levels` levels. -/
def Node.isNameChain : (levels : Nat) → Node → Bool
  | 0, _ => false
  | levels + 1, n =>
    if n.kind == "field_access" then
      match n.children.find? (·.role == some "field"),
          n.children.find? (·.role == some "object") with
      | some field, some object => field.kind == "identifier" && object.isNameChain levels
      | _, _ => false
    else n.kind == "identifier"

def startsUppercase (name : String) : Bool := name.toList.head?.any Text.isUppercase

namespace Binder

/-! ## Names -/

/-- The constant that a case label means: one of the subject's type, or of the only enum that has
a constant of that name. -/
def caseConstant? (c : BindingInput) (b : Binder) (name : String) : Option String :=
  let subject := (b.switches.head?.join.bind (·.base.known?)).bind fun owner =>
    c.index.findField? owner name
  match subject with
  | some (_, field) => some field.key
  | none =>
    match c.index.enumsWith name with
    | [owner] => some (owner ++ "." ++ name)
    | _ => none

/-- The field that a simple name means outside of the scopes: an inherited field of a type around,
or a statically imported one. -/
def fieldByName? (c : BindingInput) (b : Binder) (name : String) :
    Option (TypeInfo × FieldInfo) :=
  (b.frames.findSome? fun frame => c.index.findField? frame.name name).or
    ((c.index.staticOwners c.number name).findSome? fun owner =>
      owner.known?.bind fun qualified => c.index.findField? qualified name)

def labelConstant? (c : BindingInput) (p : Place) (name : String) (b : Binder) : Option String :=
  if !b.switches.isEmpty && p.parentKind? == some "switch_label" then b.caseConstant? c name
  else none

/-- What a field of the index is to a name that finds it. -/
def fieldMeaning (c : BindingInput) (found : TypeInfo × FieldInfo) (b : Binder) :
    Option Resolution × Option StaticType :=
  (some (b.target found.2.key .valid), c.index.fieldType? found.1 found.2)

/-- What a name is that is no variable and no field. It may be a type; a qualifier may be a package,
and stays as it is. -/
def outerMeaning (c : BindingInput) (p : Place) (name : String) (b : Binder) :
    Option Resolution × Option StaticType :=
  let missing :=
    if p.isReceiver then none else some (b.target (b.innermost ++ "." ++ name) .missing)
  match b.lookupType? c name with
  | some (.known type) => (some (b.target type .valid), some { base := .known type })
  | some (.external type) =>
    if p.isReceiver && startsUppercase name then
      (some (b.target type .missing), some { base := .external type })
    else (missing, none)
  | _ => (missing, none)

/-- What a name is by the scopes, and where they know nothing by the index. -/
def ordinaryMeaning (c : BindingInput) (p : Place) (name : String) (b : Binder) :
    Option Resolution × Option StaticType :=
  match b.table.scopes.lookup? b.scope .value name with
  | some (_, .symbol id) => (some (.symbol id), b.symbolTypes[id]?)
  | some (_, .typeVariable) => (some .keep, none)
  | none =>
    match b.fieldByName? c name with
    | some found => fieldMeaning c found b
    | none => outerMeaning c p name b

def nameMeaning (c : BindingInput) (p : Place) (b : Binder) :
    Option Resolution × Option StaticType :=
  let name := c.unit.text p
  if b.table.isResolved p then (none, none)
  else
    match b.labelConstant? c p name with
    | some key => (some (b.target key .valid), none)
    | none => ordinaryMeaning c p name b

/-! ## Member accesses -/

/-- What the member of a field access on a type of the analyzed sources is. -/
def knownMemberMeaning (c : BindingInput) (owner name : String) (b : Binder) :
    Option Resolution × Option StaticType :=
  match c.index.findField? owner name with
  | some found => fieldMeaning c found b
  | none =>
    match c.index.findMemberType? owner name with
    | some nested => (some (b.target nested .valid), some { base := .known nested })
    | none => (some (b.target (owner ++ "." ++ name) .missing), none)

/-- What the last name of an access is whose receiver has no type: a chain of names may be the
qualified name of a type. -/
def qualifiedMeaning (c : BindingInput) (p : Place) (b : Binder) :
    Option Resolution × Option StaticType :=
  let type :=
    if p.node.isNameChain p.node.height then b.lookupType? c (c.unit.typeText p) else none
  match type with
  | some (.known name) => (some (b.target name .valid), some { base := .known name })
  | _ => (some .keep, none)

/-- What the member of a field access on `super` is. -/
def superMeaning (c : BindingInput) (name : String) (b : Binder) :
    Option Resolution × Option StaticType :=
  let found := (b.supertypes c).findSome? fun type =>
    type.known?.bind fun owner => c.index.findField? owner name
  match found with
  | some found => fieldMeaning c found b
  | none => (some .keep, none)

/-- What the member of a field access is, once its receiver has been visited. -/
def accessMeaning (c : BindingInput) (p object : Place) (name : String) (b : Binder) :
    Option Resolution × Option StaticType :=
  match b.typeOf? object with
  | none => qualifiedMeaning c p b
  | some receiver =>
    match receiver.memberOwner? with
    | some (.known owner) => knownMemberMeaning c owner name b
    | some (.external owner) => (some (b.target (owner ++ "." ++ name) .missing), none)
    | _ => (some .keep, none)

def accessSteps (c : BindingInput) (p object field : Place) : List Step :=
  let name := c.unit.text field
  if field.kind == "this" then [.visit object, .note p fun b => b.typeOf? object]
  else if object.kind == "super" then [.name field p (superMeaning c name)]
  else [.visit object, .name field p (accessMeaning c p object name)]

/-- The type that a method reference asks for the method. -/
def referenceReceiver? (c : BindingInput) (b : Binder) (object : Place) : Option StaticType :=
  if object.kind == "super" then (b.supertypes c).head?.map fun base => { base }
  else (b.typeOf? object).or (b.staticType? c (c.unit.typeText object))

/-- What the name of a method reference is, if the receiver's type has one method of that name. -/
def referenceMeaning (c : BindingInput) (object name : Place) (b : Binder) : Resolution :=
  match (b.referenceReceiver? c object).bind (·.memberOwner?) with
  | some (.known owner) =>
    match methodKeys c owner (c.unit.text name) with
    | [key] => b.target key .valid
    | _ => .keep
  | _ => .keep

def referenceSteps (c : BindingInput) (p : Place) : List Step :=
  match p.namedChildren with
  | [] => []
  | object :: rest =>
    .visit object :: (rest.getLast?.toList.filter (·.kind == "identifier")).map fun name =>
      .name name name fun b => (some (referenceMeaning c object name b), none)

/-! ## Static types -/

def primitive (name : String) : Option StaticType := some { base := .primitive name }

def endsIn (text : String) (letters : List Char) : Bool :=
  text.toList.getLast?.any letters.contains

/-- Dimensions that an array creation adds to the element type. -/
def createdDims (p : Place) : Nat :=
  p.namedChildren.foldl (fun n c =>
    if c.kind == "dimensions_expr" then n + 1
    else if c.kind == "dimensions" then n + dimensionCount (some c)
    else n) 0

def integerType (text : String) : Option StaticType :=
  primitive (if endsIn text ['l', 'L'] then "long" else "int")

def floatingType (text : String) : Option StaticType :=
  primitive (if endsIn text ['f', 'F'] then "float" else "double")

def writtenType? (c : BindingInput) (b : Binder) (p : Place) : Option StaticType :=
  (p.child? "type").bind fun t => b.staticType? c (c.unit.typeText t)

/-- The static type of an expression, as far as its form tells. -/
def inferredType? (c : BindingInput) (b : Binder) (p : Place) : Option StaticType :=
  match p.kind with
  | "this" => b.innermost?.map fun name => { base := .known name }
  | "string_literal" => some { base := .external "String" }
  | "text_block" => some { base := .external "String" }
  | "character_literal" => primitive "char"
  | "true" => primitive "boolean"
  | "false" => primitive "boolean"
  | "decimal_integer_literal" => integerType (c.unit.text p)
  | "hex_integer_literal" => integerType (c.unit.text p)
  | "octal_integer_literal" => integerType (c.unit.text p)
  | "binary_integer_literal" => integerType (c.unit.text p)
  | "decimal_floating_point_literal" => floatingType (c.unit.text p)
  | "hex_floating_point_literal" => floatingType (c.unit.text p)
  | "parenthesized_expression" => p.namedChildren.head?.bind b.typeOf?
  | "cast_expression" => b.writtenType? c p
  | "array_access" => ((p.child? "array").bind b.typeOf?).bind (·.element?)
  | "assignment_expression" => (p.child? "left").bind b.typeOf?
  | "array_creation_expression" =>
    (b.writtenType? c p).map fun t => { t with dims := t.dims + createdDims p }
  | _ => none

end Binder

end Legible
