import Legible.Binding.Steps

/-!
# Type names

What a type name means where the traversal stands: the scopes are asked first, then the index. The
last name of a qualified type is linked to the type; a name before it only if it is a type itself,
for it may be a package.
-/

namespace Legible

namespace Binder

def keyOfSymbol (b : Binder) (id : SymbolId) : String :=
  ((b.table.symbol? id).map (·.key)).getD ""

/-- The type that a name means; none for a type parameter. -/
def lookupType? (c : BindingInput) (b : Binder) (text : String) : Option TypeRef :=
  let text := Text.trim text
  let (head, rest) : String × List String :=
    match Text.splitFirst text with
    | some (head, rest) => (head, Text.segments rest)
    | none => (text, [])
  match b.table.scopes.lookup? b.scope .type head with
  | some (_, .typeVariable) => none
  | some (_, .symbol id) =>
    match c.index.descend? (b.keyOfSymbol id) rest with
    | some name => some (.known name)
    | none => some (.external text)
  | none => some (c.index.resolveType c.number b.innermost? text)

/-- The type that a declared type means; none for a type parameter and for `var`. -/
def staticType? (c : BindingInput) (b : Binder) (text : String) : Option StaticType :=
  let (base, dims) := Text.splitDims text
  if base == "var" then none
  else (b.lookupType? c base).map fun base => { base, dims }

def qualifier? (p : Place) : Option Place :=
  if p.kind == "scoped_identifier" then p.child? "scope"
  else if p.kind == "scoped_type_identifier" then p.namedChildren.head?
  else none

/-- What stands before the name that a type node is named by, and that name. -/
def typeNameParts? (p : Place) : Option (Option Place × Place) :=
  if p.kind == "scoped_type_identifier" then
    (p.namedChildren.reverse.find? (·.kind == "type_identifier")).map fun last =>
      (p.namedChildren.head?.filter (!·.same last), last)
  else if p.kind == "scoped_identifier" then
    (p.child? "name").map fun last => (p.child? "scope", last)
  else some (none, p)

def isTypeName (p : Place) : Bool :=
  p.kind == "scoped_type_identifier" || p.kind == "type_identifier"
    || p.kind == "scoped_identifier" || p.kind == "identifier"

/-- The annotations inside of a qualified type. -/
def typeMarks (p : Place) : List Place :=
  if p.kind == "scoped_type_identifier" then
    p.namedChildren.filter fun c => c.kind == "annotation" || c.kind == "marker_annotation"
  else []

def typeMeaning (c : BindingInput) (p : Place) (b : Binder) : Option Resolution :=
  let text := c.unit.typeText p
  match b.lookupType? c text with
  | some (.known name) => some (b.target name .valid)
  | some (.external name) => if text == "var" then none else some (b.target name .missing)
  | some (.primitive _) => none
  | none => some .keep

/-- Resolves a type name: a simple or qualified type, or the name of an annotation. `before` are the
steps for a name before the last one. -/
def typeNameSteps (c : BindingInput) (before : Place → List Step) (p : Place) : List Step :=
  match typeNameParts? p with
  | none => []
  | some (first, last) =>
    (typeMarks p).map .visit
      ++ first.toList.flatMap (fun q => if isTypeName q then before q else [.visit q])
      ++ [.name last last fun b => (typeMeaning c p b, none)]

def knowsType (c : BindingInput) (text : String) (b : Binder) : Bool :=
  match b.lookupType? c text with
  | some (.known _) => true
  | _ => false

/-- Resolves the part before the last name of a qualified type, for names of at most `levels`
levels: a part that is a type is resolved as one, otherwise the search goes on before it. -/
def qualifierSteps (c : BindingInput) : (levels : Nat) → Place → List Step
  | 0, _ => []
  | levels + 1, p =>
    [.choose (knowsType c (c.unit.typeText p)) (typeNameSteps c (qualifierSteps c levels) p)
      ((qualifier? p).toList.flatMap (qualifierSteps c levels))]

/-! ## Imports -/

/-- Resolves an imported name of at most `levels` levels, and gives the type that it means. The
names before the last are linked where they are types. -/
def importedSteps (c : BindingInput) :
    (levels : Nat) → (reportMissing : Bool) → Place → List Step × Option String
  | 0, _, _ => ([], none)
  | levels + 1, reportMissing, p =>
    match (if p.kind == "scoped_identifier" then p.child? "name" else some p) with
    | none => ([], none)
    | some last =>
      let before := (p.child? "scope").toList.flatMap fun scope =>
        (importedSteps c levels false scope).1
      match c.index.resolveType c.number none (c.unit.text p) with
      | .known name => (before ++ [.link last name .valid], some name)
      | .external name =>
        (before ++ if reportMissing then [.link last name .missing] else [], none)
      | .primitive _ => (before, none)

/-- Keys of the methods of a name that a type has, inherited ones included. -/
def methodKeys (c : BindingInput) (owner name : String) : List String :=
  ((c.index.hierarchy owner).flatMap fun info =>
    (info.methods.filter (·.name == name)).map (·.key)).eraseDups

/-- Links a statically imported member: to the field of that name, or to the method if there is
only one. -/
def staticMemberSteps (c : BindingInput) (owner : String) (member : Place) : List Step :=
  let name := c.unit.text member
  match c.index.findField? owner name with
  | some (_, field) => [.link member field.key .valid]
  | none =>
    match methodKeys c owner name with
    | [] => [.link member (owner ++ "." ++ name) .missing]
    | [key] => [.link member key .valid]
    | _ => []

def importSteps (c : BindingInput) (p : Place) : List Step :=
  if p.children.any (·.kind == "asterisk") then []
  else
    match p.children.find? fun c => c.kind == "scoped_identifier" || c.kind == "identifier" with
    | none => []
    | some name =>
      if p.children.any (·.kind == "static") then
        match name.child? "scope", name.child? "name" with
        | some owner, some member =>
          match importedSteps c name.node.height false owner with
          | (steps, some ownerName) => steps ++ staticMemberSteps c ownerName member
          | (steps, none) => steps
        | _, _ => []
      else (importedSteps c name.node.height true name).1

end Binder

end Legible
