import Legible.Grammar.Construct
import Legible.Grammar.TypeText

/-!
# Signatures and keys

Members are identified by text: `owner.name` for a field, `owner.name(T1,T2)` for a method with
its parameter types as written. Constructors are called `<init>`; code outside of methods belongs
to `owner.<init>`, or to `owner.<clinit>` when it is static.
-/

namespace Legible

namespace SourceUnit

/-- The type of one parameter, with the dimensions written after its name and the one that
variable arity adds. -/
def parameterType? (u : SourceUnit) (param : Place) : Option String :=
  (param.declaredType?).map fun type =>
    let own := dimensionCount (param.child? "dimensions")
    let extra :=
      if param.kind == "spread_parameter" then
        1 + dimensionCount ((param.firstNamed? "variable_declarator").bind (·.child? "dimensions"))
      else 0
    u.typeText type ++ brackets (own + extra)

def parametersOf (params : Place) : List Place :=
  params.namedChildren.filter fun p =>
    p.kind == "formal_parameter" || p.kind == "spread_parameter"

def parameterTypes (u : SourceUnit) (params : Place) : List String :=
  (parametersOf params).filterMap u.parameterType?

def hasSpread (params : Place) : Bool :=
  params.namedChildren.any (·.kind == "spread_parameter")

end SourceUnit

/-- The places from `p` up to the root. -/
def Place.outward (p : Place) : List Place :=
  p :: go p.above
where
  go : List Node → List Place
    | [] => []
    | n :: rest => ⟨n, rest⟩ :: go rest

namespace SourceUnit

/-- Types and names of the components of the innermost record that holds `p` or is `p`. -/
def recordComponents (u : SourceUnit) (p : Place) : List (String × String) :=
  match (p.outward.find? (·.kind == "record_declaration")).bind (·.child? "parameters") with
  | none => []
  | some params =>
    params.namedChildren.filterMap fun param => do
      some (← u.parameterType? param, u.text (← param.declaredName?))

/-- Parameter types of a method or constructor. A compact constructor has the components of its
record as parameters. -/
def methodParameters (u : SourceUnit) (p : Place) (params : Option Place) : List String :=
  if p.kind == "compact_constructor_declaration" then (u.recordComponents p).map (·.1)
  else
    match params with
    | some ps => u.parameterTypes ps
    | none => []

/-- Whether a method takes any number of arguments in its last parameter. -/
def methodSpreads (p : Place) (params : Option Place) : Bool :=
  if p.kind == "compact_constructor_declaration" then false
  else params.any hasSpread

/-- The names of the type parameters that a declaration introduces. -/
def typeParameters (u : SourceUnit) (p : Place) : List String :=
  match (p.child? "type_parameters").or (p.firstNamed? "type_parameters") with
  | none => []
  | some params =>
    (params.namedChildren.filter (·.kind == "type_parameter")).filterMap fun param =>
      (param.namedChildren.find? (·.node.isName)).map u.text

end SourceUnit

def initializerKey (owner : String) (isStatic : Bool) : String :=
  owner ++ "." ++ (if isStatic then "<clinit>" else "<init>")

/-- Constants of interfaces are static without saying so. -/
def isStaticField (p : Place) : Bool :=
  p.kind == "constant_declaration" || p.hasModifier "static"

def methodKey (owner name : String) (types : List String) : String :=
  owner ++ "." ++ name ++ "(" ++ ",".intercalate types ++ ")"

/-- Key of the member declared at `p`, which code inside of it belongs to. -/
def SourceUnit.memberKey (u : SourceUnit) (owner : String) (p : Place) : String :=
  match Construct.of p with
  | .method name params _ isConstructor =>
    methodKey owner (if isConstructor then "<init>" else u.text name)
      (u.methodParameters p params)
  | .elementDecl name => methodKey owner (u.text name) []
  | .initializer _ isStatic => initializerKey owner isStatic
  | .field _ => initializerKey owner (isStaticField p)
  | _ => initializerKey owner false

/-- The members of a type body; those after the constants of an enum are nested deeper. -/
def Place.bodyMembers (body : Place) : List Place :=
  body.namedChildren.flatMap fun child =>
    if child.kind == "enum_body_declarations" then child.namedChildren else [child]

/-- The declarators of a field or variable declaration that have a name, each with it. -/
def Place.declarators (p : Place) : List (Place × Place) :=
  (p.namedChildren.filter (·.kind == "variable_declarator")).filterMap fun d =>
    (d.child? "name").map fun name => (d, name)

end Legible
