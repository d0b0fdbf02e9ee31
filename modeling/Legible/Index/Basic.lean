import Legible.Index.TypeInfo
import Legible.Text.Blank

/-!
# The index of the analyzed sources

The index holds every type of a run with its members, and the imports of each unit. It answers what
a type name means at a place, and which field, method or member type a name finds in a type and its
supertypes.
-/

namespace Legible

/-- The types and imports of the analyzed sources. -/
structure Index where
  types : Std.TreeMap String TypeInfo := ∅
  /-- Qualified names of the types that can be named from other units, by simple name. -/
  bySimple : Std.TreeMap String (List String) := ∅
  imports : Array Imports := #[]
  /-- Qualified names of the declared types, by unit and number of the declaring node. -/
  declared : Array (Std.TreeMap Nat String) := #[]

namespace Index

def size (ix : Index) : Nat := ix.types.size

def isEmpty (ix : Index) : Bool := ix.types.isEmpty

def type? (ix : Index) (name : String) : Option TypeInfo := ix.types[name]?

def typeAt? (ix : Index) (unit : Nat) (p : Place) : Option String :=
  ix.declared[unit]?.bind fun m => m[p.number]?

def imports? (ix : Index) (unit : Nat) : Option Imports := ix.imports[unit]?

/-! ## Supertypes -/

/-- The types among `names` that are in the index and not in `seen`, each once. -/
def unseen (ix : Index) (seen : List String) : List String → List String
  | [] => []
  | q :: qs =>
    if ix.types.contains q && !seen.contains q then q :: ix.unseen (q :: seen) qs
    else ix.unseen seen qs

def supertypesOf (ix : Index) (name : String) : List String :=
  match ix.type? name with
  | some info => info.knownSupertypes
  | none => []

/-- The types that `names` lead to, level by level, for at most `rounds` levels: first those of
`names` that were not seen before, then what their supertypes lead to. -/
def levels (ix : Index) : (rounds : Nat) → (seen names : List String) → List String
  | 0, _, _ => []
  | rounds + 1, seen, names =>
    match ix.unseen seen names with
    | [] => []
    | fresh => fresh ++ ix.levels rounds (fresh ++ seen) (fresh.flatMap ix.supertypesOf)

/-- Names of the type and of its supertypes, nearest first. A level that finds nothing new is the
last, so there are at most as many levels as types. -/
def hierarchyNames (ix : Index) (name : String) : List String :=
  ix.levels ix.size [] [name]

def hierarchy (ix : Index) (name : String) : List TypeInfo :=
  (ix.hierarchyNames name).filterMap ix.type?

/-- The member type that `name` finds in `owner` or what it inherits from. -/
def findMemberType? (ix : Index) (owner name : String) : Option String :=
  (ix.hierarchy owner).findSome? fun info => info.memberTypes[name]?

/-- The field that `name` finds in `owner` or what it inherits from, with its owner. -/
def findField? (ix : Index) (owner name : String) : Option (TypeInfo × FieldInfo) :=
  (ix.hierarchy owner).findSome? fun info => info.fields[name]?.map fun f => (info, f)

/-! ## Type names -/

def primitives : List String :=
  ["boolean", "byte", "char", "short", "int", "long", "float", "double", "void"]

/-- The types around and including `name`, innermost first, for at most `steps` types. -/
def enclosingFrom (ix : Index) : (steps : Nat) → Option String → List TypeInfo
  | 0, _ => []
  | steps + 1, name =>
    match name.bind ix.type? with
    | some info => info :: ix.enclosingFrom steps info.enclosing
    | none => []

/-- The types around and including `name`, innermost first. Each is nested in the next, so none
occurs twice. -/
def enclosingTypes (ix : Index) (name : Option String) : List TypeInfo :=
  ix.enclosingFrom ix.size name

/-- What a simple name means inside of the type `info`. Without `inherited` only the type's own
members count. -/
def nameWithin? (ix : Index) (inherited : Bool) (name : String) (info : TypeInfo) :
    Option String :=
  if info.name == name then some info.qualifiedName
  else if inherited then ix.findMemberType? info.qualifiedName name
  else info.memberTypes[name]?

/-- What a simple name means in a unit outside of its types: an imported type, one of the same
package, one of an imported package, or the only type of that name. An import that leads out of
the analyzed sources ends the search. -/
def importedName? (ix : Index) (imports : Imports) (name : String) : Option String :=
  match imports.single[name]? with
  | some qualified => if ix.types.contains qualified then some qualified else none
  | none =>
    if ix.types.contains (imports.qualify name) then some (imports.qualify name)
    else
      match (imports.onDemand.map fun p => p ++ "." ++ name).find? ix.types.contains with
      | some qualified => some qualified
      | none =>
        match ix.bySimple[name]? with
        | some [only] => some only
        | _ => none

/-- The type that a simple name means inside of the type `context`. -/
def lookupSimple? (ix : Index) (unit : Nat) (context : Option String) (name : String)
    (inherited : Bool) : Option String :=
  ((ix.enclosingTypes context).findSome? (ix.nameWithin? inherited name)).or
    ((ix.imports? unit).bind fun imports => ix.importedName? imports name)

/-- The member type reached from `outer` by one name after the other. -/
def descend? (ix : Index) (outer : String) (names : List String) : Option String :=
  names.foldlM ix.findMemberType? outer

/-- A member type whose outer type is written with its qualified name: the longest beginning of
the name that is a type and from which the rest leads on. -/
def nestedName? (ix : Index) (name : String) : Option String :=
  let segs := Text.segments name
  (List.range' 1 (segs.length - 1)).reverse.findSome? fun k =>
    let outer := Text.dotted (segs.take k)
    if ix.types.contains outer then ix.descend? outer (segs.drop k) else none

/-- The type that a dotted name means. -/
def lookupDotted? (ix : Index) (unit : Nat) (context : Option String)
    (name first rest : String) (inherited : Bool) : Option String :=
  if ix.types.contains name then some name
  else
    ((ix.lookupSimple? unit context first inherited).bind fun outer =>
        ix.descend? outer (Text.segments rest)).or
      (ix.nestedName? name)

def importOf? (ix : Index) (unit : Nat) (name : String) : Option String :=
  (ix.imports? unit).bind fun imports => imports.single[name]?

/-- The type that a name means in a unit inside of the type `context`. -/
def resolveWith (ix : Index) (unit : Nat) (context : Option String) (name : String)
    (inherited : Bool) : TypeRef :=
  let name := Text.trim name
  if primitives.contains name then .primitive name
  else
    match Text.splitFirst name with
    | some (first, rest) =>
      match ix.lookupDotted? unit context name first rest inherited with
      | some qualified => .known qualified
      | none =>
        match ix.importOf? unit first with
        | some outer => .external (outer ++ "." ++ rest)
        | none => .external name
    | none =>
      match ix.lookupSimple? unit context name inherited with
      | some qualified => .known qualified
      | none => .external ((ix.importOf? unit name).getD name)

/-- The type that a name means, inherited member types included. -/
def resolveType (ix : Index) (unit : Nat) (context : Option String) (name : String) : TypeRef :=
  ix.resolveWith unit context name true

/-- The type that a text with dimensions means. -/
def resolveStatic (ix : Index) (unit : Nat) (context : Option String) (text : String) :
    StaticType :=
  let (base, dims) := Text.splitDims text
  { base := ix.resolveType unit context base, dims }

/-! ## Members -/

def isTypeParam (ix : Index) (owner : TypeInfo) (name : String) : Bool :=
  owner.typeParams.contains name
    || (ix.enclosingTypes owner.enclosing).any (·.typeParams.contains name)

/-- The type that a member of `owner` is declared with; none for a type parameter of the owner or
one of the method's own. -/
def memberType? (ix : Index) (owner : TypeInfo) (text : String) (methodParams : List String) :
    Option StaticType :=
  let (base, dims) := Text.splitDims text
  let head := (Text.segments base).headD base
  if methodParams.contains head || ix.isTypeParam owner head then none
  else some { base := ix.resolveType owner.unit (some owner.qualifiedName) base, dims }

def fieldType? (ix : Index) (owner : TypeInfo) (field : FieldInfo) : Option StaticType :=
  ix.memberType? owner field.typeText []

/-- The type of a call; a constructor gives its owner. -/
def returnType? (ix : Index) (owner : TypeInfo) (method : MethodInfo) : Option StaticType :=
  match method.returnType with
  | some text => ix.memberType? owner text method.typeParams
  | none => some { base := .known owner.qualifiedName }

inductive MethodLookup where
  | found (owner : TypeInfo) (method : MethodInfo)
  /-- `count` methods fit, and the arguments do not decide. -/
  | ambiguous (count : Nat)
  | absent

/-- The first method of each parameter list: a method hides the inherited ones that it overrides.
`seen` are the parameter lists met before. -/
def firstOverrides (seen : List String) :
    List (TypeInfo × MethodInfo) → List (TypeInfo × MethodInfo)
  | [] => []
  | (info, m) :: rest =>
    let signature := ",".intercalate m.paramTypes
    if seen.contains signature then firstOverrides seen rest
    else (info, m) :: firstOverrides (signature :: seen) rest

/-- The methods of a name that `owner` has, overridden ones left out, nearest first. -/
def methodsNamed (ix : Index) (owner name : String) : List (TypeInfo × MethodInfo) :=
  firstOverrides [] ((ix.hierarchy owner).flatMap fun info =>
    (info.methods.filter (·.name == name)).map fun m => (info, m))

/-- Whether an argument can be passed to a parameter as far as both types are known. -/
def argumentFits (ix : Index) (owner : TypeInfo) (method : MethodInfo)
    (arg : Option StaticType × Nat) : Bool :=
  match arg.1 with
  | none => true
  | some type =>
    match method.paramFor? arg.2 with
    | none => false
    | some param =>
      match ix.memberType? owner param method.typeParams with
      | some paramType => paramType.agrees type
      | none => true

/-- Whether all arguments can be passed. -/
def argumentsFit (ix : Index) (args : List (Option StaticType)) (c : TypeInfo × MethodInfo) :
    Bool :=
  args.zipIdx.all (ix.argumentFits c.1 c.2)

/-- The methods that take the number of arguments; those of fixed arity are preferred. -/
def pool (candidates : List (TypeInfo × MethodInfo)) (count : Nat) :
    List (TypeInfo × MethodInfo) :=
  let fitting := candidates.filter (·.2.acceptsArity count)
  let exact := fitting.filter (!·.2.varargs)
  if exact.isEmpty then fitting else exact

/-- The method that a call finds: by name, then by number of arguments, then by the argument types
that are known. -/
def findMethod (ix : Index) (owner name : String) (args : List (Option StaticType)) :
    MethodLookup :=
  let pool := pool (ix.methodsNamed owner name) args.length
  match pool with
  | [] => .absent
  | [(info, m)] => .found info m
  | _ =>
    match pool.filter (ix.argumentsFit args) with
    | [(info, m)] => .found info m
    | _ => .ambiguous pool.length

def enumsWith (ix : Index) (name : String) : List String :=
  ((ix.types.values.filter fun info =>
    info.kind = .enumType && info.fields.contains name).map (·.qualifiedName))

/-- The types that a statically imported `name` may come from. -/
def staticOwners (ix : Index) (unit : Nat) (name : String) : List TypeRef :=
  match ix.imports? unit with
  | none => []
  | some imports =>
    ((imports.staticSingle.filter (·.2 == name)).map (·.1) ++ imports.staticOnDemand).map
      (ix.resolveType unit none)

end Index

end Legible
