import Legible.Grammar.Construct
import Legible.Grammar.TypeText
import Legible.Text.Dotted
import Std.Data.TreeMap

/-!
# Types and their members

What is known of a type: its names, where it is declared, the types it extends, and its fields,
methods and member types. Types outside of the analyzed sources are known by name only.
-/

namespace Legible

/-- A type name after resolution. -/
inductive TypeRef where
  | known (name : String)
  /-- Any other type, by the name an import gives it, or as written. -/
  | external (name : String)
  | primitive (name : String)
deriving Repr, DecidableEq

namespace TypeRef

def name : TypeRef → String
  | .known name => name
  | .external name => name
  | .primitive name => name

/-- The qualified name of a type of the analyzed sources. -/
def known? : TypeRef → Option String
  | .known name => some name
  | _ => none

end TypeRef

structure StaticType where
  base : TypeRef
  dims : Nat := 0
deriving Repr, DecidableEq

namespace StaticType

def isArray (t : StaticType) : Bool := t.dims > 0

def element? (t : StaticType) : Option StaticType :=
  match t.dims with
  | 0 => none
  | dims + 1 => some { t with dims }

/-- The type that members are looked up in; arrays and primitive types have none. -/
def memberOwner? (t : StaticType) : Option TypeRef :=
  match t.dims, t.base with
  | 0, .known name => some (.known name)
  | 0, .external name => some (.external name)
  | _, _ => none

/-- Whether two types agree as far as their simple names and dimensions tell. -/
def agrees (t u : StaticType) : Bool :=
  t.dims == u.dims && Text.simpleName t.base.name == Text.simpleName u.base.name

/-- The type as it would be written, without qualification. -/
def describe (t : StaticType) : String := Text.simpleName t.base.name ++ brackets t.dims

end StaticType

/-- The package and the imports of a unit. -/
structure Imports where
  package : String := ""
  single : Std.TreeMap String String := ∅
  onDemand : List String := []
  /-- Types and the one static member that is imported of each. -/
  staticSingle : List (String × String) := []
  staticOnDemand : List String := []

/-- The qualified name of a top-level type of the package. -/
def Imports.qualify (i : Imports) (simple : String) : String :=
  if i.package.isEmpty then simple else i.package ++ "." ++ simple

structure FieldInfo where
  name : String
  key : String
  typeText : String
deriving Repr, DecidableEq

/-- A method, constructor or annotation element. -/
structure MethodInfo where
  /-- The name, `<init>` for constructors. -/
  name : String
  key : String
  paramTypes : List String
  varargs : Bool
  /-- The return type as written; none for constructors. -/
  returnType : Option String
  typeParams : List String
deriving Repr, DecidableEq

namespace MethodInfo

/-- Whether the method can be called with `count` arguments. -/
def acceptsArity (m : MethodInfo) (count : Nat) : Bool :=
  if m.varargs then m.paramTypes.length ≤ count + 1 else m.paramTypes.length == count

/-- The declared type that the argument at `index` is passed to. A variable arity parameter takes
its elements one by one. -/
def paramFor? (m : MethodInfo) (index : Nat) : Option String :=
  match m.paramTypes.getLast? with
  | none => none
  | some final =>
    if m.varargs && m.paramTypes.length ≤ index + 1 then
      let (base, dims) := Text.splitDims final
      some (base ++ brackets (dims - 1))
    else m.paramTypes[index]?

end MethodInfo

structure TypeInfo where
  qualifiedName : String
  /-- The simple name; empty for anonymous classes. -/
  name : String
  kind : TypeKind
  enclosing : Option String
  /-- Local and anonymous types cannot be named from other units. -/
  isLocal : Bool
  unit : Nat
  typeParams : List String := []
  superTexts : List String := []
  supertypes : List TypeRef := []
  fields : Std.TreeMap String FieldInfo := ∅
  methods : List MethodInfo := []
  memberTypes : Std.TreeMap String String := ∅

namespace TypeInfo

/-- The type with a field added; it replaces one of the same name. -/
def addField (t : TypeInfo) (name typeText : String) : TypeInfo :=
  let key := t.qualifiedName ++ "." ++ name
  { t with fields := t.fields.insert name { name, key, typeText } }

def addMethod (t : TypeInfo) (m : MethodInfo) : TypeInfo :=
  { t with methods := t.methods ++ [m] }

def addMemberType (t : TypeInfo) (name : String) : TypeInfo :=
  { t with memberTypes := t.memberTypes.insert name (t.qualifiedName ++ "." ++ name) }

def knownSupertypes (t : TypeInfo) : List String := t.supertypes.filterMap TypeRef.known?

end TypeInfo

end Legible
