import Legible.Grammar.Signature
import Legible.Index.Basic

/-!
# Building the index

Every unit is walked once. A type declaration is entered through its body; a class body behind an
object creation or an enum constant is an anonymous type, numbered within the type around it after
everything in the arguments. When all units have been walked, the types of the headers are
resolved, in the order of the qualified names.
-/

namespace Legible

namespace SourceUnit

/-! ## Imports -/

def addImport (u : SourceUnit) (imports : Imports) (p : Place) : Imports :=
  match p.children.find? fun c => c.kind == "scoped_identifier" || c.kind == "identifier" with
  | none => imports
  | some c =>
    let name := u.text c
    let isStatic := p.children.any (·.kind == "static")
    let onDemand := p.children.any (·.kind == "asterisk")
    match isStatic, onDemand with
    | false, false =>
      { imports with single := imports.single.insert (Text.simpleName name) name }
    | false, true => { imports with onDemand := imports.onDemand ++ [name] }
    | true, false =>
      match Text.splitLast name with
      | some pair => { imports with staticSingle := imports.staticSingle ++ [pair] }
      | none => imports
    | true, true => { imports with staticOnDemand := imports.staticOnDemand ++ [name] }

/-- The imports with one more top-level declaration of the unit taken into account. -/
def addHeader (u : SourceUnit) (imports : Imports) (p : Place) : Imports :=
  match Construct.of p with
  | .package =>
    match p.namedChildren.find? fun c =>
        c.kind == "scoped_identifier" || c.kind == "identifier" with
    | some name => { imports with package := u.text name }
    | none => imports
  | .importName => u.addImport imports p
  | _ => imports

def imports (u : SourceUnit) : Imports :=
  u.top.namedChildren.foldl u.addHeader {}

/-! ## Members -/

/-- The types that a declaration extends and implements, as written. -/
def superTexts (u : SourceUnit) (p : Place) : List String :=
  p.namedChildren.flatMap fun child =>
    if child.kind == "superclass" then (child.namedChildren.take 1).map u.typeText
    else if child.kind == "super_interfaces" || child.kind == "extends_interfaces" then
      (child.namedChildren.filter (·.kind == "type_list")).flatMap fun list =>
        list.namedChildren.map u.typeText
    else []

/-- A record's type with its components: each is a field, and a method of the same key. -/
def addComponents (u : SourceUnit) (info : TypeInfo) (p : Place) : TypeInfo :=
  (u.recordComponents p).foldl (fun info (type, name) =>
    (info.addMethod
        { name, key := info.qualifiedName ++ "." ++ name, paramTypes := [], varargs := false,
          returnType := some type, typeParams := [] }).addField name type) info

def methodInfo (u : SourceUnit) (owner : String) (p name : Place) (params : Option Place)
    (isConstructor : Bool) : MethodInfo :=
  { name := if isConstructor then "<init>" else u.text name
    key := u.memberKey owner p
    paramTypes := u.methodParameters p params
    varargs := methodSpreads p params
    returnType :=
      if isConstructor then none
      else (p.child? "type").map fun t =>
        u.typeText t ++ brackets (dimensionCount (p.child? "dimensions"))
    typeParams := u.typeParameters p }

/-- The type without the method that an explicit one without parameters replaces: the accessor of
a record component may be written out. -/
def withoutAccessor (info : TypeInfo) (m : MethodInfo) : TypeInfo :=
  { info with methods := info.methods.filter fun old =>
      !(old.name == m.name && old.paramTypes.isEmpty && m.paramTypes.isEmpty) }

def addMember (u : SourceUnit) (info : TypeInfo) (p : Place) : TypeInfo :=
  match Construct.of p with
  | .field type =>
    p.declarators.foldl (fun info (d, name) =>
      info.addField (u.text name)
        (u.typeText type ++ brackets (dimensionCount (d.child? "dimensions")))) info
  | .enumConstant name _ => info.addField (u.text name) info.qualifiedName
  | .method name params _ isConstructor =>
    let m := u.methodInfo info.qualifiedName p name params isConstructor
    (if isConstructor then info else withoutAccessor info m).addMethod m
  | .elementDecl name =>
    info.addMethod
      { name := u.text name, key := u.memberKey info.qualifiedName p, paramTypes := [],
        varargs := false, returnType := (p.child? "type").map u.typeText, typeParams := [] }
  | .typeDecl _ name _ => info.addMemberType (u.text name)
  | _ => info

def addMembers (u : SourceUnit) (info : TypeInfo) (body : Place) : TypeInfo :=
  body.bodyMembers.foldl u.addMember info

end SourceUnit

/-! ## The walk -/

/-- What is around the nodes that are walked. -/
structure Around where
  owner : Option String := none
  member : Option String := none
deriving Repr, DecidableEq

/-- The index while a unit is walked. -/
structure Indexing where
  index : Index
  anonymous : Std.TreeMap String Nat := ∅

namespace Indexing

def insert (s : Indexing) (p : Place) (info : TypeInfo) : Indexing :=
  let ix := s.index
  let name := info.qualifiedName
  { s with index := { ix with
      types := ix.types.insert name info
      bySimple :=
        if info.isLocal then ix.bySimple
        else ix.bySimple.insert info.name (ix.bySimple.getD info.name [] ++ [name])
      declared := ix.declared.modify info.unit (·.insert p.number name) } }

/-- The qualified name of a type declared by name. A type inside of a member is local to it. -/
def declaredName (imports : Imports) (around : Around) (simple : String) : String :=
  match around.member, around.owner with
  | some member, _ => member ++ "." ++ simple
  | none, some owner => owner ++ "." ++ simple
  | none, none => imports.qualify simple

def declaredType (u : SourceUnit) (unit : Nat) (imports : Imports) (around : Around) (p : Place)
    (kind : TypeKind) (name body : Place) : TypeInfo :=
  let simple := u.text name
  let info : TypeInfo :=
    { qualifiedName := declaredName imports around simple, name := simple, kind,
      enclosing := around.owner, isLocal := around.member.isSome, unit,
      superTexts := u.superTexts p, typeParams := u.typeParameters p }
  u.addMembers (if kind = .recordType then u.addComponents info p else info) body

def anonymousName (s : Indexing) (owner : String) : String :=
  owner ++ ".$" ++ toString (s.anonymous.getD owner 0 + 1)

/-- What the index holds of the anonymous type with the given body. -/
def anonymousType (s : Indexing) (u : SourceUnit) (unit : Nat) (owner superText : String)
    (body : Place) : TypeInfo :=
  u.addMembers
    { qualifiedName := s.anonymousName owner, name := "", kind := .classType,
      enclosing := some owner, isLocal := true, unit, superTexts := [superText] } body

/-- Numbers and enters the anonymous type at `p`. -/
def insertAnonymous (s : Indexing) (u : SourceUnit) (unit : Nat) (p : Place)
    (owner superText : String) (body : Place) : Indexing :=
  let s' := s.insert p (s.anonymousType u unit owner superText body)
  { s' with anonymous := s'.anonymous.insert owner (s.anonymous.getD owner 0 + 1) }

/-- What is left to do in the walk of a unit. -/
inductive Task where
  | walk (around : Around) (p : Place)
  /-- Numbers and enters the anonymous type at `p`, and goes on into its body. -/
  | enter (owner superText : String) (p body : Place)

def walks (around : Around) (ps : List Place) : List Task := ps.map (.walk around)

/-- What is to be done for an anonymous type: all that stands beside its body comes first. Where no
type is around, nothing is. -/
def anonymousTasks (around : Around) (p : Place) (superText : String → String) (body : Place) :
    List Task :=
  match around.owner with
  | some owner =>
    walks around (p.namedChildren.filter (!·.same body)) ++ [.enter owner (superText owner) p body]
  | none => []

/-- Does one task, and gives those that it leaves to be done next. -/
def perform (u : SourceUnit) (unit : Nat) (imports : Imports) (s : Indexing) :
    Task → Indexing × List Task
  | .walk around p =>
    let member :=
      { around with member := (around.owner.map (u.memberKey · p)).or around.member }
    match Construct.of p with
    | .typeDecl kind name body =>
      let info := declaredType u unit imports around p kind name body
      (s.insert p info, walks { owner := some info.qualifiedName } body.namedChildren)
    | .objectCreation type (some body) =>
      (s, anonymousTasks around p (fun _ => u.typeText type) body)
    | .enumConstant _ (some body) => (s, anonymousTasks around p id body)
    | .method .. | .initializer .. | .field .. | .elementDecl .. =>
      (s, walks member p.namedChildren)
    | _ => (s, walks around p.namedChildren)
  | .enter owner superText p body =>
    (s.insertAnonymous u unit p owner superText body,
      walks { owner := some (s.anonymousName owner) } body.namedChildren)

/-- Does the tasks of a stack for at most `steps` steps, and gives those that are left. What a task
leaves goes on top of the stack. -/
def run (u : SourceUnit) (unit : Nat) (imports : Imports) :
    (steps : Nat) → List Task → Indexing → List Task × Indexing
  | steps + 1, task :: stack, s =>
    let (s, next) := s.perform u unit imports task
    run u unit imports steps (next ++ stack) s
  | _, stack, s => (stack, s)

end Indexing

namespace Index

/-- The index with the types of one more unit. No step is for the same node as another, so there are
no more steps than nodes. -/
def addUnit (ix : Index) (u : SourceUnit) : Index :=
  let unit := ix.imports.size
  let imports := u.imports
  let ix := { ix with imports := ix.imports.push imports, declared := ix.declared.push ∅ }
  (Indexing.run u unit imports u.root.places.length [.walk {} u.top] { index := ix }).2.index

/-- The index with the supertypes of one type resolved. Inherited member types are not visible in
a header. -/
def linkType (ix : Index) (name : String) : Index :=
  match ix.type? name with
  | none => ix
  | some info =>
    let supertypes := info.superTexts.map fun text =>
      ix.resolveWith info.unit info.enclosing text false
    { ix with types := ix.types.insert name { info with supertypes } }

/-- The index with all supertypes resolved, one type after the other. -/
def link (ix : Index) : Index := ix.types.keys.foldl linkType ix

def build (units : List SourceUnit) : Index :=
  (units.foldl addUnit {}).link

end Index

end Legible
