import Legible.Binding.Symbols
import Legible.Grammar.Signature
import Legible.Index.Basic

/-!
# The state of binding

A unit is traversed once. On the way every declaration becomes a symbol and every name gets a
resolution. The state holds the table that is built, where the traversal stands, and the static
types found so far, which tell in what type the members of a receiver are looked up.

What is entered is left again: scopes, members and switches are entered by functions that take what
is done inside as an argument.
-/

namespace Legible

structure BindingInput where
  unit : SourceUnit
  number : Nat
  index : Index

structure TypeFrame where
  name : String
  /-- The symbol of the type; anonymous types have none. -/
  symbol : Option SymbolId
deriving Repr, DecidableEq

/-- How many parameters a method has, and whether the last takes any number of arguments. -/
structure Arity where
  count : Nat
  varargs : Bool
deriving Repr, DecidableEq

/-- Whether a call with `args` arguments fits. -/
def Arity.accepts (a : Arity) (args : Nat) : Bool :=
  if a.varargs then a.count ≤ args + 1 else a.count == args

structure Binder where
  table : Symbols := Symbols.new
  scope : ScopeId := 0
  /-- The types around, innermost first. -/
  frames : List TypeFrame := []
  members : List String := []
  /-- Types of the subjects of the switches around, innermost first. -/
  switches : List (Option StaticType) := []
  types : Std.TreeMap Nat StaticType := ∅
  symbolTypes : Std.TreeMap SymbolId StaticType := ∅
  arities : Std.TreeMap SymbolId Arity := ∅
  /-- How often each name was declared as a local variable in each member. -/
  localCounts : List ((String × String) × Nat) := []

namespace Binder

/-! ## Where the traversal stands -/

def innermost? (b : Binder) : Option String := b.frames.head?.map (·.name)

/-- The innermost type, or the empty name outside of all types. -/
def innermost (b : Binder) : String := b.innermost?.getD ""

/-- Key of the member that the code belongs to. -/
def currentMember (b : Binder) : String :=
  match b.members with
  | key :: _ => key
  | [] => initializerKey b.innermost false

/-- Opens a scope inside of the innermost one. -/
def openScope (b : Binder) (kind : ScopeKind) : Binder :=
  { b with
    table := { b.table with scopes := b.table.scopes.openIn b.scope kind }
    scope := b.table.scopes.size }

/-- Closes the innermost scope and goes back to `outer`. -/
def closeScope (b : Binder) (outer : ScopeId) : Binder :=
  { b with
    table := { b.table with scopes := b.table.scopes.close b.scope }
    scope := outer }

def inScope (kind : ScopeKind) (body : Binder → Binder) (b : Binder) : Binder :=
  (body (b.openScope kind)).closeScope b.scope

def inMember (key : String) (body : Binder → Binder) (b : Binder) : Binder :=
  let b := body { b with members := key :: b.members }
  { b with members := b.members.tail }

def inSwitch (subject : Option StaticType) (body : Binder → Binder) (b : Binder) : Binder :=
  let b := body { b with switches := subject :: b.switches }
  { b with switches := b.switches.tail }

def inFrame (frame : TypeFrame) (body : Binder → Binder) (b : Binder) : Binder :=
  let b := body { b with frames := frame :: b.frames }
  { b with frames := b.frames.tail }

/-! ## Bindings and resolutions -/

/-- Binds a name in the innermost scope. -/
def bind (b : Binder) (space : Namespace) (name : String) (binding : Binding) : Binder :=
  { b with table :=
      { b.table with scopes := b.table.scopes.define b.scope ⟨space, name, binding⟩ } }

def resolve (b : Binder) (p : Place) (r : Resolution) : Binder :=
  { b with table := b.table.resolve p r }

/-- What the key stands for: a symbol of the unit if the declaration was found there. -/
def target (b : Binder) (key : String) (found : Found) : Resolution :=
  match found, b.table.idOf? key with
  | .valid, some id => .symbol id
  | _, _ => .member key found

def typeOf? (b : Binder) (p : Place) : Option StaticType := b.types[p.number]?

/-- Records the static type of an expression, if it has one. -/
def setType (b : Binder) (p : Place) (type : Option StaticType) : Binder :=
  match type with
  | some t => { b with types := b.types.insert p.number t }
  | none => b

def setSymbolType (b : Binder) (id : SymbolId) (type : Option StaticType) : Binder :=
  match type with
  | some t => { b with symbolTypes := b.symbolTypes.insert id t }
  | none => b

def setArity (b : Binder) (id : SymbolId) (arity : Arity) : Binder :=
  { b with arities := b.arities.insert id arity }

/-! ## Declarations -/

def addSymbol (b : Binder) (s : Symbol) : Binder × SymbolId :=
  let (table, id) := b.table.add s
  ({ b with table }, id)

/-- Declares a type in the innermost scope, unless its key is declared already. -/
def declareType (b : Binder) (key name : String) : Binder × SymbolId :=
  match b.table.idOf? key with
  | some id => (b, id)
  | none =>
    let (b, id) := b.addSymbol { key, kind := .type, declaredName := name }
    (b.bind .type name (.symbol id), id)

/-- Declares a field or method in the innermost scope. -/
def declareMember (b : Binder) (space : Namespace) (kind : SymbolKind) (key name : String)
    (type : Option String) : Binder × SymbolId :=
  let (b, id) := b.addSymbol { key, kind, declaredName := name, declaredType := type }
  (b.bind space name (.symbol id), id)

def localCount (b : Binder) (member name : String) : Nat :=
  (b.localCounts.lookup (member, name)).getD 0

/-- Counts one more declaration of a local variable. -/
def countLocal (b : Binder) (member name : String) : Binder :=
  { b with localCounts := ((member, name), b.localCount member name + 1) :: b.localCounts }

/-- The key of the next variable of the given name: parameters are told apart by name, local
variables by name and number. -/
def variableKey (b : Binder) (kind : SymbolKind) (name : String) : String :=
  let member := b.currentMember
  match kind with
  | .parameter => member ++ "." ++ name ++ "(param)"
  | _ =>
    member ++ "." ++ name ++ "(local#" ++ toString (b.localCount member name + 1) ++ ")"

/-- Declares the variable named at `p`. The name `_` declares nothing. -/
def declareVariable (c : BindingInput) (p : Place) (kind : SymbolKind)
    (declaredType : Option String) (type : Option StaticType) (b : Binder) : Binder :=
  let name := c.unit.text p
  if name == "_" then b.resolve p .keep
  else
    let symbol : Symbol :=
      { key := b.variableKey kind name, kind, declaredName := name, declaredType }
    let b := if kind = .parameter then b else b.countLocal b.currentMember name
    let (b, id) := b.addSymbol symbol
    ((b.bind .value name (.symbol id)).resolve p (.symbol id)).setSymbolType id type

end Binder

end Legible
