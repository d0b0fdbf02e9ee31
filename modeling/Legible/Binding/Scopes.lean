import Std.Data.TreeMap

/-!
# Scopes

Scopes form a tree: each but the root has the scope it was opened in as its parent. Names are bound
in a scope, apart for variables, methods and types, and a scope that is closed takes no more.
Looking a name up goes from a scope outward.
-/

namespace Legible

/-- The number of a scope; the root is zero and the others follow in the order of opening. -/
abbrev ScopeId := Nat

abbrev SymbolId := Nat

inductive ScopeKind where
  | unit
  | typeBody
  | method
  /-- A block, loop, catch clause, resource list or switch body. -/
  | block
deriving Repr, DecidableEq

/-- Variables, methods and types have names apart from each other. -/
inductive Namespace where
  | value
  | method
  | type
deriving Repr, DecidableEq

/-- What a name stands for. -/
inductive Binding where
  | symbol (id : SymbolId)
  /-- A type parameter: it hides other types and is never renamed. -/
  | typeVariable
deriving Repr, DecidableEq

structure Definition where
  space : Namespace
  name : String
  binding : Binding
deriving Repr, DecidableEq

structure Opened where
  parent : Option ScopeId
  kind : ScopeKind
deriving Repr, DecidableEq

structure Scopes where
  opened : Array Opened
  definitions : Std.TreeMap ScopeId (List Definition) := ∅
  closed : Std.TreeMap ScopeId Unit := ∅

namespace Scopes

def new : Scopes := { opened := #[⟨none, .unit⟩] }

def size (g : Scopes) : Nat := g.opened.size

def isEmpty (g : Scopes) : Bool := g.size == 0

/-- Opens a scope in `parent`; it gets the next number. -/
def openIn (g : Scopes) (parent : ScopeId) (kind : ScopeKind) : Scopes :=
  { g with opened := g.opened.push ⟨some parent, kind⟩ }

def isClosed (g : Scopes) (scope : ScopeId) : Bool := g.closed.contains scope

def close (g : Scopes) (scope : ScopeId) : Scopes :=
  { g with closed := g.closed.insert scope () }

def definitionsIn (g : Scopes) (scope : ScopeId) : List Definition :=
  g.definitions.getD scope []

/-- Binds a name in a scope, unless the scope is closed. -/
def define (g : Scopes) (scope : ScopeId) (d : Definition) : Scopes :=
  if g.isClosed scope then g
  else { g with definitions := g.definitions.insert scope (g.definitionsIn scope ++ [d]) }

def parent? (g : Scopes) (scope : ScopeId) : Option ScopeId :=
  g.opened[scope]?.bind (·.parent)

/-- The scope and the ones around it, going outward for at most `steps` steps. -/
def outward (g : Scopes) : (steps : Nat) → ScopeId → List ScopeId
  | 0, scope => [scope]
  | steps + 1, scope =>
    match g.parent? scope with
    | some parent => scope :: g.outward steps parent
    | none => [scope]

/-- The scope and the ones around it up to the root. A chain that never comes back to a scope takes
no more steps than there are scopes. -/
def chain (g : Scopes) (scope : ScopeId) : List ScopeId := g.outward g.size scope

def lookupIn (g : Scopes) (scope : ScopeId) (space : Namespace) (name : String) : List Binding :=
  (g.definitionsIn scope).filterMap fun d =>
    if d.space = space && d.name == name then some d.binding else none

/-- The latest binding of a name in the innermost scope that binds it. -/
def lookup? (g : Scopes) (scope : ScopeId) (space : Namespace) (name : String) :
    Option (ScopeId × Binding) :=
  (g.chain scope).findSome? fun s => (g.lookupIn s space name).getLast?.map fun b => (s, b)

/-- Every binding of a name, from the innermost scope outward. -/
def lookupAll (g : Scopes) (scope : ScopeId) (space : Namespace) (name : String) :
    List (ScopeId × Binding) :=
  (g.chain scope).flatMap fun s => (g.lookupIn s space name).map fun b => (s, b)

end Scopes

end Legible
