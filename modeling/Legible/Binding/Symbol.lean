/-!
# Symbols

A symbol is a declared entity of one source unit. Its key is its identity, and what the symbol
dictionary knows it by.
-/

namespace Legible

inductive SymbolKind where
  | type
  | field
  | method
  | parameter
  /-- A local variable of any kind: lambda, catch, loop, resource and pattern variables too. -/
  | localVariable
deriving Repr, DecidableEq

namespace SymbolKind

def word : SymbolKind → String
  | .type => "type"
  | .field => "field"
  | .method => "method"
  | .parameter => "parameter"
  | .localVariable => "local"

def ofWord? : String → Option SymbolKind
  | "type" => some .type
  | "field" => some .field
  | "method" => some .method
  | "parameter" => some .parameter
  | "local" => some .localVariable
  | _ => none

/-- Parameters and local variables are the only symbols that may be named without the
dictionary. -/
def isVariable : SymbolKind → Bool
  | .parameter => true
  | .localVariable => true
  | _ => false

end SymbolKind

/-- A declared entity. -/
structure Symbol where
  key : String
  kind : SymbolKind
  declaredName : String
  chosenName : Option String := none
  /-- The declared type as written, without generic arguments. -/
  declaredType : Option String := none
deriving Repr, DecidableEq

namespace Symbol

def displayName (s : Symbol) : String := s.chosenName.getD s.declaredName

def isRenamed (s : Symbol) : Bool :=
  match s.chosenName with
  | some name => name != s.declaredName
  | none => false

end Symbol

end Legible
