import Legible.Binding.Scopes
import Legible.Binding.Symbol
import Legible.Dictionary.Basic
import Legible.Tree.Place

/-!
# The symbols of a unit

The symbols declared in one source unit, its scopes, and what each name in its tree refers to. A
symbol's number is its position, and no two symbols have one key.
-/

namespace Legible

/-- Whether the declaration that a reference asks for is in the analyzed sources. -/
inductive Found where
  | valid
  | missing
deriving Repr, DecidableEq

/-- What a name in the tree refers to. -/
inductive Resolution where
  | symbol (id : SymbolId)
  /-- A type or member known by its key alone. -/
  | member (key : String) (found : Found)
  /-- Nothing that could be renamed. -/
  | keep
deriving Repr, DecidableEq

/-- Symbols, scopes and resolutions of a unit. -/
structure Symbols where
  symbols : Array Symbol := #[]
  resolutions : Std.TreeMap Nat Resolution := ∅
  scopes : Scopes := Scopes.new

namespace Symbols

def new : Symbols := {}

def size (t : Symbols) : Nat := t.symbols.size

def isEmpty (t : Symbols) : Bool := t.symbols.isEmpty

def idOf? (t : Symbols) (key : String) : Option SymbolId :=
  t.symbols.findIdx? (·.key == key)

def symbol? (t : Symbols) (id : SymbolId) : Option Symbol := t.symbols[id]?

/-- The table with a symbol added, and the symbol's number. A second declaration with the key of
an earlier one is the earlier symbol. -/
def add (t : Symbols) (s : Symbol) : Symbols × SymbolId :=
  match t.idOf? s.key with
  | some id => (t, id)
  | none => ({ t with symbols := t.symbols.push s }, t.symbols.size)

def isResolved (t : Symbols) (p : Place) : Bool := t.resolutions.contains p.number

def resolution? (t : Symbols) (p : Place) : Option Resolution := t.resolutions[p.number]?

/-- Gives the node at `p` a resolution; the first one given stays. -/
def resolve (t : Symbols) (p : Place) (r : Resolution) : Symbols :=
  { t with resolutions := t.resolutions.insertIfNew p.number r }

def resolvedCount (t : Symbols) : Nat := t.resolutions.size

/-- The key of what the node at `p` refers to, and whether its declaration was found. -/
def keyOf? (t : Symbols) (p : Place) : Option (String × Found) :=
  match t.resolution? p with
  | some (.symbol id) => (t.symbol? id).map fun s => (s.key, .valid)
  | some (.member key found) => some (key, found)
  | _ => none

/-- The text to write for the node at `p` in place of its own, if another. -/
def replacement? (t : Symbols) (d : Dictionary) (p : Place) : Option String :=
  match t.resolution? p with
  | some (.symbol id) =>
    (t.symbol? id).bind fun s => if s.isRenamed then some s.displayName else none
  | some (.member key _) => d.lookup? key
  | _ => none

def renamedCount (t : Symbols) : Nat := t.symbols.toList.countP Symbol.isRenamed

def choose (t : Symbols) (id : SymbolId) (name : Option String) : Symbols :=
  { t with symbols := t.symbols.modify id fun s => { s with chosenName := name } }

end Symbols

end Legible
