import Legible.Grammar.Identifier
import Std.Data.TreeMap

/-!
# The symbol dictionary

The dictionary gives names to symbols by their keys. A key without a name marks a symbol that was
seen and could not be resolved. Entries that were loaded are never removed: what a run records is
laid over them, and both are saved together.
-/

namespace Legible

/-- Keys in order, each with a name or with the mark for an unresolved symbol. -/
abbrev NameMap := Std.TreeMap String (Option String)

structure Dictionary where
  loaded : NameMap := ∅
  recorded : NameMap := ∅

namespace Dictionary

def empty : Dictionary := {}

/-- The entry of a key; a recorded one hides a loaded one. -/
def entry? (d : Dictionary) (key : String) : Option (Option String) :=
  d.recorded[key]?.or d.loaded[key]?

/-- The name for a key, if there is one that can be written as an identifier. -/
def lookup? (d : Dictionary) (key : String) : Option String :=
  (d.entry? key).join.filter isIdentifier

def contains (d : Dictionary) (key : String) : Bool :=
  d.recorded.contains key || d.loaded.contains key

def record (d : Dictionary) (key : String) (name : Option String) : Dictionary :=
  { d with recorded := d.recorded.insert key name }

/-- Every name that the dictionary may hand out, identifier or not. -/
def names (d : Dictionary) : List String :=
  d.loaded.values.filterMap id ++ d.recorded.values.filterMap id

def loadedCount (d : Dictionary) : Nat := d.loaded.size

/-- Loaded and recorded entries together; where both have a key the recorded one counts. -/
def merged (d : Dictionary) : NameMap :=
  d.recorded.foldl (fun m key name => m.insert key name) d.loaded

def size (d : Dictionary) : Nat :=
  d.loaded.size + d.recorded.keys.countP fun key => !d.loaded.contains key

def isEmpty (d : Dictionary) : Bool := d.size == 0

end Dictionary

end Legible
