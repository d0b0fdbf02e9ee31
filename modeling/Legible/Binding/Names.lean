import Legible.Binding.Visit
import Legible.Naming.TypeDerived

/-!
# Naming the symbols of a unit

After the traversal every name has a resolution: one that nothing was found for stays as written.
Then the symbols get their names, from the dictionary and where it has none from the naming policy.
-/

namespace Legible

namespace Symbols

def namePlaces (u : SourceUnit) : List Place := u.root.places.filter (·.node.isName)

/-- The table with every name resolved: those that nothing was found for stay as written. -/
def keepUnresolved (t : Symbols) (names : List Place) : Symbols :=
  names.foldl (fun t p => t.resolve p .keep) t

def nameByDictionary (d : Dictionary) (s : Symbol) : Symbol :=
  match d.lookup? s.key with
  | some name => { s with chosenName := some name }
  | none => s

/-- The symbols with the names of the policy, for variables that have none yet. A name once given
is taken. -/
def nameByPolicy (policy : NamingPolicy) (taken : List String) : List Symbol → List Symbol
  | [] => []
  | s :: rest =>
    match (if s.chosenName.isSome then none else policy.suggest taken s) with
    | some name =>
      { s with chosenName := some name } :: nameByPolicy policy (name :: taken) rest
    | none => s :: nameByPolicy policy taken rest

/-- The symbols with their names chosen. No name is given by the policy that the dictionary may
give or that occurs in the unit. -/
def chooseNames (d : Dictionary) (policy : NamingPolicy) (texts : List String)
    (symbols : List Symbol) : List Symbol :=
  nameByPolicy policy (d.names ++ texts) (symbols.map (nameByDictionary d))

def ofUnit (d : Dictionary) (policy : NamingPolicy) (c : BindingInput) : Symbols :=
  let names := namePlaces c.unit
  let t := (Binder.traverse c).table.keepUnresolved names
  { t with symbols :=
      (chooseNames d policy (names.map c.unit.text) t.symbols.toList).toArray }

end Symbols

end Legible
