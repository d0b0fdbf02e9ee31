import Legible.Proofs.Index.Keyed

/-!
# Keys of declared types

The key of a type that a unit declares ends in the name of the type, behind a dot if anything
stands before it, or in a number if the type has none (`typesKeyed_build`).
-/

namespace Legible

variable {u : SourceUnit}

/-! ## The walk -/

/-- The key is one that a unit gives to a type: it ends in the name of a declaration, or in a
number. -/
inductive TypeKey (u : SourceUnit) : String → Prop
  | named (imports : Imports) (around : Around) {p name body : Place} {kind : TypeKind}
      (hp : p ∈ u.root.places) (hof : Construct.of p = .typeDecl kind name body) :
      TypeKey u (Indexing.declaredName imports around (u.text name))
  | numbered (owner : String) (n : Nat) : TypeKey u (owner ++ "." ++ ("$" ++ toString n))

/-- All types that the index has for the unit have keys that the unit gives. -/
def Index.TypesKeyed (u : SourceUnit) (unit : Nat) (ix : Index) : Prop :=
  ∀ p key, ix.typeAt? unit p = some key → TypeKey u key

theorem keeps_typeKey (u : SourceUnit) (imports : Imports) :
    Indexing.Keeps u imports (fun _ p => p ∈ u.root.places)
      fun entry => TypeKey u entry.2.qualifiedName where
  child _ _ hp := mem_places_of_mem_namedChildren hp
  member _ _ hp := mem_places_of_mem_namedChildren hp
  named around p hp kind name body hof := by
    refine ⟨?_, mem_places_of_mem_namedChildren (mem_places_of_typeDecl hp hof)⟩
    rw [(declaredType_qualifiedName ..).1]
    exact .named imports around hp hof
  unnamed _ p hp _ body hbody owner _ s superText := by
    refine ⟨?_, mem_places_of_mem_namedChildren (Place.mem_places_of_mem_children hp hbody)⟩
    rw [Indexing.anonymousType, (addMembers_qualifiedName u _ body).1, anonymousName_eq]
    exact .numbered ..

theorem typesKeyed_build {units : List SourceUnit} {unit : Nat} (hu : units[unit]? = some u) :
    (Index.build units).TypesKeyed u unit := by
  intro p key hkey
  have h : (Index.build units).Holds (fun u entry => TypeKey u entry.2.qualifiedName) units :=
    Index.holds_build fun u _ =>
      Index.exists_entries_of (keeps_typeKey u u.imports) (Place.mem_below_self u.top)
  obtain ⟨u', entry, hu', hentry, -, rfl⟩ := h.typeAt? unit p key hkey
  cases hu.symm.trans hu'
  exact hentry

end Legible
