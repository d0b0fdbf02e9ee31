import Legible.Binding.Visit
import Legible.Proofs.Grammar.Shaped
import Legible.Proofs.Index.Members

/-!
# Regions

The scopes that are open where a traversal visits a place can be read off the tree: they belong to
the constructs around the place that open one. `BindingInput.regions` lists these constructs, the
innermost first. A declaration is visible in its region, the innermost construct around it.
-/

namespace Legible

variable {p body : Place} {u : SourceUnit}

/-- A construct that opens a scope. -/
structure Region where
  place : Place
  type : Option String

/-- Whether a construct can declare a type, by name or as a class body. -/
def Construct.declaresType : Construct → Bool
  | .typeDecl .. | .enumConstant .. | .objectCreation .. => true
  | _ => false

def innermostType? (around : List Region) : Option String := around.findSome? (·.type)

namespace BindingInput

def region (c : BindingInput) (p : Place) : Region :=
  ⟨p, if (Construct.of p).declaresType then c.index.typeAt? c.number p else none⟩

/-- The region that the construct at `p` is for its child: a type declaration for all but its name,
a class body for itself, a method for all but its name, and so on. A type that the index does not
know opens no scope, nor does a method outside of all types. What stands beside the block of an
initializer is in the scope of the block. -/
def opens (c : BindingInput) (around : List Region) (p child : Place) : Option Region :=
  let type := (c.index.typeAt? c.number p).map fun key => (⟨p, some key⟩ : Region)
  let code : Option Region := some ⟨p, none⟩
  match Construct.of p with
  | .typeDecl _ name _ => if child.same name then none else type
  | .enumConstant _ body => if child.isIn body.toList then type else none
  | .objectCreation _ body => if child.isIn body.toList then type else none
  | .method name _ _ _ =>
    if child.same name || (innermostType? around).isNone then none else code
  | .initializer block _ => if child.same block then none else some ⟨block, none⟩
  | .block => code
  | .forLoop => code
  | .enhancedFor .. => code
  | .catchClause .. => code
  | .tryWithResources resources body => if child.isIn [resources, body] then code else none
  | .lambda .. => code
  | .switch _ body => if child.same body then code else none
  | _ => none

/-- The regions around the node `n` below the nodes `above`. -/
def regionsBelow (c : BindingInput) : (above : List Node) → (n : Node) → List Region
  | [], _ => []
  | m :: above, n =>
    let around := c.regionsBelow above m
    (c.opens around ⟨m, above⟩ ⟨n, m :: above⟩).toList ++ around

def regions (c : BindingInput) (p : Place) : List Region := c.regionsBelow p.above p.node

/-! ## Regions of children -/

variable {c : BindingInput} {q : Place}

theorem regions_child (hq : q ∈ p.children) :
    c.regions q = (c.opens (c.regions p) p q).toList ++ c.regions p := by
  obtain ⟨n, _, rfl⟩ := List.mem_map.mp hq
  rfl

theorem opens_eq_none {around : List Region} (h : (Construct.of p).opensScope = false) :
    c.opens around p q = none := by
  unfold opens
  split <;> simp_all [Construct.opensScope]

theorem regions_of_opensScope (h : (Construct.of p).opensScope = false) (hq : q ∈ p.children) :
    c.regions q = c.regions p := by
  rw [regions_child hq, opens_eq_none h]
  rfl

end BindingInput

/-! ## Members and fields -/

def Place.typeMembers (p : Place) : List Place := p.typeBody?.toList.flatMap Place.bodyMembers

/-- The kinds of nodes that are gone through and always open no scope. -/
theorem opensScope_of_kind (h : p.kind ∈ ["scoped_type_identifier", "scoped_identifier",
    "variable_declarator", "formal_parameter", "spread_parameter", "formal_parameters",
    "enum_body_declarations", "catch_formal_parameter", "class_body", "binary_expression"]) :
    (Construct.of p).opensScope = false := by
  simp only [List.mem_cons, List.not_mem_nil, or_false] at h
  rcases h with h | h | h | h | h | h | h | h | h | h <;>
    simp [Construct.of, Construct.of?, h, Construct.opensScope]

theorem opensScope_typeBody (hshaped : u.shapedOK = true) (hp : p ∈ u.root.places)
    (hbody : p.typeBody? = some body) : (Construct.of body).opensScope = false := by
  have hparts := Construct.partsOf_of p
  unfold Place.typeBody? at hbody
  split at hbody
  · next hof =>
      cases hbody
      exact opensScope_of_passedParts hshaped hp (by simp [hof, Construct.passedParts])
  · next hof =>
      exact opensScope_of_passedParts hshaped hp (by simp [hof, hbody, Construct.passedParts])
  · next hof =>
      rw [hof] at hparts
      exact opensScope_of_kind (by simp [Place.kind_of_firstNamed? (hparts.symm.trans hbody)])
  · cases hbody

theorem Place.mem_places_of_mem_typeMembers {q : Place} (hp : p ∈ u.root.places)
    (hq : q ∈ p.typeMembers) : q ∈ u.root.places := by
  obtain ⟨body, hbody, hq⟩ := List.mem_flatMap.mp hq
  have hbody := mem_children_of_typeBody? (Option.mem_toList.mp hbody)
  exact mem_places_of_mem_bodyMembers (mem_places_of_mem_children hp hbody) hq

theorem Place.declaresType_of_typeBody? (h : p.typeBody? = some body) :
    (Construct.of p).declaresType = true := by
  unfold typeBody? at h
  split at h <;> simp_all [Construct.declaresType]

namespace SourceUnit

def componentNames (u : SourceUnit) (p : Place) : List String :=
  (p.child? "parameters").toList.flatMap fun params =>
    (params.namedChildren.filterMap Place.declaredName?).map u.text

/-- The names of the fields, enum constants and record components of the type declared at `p`. -/
def fieldNames (u : SourceUnit) (p : Place) : List String :=
  match Construct.of p with
  | .typeDecl kind _ body =>
    (if kind = .recordType then u.componentNames p else [])
      ++ body.bodyMembers.flatMap u.memberFieldNames
  | .enumConstant _ (some body) => body.bodyMembers.flatMap u.memberFieldNames
  | .objectCreation _ (some body) => body.bodyMembers.flatMap u.memberFieldNames
  | _ => []

theorem fieldNames_of_declaresType (u : SourceUnit) (h : (Construct.of p).declaresType = false) :
    u.fieldNames p = [] := by
  unfold fieldNames
  split <;> simp_all [Construct.declaresType]

end SourceUnit

end Legible
