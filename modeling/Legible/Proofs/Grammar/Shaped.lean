import Legible.Proofs.Grammar.Parts

/-!
# Shaped trees

What holds of the trees that the grammar makes, apart from those with a type declaration for the
body of a loop: the grammar has them, but they are no programs. It is less than what tidy trees have
(`SourceUnit.tidyOK`): comments may stand anywhere. The checks are decidable and local to a place;
`SourceUnit.shapedOK` makes them at every place of a tree:

- **numbers** identify the places of the tree;
- **names** are leaves whose texts are identifiers, and what a construct calls its name is one, or
  the underscore;
- **qualified names** end in their last name;
- **parts** of a construct are where the grammar puts them; those that a traversal goes through
  without visiting them, such as bodies of types and lists of parameters, open no scope.
-/

namespace Legible

/-- The text of an identifier. Constructors are called `<init>`, which is none. -/
def isIdentifierText (name : String) : Bool :=
  isPlainName name && !name.toList.contains '<' && !name.toList.head?.any Char.isDigit

def Construct.opensScope : Construct → Bool
  | .typeDecl .. | .enumConstant .. | .objectCreation .. | .method .. | .initializer .. | .block
  | .forLoop | .enhancedFor .. | .catchClause .. | .tryWithResources .. | .lambda ..
  | .switch .. => true
  | _ => false

/-- Parts of a construct that are gone through without being visited. -/
def Construct.passedParts : Construct → List Place
  | .typeDecl _ _ body => [body]
  | .enumConstant _ body => body.toList
  | .method _ params _ _ => params.toList
  | .lambda params _ => [params]
  | .switch _ body => [body]
  | _ => []

namespace SourceUnit

/-! ## The checks -/

def identifierOK (u : SourceUnit) (p : Place) : Bool :=
  !p.node.isName || (p.node.isLeaf && isIdentifierText (u.text p))

/-- The first part of a qualified type is no annotation. -/
def headOK (p : Place) : Bool :=
  p.kind != "scoped_type_identifier"
    || p.namedChildren.head?.all fun q => q.kind != "annotation" && q.kind != "marker_annotation"

/-- What is gone through without being visited opens no scope. -/
def passedOK (p : Place) : Bool :=
  ((Construct.of p).passedParts.all fun q => !(Construct.of q).opensScope)
    && (!inParameterList p || !(Construct.of p).opensScope)

def typedOK (p : Place) : Bool :=
  !inParameterList p || p.declaredName?.isNone || p.declaredType?.isSome

/-- The components of a record are its parameters. -/
def recordOK (p : Place) : Bool :=
  p.kind != "record_declaration"
    || (p.namedChildren.filter (·.kind == "formal_parameters")).all fun q =>
      (p.child? "parameters").any q.same

/-- A qualified name ends in its last name. -/
def lastNameOK (u : SourceUnit) (p : Place) : Bool :=
  (p.kind != "scoped_type_identifier"
      || (p.namedChildren.reverse.find? (·.kind == "type_identifier")).all fun last =>
        (u.text last).toList.isSuffixOf (u.typeText p).toList)
    && (p.kind != "scoped_identifier"
      || (p.child? "name").all fun last =>
        (u.text last).toList.isSuffixOf (u.typeText p).toList
          && (u.text last).toList.isSuffixOf (u.text p).toList)
    && (p.kind != "field_access"
      || (p.child? "field").all fun last =>
        last.kind != "identifier" || (u.text last).toList.isSuffixOf (u.typeText p).toList)

def shapeOK (u : SourceUnit) (p : Place) : Bool :=
  u.identifierOK p && u.roleOK p && headOK p && partsOK p && passedOK p && typedOK p
    && recordOK p && u.lastNameOK p

/-- The tree is one that the grammar makes, without a type declaration for the body of a loop. -/
def shapedOK (u : SourceUnit) : Bool :=
  decide (u.root.places.map Place.number).Nodup && !(Construct.of u.top).opensScope
    && u.root.places.all u.shapeOK

end SourceUnit

/-! ## Reading the checks -/

theorem isPlainName_of_isIdentifierText {name : String} (h : isIdentifierText name = true) :
    isPlainName name = true := by
  simp only [isIdentifierText, Bool.and_eq_true] at h
  exact h.1.1

section Shaped

variable {u : SourceUnit} {p q : Place} (h : u.shapedOK = true)

include h

theorem shapeOK_of_shapedOK (hp : p ∈ u.root.places) : u.shapeOK p = true := by
  simp only [SourceUnit.shapedOK, Bool.and_eq_true] at h
  exact List.all_eq_true.mp h.2 p hp

/-- The whole opens no scope but the root. -/
theorem opensScope_top : (Construct.of u.top).opensScope = false := by
  simp only [SourceUnit.shapedOK, Bool.and_eq_true] at h
  simpa using h.1.2

theorem identifier_of_shapedOK (hp : p ∈ u.root.places) (hname : p.node.isName = true) :
    p.node.isLeaf = true ∧ isIdentifierText (u.text p) = true := by
  have := shapeOK_of_shapedOK h hp
  simp only [SourceUnit.shapeOK, SourceUnit.identifierOK, hname, Bool.and_eq_true, Bool.not_true,
    Bool.false_or] at this
  exact this.1.1.1.1.1.1.1

theorem parted_of_shapedOK : u.Parted := by
  have hplace : ∀ p ∈ u.root.places, u.shapeOK p = true := fun _ => shapeOK_of_shapedOK h
  simp only [SourceUnit.shapeOK, Bool.and_eq_true] at hplace
  refine ⟨?_, fun p hp hname => ?_, fun p hp => (hplace p hp).1.1.1.1.1.1.2,
    fun p hp hkind q hq => ?_, fun p hp => (hplace p hp).1.1.1.1.2⟩
  · simp only [SourceUnit.shapedOK, Bool.and_eq_true, decide_eq_true_eq] at h
    exact h.1.1
  · have hname := identifier_of_shapedOK h hp hname
    exact ⟨hname.1, isPlainName_of_isIdentifierText hname.2⟩
  · have hok := (hplace p hp).1.1.1.1.1.2
    simpa [SourceUnit.headOK, hkind, hq] using hok

variable (hp : p ∈ u.root.places)

include hp

theorem opensScope_of_passedParts (hq : q ∈ (Construct.of p).passedParts) :
    (Construct.of q).opensScope = false := by
  have := shapeOK_of_shapedOK h hp
  simp only [SourceUnit.shapeOK, SourceUnit.passedOK, Bool.and_eq_true, List.all_eq_true] at this
  simpa using this.1.1.1.2.1 q hq

theorem opensScope_of_inParameterList (hin : SourceUnit.inParameterList p = true) :
    (Construct.of p).opensScope = false := by
  have := shapeOK_of_shapedOK h hp
  simp only [SourceUnit.shapeOK, SourceUnit.passedOK, Bool.and_eq_true, hin] at this
  simpa using this.1.1.1.2.2

theorem declaredType?_of_shapedOK (hin : SourceUnit.inParameterList p = true)
    (hq : p.declaredName? = some q) : ∃ type, p.declaredType? = some type := by
  have := shapeOK_of_shapedOK h hp
  simp only [SourceUnit.shapeOK, SourceUnit.typedOK, Bool.and_eq_true, hin, hq] at this
  exact Option.isSome_iff_exists.mp (by simpa using this.1.1.2)

/-- The list of a record's components is its parameter list. -/
theorem parameters_of_record (hkind : p.kind = "record_declaration") (hq : q ∈ p.namedChildren)
    (hlist : q.kind = "formal_parameters") : p.child? "parameters" = some q := by
  have := shapeOK_of_shapedOK h hp
  simp only [SourceUnit.shapeOK, SourceUnit.recordOK, Bool.and_eq_true, hkind, bne_self_eq_false,
    Bool.false_or, List.all_eq_true] at this
  have hany := this.1.2 q (List.mem_filter.mpr ⟨hq, by simp [hlist]⟩)
  obtain ⟨q', hq', hsame⟩ := Option.any_eq_true _ _ |>.mp hany
  have hplace := Place.mem_places_of_mem_children hp (Place.mem_children_of_mem_namedChildren hq)
  have hplace' := Place.mem_places_of_mem_children hp (Place.mem_children_of_child? hq')
  rw [hq', (parted_of_shapedOK h).eq_of_number_eq hplace hplace'
    (by simpa [Place.same] using hsame)]

/-- A qualified name ends in its last name, as a type and as written. -/
theorem lastName_of_shapedOK (hkind : p.kind = "scoped_identifier")
    (hq : p.child? "name" = some q) :
    (u.text q).toList <:+ (u.typeText p).toList ∧ (u.text q).toList <:+ (u.text p).toList := by
  have := shapeOK_of_shapedOK h hp
  simp only [SourceUnit.shapeOK, SourceUnit.lastNameOK, Bool.and_eq_true, hkind, hq] at this
  simpa using this.2.1.2

/-- A qualified type ends in its last name. -/
theorem lastType_of_shapedOK (hkind : p.kind = "scoped_type_identifier")
    (hq : p.namedChildren.reverse.find? (·.kind == "type_identifier") = some q) :
    (u.text q).toList <:+ (u.typeText p).toList := by
  have := shapeOK_of_shapedOK h hp
  simp only [SourceUnit.shapeOK, SourceUnit.lastNameOK, Bool.and_eq_true, hkind, hq] at this
  simpa using this.2.1.1

/-- A field access ends in the name of its field. -/
theorem lastField_of_shapedOK (hkind : p.kind = "field_access") (hq : p.child? "field" = some q)
    (hname : q.kind = "identifier") : (u.text q).toList <:+ (u.typeText p).toList := by
  have := shapeOK_of_shapedOK h hp
  simp only [SourceUnit.shapeOK, SourceUnit.lastNameOK, Bool.and_eq_true, hkind, hq] at this
  simpa [hname] using this.2.2

end Shaped

end Legible
