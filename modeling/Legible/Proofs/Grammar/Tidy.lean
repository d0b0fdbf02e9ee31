import Legible.Grammar.Signature
import Legible.Proofs.Tree.Places

/-!
# Tidy trees

What the theory of names asks of the trees that a front end hands over. The checks are decidable
and local to a place; `SourceUnit.tidyOK` makes them at every place of a tree:

- **numbers** identify the places of the tree;
- **names** are leaves, and their texts have none of the characters that keys are built with
  (`isPlainName`); what a construct calls its name is one, or the underscore;
- **qualified names** end in their last name, and neither they nor the types of parameters have
  comments in them;
- **parts** of a construct are where the grammar puts them: parameter lists are no type
  declarations, and no child plays two parts. Nor is a body a type declaration, though the grammar
  lets one stand for the body of a loop.

The lemmas after the checks are how the other modules read them.
-/

namespace Legible

/-- A character that keys, type texts and comments are not built with. -/
def isNameChar (c : Char) : Bool := !Text.isBlank c && !(['.', '/', '(', ')', '#', ','].contains c)

/-- A text that can stand between the parts of a key. -/
def isPlainName (name : String) : Bool := !name.toList.isEmpty && name.toList.all isNameChar

def typeDeclarationKinds : List String :=
  ["class_declaration", "interface_declaration", "enum_declaration", "record_declaration",
    "annotation_type_declaration"]

/-- The kinds of nodes whose name may be a qualified one. -/
def qualifiedNameParents : List String := ["annotation", "marker_annotation", "module_declaration"]

/-- Whether `text` ends in `name` right after a character with the given property. -/
def endsAfter (sep : Char → Bool) (name text : List Char) : Bool :=
  name.isSuffixOf text && (text.take (text.length - name.length)).getLast?.any sep

namespace SourceUnit

/-! ## The checks -/

def nameOK (u : SourceUnit) (p : Place) : Bool :=
  !p.node.isName || (p.node.isLeaf && isPlainName (u.text p))

/-- What a construct calls its name is a name or the underscore. -/
def roleOK (u : SourceUnit) (p : Place) : Bool :=
  p.role != some "name" || p.node.isName || u.text p == "_"
    || p.parentKind?.any qualifiedNameParents.contains

/-- A qualified type ends in its last name, and its qualifier is no annotation. -/
def scopedTypeOK (u : SourceUnit) (p : Place) : Bool :=
  p.kind != "scoped_type_identifier"
    || ((p.namedChildren.head?.all fun q =>
          q.kind != "annotation" && q.kind != "marker_annotation")
      && (p.namedChildren.reverse.find? (·.kind == "type_identifier")).all fun last =>
        endsAfter (· == '.') (u.text last).toList (u.typeText p).toList)

/-- A qualified name ends in its last name and holds no comment. -/
def scopedNameOK (u : SourceUnit) (p : Place) : Bool :=
  p.kind != "scoped_identifier"
    || (!(u.text p).toList.contains '/'
      && (p.child? "name").all fun last =>
        endsAfter (· == '.') (u.text last).toList (u.typeText p).toList
          && endsAfter (fun c => c == '.' || Text.isBlank c) (u.text last).toList (u.text p).toList)

/-- A field access ends in the name of its field, comments aside. -/
def fieldAccessOK (u : SourceUnit) (p : Place) : Bool :=
  p.kind != "field_access"
    || (p.child? "field").all fun field =>
      field.kind != "identifier"
        || endsAfter (· == '.') (u.text field).toList (u.typeText p).toList
        || (u.typeText p).toList.contains '/'

def inParameterList (p : Place) : Bool :=
  p.above.head?.any fun n => n.role == some "parameters" || n.kind == "formal_parameters"

/-- The type of a parameter holds no comment and no parenthesis. -/
def parameterOK (u : SourceUnit) (p : Place) : Bool :=
  !(p.kind == "formal_parameter" || p.kind == "spread_parameter" || inParameterList p)
    || p.declaredType?.all fun type =>
      (u.typeText type).toList.all fun c => c != '/' && c != '('

/-- The parts of a construct are what the grammar says they are. -/
def partsOK (p : Place) : Bool :=
  -- the root, bodies, parameter lists and parameters declare no type
  (!(p.above.isEmpty || p.role == some "body" || p.role == some "parameters"
        || inParameterList p)
      || !typeDeclarationKinds.contains p.kind)
    && (p.role != some "body" || p.kind != "catch_formal_parameter")
    && (!(["type", "name", "value", "body"].map some).contains p.role || p.kind != "modifiers")
    && (p.kind != "catch_formal_parameter" || (p.child? "name").isSome)
    && (!inParameterList p || !qualifiedNameParents.contains p.kind)

def placeOK (u : SourceUnit) (p : Place) : Bool :=
  u.nameOK p && u.roleOK p && u.scopedTypeOK p && u.scopedNameOK p && u.fieldAccessOK p
    && u.parameterOK p && partsOK p

/-- The tree is as the theory of names asks. -/
def tidyOK (u : SourceUnit) : Bool :=
  decide (u.root.places.map Place.number).Nodup && u.root.places.all u.placeOK

end SourceUnit

/-! ## Reading the checks -/

theorem endsAfter_eq_true_iff {sep : Char → Bool} {name text : List Char} :
    endsAfter sep name text = true ↔ ∃ pre c, sep c = true ∧ text = pre ++ c :: name := by
  simp only [endsAfter, Bool.and_eq_true, List.isSuffixOf_iff_suffix]
  constructor
  · rintro ⟨⟨pre, rfl⟩, hlast⟩
    rw [List.length_append, Nat.add_sub_cancel, List.take_left] at hlast
    obtain ⟨c, hc, hsep⟩ := Option.any_eq_true _ _ |>.mp hlast
    obtain ⟨init, rfl⟩ := List.getLast?_eq_some_iff.mp hc
    exact ⟨init, c, hsep, by simp⟩
  · rintro ⟨pre, c, hc, rfl⟩
    refine ⟨⟨pre ++ [c], by simp⟩, ?_⟩
    have hcons : pre ++ c :: name = (pre ++ [c]) ++ name := by simp
    rw [hcons, List.length_append, Nat.add_sub_cancel, List.take_left]
    simpa using hc

/-- What the theory of a traversal asks of a tree. Tidy and shaped trees have it. -/
structure SourceUnit.Parted (u : SourceUnit) : Prop where
  numbers : (u.root.places.map Place.number).Nodup
  name : ∀ p ∈ u.root.places, p.node.isName = true →
    p.node.isLeaf = true ∧ isPlainName (u.text p) = true
  role : ∀ p ∈ u.root.places, u.roleOK p = true
  head : ∀ p ∈ u.root.places, p.kind = "scoped_type_identifier" →
    ∀ q, p.namedChildren.head? = some q → q.kind ≠ "annotation" ∧ q.kind ≠ "marker_annotation"
  parts : ∀ p ∈ u.root.places, SourceUnit.partsOK p = true

theorem isPlainName_underscore : isPlainName "_" = true := by decide

section Tidy

variable {u : SourceUnit} {p q : Place}

theorem placeOK_of_tidyOK (h : u.tidyOK = true) (hp : p ∈ u.root.places) : u.placeOK p = true := by
  simp only [SourceUnit.tidyOK, Bool.and_eq_true] at h
  exact List.all_eq_true.mp h.2 p hp

theorem parted_of_tidyOK (h : u.tidyOK = true) : u.Parted := by
  have hplace : ∀ p ∈ u.root.places, u.placeOK p = true := fun _ => placeOK_of_tidyOK h
  simp only [SourceUnit.placeOK, Bool.and_eq_true] at hplace
  simp only [SourceUnit.tidyOK, Bool.and_eq_true, decide_eq_true_eq] at h
  refine ⟨h.1, fun p hp hname => ?_, fun p hp => (hplace p hp).1.1.1.1.1.2,
    fun p hp hkind q hq => ?_, fun p hp => (hplace p hp).2⟩
  · have hok := (hplace p hp).1.1.1.1.1.1
    simpa [SourceUnit.nameOK, hname] using hok
  · have hok := (hplace p hp).1.1.1.1.2
    simp only [SourceUnit.scopedTypeOK, hkind, hq, bne_self_eq_false, Bool.false_or,
      Bool.and_eq_true] at hok
    simpa using hok.1

theorem kind_notMem_of_partsOK (h : SourceUnit.partsOK p = true)
    (hwhere : p.above = [] ∨ p.role = some "body" ∨ p.role = some "parameters"
      ∨ SourceUnit.inParameterList p = true) :
    p.kind ∉ typeDeclarationKinds := by
  simp only [SourceUnit.partsOK, Bool.and_eq_true] at h
  have := h.1.1.1.1
  rcases hwhere with h | h | h | h <;> simpa [h] using this

theorem parameterOK_of_tidyOK (h : u.tidyOK = true) (hp : p ∈ u.root.places) :
    u.parameterOK p = true := by
  have := placeOK_of_tidyOK h hp
  simp only [SourceUnit.placeOK, Bool.and_eq_true] at this
  exact this.1.2

theorem inParameterList_of_mem (hq : q ∈ p.children)
    (hp : p.role = some "parameters" ∨ p.kind = "formal_parameters") :
    SourceUnit.inParameterList q = true := by
  obtain ⟨n, _, rfl⟩ := List.mem_map.mp hq
  rcases hp with h | h
  · have : p.node.role = some "parameters" := h
    simp [SourceUnit.inParameterList, this]
  · have : p.node.kind = "formal_parameters" := h
    simp [SourceUnit.inParameterList, this]

theorem mem_places_of_mem_bodyMembers {body : Place} (hbody : body ∈ u.root.places)
    (hp : p ∈ body.bodyMembers) : p ∈ u.root.places := by
  obtain ⟨child, hchild, hp⟩ := List.mem_flatMap.mp hp
  have hchild := Place.mem_places_of_mem_children hbody
    (Place.mem_children_of_mem_namedChildren hchild)
  split at hp
  · exact Place.mem_places_of_mem_children hchild (Place.mem_children_of_mem_namedChildren hp)
  · rwa [List.mem_singleton.mp hp]

/-- The name that a parameter declares stands below it. -/
theorem child?_of_declaredName? (h : p.declaredName? = some q) :
    p.child? "name" = some q
      ∨ ∃ d, p.firstNamed? "variable_declarator" = some d ∧ d.child? "name" = some q := by
  rcases Option.or_eq_some_iff.mp h with h | ⟨-, h⟩
  · exact .inl h
  · exact .inr (Option.bind_eq_some_iff.mp h)

theorem mem_places_of_declaredName? {root : Node} (hp : p ∈ root.places)
    (h : p.declaredName? = some q) : q ∈ root.places ∧ q.number ∈ p.numbers := by
  rcases child?_of_declaredName? h with h | ⟨d, hd, h⟩
  · have hmem := Place.mem_children_of_child? h
    exact ⟨Place.mem_places_of_mem_children hp hmem,
      List.mem_map_of_mem (Place.mem_below_of_mem_children hmem)⟩
  · have hd := Place.mem_children_of_mem_namedChildren (Place.mem_namedChildren_of_firstNamed? hd)
    have hmem := Place.mem_children_of_child? h
    exact ⟨Place.mem_places_of_mem_children (Place.mem_places_of_mem_children hp hd) hmem,
      List.mem_map_of_mem (Place.below_subset (Place.mem_below_of_mem_children hd)
        (Place.mem_below_of_mem_children hmem))⟩

namespace SourceUnit.Parted

variable (h : u.Parted)

include h

theorem eq_of_number_eq (hp : p ∈ u.root.places) (hq : q ∈ u.root.places)
    (hnumber : p.number = q.number) : p = q :=
  Node.eq_of_number_eq h.numbers hp hq hnumber

theorem isName_name (hp : p ∈ u.root.places) (hq : p.child? "name" = some q)
    (hkind : p.kind ∉ qualifiedNameParents) : q.node.isName = true ∨ u.text q = "_" := by
  have hmem := Place.mem_children_of_child? hq
  have hparent : q.parentKind? = some p.kind := by
    obtain ⟨n, _, rfl⟩ := List.mem_map.mp hmem
    rfl
  have hrole := h.role q (Place.mem_places_of_mem_children hp hmem)
  rw [SourceUnit.roleOK, Place.role_of_child? hq, hparent] at hrole
  simpa [hkind] using hrole

theorem isName_declaredName? (hp : p ∈ u.root.places) (hkind : p.kind ∉ qualifiedNameParents)
    (hname : p.declaredName? = some q) : q.node.isName = true ∨ u.text q = "_" := by
  rcases child?_of_declaredName? hname with hname | ⟨d, hd, hname⟩
  · exact h.isName_name hp hname hkind
  · have hdKind := Place.kind_of_firstNamed? hd
    have hd := Place.mem_children_of_mem_namedChildren (Place.mem_namedChildren_of_firstNamed? hd)
    exact h.isName_name (Place.mem_places_of_mem_children hp hd) hname (by rw [hdKind]; decide)

theorem isPlainName_of_isName (hq : q ∈ u.root.places)
    (hname : q.node.isName = true ∨ u.text q = "_") : isPlainName (u.text q) = true := by
  rcases hname with hname | hname
  · exact (h.name q hq hname).2
  · rw [hname]
    exact isPlainName_underscore

variable (hp : p ∈ u.root.places)

include hp

theorem isPlainName_name (hq : p.child? "name" = some q) (hkind : p.kind ∉ qualifiedNameParents) :
    isPlainName (u.text q) = true :=
  h.isPlainName_of_isName
    (Place.mem_places_of_mem_children hp (Place.mem_children_of_child? hq))
    (h.isName_name hp hq hkind)

section

variable (hin : SourceUnit.inParameterList p = true)

include hin

theorem kind_of_inParameterList :
    p.kind ∉ typeDeclarationKinds ∧ p.kind ∉ qualifiedNameParents := by
  have hparts := h.parts p hp
  refine ⟨kind_notMem_of_partsOK hparts (.inr (.inr (.inr hin))), ?_⟩
  simp only [SourceUnit.partsOK, Bool.and_eq_true] at hparts
  simpa [hin] using hparts.2

theorem isName_parameter (hname : p.declaredName? = some q) :
    q.node.isName = true ∨ u.text q = "_" :=
  h.isName_declaredName? hp (h.kind_of_inParameterList hp hin).2 hname

theorem isPlainName_parameter (hname : p.declaredName? = some q) : isPlainName (u.text q) = true :=
  h.isPlainName_of_isName (mem_places_of_declaredName? hp hname).1 (h.isName_parameter hp hin hname)

end

theorem kind_of_child? {role : String} (hq : p.child? role = some q)
    (hrole : role = "body" ∨ role = "parameters") : q.kind ∉ typeDeclarationKinds := by
  refine kind_notMem_of_partsOK (h.parts q (Place.mem_places_of_mem_children hp
    (Place.mem_children_of_child? hq))) ?_
  rcases hrole with rfl | rfl
  · exact .inr (.inl (Place.role_of_child? hq))
  · exact .inr (.inr (.inl (Place.role_of_child? hq)))

end SourceUnit.Parted

section

variable (h : u.tidyOK = true) (hp : p ∈ u.root.places)

include h hp

/-- A qualified type ends in its last name. -/
theorem typeText_scopedType (hkind : p.kind = "scoped_type_identifier")
    (hq : p.namedChildren.reverse.find? (·.kind == "type_identifier") = some q) :
    ∃ pre, (u.typeText p).toList = pre ++ '.' :: (u.text q).toList := by
  have := placeOK_of_tidyOK h hp
  simp only [SourceUnit.placeOK, SourceUnit.scopedTypeOK, hkind, hq, bne_self_eq_false,
    Bool.false_or, Bool.and_eq_true] at this
  have hends : endsAfter (· == '.') (u.text q).toList (u.typeText p).toList = true := by
    simpa using this.1.1.1.1.2.2
  obtain ⟨pre, c, hc, htext⟩ := endsAfter_eq_true_iff.mp hends
  exact ⟨pre, by rw [htext, beq_iff_eq.mp hc]⟩

/-- A qualified name ends in its last name, as a type and as written. -/
theorem text_scopedName (hkind : p.kind = "scoped_identifier") (hq : p.child? "name" = some q) :
    (∃ pre, (u.typeText p).toList = pre ++ '.' :: (u.text q).toList)
      ∧ ∃ pre sep, (sep = '.' ∨ Text.isBlank sep = true)
        ∧ (u.text p).toList = pre ++ sep :: (u.text q).toList := by
  have := placeOK_of_tidyOK h hp
  simp only [SourceUnit.placeOK, SourceUnit.scopedNameOK, hkind, hq, bne_self_eq_false,
    Bool.false_or, Bool.and_eq_true, Option.all_some] at this
  obtain ⟨htype, htext⟩ := this.1.1.1.2.2
  obtain ⟨pre, c, hc, htype⟩ := endsAfter_eq_true_iff.mp htype
  obtain ⟨pre', c', hc', htext⟩ := endsAfter_eq_true_iff.mp htext
  exact ⟨⟨pre, by rw [htype, beq_iff_eq.mp hc]⟩, pre', c', by simpa using hc', htext⟩

/-- A field access ends in the name of its field, unless there is a comment in it. -/
theorem typeText_fieldAccess (hkind : p.kind = "field_access") (hq : p.child? "field" = some q)
    (hname : q.kind = "identifier") :
    (∃ pre, (u.typeText p).toList = pre ++ '.' :: (u.text q).toList)
      ∨ '/' ∈ (u.typeText p).toList := by
  have := placeOK_of_tidyOK h hp
  simp only [SourceUnit.placeOK, SourceUnit.fieldAccessOK, hkind, hq, hname, bne_self_eq_false,
    Bool.false_or, Bool.and_eq_true, Option.all_some, Bool.or_eq_true] at this
  rcases this.1.1.2 with hends | hcomment
  · obtain ⟨pre, c, hc, htype⟩ := endsAfter_eq_true_iff.mp hends
    exact .inl ⟨pre, by rw [htype, beq_iff_eq.mp hc]⟩
  · exact .inr (by simpa using hcomment)

end

theorem typeText_of_isLeaf (u : SourceUnit) (hname : p.node.isName = true)
    (hleaf : p.node.isLeaf = true) : u.typeText p = u.text p := by
  obtain ⟨⟨label, children⟩, above⟩ := p
  have hempty : children.isEmpty = true := hleaf
  have hkind : (label.kind == "identifier" || label.kind == "type_identifier") = true := hname
  have htype : outsideTypeText label.kind = false ∧ (label.kind == "catch_type") = false := by
    rcases Bool.or_eq_true_iff.mp hkind with hkind | hkind <;> rw [beq_iff_eq.mp hkind] <;> decide
  rw [SourceUnit.typeText, Node.typeText, htype.2, Node.typeTokens, htype.1, hempty]
  rfl

theorem typeText_of_isName (h : u.tidyOK = true) (hp : p ∈ u.root.places)
    (hname : p.node.isName = true) : u.typeText p = u.text p :=
  typeText_of_isLeaf u hname ((parted_of_tidyOK h).name _ hp hname).1

/-- A name, qualified or not, has no comment in it. -/
theorem notMem_text_qualifiedName (h : u.tidyOK = true) (hp : p ∈ u.root.places)
    (hkind : p.kind = "scoped_identifier" ∨ p.kind = "identifier") :
    '/' ∉ (u.text p).toList := by
  rcases hkind with hkind | hkind
  · have := placeOK_of_tidyOK h hp
    simp only [SourceUnit.placeOK, SourceUnit.scopedNameOK, hkind, bne_self_eq_false,
      Bool.false_or, Bool.and_eq_true] at this
    simpa using this.1.1.1.2.1
  · have hname : p.node.isName = true := by simpa [Node.isName] using .inl hkind
    have hplain := ((parted_of_tidyOK h).name _ hp hname).2
    simp only [isPlainName, Bool.and_eq_true, List.all_eq_true] at hplain
    intro hmem
    cases hplain.2 _ hmem

end Tidy

/-! ## A tidy unit -/

namespace Sample

def node (number : Nat) (kind : String) (start stop : Nat) (role : Option String)
    (children : List Node) : Node :=
  .mk { number, kind, named := true, missing := false, faulty := false, span := ⟨start, stop⟩,
        role } children

def name (number : Nat) (start stop : Nat) (role : String) : Node :=
  node number "identifier" start stop (some role) []

/-- A keyword or a mark of punctuation. -/
def mark (number : Nat) (kind : String) (start stop : Nat) : Node :=
  .mk { number, kind, named := false, missing := false, faulty := false, span := ⟨start, stop⟩,
        role := none } []

/-- A class with a field, and a constructor that sets it. -/
def box : SourceUnit where
  path := "Box.java"
  source := "class Box\x7bint v;Box(int p)\x7bv=p;\x7d\x7d"
  root :=
    node 0 "program" 0 33 none [
     node 1 "class_declaration" 0 33 none [mark 2 "class" 0 5, name 3 6 9 "name",
      node 4 "class_body" 9 33 (some "body") [mark 5 "\x7b" 9 10,
       node 6 "field_declaration" 10 16 none [
        node 7 "integral_type" 10 13 (some "type") [mark 8 "int" 10 13],
        node 9 "variable_declarator" 14 15 (some "declarator") [name 10 14 15 "name"],
        mark 11 ";" 15 16],
       node 12 "constructor_declaration" 16 32 none [name 13 16 19 "name",
        node 14 "formal_parameters" 19 26 (some "parameters") [mark 15 "(" 19 20,
         node 16 "formal_parameter" 20 25 none [
          node 17 "integral_type" 20 23 (some "type") [mark 18 "int" 20 23], name 19 24 25 "name"],
         mark 20 ")" 25 26],
        node 21 "constructor_body" 26 32 (some "body") [mark 22 "\x7b" 26 27,
         node 23 "expression_statement" 27 31 none [
          node 24 "assignment_expression" 27 30 none [name 25 27 28 "left", mark 26 "=" 28 29,
           name 27 29 30 "right"], mark 28 ";" 30 31], mark 29 "\x7d" 31 32]],
       mark 30 "\x7d" 32 33]]]

example : box.tidyOK = true := by decide +kernel

end Sample

end Legible
