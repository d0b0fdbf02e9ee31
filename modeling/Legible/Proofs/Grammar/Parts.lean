import Legible.Proofs.Grammar.Tidy

/-!
# The parts of a construct

`Construct.of` reads a construct off a place. `Construct.PartsOf` goes back: what is known of a
place that is the given construct, above all that every part is a child of it in its role.
-/

namespace Legible.Construct

variable {p : Place} {k : Construct} {kind : TypeKind} {isConstructor : Bool}

def PartsOf (p : Place) : Construct → Prop
  | .typeDecl _ name body =>
    p.kind ∈ typeDeclarationKinds ∧ p.child? "name" = some name ∧ p.child? "body" = some body
  | .enumConstant name body =>
    p.kind = "enum_constant" ∧ p.child? "name" = some name ∧ body = p.child? "body"
  | .method name params _ isConstructor =>
    p.kind ∈ ["method_declaration", "constructor_declaration",
        "compact_constructor_declaration"]
      ∧ (isConstructor = false → p.kind = "method_declaration")
      ∧ p.child? "name" = some name ∧ params = p.child? "parameters"
  | .elementDecl name =>
    p.kind = "annotation_type_element_declaration" ∧ p.child? "name" = some name
  | .initializer body _ =>
    body = p ∨ (p.kind = "static_initializer" ∧ p.firstNamed? "block" = some body)
  | .localVariables type => p.child? "type" = some type
  | .enhancedFor type name value body =>
    p.kind = "enhanced_for_statement" ∧ p.child? "type" = some type
      ∧ p.child? "name" = some name ∧ p.child? "value" = some value
      ∧ p.child? "body" = some body
  | .catchClause param body =>
    p.firstNamed? "catch_formal_parameter" = some param ∧ p.child? "body" = some body
  | .tryWithResources resources body =>
    p.child? "resources" = some resources ∧ p.child? "body" = some body
  | .resource => p.kind = "resource"
  | .lambda params body => p.child? "parameters" = some params ∧ p.child? "body" = some body
  | .instanceOf left type name =>
    p.kind = "instanceof_expression" ∧ p.child? "left" = some left
      ∧ p.child? "right" = some type ∧ p.child? "name" = some name
  | .typePattern type name =>
    ∃ rest, p.namedChildren = type :: rest ∧ rest.getLast? = some name ∧ name.kind = "identifier"
  | .switch subject body => subject = p.child? "condition" ∧ p.child? "body" = some body
  | .methodCall object name arguments =>
    object = p.child? "object" ∧ p.child? "name" = some name ∧ p.child? "arguments" = some arguments
  | .fieldAccess object member =>
    p.kind = "field_access" ∧ p.child? "object" = some object ∧ p.child? "field" = some member
  | .objectCreation _ body => body = p.firstNamed? "class_body"
  | .annotationUse name => p.child? "name" = some name
  | .elementValuePair value => value = p.child? "value"
  | _ => True

theorem partsOf_typeDecl? (hkind : p.kind ∈ typeDeclarationKinds) (h : typeDecl? p kind = some k) :
    PartsOf p k := by
  simp only [typeDecl?, Option.bind_eq_bind, Option.bind_eq_some_iff, Option.some.injEq] at h
  obtain ⟨name, hname, body, hbody, rfl⟩ := h
  exact ⟨hkind, hname, hbody⟩

theorem partsOf_method? (hkind : p.kind ∈ ["method_declaration", "constructor_declaration",
      "compact_constructor_declaration"])
    (hmethod : isConstructor = false → p.kind = "method_declaration")
    (h : method? p isConstructor = some k) : PartsOf p k := by
  simp only [method?, Option.bind_eq_bind, Option.bind_eq_some_iff, Option.some.injEq] at h
  obtain ⟨name, hname, rfl⟩ := h
  exact ⟨hkind, hmethod, hname, rfl⟩

theorem partsOf_typePattern? (h : typePattern? p = some k) : PartsOf p k := by
  unfold typePattern? at h
  split at h
  · cases h
  · cases h
  · next type rest _ hchildren =>
      split at h
      · next name hlast =>
          split at h
          · next hkind =>
              cases h
              exact ⟨rest, hchildren, hlast, by simpa using hkind⟩
          · cases h
      · cases h

theorem partsOf_ofBlock (p : Place) : PartsOf p (ofBlock p) := by
  unfold ofBlock
  split
  · exact .inl rfl
  · exact .inl rfl
  · trivial

theorem partsOf_of? (h : of? p = some k) : PartsOf p k := by
  unfold of? at h
  split at h
  case h_3 hkind | h_4 hkind | h_5 hkind | h_6 hkind | h_7 hkind =>
    exact partsOf_typeDecl? (by simp [hkind, typeDeclarationKinds]) h
  case h_11 hkind => exact partsOf_method? (by simp [hkind]) (fun _ => hkind) h
  case h_12 hkind => exact partsOf_method? (by simp [hkind]) (by simp) h
  case h_13 hkind => exact partsOf_method? (by simp [hkind]) (by simp) h
  case h_16 => cases h; exact partsOf_ofBlock p
  case h_26 => exact partsOf_typePattern? h
  case h_43 => cases h
  -- what is left names its parts in the arm itself
  all_goals
    simp only [Option.bind_eq_bind, Option.bind_eq_some_iff, Option.some.injEq] at h
    grind [PartsOf]

theorem partsOf_of (p : Place) : PartsOf p (of p) := by
  unfold of
  cases hof : of? p with
  | none => trivial
  | some k => exact partsOf_of? hof

theorem partsOf (hof : of p = k) : PartsOf p k := hof ▸ partsOf_of p

/-- What else is known of a place that is the given construct: of which kind it is, or which type is
written in it. -/
def FormOf (p : Place) : Construct → Prop
  | .package => p.kind = "package_declaration"
  | .importName => p.kind = "import_declaration"
  | .field type => p.child? "type" = some type
  | .typePattern .. => p.kind = "type_pattern"
  | .methodCall .. => p.kind = "method_invocation"
  | .methodReference => p.kind = "method_reference"
  | .objectCreation type _ => p.child? "type" = some type
  | .annotationUse _ => p.kind = "annotation" ∨ p.kind = "marker_annotation"
  | .typeParameter => p.kind = "type_parameter"
  | .scopedType => p.kind = "scoped_type_identifier"
  | .identifier => p.kind = "identifier"
  | .typeIdentifier => p.kind = "type_identifier"
  | _ => True

theorem formOf_of? (h : of? p = some k) : FormOf p k := by
  unfold of? at h
  split at h
  case h_16 =>
    cases h
    unfold ofBlock
    split <;> trivial
  case h_26 hkind =>
    simp only [typePattern?] at h
    grind [FormOf]
  case h_43 => cases h
  all_goals
    simp only [typeDecl?, method?, Option.bind_eq_bind, Option.bind_eq_some_iff,
      Option.some.injEq] at h
    grind [FormOf]

theorem formOf_of (p : Place) : FormOf p (of p) := by
  unfold of
  cases hof : of? p with
  | none => trivial
  | some k => exact formOf_of? hof

theorem formOf (hof : of p = k) : FormOf p k := hof ▸ formOf_of p

end Legible.Construct

namespace Legible

variable {p body name d : Place} {u : SourceUnit} {kind : TypeKind} {root : Node}

theorem declarators_mem (h : (d, name) ∈ p.declarators) :
    d ∈ p.children ∧ d.kind = "variable_declarator" ∧ d.child? "name" = some name := by
  obtain ⟨d', hd, heq⟩ := List.mem_filterMap.mp h
  obtain ⟨name', hname, heq⟩ := Option.map_eq_some_iff.mp heq
  cases heq
  obtain ⟨hd, hkind⟩ := List.mem_filter.mp hd
  exact ⟨Place.mem_children_of_mem_namedChildren hd, by simpa using hkind, hname⟩

theorem kind_of_recordType (hof : Construct.of p = .typeDecl .recordType name body) :
    p.kind = "record_declaration" := by
  have hparts := Construct.partsOf hof
  have hkind := hparts.1
  simp only [typeDeclarationKinds, List.mem_cons, List.not_mem_nil, or_false] at hkind
  rcases hkind with h | h | h | h | h
  case inr.inr.inr.inl => exact h
  all_goals simp [Construct.of, Construct.of?, h, Construct.typeDecl?, hparts.2] at hof

theorem notMem_of_typeDecl (hof : Construct.of p = .typeDecl kind name body) :
    p.kind ∉ qualifiedNameParents := by
  have hnot : ∀ k ∈ typeDeclarationKinds, k ∉ qualifiedNameParents := by decide
  exact hnot _ (Construct.partsOf hof).1

/-- A type declaration has a plain name. -/
theorem SourceUnit.Parted.isPlainName_typeDecl (h : u.Parted) (hp : p ∈ u.root.places)
    (hof : Construct.of p = .typeDecl kind name body) : isPlainName (u.text name) = true := by
  have hparts := Construct.partsOf hof
  exact h.isPlainName_name hp hparts.2.1 (notMem_of_typeDecl hof)

theorem mem_places_of_typeDecl (hp : p ∈ root.places)
    (hof : Construct.of p = .typeDecl kind name body) : body ∈ root.places := by
  have hparts := Construct.partsOf hof
  exact Place.mem_places_of_mem_children hp (Place.mem_children_of_child? hparts.2.2)

/-! ## Bodies of types -/

/-- The body of the type that is declared at `p`, by name or without. -/
def Place.typeBody? (p : Place) : Option Place :=
  match Construct.of p with
  | .typeDecl _ _ body => some body
  | .enumConstant _ body => body
  | .objectCreation _ body => body
  | _ => none

theorem Place.mem_children_of_typeBody? (h : p.typeBody? = some body) : body ∈ p.children := by
  have hparts := Construct.partsOf_of p
  unfold typeBody? at h
  split at h
  · next hof =>
      rw [hof] at hparts
      cases h
      exact mem_children_of_child? hparts.2.2
  · next hof =>
      rw [hof] at hparts
      exact mem_children_of_child? (hparts.2.2.symm.trans h)
  · next hof =>
      rw [hof] at hparts
      exact mem_children_of_mem_namedChildren
        (mem_namedChildren_of_firstNamed? (hparts.symm.trans h))
  · cases h

end Legible
