import Legible.Binding.Visit
import Legible.Proofs.Grammar.Parts

/-!
# Trees that are drawn anew

A tree may be drawn anew with other spans, or without some of its comments. A redrawing says where
each place of the first tree is found in the second: numbers, kinds and roles stay, and a node loses
no children but comments. Where a part of a construct is found by its position among the named
children, comments count as well, and none that stands in the way may be lost.

The lemmas say that what the rules ask of a tree is answered alike before and after: the parts of a
construct are the same places drawn anew (`construct`).
-/

namespace Legible

variable {kind : String}

def isCommentKind (kind : String) : Bool := kind == "line_comment" || kind == "block_comment"

/-- A comment as the grammar makes it: a leaf that plays no part in its parent. -/
def Node.isRemark (n : Node) : Bool := isCommentKind n.kind && n.role.isNone && n.isLeaf

theorem Node.isLeaf_eq_height (n : Node) : n.isLeaf = (n.height == 1) := by
  obtain ⟨label, children⟩ := n
  cases children with
  | nil => rfl
  | cons m ms =>
    have hpos := m.height_pos
    rw [Node.height, Node.heights]
    simp only [Node.isLeaf, Node.children, List.isEmpty_cons, Bool.false_eq, beq_eq_false_iff_ne]
    omega

section TypeTexts

variable {s s' : String} {f : Node → Node} {ns : List Node}

theorem Node.typeTokensIn_map (h : ∀ n ∈ ns, (f n).typeTokens s' = n.typeTokens s) :
    typeTokensIn s' (ns.map f) = typeTokensIn s ns := by
  induction ns with
  | nil => rfl
  | cons n ns ih =>
    obtain ⟨hn, hns⟩ := List.forall_mem_cons.mp h
    rw [List.map_cons, typeTokensIn, typeTokensIn, hn, ih hns]

theorem Node.firstTypeText_map (hnamed : ∀ n, (f n).named = n.named)
    (h : ∀ n ∈ ns, (f n).typeText s' = n.typeText s) :
    firstTypeText s' (ns.map f) = firstTypeText s ns := by
  induction ns with
  | nil => rfl
  | cons n ns ih =>
    obtain ⟨hn, hns⟩ := List.forall_mem_cons.mp h
    rw [List.map_cons, firstTypeText, firstTypeText, hnamed, hn, ih hns]

end TypeTexts

namespace Place

variable {p : Place}

/-- Whether a comment stands at the place, as the grammar makes it. -/
def isRemark (p : Place) : Bool := p.node.isRemark

section

variable (h : p.isRemark = true)

include h

theorem kind_of_isRemark : p.kind = "line_comment" ∨ p.kind = "block_comment" := by
  simp only [isRemark, Node.isRemark, isCommentKind, Bool.and_eq_true, Bool.or_eq_true,
    beq_iff_eq] at h
  exact h.1.1

theorem kind_ne_of_isRemark (hkind : isCommentKind kind = false) : (p.kind == kind) = false := by
  rw [beq_eq_false_iff_ne]
  rintro rfl
  rcases kind_of_isRemark h with h | h <;> rw [h] at hkind <;> cases hkind

theorem role_of_isRemark : p.role = none := by
  simp only [isRemark, Node.isRemark, Bool.and_eq_true, Option.isNone_iff_eq_none] at h
  exact h.1.2

theorem children_of_isRemark : p.children = [] := by
  simp only [isRemark, Node.isRemark, Bool.and_eq_true] at h
  have hleaf : p.node.children = [] := by simpa [Node.isLeaf] using h.2
  rw [children, hleaf, List.map_nil]

theorem namedChildren_of_isRemark : p.namedChildren = [] := by
  rw [namedChildren, children_of_isRemark h, List.filter_nil]

theorem child?_of_isRemark (role : String) : p.child? role = none := by
  rw [child?, children_of_isRemark h, List.find?_nil]

theorem declaredName?_of_isRemark : p.declaredName? = none := by
  rw [declaredName?, child?_of_isRemark h, firstNamed?, namedChildren_of_isRemark h]
  rfl

theorem construct_of_isRemark : Construct.of p = .other := by
  rcases kind_of_isRemark h with hkind | hkind <;> simp [Construct.of, Construct.of?, hkind]

end

/-- Whether the named children of the place are counted, or found by their position from either
end. -/
def countsComments (p : Place) : Bool :=
  p.kind == "type_pattern" || p.kind == "method_reference" || p.kind == "scoped_type_identifier"
    || (p.role == some "arguments" && p.parentKind? == some "method_invocation")
    || (p.kind == "type_list"
      && (p.parentKind? == some "super_interfaces" || p.parentKind? == some "extends_interfaces"))

/-- Whether the first named child of the place is its only part. -/
def findsFirst (p : Place) : Bool :=
  p.kind == "parenthesized_expression" || p.kind == "superclass"

def isParameter (p : Place) : Bool :=
  p.kind == "formal_parameter" || p.kind == "spread_parameter"
    || p.kind == "catch_formal_parameter" || SourceUnit.inParameterList p

/-- Whether a part of a parameter can be its type, if none plays that role. -/
def isTypePart (p : Place) : Bool :=
  !(p.kind == "modifiers" || p.kind == "variable_declarator" || p.kind == "identifier"
    || p.kind == "dimensions")

theorem declaredType?_eq (p : Place) :
    p.declaredType? = (p.child? "type").or (p.namedChildren.find? isTypePart) := rfl

end Place

/-! ## Where types are written -/

namespace Place

variable {p q : Place}

/-- Whether the child `n` of the place is read as a type. -/
def spellsPart (p : Place) (n : Node) : Bool :=
  n.role == some "type"
    || (p.kind == "instanceof_expression" && n.role == some "right")
    || ((p.kind == "annotation" || p.kind == "marker_annotation") && n.role == some "name")
    || p.kind == "superclass"
    || (p.kind == "type_list"
      && (p.parentKind? == some "super_interfaces" || p.parentKind? == some "extends_interfaces"))
    || (p.kind == "type_pattern" && p.namedChildren.head?.any (·.number == n.number))
    || (p.isParameter && (p.child? "type").isNone && isTypePart ⟨n, p.node :: p.above⟩)

/-- Whether the node `n` below the nodes `above` is read as a type or as a part of one. -/
def spelledBelow : (above : List Node) → (n : Node) → Bool
  | [], n => n.kind == "scoped_type_identifier" || n.kind == "type_identifier"
  | m :: above, n =>
    (n.kind == "scoped_type_identifier" || n.kind == "type_identifier")
      || spellsPart ⟨m, above⟩ n || (spelledBelow above m && !outsideTypeText m.kind)

/-- Whether the text of the place as a type may be asked for. -/
def isSpelled (p : Place) : Bool := spelledBelow p.above p.node

theorem isSpelled_of_spellsPart (hq : q ∈ p.children) (h : p.spellsPart q.node = true) :
    q.isSpelled = true := by
  obtain ⟨n, hn, rfl⟩ := List.mem_map.mp hq
  have hp : (⟨p.node, p.above⟩ : Place) = p := rfl
  simp only [isSpelled, spelledBelow, hp, h, Bool.or_true, Bool.true_or]

theorem isSpelled_of_kind (h : p.kind = "scoped_type_identifier" ∨ p.kind = "type_identifier") :
    p.isSpelled = true := by
  obtain ⟨n, _ | ⟨m, above⟩⟩ := p <;> rcases h with h | h <;>
    simp [isSpelled, spelledBelow, show n.kind = _ from h]

theorem isSpelled_inner (h : p.isSpelled = true) (hkind : outsideTypeText p.kind = false)
    (hq : q ∈ p.children) : q.isSpelled = true := by
  obtain ⟨n, hn, rfl⟩ := List.mem_map.mp hq
  have hp : spelledBelow p.above p.node = true := h
  have hk : outsideTypeText p.node.kind = false := hkind
  simp [isSpelled, spelledBelow, hp, hk]

theorem isSpelled_of_child? (h : p.child? "type" = some q) : q.isSpelled = true := by
  refine isSpelled_of_spellsPart (mem_children_of_child? h) ?_
  have hrole : q.node.role = some "type" := role_of_child? h
  simp [spellsPart, hrole]

theorem isSpelled_of_declaredType? (hp : p.isParameter = true) (h : p.declaredType? = some q) :
    q.isSpelled = true ∧ q ∈ p.children := by
  rw [declaredType?_eq] at h
  cases htype : p.child? "type" with
  | some type =>
    rw [htype, Option.some_or] at h
    cases h
    exact ⟨isSpelled_of_child? htype, mem_children_of_child? htype⟩
  | none =>
    rw [htype, Option.none_or] at h
    have hq := mem_children_of_mem_namedChildren (List.mem_of_find?_eq_some h)
    refine ⟨isSpelled_of_spellsPart hq ?_, hq⟩
    have hpart : isTypePart ⟨q.node, p.node :: p.above⟩ = isTypePart q := rfl
    simp [spellsPart, hp, htype, hpart, List.find?_some h]

/-- Whether the text at the place may be asked for, token by token: as that of a type, of a chain of
names that may name a type, or of what a method is referred by. -/
def startsQuote (p : Place) : Bool :=
  p.isSpelled || (p.kind == "field_access" && p.node.isNameChain p.node.height)
    || p.parent?.any fun parent =>
      parent.kind == "method_reference" && parent.namedChildren.head?.any p.same

end Place

open Place

/-- A tree is drawn anew: the place `p` is found at `σ p`, with the children `kept p`. -/
structure Redrawing (σ : Place → Place) (kept : Place → List Place) : Prop where
  number : ∀ p, (σ p).number = p.number
  kind : ∀ p, (σ p).kind = p.kind
  role : ∀ p, (σ p).role = p.role
  named : ∀ p, (σ p).node.named = p.node.named
  height : ∀ p, (σ p).node.height = p.node.height
  parent? : ∀ p, (σ p).parent? = p.parent?.map σ
  children : ∀ p, (σ p).children = (kept p).map σ
  kept_subset : ∀ p, kept p ⊆ p.children
  /-- Nothing but comments is lost. -/
  remarks : ∀ p, (kept p).filter (!·.isRemark) = p.children.filter (!·.isRemark)
  counted : ∀ p, p.countsComments = true → kept p = p.children
  first : ∀ p, p.findsFirst = true → ((kept p).filter (·.node.named)).head? = p.namedChildren.head?
  typePart : ∀ p, p.isParameter = true → p.child? "type" = none →
    ((kept p).filter (·.node.named)).find? isTypePart = p.namedChildren.find? isTypePart

namespace Redrawing

variable {σ : Place → Place} {kept : Place → List Place} {ps qs : List Place} (h : Redrawing σ kept)
  {p q : Place}

include h

/-! ## Children -/

theorem isRemark (p : Place) : (σ p).isRemark = p.isRemark := by
  have hkind : (σ p).node.kind = p.node.kind := h.kind p
  have hrole : (σ p).node.role = p.node.role := h.role p
  rw [Place.isRemark, Place.isRemark, Node.isRemark, Node.isRemark, hkind, hrole,
    Node.isLeaf_eq_height, Node.isLeaf_eq_height, h.height]

theorem parentKind? (p : Place) : (σ p).parentKind? = p.parentKind? := by
  rw [parentKind?_eq, parentKind?_eq, h.parent?, Option.map_map]
  exact Option.map_congr fun q _ => h.kind q

theorem same (p q : Place) : (σ p).same (σ q) = p.same q := by
  rw [Place.same, Place.same, h.number, h.number]

theorem isIn (p : Place) (qs : List Place) : (σ p).isIn (qs.map σ) = p.isIn qs := by
  rw [Place.isIn, Place.isIn, List.any_map]
  congr 1
  funext q
  exact h.same p q

theorem namedChildren (p : Place) :
    (σ p).namedChildren = ((kept p).filter (·.node.named)).map σ := by
  rw [Place.namedChildren, h.children, List.filter_map]
  congr 2
  funext q
  exact h.named q

section Search

variable {f : Place → Bool} (hσ : ∀ q, f (σ q) = f q) (hremark : ∀ q, q.isRemark = true → f q = false)

include hremark

omit h in
theorem filter_eq_of_remarks (heq : qs.filter (!·.isRemark) = ps.filter (!·.isRemark)) :
    qs.filter f = ps.filter f := by
  have hfilter : ∀ ps : List Place, ps.filter f = (ps.filter (!·.isRemark)).filter f := by
    intro ps
    rw [List.filter_filter]
    refine List.filter_congr fun q _ => ?_
    cases hq : q.isRemark with
    | false => simp
    | true => simp [hremark q hq]
  rw [hfilter, heq, ← hfilter]

include hσ

theorem filter_children (p : Place) : (σ p).children.filter f = (p.children.filter f).map σ := by
  have hcomp : f ∘ σ = f := funext hσ
  rw [h.children, List.filter_map, hcomp, filter_eq_of_remarks hremark (h.remarks p)]

theorem find?_children (p : Place) : (σ p).children.find? f = (p.children.find? f).map σ := by
  rw [← List.head?_filter, ← List.head?_filter, h.filter_children hσ hremark, List.head?_map]

theorem any_children (p : Place) : (σ p).children.any f = p.children.any f := by
  rw [← List.isSome_find?, ← List.isSome_find?, h.find?_children hσ hremark, Option.isSome_map]

theorem countP_children (p : Place) : (σ p).children.countP f = p.children.countP f := by
  rw [List.countP_eq_length_filter, List.countP_eq_length_filter, h.filter_children hσ hremark,
    List.length_map]

theorem filter_namedChildren (p : Place) :
    (σ p).namedChildren.filter f = (p.namedChildren.filter f).map σ := by
  rw [Place.namedChildren, Place.namedChildren, List.filter_filter, List.filter_filter]
  exact h.filter_children (fun q => by rw [hσ, h.named])
    (fun q hq => by rw [hremark q hq, Bool.false_and]) p

theorem find?_namedChildren (p : Place) :
    (σ p).namedChildren.find? f = (p.namedChildren.find? f).map σ := by
  rw [← List.head?_filter, ← List.head?_filter, h.filter_namedChildren hσ hremark, List.head?_map]

theorem any_namedChildren (p : Place) : (σ p).namedChildren.any f = p.namedChildren.any f := by
  rw [← List.isSome_find?, ← List.isSome_find?, h.find?_namedChildren hσ hremark,
    Option.isSome_map]

end Search

theorem filter_isRemark_namedChildren (p : Place) :
    (σ p).namedChildren.filter (!·.isRemark) = (p.namedChildren.filter (!·.isRemark)).map σ :=
  h.filter_namedChildren (fun q => by rw [h.isRemark]) (fun q hq => by rw [hq]; rfl) p

theorem namedChildren_of_counted (hp : p.countsComments = true) :
    (σ p).namedChildren = p.namedChildren.map σ := by
  rw [h.namedChildren, h.counted p hp]
  rfl

theorem head?_namedChildren (hp : p.findsFirst = true) :
    (σ p).namedChildren.head? = p.namedChildren.head?.map σ := by
  rw [h.namedChildren, List.head?_map, h.first p hp]

/-! ## Parts -/

theorem child? (p : Place) (role : String) : (σ p).child? role = (p.child? role).map σ :=
  h.find?_children (fun q => by rw [h.role]) (fun q hq => by rw [role_of_isRemark hq]; rfl) p

/-- Named children of a kind that is not that of a comment. -/
theorem filter_kind (hkind : isCommentKind kind = false) (p : Place) :
    (σ p).namedChildren.filter (·.kind == kind) = (p.namedChildren.filter (·.kind == kind)).map σ :=
  h.filter_namedChildren (fun q => by rw [h.kind]) (fun _ hq => kind_ne_of_isRemark hq hkind) p

theorem firstNamed? (hkind : isCommentKind kind = false) (p : Place) :
    (σ p).firstNamed? kind = (p.firstNamed? kind).map σ :=
  h.find?_namedChildren (fun q => by rw [h.kind]) (fun _ hq => kind_ne_of_isRemark hq hkind) p

theorem any_kind (hkind : isCommentKind kind = false) (p : Place) :
    (σ p).children.any (·.kind == kind) = p.children.any (·.kind == kind) :=
  h.any_children (fun q => by rw [h.kind]) (fun _ hq => kind_ne_of_isRemark hq hkind) p

theorem dimensionCount (p : Option Place) :
    Legible.dimensionCount (p.map σ) = Legible.dimensionCount p := by
  cases p with
  | none => rfl
  | some p =>
    exact h.countP_children (fun q => by rw [h.kind]) (fun _ hq => kind_ne_of_isRemark hq rfl) p

theorem declaredName? (p : Place) : (σ p).declaredName? = p.declaredName?.map σ := by
  rw [Place.declaredName?, Place.declaredName?, h.child?, h.firstNamed? rfl]
  cases p.child? "name" with
  | some name => rfl
  | none =>
    cases p.firstNamed? "variable_declarator" with
    | none => rfl
    | some d => exact h.child? d "name"

theorem declaredType? (hp : p.isParameter = true) :
    (σ p).declaredType? = p.declaredType?.map σ := by
  rw [declaredType?_eq, declaredType?_eq, h.child?]
  cases htype : p.child? "type" with
  | some type => rfl
  | none =>
    have hcomp : isTypePart ∘ σ = isTypePart := by
      funext q
      rw [Function.comp_apply, isTypePart, isTypePart, h.kind]
    rw [Option.map_none, Option.none_or, Option.none_or, h.namedChildren, List.find?_map, hcomp,
      h.typePart p hp htype]

theorem hasModifier {keyword : String} (hkind : isCommentKind keyword = false) (p : Place) :
    (σ p).hasModifier keyword = p.hasModifier keyword := by
  rw [Place.hasModifier, Place.hasModifier, h.filter_kind rfl, List.any_map]
  congr 1
  funext m
  exact h.any_kind hkind m

theorem declarators (p : Place) :
    (σ p).declarators = p.declarators.map fun (d, name) => (σ d, σ name) := by
  rw [Place.declarators, Place.declarators, h.filter_kind rfl, List.filterMap_map,
    List.map_filterMap]
  congr 1
  funext d
  simp only [Function.comp_apply, h.child?, Option.map_map]
  rfl

theorem bodyMembers (body : Place) :
    (σ body).bodyMembers.filter (!·.isRemark) = (body.bodyMembers.filter (!·.isRemark)).map σ := by
  have hstrip : ∀ ps : List Place,
      (ps.flatMap fun child =>
          if child.kind == "enum_body_declarations" then child.namedChildren else [child]).filter
            (!·.isRemark)
        = (ps.filter (!·.isRemark)).flatMap fun child =>
          (if child.kind == "enum_body_declarations" then child.namedChildren else [child]).filter
            (!·.isRemark) := by
    intro ps
    induction ps with
    | nil => rfl
    | cons q ps ih =>
      rw [List.flatMap_cons, List.filter_append, ih, List.filter_cons]
      cases hq : q.isRemark with
      | false => rfl
      | true =>
        have hkind : (q.kind == "enum_body_declarations") = false := kind_ne_of_isRemark hq rfl
        simp [hkind, hq]
  rw [Place.bodyMembers, Place.bodyMembers, hstrip, hstrip, h.filter_isRemark_namedChildren,
    List.flatMap_map, List.map_flatMap]
  congr 1
  funext q
  rw [h.kind]
  split
  · exact h.filter_isRemark_namedChildren q
  · cases hq : q.isRemark <;> simp [h.isRemark, hq]

omit h in
theorem flatMap_eq_of_remarks {α : Type} {f : Place → List α}
    (heq : qs.filter (!·.isRemark) = ps.filter (!·.isRemark))
    (hskip : ∀ q, q.isRemark = true → f q = []) : qs.flatMap f = ps.flatMap f := by
  have hfilter : ∀ ps : List Place, ps.flatMap f = (ps.filter (!·.isRemark)).flatMap f := by
    intro ps
    induction ps with
    | nil => rfl
    | cons q ps ih =>
      rw [List.flatMap_cons, ih, List.filter_cons]
      cases hq : q.isRemark with
      | false => rfl
      | true => rw [hskip q hq]; rfl
  rw [hfilter, heq, ← hfilter]

/-- A search of a whole subtree that passes over comments. -/
theorem filter_below {f : Place → Bool} (hσ : ∀ q, f (σ q) = f q)
    (hremark : ∀ q, q.isRemark = true → f q = false) (p : Place) :
    (σ p).below.filter f = (p.below.filter f).map σ := by
  obtain ⟨n, above⟩ := p
  induction n using Node.induction generalizing above with
  | mk label children ih =>
    have hskip : ∀ q : Place, q.isRemark = true → q.below.filter f = [] := by
      intro q hq
      rw [below_eq_cons, children_of_isRemark hq, List.flatMap_nil, List.filter_cons,
        hremark q hq]
      rfl
    have hkept : ∀ q ∈ kept ⟨.mk label children, above⟩,
        (σ q).below.filter f = (q.below.filter f).map σ := by
      intro q hq
      obtain ⟨m, hm, rfl⟩ := List.mem_map.mp (h.kept_subset _ hq)
      exact ih m hm _
    rw [below_eq_cons, below_eq_cons ⟨.mk label children, above⟩, h.children, List.filter_cons,
      List.filter_cons, hσ, List.filter_flatMap, List.filter_flatMap, List.flatMap_map,
      List.flatMap_congr hkept, ← List.map_flatMap, flatMap_eq_of_remarks (h.remarks _) hskip]
    split <;> rfl

theorem outward (p : Place) : (σ p).outward = p.outward.map σ := by
  have hcons : ∀ p : Place, p.outward = p :: (p.parent?.map Place.outward).getD [] := by
    rintro ⟨n, _ | ⟨m, above⟩⟩ <;> rfl
  obtain ⟨n, above⟩ := p
  induction above generalizing n with
  | nil =>
    rw [hcons, h.parent?]
    rfl
  | cons m above ih =>
    rw [hcons, h.parent?]
    show σ ⟨n, m :: above⟩ :: (σ ⟨m, above⟩).outward = _
    rw [ih m]
    rfl

end Redrawing

/-! ## Constructs -/

/-- The construct with its parts found elsewhere. -/
def Construct.map (f : Place → Place) : Construct → Construct
  | .package => .package
  | .importName => .importName
  | .typeDecl kind name body => .typeDecl kind (f name) (f body)
  | .field type => .field (f type)
  | .enumConstant name body => .enumConstant (f name) (body.map f)
  | .method name params body isConstructor =>
    .method (f name) (params.map f) (body.map f) isConstructor
  | .elementDecl name => .elementDecl (f name)
  | .initializer body isStatic => .initializer (f body) isStatic
  | .block => .block
  | .localVariables type => .localVariables (f type)
  | .forLoop => .forLoop
  | .enhancedFor type name value body => .enhancedFor (f type) (f name) (f value) (f body)
  | .catchClause param body => .catchClause (f param) (f body)
  | .tryWithResources resources body => .tryWithResources (f resources) (f body)
  | .resource => .resource
  | .lambda params body => .lambda (f params) (f body)
  | .instanceOf left type name => .instanceOf (f left) (f type) (f name)
  | .typePattern type name => .typePattern (f type) (f name)
  | .switch subject body => .switch (subject.map f) (f body)
  | .methodCall object name arguments => .methodCall (object.map f) (f name) (f arguments)
  | .fieldAccess object member => .fieldAccess (f object) (f member)
  | .methodReference => .methodReference
  | .objectCreation type body => .objectCreation (f type) (body.map f)
  | .label => .label
  | .annotationUse name => .annotationUse (f name)
  | .elementValuePair value => .elementValuePair (value.map f)
  | .typeParameter => .typeParameter
  | .scopedType => .scopedType
  | .identifier => .identifier
  | .typeIdentifier => .typeIdentifier
  | .other => .other

namespace Redrawing

variable {σ : Place → Place} {kept : Place → List Place} (h : Redrawing σ kept) {p : Place}

include h

theorem typePattern? (hp : p.kind = "type_pattern") :
    Construct.typePattern? (σ p) = (Construct.typePattern? p).map (Construct.map σ) := by
  have hcounts : p.countsComments = true := by simp [countsComments, hp]
  rw [Construct.typePattern?, Construct.typePattern?, h.namedChildren_of_counted hcounts]
  rcases p.namedChildren with _ | ⟨type, _ | ⟨next, rest⟩⟩
  · rfl
  · rfl
  · simp only [List.map_cons]
    rw [← List.map_cons, List.getLast?_map]
    cases (next :: rest).getLast? with
    | none => rfl
    | some name =>
      simp only [Option.map_some, h.kind]
      split <;> rfl

theorem ofBlock (p : Place) : Construct.ofBlock (σ p) = (Construct.ofBlock p).map σ := by
  rw [Construct.ofBlock, Construct.ofBlock, h.parentKind?]
  split <;> rfl

theorem construct? (p : Place) : Construct.of? (σ p) = (Construct.of? p).map (Construct.map σ) := by
  unfold Construct.of?
  rw [h.kind]
  split
  case h_16 => exact congrArg some (h.ofBlock p)
  case h_26 hkind => exact h.typePattern? hkind
  case h_43 => rfl
  all_goals
    simp only [Construct.typeDecl?, Construct.method?, h.child?,
      h.firstNamed? (rfl : isCommentKind "block" = false),
      h.firstNamed? (rfl : isCommentKind "catch_formal_parameter" = false),
      h.firstNamed? (rfl : isCommentKind "class_body" = false), Option.bind_eq_bind,
      Option.map_bind, Option.bind_map, Option.map_some, Function.comp_def]
    rfl

/-- The construct at a place has the same parts, drawn anew. -/
theorem construct (p : Place) : Construct.of (σ p) = (Construct.of p).map σ := by
  rw [Construct.of, Construct.of, h.construct?]
  cases Construct.of? p <;> rfl

end Redrawing

end Legible
