import Legible.Proofs.Index.Rooted
import Legible.Proofs.Tree.Redrawing

/-!
# The index of units that are drawn anew

The walk that builds the index reads names, the types that are written, and the imports. A unit that
is drawn anew has the same entries if these texts stay (`Respelling.addUnit`).
-/

namespace Legible

open Place

variable {p q body : Place} {k : Construct}

/-! ## Texts that stay -/

/-- Whether a construct of this form is never named by a qualified name. -/
def Construct.namesPlainly : Construct → Bool
  | .annotationUse _ | .other => false
  | _ => true

namespace Place

def namesPlainly (p : Place) : Bool := !qualifiedNameParents.contains p.kind || p.isParameter

/-- Whether the node `n` below the nodes `above` is the name in the declaration of a package or an
import, or a qualifier in that name. -/
def headerNameBelow : (above : List Node) → (n : Node) → Bool
  | [], _ => false
  | m :: above, n =>
    ((m.kind == "package_declaration" || m.kind == "import_declaration")
        && (n.kind == "scoped_identifier" || n.kind == "identifier"))
      || (n.role == some "scope" && headerNameBelow above m)

def isHeaderName (p : Place) : Bool := headerNameBelow p.above p.node

def isNumber (p : Place) : Bool :=
  ["decimal_integer_literal", "hex_integer_literal", "octal_integer_literal",
    "binary_integer_literal", "decimal_floating_point_literal",
    "hex_floating_point_literal"].contains p.kind

/-- Whether the text at the place is read as it stands: that of a token, of a name that is no
qualified one, or of the name of a package or an import. -/
def isRead (p : Place) : Bool :=
  p.node.isLeaf || p.node.isName || p.isNumber || p.role == some "field" || p.isHeaderName
    || (p.role == some "name" && p.parent?.any namesPlainly)

theorem isHeaderName_of_scope (h : p.isHeaderName = true) (hq : p.child? "scope" = some q) :
    q.isHeaderName = true := by
  obtain ⟨n, hn, hplace⟩ := List.mem_map.mp (mem_children_of_child? hq)
  subst hplace
  have hrole : n.role = some "scope" := role_of_child? hq
  have habove : headerNameBelow p.above p.node = true := h
  rw [isHeaderName, headerNameBelow, habove, hrole]
  simp

theorem namesPlainly_of_kind {kind : String} (h : p.kind = kind)
    (hkind : qualifiedNameParents.contains kind = false) : p.namesPlainly = true := by
  rw [namesPlainly, h, hkind]
  rfl

theorem namesPlainly_of_construct (h : Construct.of p = k) (hk : k.namesPlainly = true) :
    p.namesPlainly = true := by
  subst h
  rw [namesPlainly, Bool.or_eq_true, Bool.not_eq_true']
  refine .inl (Bool.eq_false_iff.mpr fun hkind => ?_)
  have hform : Construct.of p = .other ∨ ∃ name, Construct.of p = .annotationUse name := by
    simp only [qualifiedNameParents, List.contains_iff_mem, List.mem_cons, List.not_mem_nil,
      or_false] at hkind
    rcases hkind with hkind | hkind | hkind <;> rw [Construct.of, Construct.of?, hkind]
    · cases p.child? "name" <;> simp
    · cases p.child? "name" <;> simp
    · simp
  rcases hform with hof | ⟨name, hof⟩ <;> rw [hof] at hk <;> cases hk

end Place

/-- The unit `u` is drawn anew as `u'`, and the texts that are read stay. -/
structure Respelling (u u' : SourceUnit) (σ : Place → Place) (kept : Place → List Place) : Prop
    extends Redrawing σ kept where
  top : u'.top = σ u.top
  quoted : ∀ p ∈ u.root.places, p.startsQuote = true → u'.typeText (σ p) = u.typeText p
  read : ∀ p ∈ u.root.places, p.isRead = true → u'.text (σ p) = u.text p

namespace Redrawing

variable {σ : Place → Place} {ps qs : List Place}
  (heq : qs.filter (!·.isRemark) = (ps.filter (!·.isRemark)).map σ)

include heq

/-- Steps that pass over comments come to the same. -/
theorem foldl {β : Type} {f f' : β → Place → β}
    (hf : ∀ b, ∀ q ∈ ps, q.isRemark = false → f' b (σ q) = f b q)
    (hskip : ∀ b, ∀ q ∈ ps, q.isRemark = true → f b q = b)
    (hskip' : ∀ b, ∀ q ∈ qs, q.isRemark = true → f' b q = b) (b : β) :
    qs.foldl f' b = ps.foldl f b := by
  have hfilter : ∀ (g : β → Place → β) (ps : List Place),
      (∀ b, ∀ q ∈ ps, q.isRemark = true → g b q = b) →
      ∀ b, ps.foldl g b = (ps.filter (!·.isRemark)).foldl g b := by
    intro g ps hg
    induction ps with
    | nil => intro b; rfl
    | cons q ps ih =>
      have ih := ih fun b r hr => hg b r (List.mem_cons_of_mem _ hr)
      intro b
      cases hq : q.isRemark with
      | true =>
        rw [List.foldl_cons, hg b q List.mem_cons_self hq,
          List.filter_cons_of_neg (by simp [hq]), ih]
      | false => rw [List.foldl_cons, List.filter_cons_of_pos (by simp [hq]), List.foldl_cons, ih]
  rw [hfilter f' qs hskip', heq, hfilter f ps hskip, List.foldl_map]
  refine List.foldl_ext _ _ _ fun b q hq => ?_
  obtain ⟨hmem, hq⟩ := List.mem_filter.mp hq
  exact hf b q hmem (by simpa using hq)

theorem filter {f f' : Place → Bool} (hf : ∀ q, f' (σ q) = f q) :
    (qs.filter f').filter (!·.isRemark) = ((ps.filter f).filter (!·.isRemark)).map σ := by
  have hcomp : f' ∘ σ = f := funext hf
  have hcomm : ∀ (g : Place → Bool) (ps : List Place),
      (ps.filter g).filter (!·.isRemark) = (ps.filter (!·.isRemark)).filter g := by
    intro g ps
    rw [List.filter_filter, List.filter_filter]
    exact List.filter_congr fun q _ => Bool.and_comm _ _
  rw [hcomm, heq, List.filter_map, hcomp, hcomm]

theorem flatMap {β : Type} {f f' : Place → List β}
    (hf : ∀ q ∈ ps, q.isRemark = false → f' (σ q) = f q)
    (hskip : ∀ q, q.isRemark = true → f q = []) (hskip' : ∀ q, q.isRemark = true → f' q = []) :
    qs.flatMap f' = ps.flatMap f := by
  rw [List.flatMap_eq_foldl, List.flatMap_eq_foldl]
  exact foldl heq (fun b q hmem hq => by rw [hf q hmem hq])
    (fun b q _ hq => by rw [hskip q hq, List.append_nil])
    (fun b q _ hq => by rw [hskip' q hq, List.append_nil]) []

theorem filterMap {β : Type} {f f' : Place → Option β}
    (hf : ∀ q ∈ ps, q.isRemark = false → f' (σ q) = f q)
    (hskip : ∀ q, q.isRemark = true → f q = none)
    (hskip' : ∀ q, q.isRemark = true → f' q = none) : qs.filterMap f' = ps.filterMap f := by
  rw [List.filterMap_eq_flatMap_toList, List.filterMap_eq_flatMap_toList]
  exact flatMap heq (fun q hmem hq => by rw [hf q hmem hq]) (fun q hq => by rw [hskip q hq]; rfl)
    (fun q hq => by rw [hskip' q hq]; rfl)

end Redrawing

namespace Respelling

variable {u u' : SourceUnit} {σ : Place → Place} {kept : Place → List Place}
  (h : Respelling u u' σ kept) {p q params param : Place}

include h

section

variable (hp : p ∈ u.root.places)

include hp

theorem spelled (hspelled : p.isSpelled = true) : u'.typeText (σ p) = u.typeText p :=
  h.quoted p hp (by simp [startsQuote, hspelled])

theorem name (hplain : p.namesPlainly = true) (hq : p.child? "name" = some q) :
    u'.text (σ q) = u.text q := by
  have hmem := mem_children_of_child? hq
  exact h.read q (mem_places_of_mem_children hp hmem)
    (by simp [isRead, role_of_child? hq, parent?_of_mem_children hmem, hplain])

theorem nameOf (hof : Construct.of p = k) (hk : k.namesPlainly = true)
    (hq : p.child? "name" = some q) : u'.text (σ q) = u.text q :=
  h.name hp (namesPlainly_of_construct hof hk) hq

theorem declaratorName (hkind : p.kind = "variable_declarator") (hq : p.child? "name" = some q) :
    u'.text (σ q) = u.text q :=
  h.name hp (namesPlainly_of_kind hkind rfl) hq

theorem declaredName (hparam : p.isParameter = true) (hq : p.declaredName? = some q) :
    u'.text (σ q) = u.text q := by
  rcases child?_of_declaredName? hq with hname | ⟨d, hd, hname⟩
  · exact h.name hp (by simp [namesPlainly, hparam]) hname
  · exact h.declaratorName
      (mem_places_of_mem_namedChildren hp d (mem_namedChildren_of_firstNamed? hd))
      (by simpa using List.find?_some hd) hname

end

/-! ## Signatures -/

theorem typeText_child? (hp : p ∈ u.root.places) :
    ((p.child? "type").map fun t => u'.typeText (σ t)) = (p.child? "type").map u.typeText := by
  refine Option.map_congr fun t ht => ?_
  exact h.spelled (mem_places_of_mem_children hp (mem_children_of_child? ht))
    (isSpelled_of_child? ht)

theorem parameterType? (hp : p ∈ u.root.places) (hparam : p.isParameter = true) :
    u'.parameterType? (σ p) = u.parameterType? p := by
  have hdims : ((σ p).firstNamed? "variable_declarator").bind (·.child? "dimensions")
      = ((p.firstNamed? "variable_declarator").bind (·.child? "dimensions")).map σ := by
    rw [h.firstNamed? rfl, Option.bind_map, Option.map_bind]
    congr 1
    funext d
    exact h.child? d "dimensions"
  rw [SourceUnit.parameterType?, SourceUnit.parameterType?, h.declaredType? hparam,
    Option.map_map, h.child?, h.dimensionCount, h.kind, hdims, h.dimensionCount]
  refine Option.map_congr fun type htype => ?_
  obtain ⟨hspelled, hmem⟩ := isSpelled_of_declaredType? hparam htype
  rw [Function.comp_apply, h.spelled (mem_places_of_mem_children hp hmem) hspelled]

omit h in
theorem isParameter_of_mem (h : param ∈ SourceUnit.parametersOf params) :
    param.isParameter = true ∧ param ∈ params.children := by
  obtain ⟨hmem, hkind⟩ := List.mem_filter.mp h
  refine ⟨?_, mem_children_of_mem_namedChildren hmem⟩
  rcases (Bool.or_eq_true _ _).mp hkind with hkind | hkind <;> simp [isParameter, hkind]

theorem parametersOf (params : Place) :
    SourceUnit.parametersOf (σ params) = (SourceUnit.parametersOf params).map σ :=
  h.filter_namedChildren (fun q => by rw [h.kind])
    (fun q hq => by rw [kind_ne_of_isRemark hq rfl, kind_ne_of_isRemark hq rfl]; rfl) params

theorem parameterTypes (hp : params ∈ u.root.places) :
    u'.parameterTypes (σ params) = u.parameterTypes params := by
  rw [SourceUnit.parameterTypes, SourceUnit.parameterTypes, h.parametersOf, List.filterMap_map]
  refine List.filterMap_congr fun param hparam => ?_
  obtain ⟨hparam, hmem⟩ := isParameter_of_mem hparam
  exact h.parameterType? (mem_places_of_mem_children hp hmem) hparam

theorem hasSpread (params : Place) :
    SourceUnit.hasSpread (σ params) = SourceUnit.hasSpread params :=
  h.any_namedChildren (fun q => by rw [h.kind]) (fun _ hq => kind_ne_of_isRemark hq rfl) params

/-- The list of components of the innermost record around a place. -/
theorem recordParameters (p : Place) :
    ((σ p).outward.find? (·.kind == "record_declaration")).bind (·.child? "parameters")
      = ((p.outward.find? (·.kind == "record_declaration")).bind (·.child? "parameters")).map σ := by
  have hcomp : ((fun q : Place => q.kind == "record_declaration") ∘ σ)
      = fun q => q.kind == "record_declaration" := by
    funext q
    rw [Function.comp_apply, h.kind]
  rw [h.outward, List.find?_map, hcomp, Option.bind_map, Option.map_bind]
  congr 1
  funext q
  exact h.child? q "parameters"

omit h in
theorem mem_places_of_recordParameters (hp : p ∈ u.root.places)
    (hparams : (p.outward.find? (·.kind == "record_declaration")).bind (·.child? "parameters")
      = some params) : params ∈ u.root.places ∧ params.role = some "parameters" := by
  obtain ⟨r, hr, hparams⟩ := Option.bind_eq_some_iff.mp hparams
  have hr := mem_places_of_mem_outward hp (List.mem_of_find?_eq_some hr)
  exact ⟨mem_places_of_mem_children hr (mem_children_of_child? hparams), role_of_child? hparams⟩

omit h in
theorem isParameter_of_role (hrole : params.role = some "parameters")
    (hmem : param ∈ params.children) : param.isParameter = true := by
  obtain ⟨n, _, rfl⟩ := List.mem_map.mp hmem
  have hrole : params.node.role = some "parameters" := hrole
  simp [isParameter, SourceUnit.inParameterList, hrole]

omit h in
theorem parameterType?_of_isRemark (hp : p.isRemark = true) : u.parameterType? p = none := by
  have htype : p.declaredType? = none := by
    rw [declaredType?_eq, child?_of_isRemark hp, namedChildren_of_isRemark hp]
    rfl
  rw [SourceUnit.parameterType?, htype, Option.map_none]

theorem recordComponents (hp : p ∈ u.root.places) :
    u'.recordComponents (σ p) = u.recordComponents p := by
  rw [SourceUnit.recordComponents, SourceUnit.recordComponents, h.recordParameters p]
  cases hfound : (p.outward.find? (·.kind == "record_declaration")).bind
    (·.child? "parameters") with
  | none => rfl
  | some params =>
    obtain ⟨hplace, hrole⟩ := mem_places_of_recordParameters hp hfound
    refine Redrawing.filterMap (h.filter_isRemark_namedChildren params) (fun param hmem hq => ?_)
      (fun q hq => ?_) (fun q hq => ?_)
    · have hchild := mem_children_of_mem_namedChildren hmem
      have hparam := mem_places_of_mem_children hplace hchild
      have hdeclares := isParameter_of_role hrole hchild
      rw [h.parameterType? hparam hdeclares, h.declaredName?]
      cases u.parameterType? param with
      | none => rfl
      | some type =>
        cases hname : param.declaredName? with
        | none => rfl
        | some name =>
          exact congrArg (fun text => some (type, text)) (h.declaredName hparam hdeclares hname)
    · rw [parameterType?_of_isRemark hq]; rfl
    · rw [parameterType?_of_isRemark hq]; rfl

theorem methodParameters (hp : p ∈ u.root.places) :
    u'.methodParameters (σ p) ((p.child? "parameters").map σ)
      = u.methodParameters p (p.child? "parameters") := by
  unfold SourceUnit.methodParameters
  rw [h.kind]
  split
  · rw [h.recordComponents hp]
  · cases hparams : p.child? "parameters" with
    | none => rfl
    | some params =>
      exact h.parameterTypes (mem_places_of_mem_children hp (mem_children_of_child? hparams))

theorem methodSpreads (p : Place) (params : Option Place) :
    SourceUnit.methodSpreads (σ p) (params.map σ) = SourceUnit.methodSpreads p params := by
  unfold SourceUnit.methodSpreads
  rw [h.kind]
  split
  · rfl
  · cases params with
    | none => rfl
    | some params => exact h.hasSpread params

theorem typeParameters (hp : p ∈ u.root.places) : u'.typeParameters (σ p) = u.typeParameters p := by
  have hparams : ((σ p).child? "type_parameters").or ((σ p).firstNamed? "type_parameters")
      = ((p.child? "type_parameters").or (p.firstNamed? "type_parameters")).map σ := by
    rw [h.child?, h.firstNamed? rfl]
    cases p.child? "type_parameters" <;> rfl
  rw [SourceUnit.typeParameters, SourceUnit.typeParameters, hparams]
  cases hfound : (p.child? "type_parameters").or (p.firstNamed? "type_parameters") with
  | none => rfl
  | some params =>
    have hplace : params ∈ u.root.places := by
      rcases Option.or_eq_some_iff.mp hfound with hfound | ⟨-, hfound⟩
      · exact mem_places_of_mem_children hp (mem_children_of_child? hfound)
      · exact mem_places_of_mem_children hp
          (mem_children_of_mem_namedChildren (mem_namedChildren_of_firstNamed? hfound))
    simp only [Option.map_some]
    rw [h.filter_kind rfl, List.filterMap_map]
    refine List.filterMap_congr fun param hparam => ?_
    have hname : (σ param).namedChildren.find? (·.node.isName)
        = (param.namedChildren.find? (·.node.isName)).map σ := by
      refine h.find?_namedChildren (fun q => ?_) (fun q hq => ?_) param
      · exact congrArg (fun kind => kind == "identifier" || kind == "type_identifier") (h.kind q)
      · have hid := kind_ne_of_isRemark hq (rfl : isCommentKind "identifier" = false)
        have htype := kind_ne_of_isRemark hq (rfl : isCommentKind "type_identifier" = false)
        exact (Bool.or_eq_false_iff).mpr ⟨hid, htype⟩
    rw [Function.comp_apply, hname, Option.map_map]
    refine Option.map_congr fun q hq => ?_
    have hparam := mem_places_of_mem_namedChildren hplace param (List.mem_of_mem_filter hparam)
    exact h.read q (mem_places_of_mem_namedChildren hparam q (List.mem_of_find?_eq_some hq))
      (by simp [isRead, List.find?_some hq])

theorem isStaticField (p : Place) : Legible.isStaticField (σ p) = Legible.isStaticField p := by
  rw [Legible.isStaticField, Legible.isStaticField, h.kind, h.hasModifier rfl]

theorem memberKey (hp : p ∈ u.root.places) (owner : String) :
    u'.memberKey owner (σ p) = u.memberKey owner p := by
  have hparts := Construct.partsOf_of p
  rw [SourceUnit.memberKey, SourceUnit.memberKey, h.construct]
  cases hof : Construct.of p <;> rw [hof] at hparts <;> simp only [Construct.map]
  case method name params body isConstructor =>
    rw [hparts.2.2.2, h.methodParameters hp, h.nameOf hp hof rfl hparts.2.2.1]
  case elementDecl name => rw [h.nameOf hp hof rfl hparts.2]
  case field type => rw [h.isStaticField]

/-! ## Imports and members -/

omit h in
theorem isHeaderName_of_mem
    (hp : p.kind = "package_declaration" ∨ p.kind = "import_declaration")
    (hq : q.kind = "scoped_identifier" ∨ q.kind = "identifier") (hmem : q ∈ p.children) :
    q.isHeaderName = true := by
  obtain ⟨n, hn, rfl⟩ := List.mem_map.mp hmem
  have hp : p.node.kind = "package_declaration" ∨ p.node.kind = "import_declaration" := hp
  have hq : n.kind = "scoped_identifier" ∨ n.kind = "identifier" := hq
  rw [isHeaderName, headerNameBelow]
  simp [hp, hq]

theorem headerName (hq : q ∈ u.root.places) (hheader : q.isHeaderName = true) :
    u'.text (σ q) = u.text q :=
  h.read q hq (by simp [isRead, hheader])

theorem find?_headerName (p : Place) :
    (σ p).children.find? (fun c => c.kind == "scoped_identifier" || c.kind == "identifier")
      = (p.children.find? fun c => c.kind == "scoped_identifier" || c.kind == "identifier").map σ :=
  h.find?_children (fun q => by rw [h.kind])
    (fun q hq => by rw [kind_ne_of_isRemark hq rfl, kind_ne_of_isRemark hq rfl]; rfl) p

theorem addImport (hp : p ∈ u.root.places) (hof : Construct.of p = .importName)
    (imports : Imports) :
    u'.addImport imports (σ p) = u.addImport imports p := by
  unfold SourceUnit.addImport
  rw [h.find?_headerName]
  cases hname : p.children.find? fun c => c.kind == "scoped_identifier" || c.kind == "identifier" with
  | none => rfl
  | some name =>
    have hform := Construct.formOf hof
    have hmem := List.mem_of_find?_eq_some hname
    have htext := h.headerName (mem_places_of_mem_children hp hmem)
      (isHeaderName_of_mem (.inr hform) (by simpa using List.find?_some hname) hmem)
    simp only [Option.map_some, htext, h.any_kind (rfl : isCommentKind "static" = false),
      h.any_kind (rfl : isCommentKind "asterisk" = false)]

theorem addHeader (hp : p ∈ u.root.places) (imports : Imports) :
    u'.addHeader imports (σ p) = u.addHeader imports p := by
  unfold SourceUnit.addHeader
  rw [h.construct]
  cases hof : Construct.of p <;> simp only [Construct.map]
  case package =>
    have hfind : (σ p).namedChildren.find?
          (fun c => c.kind == "scoped_identifier" || c.kind == "identifier")
        = (p.namedChildren.find? fun c =>
            c.kind == "scoped_identifier" || c.kind == "identifier").map σ :=
      h.find?_namedChildren (fun q => by rw [h.kind])
        (fun q hq => by rw [kind_ne_of_isRemark hq rfl, kind_ne_of_isRemark hq rfl]; rfl) p
    rw [hfind]
    cases hname : p.namedChildren.find? fun c =>
      c.kind == "scoped_identifier" || c.kind == "identifier" with
    | none => rfl
    | some name =>
      have hform := Construct.formOf hof
      have hmem := mem_children_of_mem_namedChildren (List.mem_of_find?_eq_some hname)
      have htext := h.headerName (mem_places_of_mem_children hp hmem)
        (isHeaderName_of_mem (.inl hform) (by simpa using List.find?_some hname) hmem)
      simp only [Option.map_some, htext]
  case importName => exact h.addImport hp hof imports

/-- The package and the imports stay. -/
theorem imports : u'.imports = u.imports := by
  have hskip : ∀ (u : SourceUnit) (imports : Imports) (q : Place), q.isRemark = true →
      u.addHeader imports q = imports := by
    intro u imports q hq
    rw [SourceUnit.addHeader, construct_of_isRemark hq]
  rw [SourceUnit.imports, SourceUnit.imports, h.top]
  refine Redrawing.foldl (h.filter_isRemark_namedChildren u.top) (fun imports q hq _ => ?_)
    (fun imports q _ => hskip u imports q) (fun imports q _ => hskip u' imports q) {}
  exact h.addHeader (mem_places_of_mem_namedChildren (mem_below_self u.top) q hq) imports

theorem superTexts (hp : p ∈ u.root.places) : u'.superTexts (σ p) = u.superTexts p := by
  refine Redrawing.flatMap (h.filter_isRemark_namedChildren p) (fun child hmem _ => ?_)
    (fun q hq => ?_) (fun q hq => ?_)
  · have hchild := mem_places_of_mem_namedChildren hp child hmem
    rw [h.kind]
    by_cases hsuper : (child.kind == "superclass") = true
    · rw [if_pos hsuper, if_pos hsuper, List.take_one, List.take_one,
        h.head?_namedChildren (by simp [findsFirst, hsuper])]
      cases hhead : child.namedChildren.head? with
      | none => rfl
      | some type =>
        have htype := List.mem_of_mem_head? hhead
        have hspelled : type.isSpelled = true :=
          isSpelled_of_spellsPart (mem_children_of_mem_namedChildren htype)
            (by simp [spellsPart, hsuper])
        exact congrArg (fun text => [text])
          (h.spelled (mem_places_of_mem_namedChildren hchild type htype) hspelled)
    · rw [if_neg hsuper, if_neg hsuper]
      by_cases hlist : (child.kind == "super_interfaces" || child.kind == "extends_interfaces") = true
      · rw [if_pos hlist, if_pos hlist, h.filter_kind rfl, List.flatMap_map]
        refine List.flatMap_congr fun list hlistMem => ?_
        obtain ⟨hlistMem, hkind⟩ := List.mem_filter.mp hlistMem
        have hparent : list.parentKind? = some child.kind := by
          rw [parentKind?_eq, parent?_of_mem_children (mem_children_of_mem_namedChildren hlistMem)]
          rfl
        have hwhere : (list.parentKind? == some "super_interfaces"
            || list.parentKind? == some "extends_interfaces") = true := by
          rw [hparent]
          simpa using hlist
        rw [h.namedChildren_of_counted (by simp [countsComments, hkind, hwhere]), List.map_map]
        refine List.map_congr_left fun type htype => ?_
        have hspelled : type.isSpelled = true :=
          isSpelled_of_spellsPart (mem_children_of_mem_namedChildren htype)
            (by simp only [spellsPart, hkind, hwhere, Bool.and_self, Bool.or_true, Bool.true_or])
        exact h.spelled (mem_places_of_mem_namedChildren
          (mem_places_of_mem_namedChildren hchild list hlistMem) type htype) hspelled
      · rw [if_neg hlist, if_neg hlist]
  all_goals
    rw [kind_ne_of_isRemark hq (rfl : isCommentKind "superclass" = false),
      kind_ne_of_isRemark hq (rfl : isCommentKind "super_interfaces" = false),
      kind_ne_of_isRemark hq (rfl : isCommentKind "extends_interfaces" = false)]
    rfl

theorem methodInfo (hp : p ∈ u.root.places) {name : Place} {params body : Option Place}
    {isConstructor : Bool} (hof : Construct.of p = .method name params body isConstructor)
    (owner : String) :
    u'.methodInfo owner (σ p) (σ name) (params.map σ) isConstructor
      = u.methodInfo owner p name params isConstructor := by
  obtain ⟨-, -, hname, rfl⟩ := Construct.partsOf hof
  have hreturns : ((σ p).child? "type").map (fun t =>
        u'.typeText t ++ brackets (Legible.dimensionCount ((σ p).child? "dimensions")))
      = (p.child? "type").map fun t =>
        u.typeText t ++ brackets (Legible.dimensionCount (p.child? "dimensions")) := by
    rw [h.child?, h.child?, h.dimensionCount, Option.map_map]
    have htext := congrArg (Option.map fun text =>
      text ++ brackets (Legible.dimensionCount (p.child? "dimensions"))) (h.typeText_child? hp)
    simpa only [Option.map_map, Function.comp_def] using htext
  rw [SourceUnit.methodInfo, SourceUnit.methodInfo, h.memberKey hp owner,
    h.methodParameters hp, h.methodSpreads, hreturns, h.typeParameters hp, h.nameOf hp hof rfl hname]

theorem addMember (hp : p ∈ u.root.places) (info : TypeInfo) :
    u'.addMember info (σ p) = u.addMember info p := by
  have hparts := Construct.partsOf_of p
  unfold SourceUnit.addMember
  rw [h.construct]
  cases hof : Construct.of p <;> rw [hof] at hparts <;> simp only [Construct.map]
  case typeDecl kind name body => rw [h.nameOf hp hof rfl hparts.2.1]
  case field type =>
    have hform := Construct.formOf hof
    have hspelled : u'.typeText (σ type) = u.typeText type :=
      h.spelled (mem_places_of_mem_children hp (mem_children_of_child? hform))
        (isSpelled_of_child? hform)
    rw [h.declarators, List.foldl_map]
    refine List.foldl_ext _ _ _ fun info d hd => ?_
    obtain ⟨hmem, hkind, hname⟩ := declarators_mem hd
    simp only [h.declaratorName (mem_places_of_mem_children hp hmem) hkind hname, hspelled, h.child?,
      h.dimensionCount]
  case enumConstant name body => rw [h.nameOf hp hof rfl hparts.2.1]
  case method name params body isConstructor => rw [h.methodInfo hp hof]
  case elementDecl name =>
    have htype := h.typeText_child? hp
    rw [h.nameOf hp hof rfl hparts.2, h.memberKey hp, h.child?, Option.map_map]
    simp only [Function.comp_def, htype]

theorem addMembers (hbody : body ∈ u.root.places) (info : TypeInfo) :
    u'.addMembers info (σ body) = u.addMembers info body := by
  have hskip : ∀ (u : SourceUnit) (info : TypeInfo) (q : Place), q.isRemark = true →
      u.addMember info q = info := by
    intro u info q hq
    rw [SourceUnit.addMember, construct_of_isRemark hq]
  exact Redrawing.foldl (h.bodyMembers body)
    (fun info q hq _ => h.addMember (mem_places_of_mem_bodyMembers hbody hq) info)
    (fun info q _ => hskip u info q) (fun info q _ => hskip u' info q) info

/-! ## The walk -/

theorem declaredType (hp : p ∈ u.root.places) {kind : TypeKind} {name : Place}
    (hof : Construct.of p = .typeDecl kind name body) (unit : Nat) (imports : Imports)
    (around : Around) :
    Indexing.declaredType u' unit imports around (σ p) kind (σ name) (σ body)
      = Indexing.declaredType u unit imports around p kind name body := by
  have hparts := Construct.partsOf hof
  simp only [Indexing.declaredType, h.nameOf hp hof rfl hparts.2.1, h.superTexts hp, h.typeParameters hp,
    h.addMembers (mem_places_of_mem_children hp (mem_children_of_child? hparts.2.2)),
    SourceUnit.addComponents, h.recordComponents hp]

end Respelling

namespace Indexing

variable {u : SourceUnit} {imports : Imports}

theorem walk_of_isRemark (hp : p.isRemark = true) (unit levels : Nat) (around : Around)
    (s : Indexing) : walk u unit imports levels around p s = s := by
  cases levels with
  | zero => rfl
  | succ levels =>
    rw [walk, step, construct_of_isRemark hp]
    simp only [namedChildren_of_isRemark hp]
    rfl

theorem insert_congr (h : p.number = q.number) (s : Indexing) (info : TypeInfo) :
    s.insert p info = s.insert q info := by
  rw [insert, insert, h]

end Indexing

namespace Respelling

variable {u u' : SourceUnit} {σ : Place → Place} {kept : Place → List Place}
  (h : Respelling u u' σ kept) {unit levels : Nat} {imports : Imports}

open Indexing

/-- The walk of a place is the same when it is drawn anew. -/
def WalkStays (u u' : SourceUnit) (σ : Place → Place) (unit : Nat) (imports : Imports)
    (levels : Nat) : Prop :=
  ∀ around p s, p ∈ u.root.places →
    walk u' unit imports levels around (σ p) s = walk u unit imports levels around p s

theorem WalkStays.walkAll (hwalk : WalkStays u u' σ unit imports levels) {ps qs : List Place}
    (heq : qs.filter (!·.isRemark) = (ps.filter (!·.isRemark)).map σ)
    (hps : ∀ q ∈ ps, q ∈ u.root.places) (around : Around) (s : Indexing) :
    Indexing.walkAll (walk u' unit imports levels) around qs s
      = Indexing.walkAll (walk u unit imports levels) around ps s :=
  Redrawing.foldl heq (fun s q hq _ => hwalk around q s (hps q hq))
    (fun s _ _ hq => walk_of_isRemark hq unit levels around s)
    (fun s _ _ hq => walk_of_isRemark hq unit levels around s) s

include h

theorem walkAnonymous (hwalk : WalkStays u u' σ unit imports levels) (hp : p ∈ u.root.places)
    (hbody : p.typeBody? = some body) (around : Around) (owner superText : String) (s : Indexing) :
    Indexing.walkAnonymous (walk u' unit imports levels) u' unit around (σ p) owner superText
        (σ body) s
      = Indexing.walkAnonymous (walk u unit imports levels) u unit around p owner superText body
          s := by
  have hbody := mem_places_of_mem_children hp (mem_children_of_typeBody? hbody)
  rw [Indexing.walkAnonymous, Indexing.walkAnonymous,
    hwalk.walkAll (Redrawing.filter (h.filter_isRemark_namedChildren p) fun q => by rw [h.same])
      fun q hq => mem_places_of_mem_namedChildren hp q (List.mem_of_mem_filter hq)]
  simp only [insertAnonymous, anonymousType, insert_congr (h.number p), h.addMembers hbody,
    hwalk.walkAll (h.filter_isRemark_namedChildren body) (mem_places_of_mem_namedChildren hbody)]

theorem walkStays (unit : Nat) (imports : Imports) (levels : Nat) :
    WalkStays u u' σ unit imports levels := by
  induction levels with
  | zero => exact fun around p s hp => rfl
  | succ levels ih =>
    intro around p s hp
    have hchildren := ih.walkAll (h.filter_isRemark_namedChildren p)
      (mem_places_of_mem_namedChildren hp)
    have hmember : step.walkMember (walk u' unit imports levels) u' around (σ p) s
        = step.walkMember (walk u unit imports levels) u around p s := by
      simp only [step.walkMember, h.memberKey hp, hchildren]
    have hparts := Construct.partsOf_of p
    rw [walk, walk, step, step, h.construct]
    cases hof : Construct.of p <;> rw [hof] at hparts <;> simp only [Construct.map]
    case typeDecl kind name body =>
      have hbody := mem_places_of_mem_children hp (mem_children_of_child? hparts.2.2)
      simp only [h.declaredType hp hof, insert_congr (h.number p),
        ih.walkAll (h.filter_isRemark_namedChildren body) (mem_places_of_mem_namedChildren hbody)]
    case method | initializer | field | elementDecl => exact hmember
    case objectCreation type body =>
      have hform := Construct.formOf hof
      have htext := h.spelled (mem_places_of_mem_children hp (mem_children_of_child? hform))
        (isSpelled_of_child? hform)
      cases body with
      | none => exact hchildren around s
      | some body =>
        simp only [Option.map_some, htext, h.walkAnonymous ih hp
          (show p.typeBody? = some body by simp [typeBody?, hof])]
    case enumConstant name body =>
      cases body with
      | none => exact hchildren around s
      | some body =>
        simp only [Option.map_some, h.walkAnonymous ih hp
          (show p.typeBody? = some body by simp [typeBody?, hof])]
    all_goals exact hchildren around s

theorem addUnit (ix : Index) : ix.addUnit u' = ix.addUnit u := by
  have hheight : u'.root.height = u.root.height := by
    have hheight := h.height u.top
    rwa [← h.top] at hheight
  rw [Index.addUnit_eq_walk, Index.addUnit_eq_walk, h.imports, hheight, h.top]
  exact congrArg Indexing.index (h.walkStays _ _ _ _ u.top _ (mem_below_self u.top))

end Respelling

end Legible
