import Legible.Proofs.Binding.Outcomes

/-!
# Members of variables

Where the receiver of a field access is a variable, the member is looked for in the static type of
the variable. If the variable has none, the text of the access is read as the name of a type, as if
there were no variable.
-/

namespace Legible

open Binder Place

variable {id : SymbolId}

/-- The member that an expression of the static type has by the name: its key, and whether it is
declared. There is none to say of arrays and primitive types. -/
def BindingInput.memberOf? (c : BindingInput) (type : StaticType) (name : String) :
    Option (String × Found) :=
  match type.memberOwner? with
  | some (.known owner) =>
    match c.index.findField? owner name with
    | some (_, field) => some (field.key, .valid)
    | none =>
      match c.index.findMemberType? owner name with
      | some nested => some (nested, .valid)
      | none => some (owner ++ "." ++ name, .missing)
  | some (.external owner) => some (owner ++ "." ++ name, .missing)
  | _ => none

section Meanings

variable {c : BindingInput} {b : Binder} {p object field : Place} {units : List SourceUnit}

theorem accessMeaning_of_type {type : StaticType} (htype : b.typeOf? object = some type)
    (name : String) : (accessMeaning c p object name b).1
      = some ((c.memberOf? type name).elim .keep fun found => b.target found.1 found.2) := by
  simp only [accessMeaning, htype, BindingInput.memberOf?]
  rcases type.memberOwner? with _ | owner | owner | owner
  case some.known =>
    simp only [knownMemberMeaning]
    cases c.index.findField? owner name with
    | some found => rfl
    | none => cases c.index.findMemberType? owner name <;> rfl
  all_goals rfl

theorem Place.find?_of_child? {role : String} {q : Place} (h : p.child? role = some q) :
    p.node.children.find? (·.role == some role) = some q.node := by
  rw [Place.child?, Place.children, List.find?_map] at h
  obtain ⟨n, hn, rfl⟩ := Option.map_eq_some_iff.mp h
  exact hn

/-- The access of one name through another. -/
structure Place.NameAccess (p object field : Place) : Prop where
  kind : p.kind = "field_access"
  receiver : p.child? "object" = some object
  member : p.child? "field" = some field
  objectKind : object.kind = "identifier"
  fieldKind : field.kind = "identifier"

theorem Place.NameAccess.isNameChain (h : NameAccess p object field) :
    p.node.isNameChain p.node.height = true := by
  obtain ⟨n, hheight⟩ : ∃ n, p.node.height = n + 2 := by
    have hlt := height_lt_of_mem_children (mem_children_of_child? h.receiver)
    have hpos := object.node.height_pos
    exact ⟨p.node.height - 2, by omega⟩
  have hkind : p.node.kind = "field_access" := h.kind
  have hobjectKind : object.node.kind = "identifier" := h.objectKind
  have hfieldKind : field.node.kind = "identifier" := h.fieldKind
  simp [hheight, Node.isNameChain, hkind, find?_of_child? h.receiver, find?_of_child? h.member,
    hobjectKind, hfieldKind]

theorem accessMeaning_of_untyped (htype : b.typeOf? object = none)
    (hchain : p.node.isNameChain p.node.height = true) (name : String) :
    (∀ key, b.lookupType? c (c.unit.typeText p) = some (.known key) →
        (accessMeaning c p object name b).1 = some (b.target key .valid))
      ∧ ((∀ key, b.lookupType? c (c.unit.typeText p) ≠ some (.known key)) →
        (accessMeaning c p object name b).1 = some .keep) := by
  simp only [accessMeaning, htype, qualifiedMeaning, hchain, if_true]
  constructor
  · intro key hkey
    rw [hkey]
  · intro hnone
    rcases hlookup : b.lookupType? c (c.unit.typeText p) with _ | key | key | key
    case some.known => exact absurd hlookup (hnone key)
    all_goals rfl

theorem Binder.NamesTypes.plainTypes (h : b.NamesTypes c) (hplain : c.PlainTypes) :
    b.table.PlainTypes := by
  intro scope name id hd
  obtain ⟨key, hbinds, hname⟩ := h scope _ hd rfl
  cases hbinds with
  | @type _ s hs =>
    refine ⟨s, hs, ?_⟩
    obtain ⟨p, -, hp⟩ := List.mem_flatMap.mp hname
    rcases List.mem_append.mp hp with hp | hp
    · simp at hp
    · split at hp
      · obtain ⟨key, hkey, heq⟩ := List.mem_map.mp hp
        have hsame : key = s.key := Option.some.inj (Prod.ext_iff.mp heq).2
        rw [← hsame]
        exact getLast?_ne_of_plain_simpleName (hplain p key (Option.mem_toList.mp hkey))
      · cases hp

/-- Where a name means a variable, it is found in the scopes, and has the variable's type. -/
theorem nameMeaning_of_variable (hrooted : c.index.Rooted units) (hnests : c.index.Nests units)
    (hplain : b.table.PlainTypes)
    (hvariable : ∀ key, b.table.idOf? key = some id → key.toList.getLast? = some ')')
    (h : (nameMeaning c p b).1 = some (.symbol id)) :
    nameMeaning c p b = (some (.symbol id), b.symbolTypes[id]?) := by
  rcases value_or_target_of_nameMeaning hrooted hnests hplain h with
    ⟨hmeaning, -⟩ | ⟨key, htarget, hkey⟩
  · exact hmeaning
  · unfold target at htarget
    split at htarget
    · next hid =>
        cases htarget
        exact absurd (hvariable key hid) hkey
    · cases htarget

/-- What a type name means depends on the scopes and on the types around. -/
theorem lookupType?_congr {b' : Binder} (hscopes : b'.table.scopes = b.table.scopes)
    (hsymbols : b'.table.symbols = b.table.symbols) (hscope : b'.scope = b.scope)
    (hframes : b'.frames = b.frames) (text : String) :
    b'.lookupType? c text = b.lookupType? c text := by
  have hkey : b'.keyOfSymbol = b.keyOfSymbol := by
    funext id
    simp only [keyOfSymbol, Symbols.symbol?, hsymbols]
  simp only [lookupType?, hscopes, hscope, hkey, innermost?, hframes]

theorem lookupType?_give (q access : Place) (found : Option Resolution × Option StaticType)
    (text : String) : (b.give q access found).lookupType? c text = b.lookupType? c text := by
  obtain ⟨htable, hscope, hframes⟩ := Trace.give_eq b q access found
  refine lookupType?_congr ?_ ?_ hscope hframes text
  · rw [htable]
    cases found.1 <;> rfl
  · rw [htable]
    cases found.1 <;> rfl

theorem typeOf?_setType (type : StaticType) : (b.setType p (some type)).typeOf? p = some type := by
  simp [setType, typeOf?]

end Meanings

/-! ## Accesses -/

section Accesses

variable {c : BindingInput} {b : Binder} {p object field : Place} {units : List SourceUnit}

/-- The key of a variable is told by its end at any time. -/
theorem getLast?_of_variable (hunits : ∀ u ∈ units, u.shapedOK = true)
    (hindex : c.index = Index.build units) (hshaped : c.unit.shapedOK = true) {m : Moment}
    (hm : m ∈ moments c) {d : Dictionary} {policy : NamingPolicy} {s : Symbol}
    (hs : (Symbols.ofUnit d policy c).symbol? id = some s) (hvariable : s.kind.isVariable = true)
    {key : String} (hid : m.state.table.idOf? key = some id) : key.toList.getLast? = some ')' := by
  have hrooted := rooted_build hunits
  rw [← hindex] at hrooted
  have hlex := lexical_traverse hshaped hrooted.1 hrooted.2
    (G := fun _ _ => True) fun _ _ _ _ _ _ _ _ _ _ => trivial
  obtain ⟨s', hs', rfl⟩ := Symbols.exists_symbol?_of_idOf? hid
  have hfinal : (traverse c).table.symbol? id = some s' :=
    ((stretch_moments hshaped).onward m hm).symbols id s' hs'
  have hmap := Symbols.map_symbol?_ofUnit d policy c (f := (·.kind)) (fun _ _ => rfl) id
  rw [hs, Symbols.symbol?_found, hfinal] at hmap
  have hkind : s.kind = s'.kind := Option.some.inj hmap
  exact hlex.key id s' hfinal (hkind ▸ hvariable)

/-- The receiver of an access is visited first, and the member is named in the state after that. -/
theorem moments_of_access (hshaped : c.unit.shapedOK = true) (hm : ⟨.visit p, b⟩ ∈ moments c)
    (hof : Construct.of p = .fieldAccess object field) (hobject : Construct.of object = .identifier)
    (hfield : field.kind = "identifier") :
    ⟨.visit object, b⟩ ∈ moments c
      ∧ ⟨.name field p (accessMeaning c p object (c.unit.text field)),
          b.give object object (nameMeaning c object b)⟩ ∈ moments c := by
  obtain ⟨levels, hbelow, hsub⟩ := exists_visitMoments hshaped hm
  obtain ⟨hkind, hobject', hfield'⟩ := Construct.partsOf hof
  have hsuper : object.kind ≠ "super" := by
    have hform := Construct.formOf hobject
    rw [show object.kind = "identifier" from hform]
    decide
  have hsteps : steps c b.innermost? p
      = [.visit object, .name field p (accessMeaning c p object (c.unit.text field))] := by
    simp [steps, hof, accessSteps, hfield, hsuper]
  have hbelow' := hbelow.role hobject'
  obtain ⟨n, rfl⟩ : ∃ n, levels = n + 1 :=
    ⟨levels - 1, by have := object.node.height_pos; have := hbelow'.2; omega⟩
  have hvisit : b.visit c (n + 1) object = b.give object object (nameMeaning c object b) := by
    rw [Binder.visit]
    have hsteps' : steps c b.innermost? object = [.name object object (nameMeaning c object)] := by
      simp only [steps, hobject]
    rw [hsteps', runAll_singleton, Step.run]
  rw [hsteps, Step.momentsAll, momentsAll_singleton, Step.moments, Step.moments, Step.run, hvisit,
    visitMoments, List.cons_append, List.cons_subset, List.append_subset] at hsub
  exact ⟨hsub.1, hsub.2.2 (List.mem_singleton_self _)⟩

/-- The member of a variable is the one that the variable's static type has. If the variable has no
static type the member is kept as it is, unless the access reads like the name of a type. Then it is
that type. -/
theorem keyOf?_variableMember (hunits : ∀ u ∈ units, u.shapedOK = true)
    (hindex : c.index = Index.build units) (hshaped : c.unit.shapedOK = true) (d : Dictionary)
    (policy : NamingPolicy) (hm : ⟨.visit p, b⟩ ∈ moments c)
    (hof : Construct.of p = .fieldAccess object field) (hobject : Construct.of object = .identifier)
    (hfield : field.kind = "identifier") {id : SymbolId} {s : Symbol}
    (hresolved : (Symbols.ofUnit d policy c).resolution? object = some (.symbol id))
    (hsymbol : (Symbols.ofUnit d policy c).symbol? id = some s)
    (hvariable : s.kind.isVariable = true) :
    (∀ type, b.symbolTypes[id]? = some type →
        (Symbols.ofUnit d policy c).keyOf? field = c.memberOf? type (c.unit.text field)
          ∧ (c.memberOf? type (c.unit.text field) = none →
            (Symbols.ofUnit d policy c).resolution? field = some .keep))
      ∧ (b.symbolTypes[id]? = none →
        (∀ key, b.lookupType? c (c.unit.typeText p) = some (.known key) →
            (Symbols.ofUnit d policy c).keyOf? field = some (key, .valid))
          ∧ ((∀ key, b.lookupType? c (c.unit.typeText p) ≠ some (.known key)) →
            (Symbols.ofUnit d policy c).resolution? field = some .keep)) := by
  have hrooted := rooted_build hunits
  rw [← hindex] at hrooted
  obtain ⟨hkind, hobject', hfield'⟩ := Construct.partsOf hof
  obtain ⟨hvisit, hname⟩ := moments_of_access hshaped hm hof hobject hfield
  obtain ⟨homes, hsettled⟩ := exists_settled hshaped hvisit rfl
  have hplain := hsettled.noted.names.plainTypes fun q key => hrooted.1.plain _ q key
  -- The receiver got its resolution when it was visited, and with it the type of the variable.
  have hfound : (traverse c).table.resolution? object = some (.symbol id) :=
    (Symbols.resolution?_of_keepUnresolved _ hresolved).resolve_right (by rintro ⟨⟩)
  rw [resolution?_traverse_identifier hshaped hvisit hobject
    (by rw [role_of_child? hobject']; decide)] at hfound
  have hmeaning := nameMeaning_of_variable hrooted.1 hrooted.2 hplain
    (fun key hid => getLast?_of_variable hunits hindex hshaped hvisit hsymbol hvariable hid) hfound
  rw [hmeaning] at hname
  let b₁ := b.give object object (some (.symbol id), b.symbolTypes[id]?)
  have htable : b₁.table = b.table.resolve object (.symbol id) :=
    (Trace.give_eq b object object (some (.symbol id), b.symbolTypes[id]?)).1
  have hnone : b.table.resolution? object = none := (awaits_of_mem hshaped hvisit).unresolved
  have hunresolved : b₁.table.resolution? field = none := by
    have hne : object.number ≠ field.number := by
      intro hnumber
      have hhas := ((spends_moments hshaped).visits p b hm).has
      have hsame := (parted_of_shapedOK hshaped).eq_of_number_eq
        (hhas.role hobject') (hhas.role hfield') hnumber
      have hrole := role_of_child? hobject'
      rw [hsame, role_of_child? hfield'] at hrole
      exact absurd hrole (by decide)
    rw [htable, Symbols.resolution?_resolve, if_neg fun h => hne h.1]
    exact (awaits_of_mem hshaped hm).fresh _
      ((numbers_subperm_of_mem (mem_children_of_child? hfield')).subset field.number_mem_numbers)
  have hfinal : ∀ r, (accessMeaning c p object (c.unit.text field) b₁).1 = some r →
      (Symbols.ofUnit d policy c).resolution? field = some r := fun r hr =>
    Symbols.resolution?_keepUnresolved_of_eq_some _
      (resolution?_traverse hshaped hname hunresolved hr)
  constructor
  · intro type htype
    have htypeOf : b₁.typeOf? object = some type := by
      simp only [b₁, htype]
      exact typeOf?_setType type
    have hr := hfinal _ (accessMeaning_of_type htypeOf (c.unit.text field))
    cases hmember : c.memberOf? type (c.unit.text field) with
    | none =>
      rw [hmember] at hr
      exact ⟨by rw [Symbols.keyOf?, hr]; rfl, fun _ => hr⟩
    | some found =>
      rw [hmember] at hr
      exact ⟨keyOf?_ofUnit_of_target hshaped hname hr, by rintro ⟨⟩⟩
  · intro htype
    have htypeOf : b₁.typeOf? object = none := by
      simp only [b₁, htype]
      exact typeOf?_of_unresolved hshaped hvisit
        ((spends_moments hshaped).visits object b hvisit).has hobject hnone
    have hchain : p.node.isNameChain p.node.height = true := by
      have hform := Construct.formOf hobject
      exact NameAccess.isNameChain ⟨hkind, hobject', hfield', hform, hfield⟩
    obtain ⟨hknown, hkept⟩ := accessMeaning_of_untyped (c := c) htypeOf hchain (c.unit.text field)
    rw [lookupType?_give] at hknown hkept
    exact ⟨fun key hkey => keyOf?_ofUnit_of_target hshaped hname (hfinal _ (hknown key hkey)),
      fun hmissing => hfinal _ (hkept hmissing)⟩

end Accesses

/-- A method that reads a field of its parameter. -/
def Sample.parameterField : SourceUnit where
  path := "A.java"
  source := "class A\x7bA n;A f(A x)\x7breturn x.n;\x7d\x7d"
  root := open Sample in
    node 0 "program" 0 34 none [
     node 1 "class_declaration" 0 34 none [mark 2 "class" 0 5, name 3 6 7 "name",
      node 4 "class_body" 7 34 (some "body") [mark 5 "\x7b" 7 8,
       node 6 "field_declaration" 8 12 none [node 7 "type_identifier" 8 9 (some "type") [],
        node 8 "variable_declarator" 10 11 (some "declarator") [name 9 10 11 "name"],
        mark 10 ";" 11 12],
       node 11 "method_declaration" 12 33 none [node 12 "type_identifier" 12 13 (some "type") [],
        name 13 14 15 "name",
        node 14 "formal_parameters" 15 20 (some "parameters") [mark 15 "(" 15 16,
         node 16 "formal_parameter" 16 19 none [node 17 "type_identifier" 16 17 (some "type") [],
          name 18 18 19 "name"], mark 19 ")" 19 20],
        node 20 "block" 20 33 (some "body") [mark 21 "\x7b" 20 21,
         node 22 "return_statement" 21 32 none [mark 23 "return" 21 27,
          node 24 "field_access" 28 31 none [name 25 28 29 "object", mark 26 "." 29 30,
           name 27 30 31 "field"], mark 28 ";" 31 32], mark 29 "\x7d" 32 33]],
       mark 30 "\x7d" 33 34]]]

/-- The field of the parameter's type is meant. -/
theorem keyOf?_variableMember_parameter :
    let c : BindingInput := ⟨Sample.parameterField, 0, Index.build [Sample.parameterField]⟩
    c.unit.shapedOK = true ∧ ∃ p object field : Place, ∃ b : Binder, ∃ id : SymbolId,
      ⟨.visit p, b⟩ ∈ moments c ∧ Construct.of p = .fieldAccess object field
        ∧ Construct.of object = .identifier ∧ field.kind = "identifier"
        ∧ (Symbols.ofUnit .empty .preserve c).resolution? object = some (.symbol id)
        ∧ (∃ s, (Symbols.ofUnit .empty .preserve c).symbol? id = some s ∧ s.kind.isVariable = true)
        ∧ b.symbolTypes[id]? = some { base := .known "A" }
        ∧ (Symbols.ofUnit .empty .preserve c).keyOf? field = some ("A.n", .valid) := by
  intro c
  have hunits : ∀ u ∈ [Sample.parameterField], u.shapedOK = true := by decide +kernel
  have hshaped : c.unit.shapedOK = true := hunits _ List.mem_cons_self
  have hmember : c.memberOf? { base := .known "A" } "n" = some ("A.n", .valid) := by decide +kernel
  obtain ⟨s, hs, hvariable⟩ : ∃ s ∈ (Symbols.ofUnit .empty .preserve c).symbol? 3,
      s.kind.isVariable = true := by
    decide +kernel
  obtain ⟨m, hm, p, hp, hkind, object, hobject, field, hfield, hobjectKind, hfieldKind, htext, hid,
      htype⟩ :
      ∃ m ∈ moments c, ∃ p ∈ m.visited?, p.kind = "field_access"
        ∧ ∃ object ∈ p.child? "object", ∃ field ∈ p.child? "field", object.kind = "identifier"
          ∧ field.kind = "identifier" ∧ c.unit.text field = "n"
          ∧ (Symbols.ofUnit .empty .preserve c).resolution? object = some (.symbol 3)
          ∧ m.state.symbolTypes[3]? = some { base := .known "A" } := by
    decide +kernel
  have hof : Construct.of p = .fieldAccess object field := by
    simp [Construct.of, Construct.of?, hkind, Option.mem_def.mp hobject, Option.mem_def.mp hfield]
  have hidentifier : Construct.of object = .identifier := by
    simp [Construct.of, Construct.of?, hobjectKind]
  rw [Moment.eq_of_visited? hp] at hm
  have hkey := ((keyOf?_variableMember hunits rfl hshaped .empty .preserve hm hof hidentifier
    hfieldKind hid hs hvariable).1 _ htype).1
  rw [htext, hmember] at hkey
  exact ⟨hshaped, p, object, field, m.state, 3, hm, hof, hidentifier, hfieldKind, hid,
    ⟨s, hs, hvariable⟩, htype, hkey⟩

/-- A type in a package. -/
def Sample.packagedType : SourceUnit where
  path := "y.java"
  source := "package x;class y\x7b\x7d"
  root := open Sample in
    node 0 "program" 0 19 none [
     node 1 "package_declaration" 0 10 none [mark 2 "package" 0 7, node 3 "identifier" 8 9 none [],
      mark 4 ";" 9 10],
     node 5 "class_declaration" 10 19 none [mark 6 "class" 10 15, name 7 16 17 "name",
      node 8 "class_body" 17 19 (some "body") [mark 9 "\x7b" 17 18, mark 10 "\x7d" 18 19]]]

/-- A lambda whose parameter has no type and the name of the package. -/
def Sample.untypedParameter : SourceUnit where
  path := "A.java"
  source := "class A\x7bF f=x->x.y;\x7d"
  root := open Sample in
    node 0 "program" 0 20 none [
     node 1 "class_declaration" 0 20 none [mark 2 "class" 0 5, name 3 6 7 "name",
      node 4 "class_body" 7 20 (some "body") [mark 5 "\x7b" 7 8,
       node 6 "field_declaration" 8 19 none [node 7 "type_identifier" 8 9 (some "type") [],
        node 8 "variable_declarator" 10 18 (some "declarator") [name 9 10 11 "name",
         mark 10 "=" 11 12,
         node 11 "lambda_expression" 12 18 (some "value") [name 12 12 13 "parameters",
          mark 13 "->" 13 15,
          node 14 "field_access" 15 18 (some "body") [name 15 15 16 "object", mark 16 "." 16 17,
           name 17 17 18 "field"]]], mark 18 ";" 18 19], mark 19 "\x7d" 19 20]]]

/-- The member of the parameter is linked to the type. -/
theorem variable_read_as_package :
    let units := [Sample.packagedType, Sample.untypedParameter]
    let c : BindingInput := ⟨Sample.untypedParameter, 1, Index.build units⟩
    (∀ u ∈ units, u.shapedOK = true)
      ∧ ∃ p ∈ c.unit.root.places, p.kind = "field_access"
        ∧ ∃ object ∈ p.child? "object", ∃ field ∈ p.child? "field",
          (Symbols.ofUnit .empty .preserve c).keyOf? object = some ("A.<init>.x(local#1)", .valid)
            ∧ (Symbols.ofUnit .empty .preserve c).keyOf? field = some ("x.y", .valid)
            ∧ c.index.type? "x.y" ≠ none := by
  decide +kernel

end Legible
