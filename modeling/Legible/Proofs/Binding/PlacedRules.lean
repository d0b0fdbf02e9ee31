import Legible.Proofs.Binding.Placed

/-!
# The programs of the rules are placed
-/

namespace Legible

open Binder Place

variable {c : BindingInput} {R : List Region} {p q name : Place}

/-! ## Places that open no scope -/

def Holds (c : BindingInput) (R : List Region) (p : Place) : Prop := ∀ q ∈ p.children, c.At R q

/-- What is gone through opens no scope where the tree is shaped. -/
theorem Holds.of_passed (hp : c.At R p) (hkind : p.kind ∉ typeDeclarationKinds)
    (h : c.unit.shapedOK = true → (Construct.of p).opensScope = false) : Holds c R p := fun q hq =>
  hp.child hq (fun kind name hof => absurd hof (BindingInput.of_ne_typeDecl hkind kind name q))
    fun hshaped => (BindingInput.regions_of_opensScope (h hshaped) hq).trans (hp.regions hshaped)

theorem Holds.of_opensScope (hp : c.At R p) (h : (Construct.of p).opensScope = false) :
    Holds c R p := fun q hq =>
  hp.child hq (fun kind name hof => by simp [hof, Construct.opensScope] at h)
    fun hshaped => (BindingInput.regions_of_opensScope h hq).trans (hp.regions hshaped)

theorem Holds.of_kind (hp : c.At R p)
    (h : p.kind ∈ ["scoped_type_identifier", "scoped_identifier", "variable_declarator",
      "formal_parameter", "spread_parameter", "formal_parameters", "enum_body_declarations",
      "catch_formal_parameter", "class_body", "binary_expression"]) : Holds c R p :=
  .of_opensScope hp (opensScope_of_kind h)

namespace Holds

variable (h : Holds c R p)

include h

theorem named (hq : q ∈ p.namedChildren) : c.At R q :=
  h q (mem_children_of_mem_namedChildren hq)

theorem child? {role : String} (hq : p.child? role = some q) : c.At R q :=
  h q (mem_children_of_child? hq)

theorem filter (f : Place → Bool) :
    Placed c R (numbersOf (p.namedChildren.filter f)) ((p.namedChildren.filter f).map .visit) :=
  .visits fun _ hq => h.named (List.mem_of_mem_filter hq)

theorem except (skip : List Place) :
    Placed c R (numbersOf (p.namedChildren.filter (!·.isIn skip))) (exceptSteps p skip) :=
  h.filter _

theorem children : Placed c R (numbersOf p.namedChildren) (childSteps p) :=
  .visits fun _ hq => h.named hq

theorem role (role : String) :
    Placed c R (numbersOf (p.child? role).toList) ((p.child? role).toList.map .visit) :=
  .visits fun _ hq => h.child? (Option.mem_toList.mp hq)

end Holds

theorem placed_children (h : Holds c R p) : Placed c R p.numbers (childSteps p) :=
  .ofParts _ h.children p.namedChildren_sublist.subperm

/-- What is left of a construct beside the parts it opens a scope for. -/
theorem placed_exceptSteps {parts : List Place} (hp : c.At R p)
    (hdecl : ∀ kind name body, Construct.of p ≠ .typeDecl kind name body)
    (hopens : ∀ q, q.isIn parts = false → c.opens R p q = none) :
    Placed c R (numbersOf (p.namedChildren.filter (!·.isIn parts))) (exceptSteps p parts) := by
  refine .visits fun q hq => ?_
  obtain ⟨hq, hnot⟩ := List.mem_filter.mp hq
  exact hp.part (mem_children_of_mem_namedChildren hq) (fun _ _ hof => absurd hof (hdecl _ _ _))
    (by rw [hopens q (by simpa using hnot)]; rfl)

/-! ## Names -/

section Names

variable (hparted : c.unit.Parted)

include hparted

theorem placed_typeNameSteps {before : Place → List Step}
    (hbefore : ∀ q, c.At R q → Placed c R q.numbers (before q)) (hp : c.At R p) :
    Placed c R p.numbers (typeNameSteps c before p) := by
  unfold typeNameSteps
  cases hparts : typeNameParts? p with
  | none => exact .idle
  | some parts =>
    obtain ⟨first, last⟩ := parts
    by_cases hscoped : p.kind = "scoped_type_identifier" ∨ p.kind = "scoped_identifier"
    · have hholds : Holds c R p := .of_kind hp (by rcases hscoped with h | h <;> simp [h])
      obtain ⟨hlast, hfirst⟩ := mem_children_of_typeNameParts? hparts hscoped
      have hmarks : Placed c R (numbersOf (typeMarks p)) ((typeMarks p).map .visit) := by
        refine .visits fun q hq => ?_
        unfold typeMarks at hq
        split at hq
        · exact hholds.named (List.mem_of_mem_filter hq)
        · cases hq
      have hqualifier : Placed c R (numbersOf first.toList) (first.toList.flatMap fun q =>
          if isTypeName q then before q else [.visit q]) := by
        refine .flatMap numbers fun q hq => ?_
        have hq := hholds q (hfirst q hq)
        split
        · exact hbefore q hq
        · exact .visit hq
      refine .ofParts (typeMarks p ++ (first.toList ++ [last])) ?_
        (typeMarks_append_subperm (hparted.head p hp.has) hparts hscoped)
      have hname : Placed c R last.numbers [.name last last fun b => (typeMeaning c p b, none)] :=
        Placed.whole (.name (hp.has.child hlast) (.typeName hp.has hparts))
      simpa using (hmarks.append hqualifier).append hname
    · simp only [not_or] at hscoped
      have hself := typeNameParts?_eq_self hscoped.1 hscoped.2
      cases hparts.symm.trans hself
      have hmarks : typeMarks p = [] := by simp [typeMarks, hscoped.1]
      simpa [hmarks] using Placed.whole (.name hp.has (.typeName hp.has hparts))

theorem placed_qualifierSteps (levels : Nat) (hp : c.At R p) :
    Placed c R p.numbers (qualifierSteps c levels p) := by
  induction levels generalizing p with
  | zero => exact .idle
  | succ levels ih =>
    refine .choose _ (placed_typeNameSteps hparted (fun _ => ih) hp) ?_
    cases hq : qualifier? p with
    | none => exact .idle
    | some q =>
      obtain ⟨hscoped, hmem⟩ := qualifier?_mem hq
      have hholds : Holds c R p := .of_kind hp (by rcases hscoped with h | h <;> simp [h])
      simpa using (ih (hholds q hmem)).mono (numbers_subperm_of_mem hmem)

theorem placed_typeName (hp : c.At R p) (levels : Nat) :
    Placed c R p.numbers (typeNameSteps c (qualifierSteps c levels) p) :=
  placed_typeNameSteps hparted (fun _ => placed_qualifierSteps hparted levels) hp

end Names

theorem placed_importedSteps (levels : Nat) (reportMissing : Bool) (hp : c.Has p) :
    Placed c R p.numbers (importedSteps c levels reportMissing p).1 := by
  induction levels generalizing reportMissing p with
  | zero => exact .idle
  | succ levels ih =>
    unfold importedSteps
    split
    · exact .idle
    · next last hlast =>
        have hbefore : Placed c R (numbersOf (p.child? "scope").toList)
            ((p.child? "scope").toList.flatMap fun scope =>
              (importedSteps c levels false scope).1) :=
          .flatMap numbers fun q hq =>
            ih false (hp.child (mem_children_of_child? (Option.mem_toList.mp hq)))
        have hlastHas : c.Has last := by
          split at hlast
          · exact hp.role hlast
          · cases hlast
            exact hp
        have hall : ∀ {steps : List Step}, Placed c R [last.number] steps →
            Placed c R p.numbers (((p.child? "scope").toList.flatMap fun scope =>
              (importedSteps c levels false scope).1) ++ steps) := fun h =>
          (hbefore.append h).mono (scope_append_subperm hlast)
        dsimp only
        split
        · next key hkey => exact hall (.link hlastHas (.imported hp hlast hkey))
        · next key hkey =>
            cases reportMissing with
            | true => exact hall (.link hlastHas (.outerImported hp hlast hkey))
            | false => exact hall .idle
        · simpa using hall .idle

theorem placed_staticMemberSteps (owner : String) {member : Place} (hp : c.Has p)
    (hmember : p.child? "name" = some member) :
    Placed c R [member.number] (staticMemberSteps c owner member) := by
  have hhas := hp.role hmember
  simp only [staticMemberSteps]
  split
  · next found hfound => exact .link hhas (.staticField hfound)
  · split
    · exact .link hhas (.missing (.inr (.inr (role_of_child? hmember))) _)
    · next key hkey =>
        have hmem : key ∈ methodKeys c owner (c.unit.text member) := by simp [hkey]
        exact .link hhas (.staticMethod hp hmember hmem)
    · exact .idle

theorem placed_importSteps (hp : c.Has p) : Placed c R p.numbers (importSteps c p) := by
  unfold importSteps
  split
  · exact .idle
  · split
    · exact .idle
    · next name hname =>
        have hmem : name ∈ p.children := List.mem_of_find?_eq_some hname
        have hhas := hp.child hmem
        refine Placed.mono ?_ (numbers_subperm_of_mem hmem)
        split
        · split
          · next owner member howner hmember =>
              have hroles := name.filterMap_child?_subperm (show ["scope", "name"].Nodup by decide)
              have howned := placed_importedSteps (R := R) name.node.height false (hhas.role howner)
              refine .ofParts [owner, member] ?_ (by simpa [howner, hmember] using hroles)
              rcases himported : importedSteps c name.node.height false owner with
                ⟨steps, _ | ownerName⟩ <;> rw [himported] at howned <;> simp only
              · exact howned.mono (List.sublist_append_left _ _).subperm
              · have hmembers := (placed_staticMemberSteps (R := R) ownerName hhas hmember).mono
                  member.singleton_subperm
                simpa using howned.append hmembers
          · exact .idle
        · exact placed_importedSteps _ _ hhas

/-! ## Member accesses and calls -/

theorem placed_accessSteps {object field : Place} (h : Holds c R p) (hp : c.Has p)
    (hof : Construct.of p = .fieldAccess object field) :
    Placed c R p.numbers (accessSteps c p object field) := by
  obtain ⟨-, hobject, hfield⟩ := Construct.partsOf hof
  have hroles := p.filterMap_child?_subperm (show ["object", "field"].Nodup by decide)
  have hsub : [object, field].Subperm p.children := by simpa [hobject, hfield] using hroles
  have hvisit : Placed c R object.numbers [.visit object] :=
    .visit (h.child? hobject)
  simp only [accessSteps]
  split
  · refine Placed.mono ?_ (numbers_subperm_of_mem (mem_children_of_child? hobject))
    exact hvisit.andThen (.note p _)
  · split
    · refine Placed.mono ?_ (numbers_subperm_of_mem (mem_children_of_child? hfield))
      exact Placed.whole (.name (h.child? hfield).has (.superField field))
    · refine .ofParts [object, field] ?_ hsub
      have hname : Placed c R field.numbers
          [.name field p (accessMeaning c p object (c.unit.text field))] :=
        Placed.whole (.name (h.child? hfield).has (.access hp hof))
      simpa using hvisit.append hname

theorem placed_callSteps {object : Option Place} {arguments : Place} (h : Holds c R p)
    (hp : c.Has p) (hof : Construct.of p = .methodCall object name arguments) :
    Placed c R p.numbers (callSteps c p object name arguments) := by
  obtain ⟨-, hname, -⟩ := Construct.partsOf hof
  have hlinked : Placed c R name.numbers [.name name p (callMeaning c object name arguments)] :=
    Placed.whole (.name (h.child? hname).has (.call hp hof))
  refine .ofParts _ ?_ (filter_same_append_subperm (mem_children_of_child? hname))
  simpa [callSteps] using (h.filter (!·.same name)).append hlinked

theorem placed_referenceSteps (h : Holds c R p) (hp : c.Has p) :
    Placed c R p.numbers (referenceSteps c p) := by
  unfold referenceSteps
  split
  · exact .idle
  · next object rest hchildren =>
      have hobject := h.named (q := object) (by simp [hchildren])
      have hvisit : Placed c R object.numbers [.visit object] := .visit hobject
      cases hlast : rest.getLast? with
      | none =>
        refine Placed.mono (by simpa using hvisit) (numbers_subperm_of_mem ?_)
        exact mem_children_of_mem_namedChildren (by simp [hchildren])
      | some name =>
        have hmem := List.mem_of_getLast? hlast
        have hchild : name ∈ p.children :=
          mem_children_of_mem_namedChildren (by simp [hchildren, hmem])
        refine .ofParts [object, name] ?_ (subperm_of_cons_mem hchildren hmem)
        by_cases hkind : name.kind = "identifier"
        · have hname : Placed c R name.numbers
              [.name name name fun b => (some (referenceMeaning c object name b), none)] :=
            Placed.whole (.name (hp.child hchild) (.reference object hp hchild hkind))
          simpa [hkind] using hvisit.append hname
        · refine Placed.mono (N := object.numbers) (by simpa [hkind] using hvisit) ?_
          exact (List.sublist_append_left _ _).subperm

/-! ## Types and their members -/

theorem holds_bodyMembers {body : Place} (h : Holds c R body) (hq : q ∈ body.bodyMembers) :
    c.At R q := by
  obtain ⟨child, hchild, hq⟩ := List.mem_flatMap.mp hq
  have hchild := h.named hchild
  split at hq
  · next hkind =>
      have hinner : Holds c R child := .of_kind hchild (by simp [beq_iff_eq.mp hkind])
      exact hinner.named hq
  · rwa [List.mem_singleton.mp hq]

theorem exists_membersAt (key : String) {name : String} (hname : name ∈ c.unit.memberFieldNames q) :
    ∃ m ∈ membersAt c key q, m.space = .value ∧ m.name = name := by
  unfold SourceUnit.memberFieldNames at hname
  unfold membersAt
  split at hname
  · next type hof =>
      obtain ⟨⟨d, nameNode⟩, hd, rfl⟩ := List.mem_map.mp hname
      simp only [hof]
      exact ⟨_, List.mem_map_of_mem hd, rfl, rfl⟩
  · next nameNode body hof =>
      rw [List.mem_singleton.mp hname]
      simp only [hof]
      exact ⟨_, List.mem_singleton_self _, rfl, rfl⟩
  · cases hname

theorem placed_fieldSteps {type : Place} (hp : c.At R p) (hof : Construct.of p = .field type) :
    Placed c R p.numbers (fieldSteps c ((innermostType? R).getD "") p) := by
  have hholds : Holds c R p := .of_opensScope hp (by simp [hof, Construct.opensScope])
  refine .inMember (isMemberKey_initializerKey ..)
    (.ofParts _ (.flatMap numbers fun d hd => ?_) p.namedChildren_sublist.subperm)
  have hdAt := hholds.named hd
  unfold fieldPartSteps
  split
  · next hkind =>
      have hkind := beq_iff_eq.mp hkind
      have hparts : Holds c R d := .of_kind hdAt (by simp [hkind])
      have hnames : Placed c R (numbersOf (d.child? "name").toList)
          ((d.child? "name").toList.map fun name =>
            .link name ((innermostType? R).getD "" ++ "." ++ c.unit.text name) .valid) := by
        refine .map numbers fun name hname => Placed.whole ?_
        have hname := Option.mem_toList.mp hname
        have hdeclarator : (d, name) ∈ p.declarators :=
          List.mem_filterMap.mpr ⟨d, List.mem_filter.mpr ⟨hd, by simp [hkind]⟩, by simp [hname]⟩
        exact .link (hparts.child? hname).has (.member (.field hp hof hdeclarator))
      have hroles := d.filterMap_child?_subperm (show ["name", "value"].Nodup by decide)
      refine .ofParts ((d.child? "name").toList ++ (d.child? "value").toList) ?_ ?_
      · rw [numbersOf_append]
        exact hnames.append (hparts.role "value")
      · rw [List.filterMap_eq_flatMap_toList] at hroles
        simpa using hroles
  · exact .visit hdAt

theorem placed_parameterSteps (hparted : c.unit.Parted) {kind : SymbolKind}
    (hkind : kind.isVariable = true) (hp : c.At R p)
    (hparam : p.kind = "formal_parameter" ∨ p.kind = "spread_parameter") :
    Placed c R p.numbers (parameterSteps c kind p) := by
  have hholds : Holds c R p := .of_kind hp (by rcases hparam with h | h <;> simp [h])
  unfold parameterSteps
  cases hname : p.declaredName? with
  | none =>
    simpa using Placed.ofParts _ (hholds.filter fun q =>
        !q.isIn [] && q.kind != "variable_declarator")
      (List.filter_sublist.trans p.namedChildren_sublist).subperm
  | some name =>
    have hnameAt : c.At R name := by
      rcases child?_of_declaredName? hname with h | ⟨d, hd, h⟩
      · exact hholds.child? h
      · have hd' := hholds.named (mem_namedChildren_of_firstNamed? hd)
        exact Holds.child? (.of_kind hd' (by simp [kind_of_firstNamed? hd])) h
    have hisName := hparted.isName_declaredName? hp.has
      (by rcases hparam with h | h <;> rw [h] <;> decide) hname
    have hvisits := hholds.filter fun q =>
      !q.isIn p.declaredName?.toList && q.kind != "variable_declarator"
    have hdeclare : Placed c R [name.number] [.declareVariable name kind (fun b =>
        (c.unit.parameterType? p, (c.unit.parameterType? p).bind (b.staticType? c))) []] :=
      .declareVariable .nil hnameAt hisName hkind
    have hall := (hvisits.append hdeclare).mono (parameter_append_subperm hname)
    rw [hname] at hall
    exact hall

theorem placed_parametersSteps (hparted : c.unit.Parted) {kind : SymbolKind}
    (hkind : kind.isVariable = true) (h : Holds c R p) :
    Placed c R p.numbers (parametersSteps c kind p) := by
  refine .ofParts _ (.flatMap numbers fun q hq => ?_) p.namedChildren_sublist.subperm
  have hq := h.named hq
  split
  · next hparam => exact placed_parameterSteps hparted hkind hq (by simpa using hparam)
  · exact .visit hq

theorem placed_elementSteps (hp : c.At R p) (hof : Construct.of p = .elementDecl name) :
    Placed c R p.numbers (elementSteps c (innermostType? R) p name) := by
  have hparts := Construct.partsOf hof
  have hname := hparts.2
  have hholds : Holds c R p := .of_opensScope hp (by simp [hof, Construct.opensScope])
  have hlink : Placed c R name.numbers ((innermostType? R).toList.map fun owner =>
      .link name (c.unit.memberKey owner p) .valid) := by
    cases howner : innermostType? R with
    | none => exact .idle
    | some owner =>
      exact Placed.whole (.link (hholds.child? hname).has (.member (.method hp (.inr hof) howner)))
  refine (hlink.append (hholds.except [name])).ofCounts _ (except_append_subperm
    (List.singleton_subperm_iff.mpr (mem_children_of_child? hname))) fun n => ?_
  simp only [numbersOf_concat, List.count_append, List.count_cons]
  omega

section Members

variable {kind : TypeKind} {key : String} {around : List Region} (hparted : c.unit.Parted)

include hparted

variable {body : Place}

/-- Children in different roles are different. -/
theorem same_of_roles {q' : Place} {role role' : String} (hp : c.Has p)
    (hq : p.child? role = some q) (hq' : p.child? role' = some q') (hne : role ≠ role') :
    q.same q' = false := by
  refine Bool.eq_false_iff.mpr fun hsame => hne ?_
  have heq := hparted.eq_of_number_eq (hp.role hq) (hp.role hq') (by simpa [same] using hsame)
  have hrole := role_of_child? hq
  rw [heq, role_of_child? hq'] at hrole
  exact (Option.some.inj hrole).symm

omit hparted in
/-- The body of a type is in the region of the type, if the index knows it. -/
theorem regions_typeBody (hshaped : c.unit.shapedOK = true) (hp : c.Has p)
    (hbody : p.typeBody? = some body) :
    c.regions body = ((c.index.typeAt? c.number p).map fun key => (⟨p, some key⟩ : Region)).toList
      ++ c.regions p := by
  rw [BindingInput.regions_child (mem_children_of_typeBody? hbody)]
  have hparts := Construct.partsOf_of p
  unfold typeBody? at hbody
  split at hbody
  · next kind name body' hof =>
      cases hbody
      rw [hof] at hparts
      have hne := same_of_roles (parted_of_shapedOK hshaped) hp hparts.2.2 hparts.2.1 (by decide)
      simp [BindingInput.opens, hof, hne]
  · next hof => simp [BindingInput.opens, hof, hbody, isIn, same_self]
  · next hof => simp [BindingInput.opens, hof, hbody, isIn, same_self]
  · cases hbody

omit hparted in
/-- The members of a type that the index knows are in the region of the type. -/
theorem regions_bodyMember (hshaped : c.unit.shapedOK = true) (hp : c.Has p)
    (hbody : p.typeBody? = some body) (hkey : c.index.typeAt? c.number p = some key)
    (hq : q ∈ body.bodyMembers) : c.regions q = ⟨p, some key⟩ :: c.regions p := by
  have hregions := regions_typeBody hshaped hp hbody
  rw [hkey] at hregions
  obtain ⟨child, hchild, hq⟩ := List.mem_flatMap.mp hq
  have hchildR := (BindingInput.regions_of_opensScope (opensScope_typeBody hshaped hp hbody)
    (mem_children_of_mem_namedChildren hchild)).trans hregions
  split at hq
  · next hkind =>
      exact (BindingInput.regions_of_opensScope (opensScope_of_kind (by simp [beq_iff_eq.mp hkind]))
        (mem_children_of_mem_namedChildren hq)).trans hchildR
  · rw [List.mem_singleton.mp hq]
    exact hchildR

/-- What stands in a class body that is no declaration is in the region of the type, if the index
knows it. -/
theorem holds_typeBody (hp : c.At R p) (hbody : p.typeBody? = some body)
    (hdecl : ∀ kind name, Construct.of p ≠ .typeDecl kind name body) :
    Holds c (((c.index.typeAt? c.number p).map fun key => (⟨p, some key⟩ : Region)).toList ++ R)
      body := by
  have hkind : body.kind ∉ typeDeclarationKinds := by
    have hparts := Construct.partsOf_of p
    unfold typeBody? at hbody
    split at hbody
    · next hof =>
        cases hbody
        exact absurd hof (hdecl _ _)
    · next hof =>
        rw [hof] at hparts
        exact hparted.kind_of_child? hp.has (hparts.2.2.symm.trans hbody) (.inl rfl)
    · next hof =>
        rw [hof] at hparts
        simp [kind_of_firstNamed? (hparts.symm.trans hbody), typeDeclarationKinds]
    · cases hbody
  refine .of_passed (hp.child (mem_children_of_typeBody? hbody)
    (fun kind name hof => absurd hof (hdecl kind name)) fun hshaped => ?_) hkind
    fun hshaped => opensScope_typeBody hshaped hp.has hbody
  rw [regions_typeBody hshaped hp.has hbody, hp.regions hshaped]

theorem at_of_mem_bodyMembers (hp : c.At R p) (hof : Construct.of p = .typeDecl kind name body)
    (hkey : c.index.typeAt? c.number p = some key) (hq : q ∈ body.bodyMembers) :
    c.At (⟨p, some key⟩ :: R) q := by
  refine .of_mem_bodyMembers hparted hp.has hof hkey hq (fun hshaped => ?_) rfl
  rw [regions_bodyMember hshaped hp.has (by simp [typeBody?, hof]) hkey hq, hp.regions hshaped]

theorem placed_componentSteps {body params param : Place} (hp : c.Has p)
    (hof : Construct.of p = .typeDecl .recordType name body)
    (hkey : c.index.typeAt? c.number p = some key)
    (hparams : c.unit.shapedOK = true → p.child? "parameters" = some params)
    (hlist : params.kind = "formal_parameters") (hparam : param ∈ params.namedChildren)
    (hparamAt : c.At (⟨p, some key⟩ :: around) param) :
    Placed c (⟨p, some key⟩ :: around) param.numbers (componentSteps c key param) := by
  have hhas := hparamAt.has
  have hin := inParameterList_of_mem (mem_children_of_mem_namedChildren hparam) (.inr hlist)
  have hholds := Holds.of_passed hparamAt (hparted.kind_of_inParameterList hhas hin).1
    fun hshaped => opensScope_of_inParameterList hshaped hhas hin
  unfold componentSteps
  split
  · next q hq =>
      have hmember : MemberName c (⟨p, some key⟩ :: around) q (key ++ "." ++ c.unit.text q) :=
        .component hp hof hkey hparams hparam hq
      have hqHas := (mem_places_of_declaredName? hhas hq).1
      rcases child?_of_declaredName? hq with hchild | ⟨d, hd, hchild⟩
      · have hlink : Placed c (⟨p, some key⟩ :: around) q.numbers
            [.link q (key ++ "." ++ c.unit.text q) .valid] :=
          Placed.whole (.link hqHas (.member hmember))
        refine .ofParts _ ?_ (except_append_subperm
          (List.singleton_subperm_iff.mpr (mem_children_of_child? hchild)))
        simpa using (hholds.except [q]).append hlink
      · -- the declarator, with the name in it, is among what is visited
        have hdNamed := mem_namedChildren_of_firstNamed? hd
        have hdMem := mem_children_of_mem_namedChildren hdNamed
        have hqMem := mem_children_of_child? hchild
        have hne : d.number ≠ q.number := by
          intro hnumber
          rw [hparted.eq_of_number_eq (hhas.child hdMem) hqHas hnumber] at hqMem
          exact notMem_children_self q hqMem
        have hdIn : d ∈ param.namedChildren.filter (!·.isIn [q]) := by
          refine List.mem_filter.mpr ⟨hdNamed, ?_⟩
          simpa [isIn, same] using hne
        have hexcept := (hholds.except [q]).again hqHas (List.mem_flatMap.mpr ⟨d, hdIn,
          List.mem_map_of_mem (mem_below_of_mem_children hqMem)⟩) hmember
          (getLast?_append_ne _ (hparted.isPlainName_parameter hhas hin hq))
        exact .ofParts _ hexcept (List.filter_sublist.trans param.namedChildren_sublist).subperm
  · exact placed_children hholds

theorem placed_headerSteps (hp : c.Has p) (hof : Construct.of p = .typeDecl kind name body)
    (hkey : c.index.typeAt? c.number p = some key) (hq : q ∈ p.namedChildren)
    (hqAt : c.At (⟨p, some key⟩ :: around) q) :
    Placed c (⟨p, some key⟩ :: around) q.numbers (headerSteps c kind key q) := by
  unfold headerSteps
  split
  · next hlist =>
      simp only [Bool.and_eq_true, decide_eq_true_eq, beq_iff_eq] at hlist
      obtain ⟨rfl, hkind⟩ := hlist
      have hholds : Holds c (⟨p, some key⟩ :: around) q := .of_kind hqAt (by simp [hkind])
      refine .ofParts q.namedChildren (.flatMap numbers fun param hparam => ?_)
        q.namedChildren_sublist.subperm
      exact placed_componentSteps hparted hp hof hkey
        (fun hshaped => parameters_of_record hshaped hp (kind_of_recordType hof) hq hkind) hkind
        hparam (hholds.named hparam)
  · exact .visit hqAt

omit hparted in
/-- A component that has a name is declared. -/
theorem exists_componentMembers (hshaped : c.unit.shapedOK = true) (key : String) (hp : c.Has p)
    {name : String} (hname : name ∈ c.unit.componentNames p) :
    ∃ m ∈ componentMembers c key p,
      m.space = .value ∧ m.name = name ∧ m.key = key ++ "." ++ name := by
  obtain ⟨params, hparams, hname⟩ := List.mem_flatMap.mp hname
  obtain ⟨nameNode, hnameNode, rfl⟩ := List.mem_map.mp hname
  obtain ⟨param, hparam, hdeclared⟩ := List.mem_filterMap.mp hnameNode
  have hparams' := Option.mem_toList.mp hparams
  have hmem := mem_children_of_mem_namedChildren hparam
  obtain ⟨type, htype⟩ := declaredType?_of_shapedOK hshaped
    ((hp.role hparams').child hmem)
    (inParameterList_of_mem hmem (.inl (role_of_child? hparams'))) hdeclared
  obtain ⟨text, htext⟩ : ∃ text, c.unit.parameterType? param = some text := by
    simp [SourceUnit.parameterType?, htype]
  let m : Member :=
    { space := .value, kind := .field, key := key ++ "." ++ c.unit.text nameNode
      name := c.unit.text nameNode, declaredType := some text, type := fun b => b.staticType? c text
      arity := some ⟨0, false⟩, accessor := true }
  refine ⟨m, List.mem_flatMap.mpr ⟨params, hparams, List.mem_filterMap.mpr ⟨param, hparam, ?_⟩⟩,
    rfl, rfl, rfl⟩
  simp only [hdeclared, htext, m]

omit hparted in
/-- In a shaped tree the fields of a type are declared ahead of its body. -/
theorem exists_declareMember (hshaped : c.unit.shapedOK = true) (hp : c.Has p) (key : String)
    {name : String} (hname : name ∈ c.unit.fieldNames p) :
    ∃ m : Member, .declareMember m ∈ aheadSteps c key p ∧ m.space = .value ∧ m.name = name := by
  have hmembers : ∀ {body : Place} {isRecord : Bool},
      name ∈ body.bodyMembers.flatMap c.unit.memberFieldNames →
      ∃ m : Member, .declareMember m ∈ memberSteps c key isRecord p body ∧ m.space = .value
        ∧ m.name = name := by
    intro body isRecord hname
    obtain ⟨q, hq, hname⟩ := List.mem_flatMap.mp hname
    obtain ⟨m, hm, hspace⟩ := exists_membersAt key hname
    exact ⟨m, List.mem_append_right _ (List.mem_flatMap.mpr
      ⟨q, hq, List.mem_append_left _ (List.mem_map_of_mem hm)⟩), hspace⟩
  unfold SourceUnit.fieldNames at hname
  split at hname
  · next kind _ body hof =>
      simp only [aheadSteps, hof]
      rcases List.mem_append.mp hname with hname | hname
      · split at hname
        · next hkind =>
            obtain ⟨m, hm, hspace, hname, -⟩ := exists_componentMembers hshaped key hp hname
            refine ⟨m, List.mem_append_right _ (List.mem_append_left _ (List.mem_map_of_mem ?_)),
              hspace, hname⟩
            simpa [hkind] using hm
        · cases hname
      · obtain ⟨m, hm, hspace⟩ := hmembers hname
        exact ⟨m, List.mem_append_right _ hm, hspace⟩
  · next hof => simpa only [aheadSteps, hof] using hmembers hname
  · next hof => simpa only [aheadSteps, hof] using hmembers hname
  · cases hname

theorem placed_declarationSteps (hp : c.At R p) (hof : Construct.of p = .typeDecl kind name body) :
    Placed c R p.numbers (declarationSteps c p kind name body) := by
  obtain ⟨-, hname, hbody⟩ := Construct.partsOf hof
  have hnameHas := hp.has.role hname
  have hbodyHas := hp.has.role hbody
  unfold declarationSteps
  cases hkey : c.index.typeAt? c.number p with
  | none =>
    exact placed_children fun q hq => hp.part hq (fun _ _ _ => hkey)
      (by simp [BindingInput.opens, hof, hkey])
  | some key =>
    have hheader : Placed c (⟨p, some key⟩ :: R)
        (numbersOf (p.namedChildren.filter (!·.isIn [name, body])))
        ((p.namedChildren.filter (!·.isIn [name, body])).flatMap (headerSteps c kind key)) := by
      refine .flatMap numbers fun q hq => ?_
      obtain ⟨hq, hnot⟩ := List.mem_filter.mp hq
      have hmem := mem_children_of_mem_namedChildren hq
      simp only [isIn, List.any_cons, List.any_nil, Bool.or_false, Bool.not_or, Bool.and_eq_true,
        Bool.not_eq_true'] at hnot
      refine placed_headerSteps hparted hp.has hof hkey hq (hp.part hmem ?_
        (by simp [BindingInput.opens, hof, hkey, hnot.1]))
      intro kind' name' hof'
      cases hof.symm.trans hof'
      rw [same_self] at hnot
      cases hnot.2
    have hvisits : Placed c (⟨p, some key⟩ :: R) body.numbers (body.bodyMembers.map .visit) :=
      (Placed.visits fun q hq => at_of_mem_bodyMembers hparted hp hof hkey hq).mono
        (numbersOf_bodyMembers_subperm body)
    have hscope : Placed c R (p.number :: _) [.inScope p .typeBody
        [.inFrame (fun b => ⟨key, b.table.idOf? key⟩) _]] :=
      .inType hp.has (by simp [Construct.declaresType, hof]) hkey (fun _ => rfl) (fun _ _ h => h)
        (hheader.append hvisits)
    have hnamed : Placed c R [name.number]
        [.name name name fun b => ((b.table.idOf? key).map .symbol, none)] :=
      .name hnameHas (.typeDecl hp.has hof hkey)
    have htype : Ahead c key (.declareType key (c.unit.text name)) := .type hp.has hof hkey
    have hall := (Placed.declare htype).cons (hnamed.cons hscope)
    have hroles := p.filterMap_child?_subperm (show ["name", "body"].Nodup by decide)
    simp only [insideSteps_eq hof]
    refine hall.ofCounts _ (except_append_subperm
      (show [name, body].Subperm p.children by simpa [hname, hbody] using hroles)) fun n => ?_
    have hself := name.singleton_subperm.count_le n
    simp only [numbersOf_append, numbersOf_cons, numbersOf_nil, List.count_append, List.count_cons,
      List.count_nil] at hself ⊢
    omega

/-- A class body that is no declaration, in an enum constant or in the creation of an object. -/
theorem placed_anonymousSteps (hp : c.At R p) (hbody : p.typeBody? = some body)
    (hdecl : ∀ kind name, Construct.of p ≠ .typeDecl kind name body)
    (hahead : ∀ key, aheadSteps c key p = memberSteps c key false p body) :
    Placed c R (p.number :: body.numbers) (anonymousSteps c p body) := by
  have hholds := holds_typeBody hparted hp hbody hdecl
  unfold anonymousSteps
  cases hkey : c.index.typeAt? c.number p with
  | none =>
    rw [hkey] at hholds
    exact (placed_children hholds).mono ((List.Subperm.refl _).cons_right _)
  | some key =>
    rw [hkey] at hholds
    have hvisits : Placed c (⟨p, some key⟩ :: R) body.numbers (body.bodyMembers.map .visit) :=
      (Placed.visits fun q hq => holds_bodyMembers hholds hq).mono
        (numbersOf_bodyMembers_subperm body)
    simp only [← hahead]
    exact .inType hp.has (declaresType_of_typeBody? hbody) hkey (fun _ => rfl)
      (fun _ _ h => by cases h) hvisits

theorem placed_constantSteps {body : Option Place} (hp : c.At R p)
    (hof : Construct.of p = .enumConstant name body) :
    Placed c R p.numbers (constantSteps c ((innermostType? R).getD "") p name body) := by
  obtain ⟨-, hname, hbody⟩ := Construct.partsOf hof
  have hlink : Placed c R [name.number]
      [.link name ((innermostType? R).getD "" ++ "." ++ c.unit.text name) .valid] :=
    .link (hp.has.role hname) (.member (.constant hp hof))
  have hrest : Placed c R (numbersOf (p.namedChildren.filter (!·.isIn (name :: body.toList))))
      (exceptSteps p (name :: body.toList)) := by
    refine placed_exceptSteps hp (by simp [hof]) fun q hnot => ?_
    rw [isIn, List.any_cons, Bool.or_eq_false_iff] at hnot
    have hbeside : q.isIn body.toList = false := hnot.2
    simp [BindingInput.opens, hof, hbeside]
  have hbodies : Placed c R (body.toList.flatMap fun q => p.number :: q.numbers)
      (body.toList.flatMap (anonymousSteps c p)) := by
    refine .flatMap _ fun q hq => ?_
    have hq := Option.mem_def.mp (Option.mem_toList.mp hq)
    exact placed_anonymousSteps hparted hp (by simp [typeBody?, hof, hq]) (by simp [hof])
      fun key => by simp [aheadSteps, hof, hq]
  have hroles := p.filterMap_child?_subperm (show ["name", "body"].Nodup by decide)
  have hsub : (name :: body.toList).Subperm p.children := by
    cases hb : p.child? "body" <;> simpa [hname, hbody, hb] using hroles
  have hall := (hlink.append (.inMember
    (isMemberKey_initializerKey ((innermostType? R).getD "") true) hrest)).append hbodies
  refine hall.ofCounts _ (except_append_subperm hsub) fun n => ?_
  have hself := name.singleton_subperm.count_le n
  cases body <;> simp only [numbersOf_append, numbersOf_cons, numbersOf_nil, List.count_append,
    List.count_cons, List.count_nil, Option.toList, List.flatMap_cons, List.flatMap_nil] at hself ⊢ <;>
    omega

/-! ## Methods and initializers -/

theorem placed_methodSteps {params body : Option Place} {isConstructor : Bool} (hp : c.At R p)
    (hof : Construct.of p = .method name params body isConstructor) :
    Placed c R p.numbers (methodSteps c (innermostType? R) p name params isConstructor) := by
  obtain ⟨-, -, hname, hparams⟩ := Construct.partsOf hof
  have hnameHas := hp.has.role hname
  unfold methodSteps
  cases howner : innermostType? R with
  | none =>
    exact placed_children fun q hq => hp.part hq (by simp [hof])
      (by simp [BindingInput.opens, hof, howner])
  | some owner =>
    have hnamed : Placed c R [name.number]
        [methodNameStep name (c.unit.memberKey owner p) isConstructor] := by
      unfold methodNameStep
      cases isConstructor with
      | true => exact .name hnameHas (.constructorName hp hof)
      | false => exact .link hnameHas (.member (.method hp (.inl ⟨_, _, hof⟩) howner))
    have hinside : Placed c (⟨p, none⟩ :: R) (numbersOf (p.namedChildren.filter (!·.same name)))
        (typeVariableSteps c p ++ (p.namedChildren.filter (!·.same name)).flatMap fun q =>
          if q.isIn params.toList then parametersSteps c .parameter q else [.visit q]) := by
      have hvariables : Placed c (⟨p, none⟩ :: R) [] (typeVariableSteps c p) :=
        .declareAll fun _ => ahead_typeVariableSteps owner hp.has
      refine (hvariables.append (.flatMap numbers fun q hq => ?_)).mono (List.Subperm.refl _)
      obtain ⟨hq, hne⟩ := List.mem_filter.mp hq
      have hq := mem_children_of_mem_namedChildren hq
      have hqAt : c.At (⟨p, none⟩ :: R) q :=
        hp.part hq (by simp [hof]) (by
          simp only [Bool.not_eq_true'] at hne
          simp [BindingInput.opens, hof, howner, hne])
      split
      · next hin =>
          obtain ⟨q', hq', hnumber⟩ := isIn_eq_true_iff.mp hin
          have hq'' : p.child? "parameters" = some q' := hparams ▸ Option.mem_toList.mp hq'
          have heq := hparted.eq_of_number_eq hqAt.has (hp.has.role hq'') hnumber
          refine placed_parametersSteps hparted rfl (.of_passed hqAt ?_ fun hshaped => ?_)
          · rw [heq]
            exact hparted.kind_of_child? hp.has hq'' (.inr rfl)
          · exact opensScope_of_passedParts hshaped hp.has (by rw [hof, heq]; exact hq')
      · exact .visit hqAt
    have hscope : Placed c R (p.number :: numbersOf (p.namedChildren.filter (!·.same name)))
        [.inScope p .method _] := .inScope hp.has (by simp [Construct.declaresType, hof]) hinside
    have hall := hnamed.cons (.inMember (isMemberKey_memberKey c.unit owner p) hscope)
    refine hall.ofCounts _ (filter_same_append_subperm (mem_children_of_child? hname)) fun n => ?_
    have hself := name.singleton_subperm.count_le n
    simp only [numbersOf_concat, List.count_append, List.count_cons, List.count_nil] at hself ⊢
    omega

end Members

end Legible
