import Legible.Proofs.Binding.Shares
import Legible.Proofs.Index.Overloads

/-!
# What names mean

The rules for names look up keys in the scopes and in the index. For each rule this module says
where the key comes from, so that what a name is given is one of the resolutions of `Resolves`.
-/

namespace Legible

open Binder

variable {c : BindingInput} {b : Binder} {p field : Place} {r : Resolution}
  {owner name key : String} {found : TypeInfo × FieldInfo}

/-! ## Type names -/

theorem resolves_typeMeaning {last : Place} {first : Option Place} (hp : c.Has p)
    (hparts : typeNameParts? p = some (first, last)) (h : typeMeaning c p b = some r) :
    Resolves c b last r := by
  simp only [typeMeaning] at h
  split at h
  · next hkey =>
      cases h
      exact .linked (.typeName hp hparts hkey)
  · next hkey =>
      split at h
      · cases h
      · cases h
        exact .linked (.outerTypeName hp hparts hkey)
  · cases h
  · cases h
    exact .keep last

/-! ## Names in expressions -/

theorem methodKeys_mem (h : key ∈ methodKeys c owner name) :
    ∃ info ∈ c.index.hierarchy owner, ∃ m ∈ info.methods, m.name = name ∧ m.key = key := by
  obtain ⟨info, hinfo, hkey⟩ := List.mem_flatMap.mp (List.mem_eraseDups.mp h)
  obtain ⟨m, hm, hkey⟩ := List.mem_map.mp hkey
  obtain ⟨hm, hname⟩ := List.mem_filter.mp hm
  exact ⟨info, hinfo, m, hm, by simpa using hname, hkey⟩

theorem means_of_methodKeys (h : key ∈ methodKeys c owner (c.unit.text p)) :
    Means c b p key .valid := by
  obtain ⟨info, hinfo, m, hm, hname, rfl⟩ := methodKeys_mem h
  exact .method hinfo hm hname

/-- The ways in which a name in an expression gets what it stands for and its static type. -/
inductive NameMeaning (c : BindingInput) (b : Binder) (p : Place) :
    Option Resolution × Option StaticType → Prop
  | none : NameMeaning c b p (none, none)
  | keep : NameMeaning c b p (some .keep, none)
  | value {scope : ScopeId} {id : SymbolId}
      (h : b.table.scopes.lookup? b.scope .value (c.unit.text p) = some (scope, .symbol id)) :
      NameMeaning c b p (some (.symbol id), b.symbolTypes[id]?)
  | caseLabel {owner : String} (h : owner ∈ c.index.enumsWith (c.unit.text p)) :
      NameMeaning c b p (some (b.target (owner ++ "." ++ c.unit.text p) .valid), none)
  | constant {owner : String} {found : TypeInfo × FieldInfo}
      (h : c.index.findField? owner (c.unit.text p) = some found) :
      NameMeaning c b p (some (b.target found.2.key .valid), none)
  | field {owner : String} {found : TypeInfo × FieldInfo}
      (h : c.index.findField? owner (c.unit.text p) = some found) :
      NameMeaning c b p (fieldMeaning c found b)
  | type {key : String} (h : b.lookupType? c (c.unit.text p) = some (.known key)) :
      NameMeaning c b p (some (b.target key .valid), some { base := .known key })
  | outerType {key : String} (h : b.lookupType? c (c.unit.text p) = some (.external key)) :
      NameMeaning c b p (some (b.target key .missing), some { base := .external key })
  | missing (owner : String) :
      NameMeaning c b p (some (b.target (owner ++ "." ++ c.unit.text p) .missing), none)

theorem nameMeaning_of_labelConstant? (h : b.labelConstant? c p (c.unit.text p) = some key) :
    NameMeaning c b p (some (b.target key .valid), none) := by
  unfold labelConstant? at h
  split at h
  · simp only [caseConstant?] at h
    split at h
    · next info f hf =>
        cases h
        obtain ⟨owner, _, hfield⟩ := Option.bind_eq_some_iff.mp hf
        exact .constant hfield
    · split at h
      · next owner howner =>
          cases h
          exact .caseLabel (by simp [howner])
      · cases h
  · cases h

theorem findField?_of_fieldByName? (h : b.fieldByName? c name = some found) :
    ∃ owner, c.index.findField? owner name = some found := by
  rcases Option.or_eq_some_iff.mp h with h | ⟨-, h⟩
  · obtain ⟨frame, -, hfield⟩ := List.exists_of_findSome?_eq_some h
    exact ⟨frame.name, hfield⟩
  · obtain ⟨owner, -, hfield⟩ := List.exists_of_findSome?_eq_some h
    obtain ⟨qualified, -, hfield⟩ := Option.bind_eq_some_iff.mp hfield
    exact ⟨qualified, hfield⟩

theorem nameMeaning_outerMeaning : NameMeaning c b p (outerMeaning c p (c.unit.text p) b) := by
  have hmissing : NameMeaning c b p (if p.isReceiver then none
      else some (b.target (b.innermost ++ "." ++ c.unit.text p) .missing), none) := by
    split
    · exact .none
    · exact .missing _
  simp only [outerMeaning]
  split
  · next hkey => exact .type hkey
  · next hkey =>
      split
      · exact .outerType hkey
      · exact hmissing
  · exact hmissing

theorem nameMeaning_cases (c : BindingInput) (b : Binder) (p : Place) :
    NameMeaning c b p (nameMeaning c p b) := by
  simp only [nameMeaning, ordinaryMeaning]
  split
  · exact .none
  · split
    · next hlabel => exact nameMeaning_of_labelConstant? hlabel
    · split
      · next hvalue => exact .value hvalue
      · exact .keep
      · split
        · next hfound =>
            obtain ⟨owner, hfound⟩ := findField?_of_fieldByName? hfound
            exact .field hfound
        · exact nameMeaning_outerMeaning

theorem resolves_nameMeaning (hof : Construct.of p = .identifier)
    (h : (nameMeaning c p b).1 = some r) : Resolves c b p r := by
  have hcases := nameMeaning_cases c b p
  generalize nameMeaning c p b = meaning at h hcases
  cases hcases with
  | none => cases h
  | keep => exact Option.some.inj h ▸ .keep p
  | value hvalue => exact Option.some.inj h ▸ .value hvalue
  | caseLabel howner => exact Option.some.inj h ▸ .linked (.caseLabel howner)
  | constant hfound | field hfound => exact Option.some.inj h ▸ .linked (.field hfound)
  | type hkey => exact Option.some.inj h ▸ .linked (.simpleType hkey)
  | outerType hkey => exact Option.some.inj h ▸ .linked (.outerSimpleType hkey)
  | missing owner => exact Option.some.inj h ▸ .linked (.missingMember (.inl hof) owner)

/-- A name in an expression has a static type only where something is found. -/
theorem nameMeaning_resolves (h : (nameMeaning c p b).2 ≠ none) : (nameMeaning c p b).1 ≠ none := by
  have hcases := nameMeaning_cases c b p
  generalize nameMeaning c p b = meaning at h hcases
  cases hcases with
  | none => exact absurd rfl h
  | _ => exact Option.some_ne_none _

/-! ## Member accesses -/

theorem resolves_fieldMeaning (hfound : c.index.findField? owner (c.unit.text p) = some found)
    (h : (fieldMeaning c found b).1 = some r) : Resolves c b p r := by
  cases h
  exact .linked (.field hfound)

theorem resolves_superMeaning (h : (superMeaning c (c.unit.text p) b).1 = some r) :
    Resolves c b p r := by
  simp only [superMeaning] at h
  split at h
  · next hfound =>
      obtain ⟨type, -, hfound⟩ := List.exists_of_findSome?_eq_some hfound
      obtain ⟨owner, -, hfound⟩ := Option.bind_eq_some_iff.mp hfound
      exact resolves_fieldMeaning hfound h
  · cases h
    exact .keep p

theorem resolves_knownMemberMeaning (hp : p.NamesMember)
    (h : (knownMemberMeaning c owner (c.unit.text p) b).1 = some r) : Resolves c b p r := by
  unfold knownMemberMeaning at h
  split at h
  · next hfound => exact resolves_fieldMeaning hfound h
  · split at h
    · next hnested =>
        cases h
        exact .linked (.memberType hnested)
    · cases h
      exact .linked (.missingMember hp owner)

theorem resolves_qualifiedMeaning (hp : c.Has p) (hkind : p.kind = "field_access")
    (hfield : p.child? "field" = some field) (h : (qualifiedMeaning c p b).1 = some r) :
    Resolves c b field r := by
  simp only [qualifiedMeaning] at h
  split at h
  · next hkey =>
      cases h
      split at hkey
      · next hchain =>
          exact .linked (.qualifiedType hp hkind hfield (isNameChain_field hchain hkind hfield) hkey)
      · cases hkey
  · cases h
    exact .keep field

theorem resolves_accessMeaning {object : Place} (hp : c.Has p)
    (hof : Construct.of p = .fieldAccess object field)
    (h : (accessMeaning c p object (c.unit.text field) b).1 = some r) : Resolves c b field r := by
  obtain ⟨hkind, -, hfield⟩ := Construct.partsOf hof
  have hnames : field.NamesMember := .inr (.inl (Place.role_of_child? hfield))
  unfold accessMeaning at h
  split at h
  · exact resolves_qualifiedMeaning hp hkind hfield h
  · split at h
    · exact resolves_knownMemberMeaning hnames h
    · cases h
      exact .linked (.missingMember hnames _)
    · cases h
      exact .keep field

/-! ## Calls -/

/-- The ways in which a call of the given name finds its target. -/
inductive Targets (c : BindingInput) (b : Binder) (method : String)
    (args : List (Option StaticType)) : CallTarget → Prop
  | inherited {owner : String} {info : TypeInfo} {m : MethodInfo}
      (h : c.index.findMethod owner method args = .found info m) :
      Targets c b method args (foundMethod c info m)
  | inScope {scope : ScopeId} {id : SymbolId}
      (h : (scope, .symbol id) ∈ b.table.scopes.lookupAll b.scope .method method) :
      Targets c b method args (.found (b.keyOfSymbol id) (b.returnTypeByKey? c (b.keyOfSymbol id)))
  | missing (owner : String) : Targets c b method args (.missing owner)
  | unknown : Targets c b method args .unknown

section Targets

variable {method : String} {args : List (Option StaticType)} {target : CallTarget}

theorem targets_targetInFrames? {frames : List TypeFrame}
    (h : targetInFrames? c method args frames = some target) : Targets c b method args target := by
  induction frames with
  | nil => cases h
  | cons frame frames ih =>
    simp only [targetInFrames?] at h
    split at h
    · next hfound =>
        cases h
        exact .inherited hfound
    · cases h
      exact .unknown
    · exact ih h

theorem targets_targetIn? {owners : List TypeRef}
    (h : targetIn? c method args owners = some target) : Targets c b method args target := by
  obtain ⟨owner, -, h⟩ := List.exists_of_findSome?_eq_some h
  obtain ⟨name, -, h⟩ := Option.bind_eq_some_iff.mp h
  split at h
  · next hfound =>
      cases h
      exact .inherited hfound
  · cases h

theorem exists_mem_of_methodsInScope {count : Nat} {id : SymbolId}
    (h : id ∈ b.methodsInScope method count) :
    ∃ scope, (scope, .symbol id) ∈ b.table.scopes.lookupAll b.scope .method method := by
  obtain ⟨⟨scope, binding⟩, hmem, h⟩ := List.mem_filterMap.mp h
  cases binding with
  | typeVariable => cases h
  | symbol id' =>
    simp only at h
    split at h
    · split at h
      · cases h
        exact ⟨scope, hmem⟩
      · cases h
    · cases h

theorem targets_importedTarget : Targets c b method args (b.importedTarget c method args) := by
  simp only [importedTarget]
  split
  · next htarget => exact targets_targetIn? htarget
  · split
    · exact .missing _
    · split <;> constructor

theorem targets_callTarget (object : Option Place) :
    Targets c b method args (b.callTarget c object method args) := by
  unfold callTarget
  split
  · unfold unqualifiedTarget
    split
    · next id hid =>
        obtain ⟨scope, hmem⟩ :=
          exists_mem_of_methodsInScope (by rw [hid]; exact List.mem_singleton_self id)
        exact .inScope hmem
    · split
      · next htarget => exact targets_targetInFrames? htarget
      · exact targets_importedTarget
  · split
    · unfold superTarget
      split
      · next htarget => exact targets_targetIn? htarget
      · split <;> constructor
    · split
      · unfold targetOn
        split
        · split
          · next hfound => exact .inherited hfound
          · exact .missing _
          · exact .unknown
        · exact .missing _
        · exact .unknown
      · exact .unknown

end Targets

theorem resolves_callMeaning {object : Option Place} {arguments : Place}
    (h : (callMeaning c object p arguments b).1 = some r) : Resolves c b p r := by
  have htargets : Targets c b (c.unit.text p) (arguments.namedChildren.map b.typeOf?) _ :=
    targets_callTarget object
  simp only [callMeaning] at h
  generalize b.callTarget c object _ _ = target at h htargets
  cases htargets with
  | inherited hfound =>
    cases h
    obtain ⟨hinfo, hm, hname⟩ := Index.mem_of_findMethod hfound
    exact .linked (.method hinfo hm hname)
  | inScope hmem =>
    cases h
    exact .linked (.scopedMethod hmem)
  | missing owner =>
    cases h
    exact .linked (.missingMethod p owner _)
  | unknown =>
    cases h
    exact .keep p

theorem resolves_referenceMeaning (object : Place) :
    Resolves c b p (referenceMeaning c object p b) := by
  unfold referenceMeaning
  split
  · next owner _ =>
      split
      · next key hkeys =>
          have hmem : key ∈ methodKeys c owner (c.unit.text p) := by simp [hkeys]
          exact .linked (means_of_methodKeys hmem)
      · exact .keep p
  · exact .keep p

/-! ## Symbols that names are given -/

/-- A symbol that the rules come upon: one of the table, one that a name in scope is bound to, or
the innermost type. -/
inductive Binder.Reaches (b : Binder) (id : SymbolId) : Prop
  | listed {s : Symbol} (h : b.table.symbol? id = some s)
  | bound {scope : ScopeId} {space : Namespace} {name : String}
      (h : b.table.scopes.lookup? b.scope space name = some (scope, .symbol id))
  | innermost (h : b.frames.head?.bind (·.symbol) = some id)

/-- Names that mean a symbol mean one that the state reaches. -/
def Grounded (meaning : Binder → Option Resolution × Option StaticType) : Prop :=
  ∀ b id, (meaning b).1 = some (.symbol id) → b.Reaches id

section Grounded

variable {id : SymbolId}

theorem reaches_of_idOf? (h : b.table.idOf? key = some id) : b.Reaches id := by
  obtain ⟨s, hs, -⟩ := Symbols.exists_symbol?_of_idOf? h
  exact .listed hs

theorem reaches_of_target {found : Found} (h : b.target key found = .symbol id) : b.Reaches id := by
  unfold Binder.target at h
  split at h
  · next hid =>
      cases h
      exact reaches_of_idOf? hid
  · cases h

theorem Resolves.reaches (h : Resolves c b p r) (hr : r = .symbol id) : b.Reaches id := by
  cases h with
  | keep => cases hr
  | value h =>
    cases hr
    exact .bound h
  | linked => exact reaches_of_target hr
  | typeName _ _ _ hid =>
    cases hr
    exact reaches_of_idOf? hid
  | variableName _ hs =>
    cases hr
    exact .listed hs
  | constructorName _ _ hid =>
    cases hr
    exact .innermost hid

theorem grounded_of_resolves {meaning : Binder → Option Resolution × Option StaticType}
    (h : ∀ b r, (meaning b).1 = some r → Resolves c b p r) : Grounded meaning :=
  fun b _ hid => (h b _ hid).reaches rfl

end Grounded

end Legible
