import Legible.Proofs.Binding.Mirrors
import Legible.Proofs.Binding.VariableMembers
import Legible.Proofs.Index.Hierarchy

/-!
# Fields with and without `this`

The name of a field is looked up in the scopes, and an access on `this` in the index. Both lead to
one symbol as long as no variable hides the field. Its static type is worked out twice, though: by
the scopes in the state in which the field is declared, and by the index inside of the type that has
it. The two agree where the first name of the written type leads to the same type in both
(`field_alike`).
-/

namespace Legible

open Binder

/-! ## Names of types -/

/-- The first name of a type as it is written, and the names behind it. -/
def Text.typeParts (text : String) : String × List String :=
  match splitFirst (trim text) with
  | some (head, rest) => (head, segments rest)
  | none => (trim text, [])

/-- What a written type means whose first name is that of the declared type, or of a type variable.
-/
def BindingInput.meant? (c : BindingInput) (text : String) (key : Option String) : Option TypeRef :=
  key.map fun key => ((c.index.descend? key (Text.typeParts text).2).map .known).getD
    (.external (Text.trim text))

/-- All that the unit declares by the first name of the written type gives it the same meaning. -/
def BindingInput.Agrees (c : BindingInput) (text : String) (type : Option TypeRef) : Prop :=
  ∀ key, ((Text.typeParts text).1, key) ∈ c.typeDeclarations → c.meant? text key = type

section Types

variable {c : BindingInput} {b : Binder} {owner text : String} {info : TypeInfo}

theorem lookupType?_of_agrees (hnames : b.NamesTypes c) {type : Option TypeRef}
    (h : c.Agrees text type)
    (hfree : b.table.scopes.lookup? b.scope .type (Text.typeParts text).1 = none →
      some (c.index.resolveType c.number b.innermost? text) = type) : b.lookupType? c text = type := by
  -- a type that is bound by the first name is one that the unit declares
  have hbound : ∀ {scope binding}, b.table.scopes.lookup? b.scope .type (Text.typeParts text).1
      = some (scope, binding) → ∃ key, b.table.BindsType binding key ∧ c.meant? text key = type := by
    intro scope binding hfound
    obtain ⟨key, hbinds, hmem⟩ := hnames scope _ (Scopes.mem_of_lookup? hfound) rfl
    exact ⟨key, hbinds, h key hmem⟩
  have htrim : c.index.resolveType c.number b.innermost? (Text.trim text)
      = c.index.resolveType c.number b.innermost? text := by
    simp only [Index.resolveType, Index.resolveWith, Text.trim_trim]
  unfold BindingInput.meant? Text.typeParts at hbound
  unfold Text.typeParts at hfree
  simp only [lookupType?, htrim]
  generalize Text.splitFirst (Text.trim text) = parts at hbound hfree ⊢
  rcases parts with _ | ⟨head, rest⟩
  all_goals
    dsimp only at hbound hfree ⊢
    split
    · next hfound =>
        obtain ⟨key, hbinds, hmeant⟩ := hbound hfound
        cases hbinds
        exact hmeant
    · next hfound =>
        obtain ⟨key, hbinds, hmeant⟩ := hbound hfound
        cases hbinds with
        | type hs =>
          rw [keyOfSymbol, hs, Option.map_some, Option.getD_some, ← hmeant, Option.map_some]
          split <;> next hname => rw [hname]; rfl
    · next hfound => exact hfree hfound

/-- The static type of what is declared with the written type is the one that the index has. -/
theorem staticType?_of_agrees (hnames : b.NamesTypes c) (howner : b.innermost? = some owner)
    (hunit : info.unit = c.number) (hname : info.qualifiedName = owner)
    (hvar : (Text.splitDims text).1 ≠ "var")
    (hvariable : c.index.memberType? info text [] = none → b.table.scopes.lookup? b.scope .type
      (Text.typeParts (Text.splitDims text).1).1 ≠ none)
    (h : c.Agrees (Text.splitDims text).1 ((c.index.memberType? info text []).map (·.base))) :
    b.staticType? c text = c.index.memberType? info text [] := by
  unfold staticType?
  dsimp only
  rw [if_neg (by simpa using hvar)]
  unfold Index.memberType? at hvariable h ⊢
  dsimp only at hvariable h ⊢
  rw [hunit, hname, ← howner] at hvariable h ⊢
  split
  · next hparam =>
      rw [if_pos hparam] at hvariable h
      rw [lookupType?_of_agrees hnames h fun hnone => absurd hnone (hvariable rfl)]
      rfl
  · next hparam =>
      rw [if_neg hparam] at h
      dsimp only [Option.map_some] at h
      rw [lookupType?_of_agrees hnames h fun _ => rfl]
      rfl

end Types

/-! ## Fields in scope -/

section Scopes

variable {c : BindingInput} {log : List Moment} {b : Binder} {scope : ScopeId} {home : Home}
  {homes : List Home} {m : Member}

/-- The name of a field that the innermost type has is that of a field of it, or of a variable. -/
theorem Housed.exists_lookup? (h : Housed c log b scope (home :: homes))
    (hm : m ∈ c.membersIn home) (hspace : m.space = .value) {steps : Nat} (hsteps : scope ≤ steps) :
    ∃ s s' binding, Hosts c log b s' (c.membersIn home)
      ∧ ((b.table.scopes.outward steps scope).findSome? fun s =>
        (b.table.scopes.lookupIn s .value m.name).getLast?.map fun b => (s, b)) = some (s, binding)
      ∧ (b.table.Loose c log ⟨.value, m.name, binding⟩
        ∨ ∃ m' ∈ c.membersIn home, b.table.IsValueOf m' ⟨.value, m.name, binding⟩) := by
  generalize hall : home :: homes = all at h
  induction h generalizing steps with
  | root => cases hall
  | @code scope _ _ hparent hlt _ hloose _ ih =>
    obtain ⟨steps, hsteps, heq⟩ := Scopes.exists_outward hparent hlt hsteps
    obtain ⟨s, s', binding, hhosts, hfound, hvalue⟩ := ih hsteps hall
    rw [heq, List.findSome?_cons]
    cases hlast : (b.table.scopes.lookupIn scope .value m.name).getLast? with
    | none => exact ⟨s, s', binding, hhosts, hfound, hvalue⟩
    | some binding =>
      exact ⟨scope, s', binding, hhosts, rfl,
        .inl (hloose _ (Scopes.mem_of_mem_lookupIn (List.mem_of_getLast? hlast)))⟩
  | @body scope _ _ _ hparent hlt _ _ _ hhosts _ _ =>
    cases hall
    obtain ⟨steps, -, heq⟩ := Scopes.exists_outward hparent hlt hsteps
    obtain ⟨d, hd, -, id, -, rfl⟩ := hhosts.bound m hm hspace
    rw [heq, List.findSome?_cons]
    cases hlast : (b.table.scopes.lookupIn scope .value m.name).getLast? with
    | none => exact absurd (by rw [hlast]; rfl) (Scopes.getLast?_lookupIn hd)
    | some binding =>
      exact ⟨scope, scope, binding, hhosts, rfl,
        hhosts.values _ (Scopes.mem_of_mem_lookupIn (List.mem_of_getLast? hlast)) rfl⟩

end Scopes

theorem Index.findField?_of_own {ix : Index} {owner name : String} {info : TypeInfo} {f : FieldInfo}
    (hinfo : ix.type? owner = some info) (hf : info.fields[name]? = some f) :
    ix.findField? owner name = some (info, f) := by
  have hhead := ix.head?_hierarchyNames owner
  rw [if_pos (contains_iff.mpr ⟨info, hinfo⟩)] at hhead
  obtain ⟨rest, heq⟩ := List.head?_eq_some_iff.mp hhead
  rw [findField?, hierarchy, heq, List.filterMap_cons, hinfo, List.findSome?_cons, hf]
  rfl

/-! ## Accesses on `this` -/

section Alike

variable {units : List SourceUnit} {c : BindingInput} {decl q typeNode : Place} {owner : String}
  {f : Member} {info : TypeInfo}

theorem mem_membersOf_of_typeMembers (hq : q ∈ decl.typeMembers) (hf : f ∈ membersAt c owner q) :
    f ∈ c.membersOf owner decl := by
  unfold Place.typeMembers Place.typeBody? at hq
  unfold BindingInput.membersOf
  split at hq <;> simp_all
  all_goals grind

/-- A field has the type that is written at it. -/
theorem type_of_mem_membersAt (hof : Construct.of q = .field typeNode)
    (hf : f ∈ membersAt c owner q) : f.space = .value ∧ f.key = owner ++ "." ++ f.name
      ∧ ∃ text, f.declaredType = some text ∧ f.type = fun b => b.staticType? c text := by
  rw [membersAt, hof] at hf
  obtain ⟨_, -, rfl⟩ := List.mem_map.mp hf
  exact ⟨rfl, rfl, _, rfl, rfl⟩

/-- Only one field of the type has the name. -/
theorem eq_of_field_name {ms : List Member} {f' : Member}
    (hfields : ((ms.filter (·.space = .value)).map (·.name)).Nodup) (hf : f ∈ ms) (hf' : f' ∈ ms)
    (hspace : f.space = .value) (hspace' : f'.space = .value) (h : f'.name = f.name) : f' = f :=
  List.inj_on_of_nodup_map hfields (List.mem_filter.mpr ⟨hf', by simpa using hspace'⟩)
    (List.mem_filter.mpr ⟨hf, by simpa using hspace⟩) h

variable (hunits : ∀ u ∈ units, u.shapedOK = true) (hkeys : (typeKeys units).Nodup)
  (hc : c ∈ inputs units)

include hunits hkeys hc

/-- No other member of the unit has the key of the field. -/
theorem eq_of_field_key {home home' : Home} (hp : c.Has home.place) (hp' : c.Has home'.place)
    (hkey : c.index.typeAt? c.number home.place = some home.key)
    (hkey' : c.index.typeAt? c.number home'.place = some home'.key)
    (hfields : (((c.membersIn home).filter (·.space = .value)).map (·.name)).Nodup) {f' : Member}
    (hf : f ∈ c.membersIn home) (hf' : f' ∈ c.membersIn home') (hspace : f.space = .value)
    (h : f'.key = f.key) : f' = f ∧ home' = home := by
  have hshaped := hunits _ (List.mem_of_getElem? (mem_inputs hc).1)
  cases formed_of_mem_membersOf hshaped hp hf with
  | method hmethod => cases hspace.symm.trans hmethod
  | value _ _ hdotted hname =>
    cases formed_of_mem_membersOf hshaped hp' hf' with
    | method _ _ _ hlast =>
      rw [h, hdotted] at hlast
      exact absurd hlast (getLast?_append_ne _ hname)
    | value hspace' _ hdotted' hname' =>
      rw [hdotted, hdotted'] at h
      obtain ⟨howner, hsame⟩ := dotted_inj h (notMem_of_isPlainName hname' rfl)
        (notMem_of_isPlainName hname rfl)
      have hplace := (eq_of_typeKeys_nodup hkeys hc hc hp' hp hkey' (howner ▸ hkey)).2
      obtain ⟨place, key⟩ := home
      obtain ⟨place', key'⟩ := home'
      obtain rfl : place' = place := hplace
      obtain rfl : key' = key := howner
      exact ⟨eq_of_field_name hfields hf hf' hspace hspace' hsame, rfl⟩

/-- What is noted of a field is the type that the index has, if the two read it alike. -/
theorem symbolTypes_of_agrees {home : Home} (hp : c.Has home.place)
    (hkey : c.index.typeAt? c.number home.place = some home.key)
    (hinfo : c.index.type? home.key = some info)
    (hfields : (((c.membersIn home).filter (·.space = .value)).map (·.name)).Nodup)
    (hf : f ∈ c.membersIn home) (hspace : f.space = .value) {text : String}
    (htype : f.type = fun b => b.staticType? c text) {b : Binder} {id : SymbolId}
    (hnoted : b.Noted c) (hknows : b.Knows c f id) (hvar : (Text.splitDims text).1 ≠ "var")
    (hvariable : c.index.memberType? info text [] = none →
      (Text.typeParts (Text.splitDims text).1).1 ∈ c.typeVariablesOf home.place)
    (h : c.Agrees (Text.splitDims text).1 ((c.index.memberType? info text []).map (·.base))) :
    b.symbolTypes[id]? = c.index.memberType? info text [] := by
  obtain ⟨e, hmade, -, hname, heq⟩ := exists_made_of_type? hunits hc hkeys hp hkey hinfo
  -- whenever a member of this key is declared, it is this field
  have hdeclared : ∀ {f' b₀}, DeclaredAt c f' b₀ → f'.key = f.key →
      f'.type b₀ = c.index.memberType? info text [] := by
    intro f' b₀ hat hsame
    obtain ⟨home', hf', hp', hkey', hinner, hknown⟩ := hat.within
    obtain ⟨rfl, rfl⟩ := eq_of_field_key hunits hkeys hc hp hp' hkey hkey' hfields hf hf' hspace hsame
    rw [htype]
    exact staticType?_of_agrees hat.names hinner (congrArg TypeInfo.unit heq)
      ((congrArg TypeInfo.qualifiedName heq).trans hname) hvar
      (fun hnone => hknown _ (hvariable hnone)) h
  cases hcase : b.symbolTypes[id]? with
  | none =>
    obtain ⟨b₀, hat, hlost⟩ := hknows.type
    rw [← hdeclared hat rfl]
    by_contra hne
    exact hlost (Ne.symm hne) hcase
  | some type =>
    obtain ⟨s, hs, hnote⟩ := hnoted.type id type hcase
    obtain ⟨s', hs', hsame⟩ := Symbols.exists_symbol?_of_idOf? hknows.idOf?
    obtain rfl : s' = s := Option.some.inj (hs'.symm.trans hs)
    rcases hnote with hlast | ⟨f', b₀, hat, hsame', hnote⟩
    · have hshaped := hunits _ (List.mem_of_getElem? (mem_inputs hc).1)
      cases formed_of_mem_membersOf hshaped hp hf with
      | method hmethod => cases hspace.symm.trans hmethod
      | value _ _ hdotted hplain =>
        rw [hsame, hdotted] at hlast
        exact absurd hlast (getLast?_append_ne _ hplain)
    · rw [← hnote, hdeclared hat (hsame'.trans hsame)]

/-- Inside of a type, a field that no variable hides is the same symbol by its name and as a member
of `this`. If the type has one field of the name, what is noted of the symbol is also the type that
the access on `this` has, unless a type or type variable of the unit that has the first name of the
written type means something else. If the access has no type, the name has to be that of a type
variable of the type itself. -/
theorem field_alike (hdecl : c.Has decl) (hkey : c.index.typeAt? c.number decl = some owner)
    (hinfo : c.index.type? owner = some info) (hq : q ∈ decl.typeMembers)
    (hof : Construct.of q = .field typeNode) (hf : f ∈ membersAt c owner q) {m : Moment}
    (hm : m ∈ moments c) (hrest : m.AtRest) (howner : m.state.innermost? = some owner)
    (hvisible : ∀ scope id,
      m.state.table.scopes.lookup? m.state.scope .value f.name = some (scope, .symbol id) →
      ∀ v ∈ moments c, v.variable? c ≠ some (f.name, m.state.keyOfSymbol id)) :
    ∃ id field, m.state.keyOfSymbol id = owner ++ "." ++ f.name
      ∧ info.fields[f.name]? = some field
      ∧ (∀ p, ordinaryMeaning c p f.name m.state = (some (.symbol id), m.state.symbolTypes[id]?))
      ∧ (∀ p object, object.kind = "this" →
        accessMeaning c p object f.name (m.state.setType object (m.state.inferredType? c object))
          = (some (.symbol id), c.index.fieldType? info field))
      ∧ ((((c.membersOf owner decl).filter (·.space = .value)).map (·.name)).Nodup →
        (Text.splitDims field.typeText).1 ≠ "var" →
        (c.index.fieldType? info field = none →
          (Text.typeParts (Text.splitDims field.typeText).1).1 ∈ c.typeVariablesOf decl) →
        c.Agrees (Text.splitDims field.typeText).1 ((c.index.fieldType? info field).map (·.base)) →
        m.state.symbolTypes[id]? = c.index.fieldType? info field) := by
  have hshaped := hunits _ (List.mem_of_getElem? (mem_inputs hc).1)
  obtain ⟨hspace, hdotted, text, htext, htype⟩ := type_of_mem_membersAt hof hf
  have hmem := mem_membersOf_of_typeMembers hq hf
  have hsame : ∀ f' ∈ c.membersOf owner decl, f'.space = .value → f'.name = f.name →
      f'.key = f.key := by
    intro f' hf' hspace' hname
    cases formed_of_mem_membersOf hshaped hdecl hf' with
    | method hmethod => cases hspace'.symm.trans hmethod
    | value _ _ hdotted' => rw [hdotted', hname, hdotted]
  -- the scopes around are those of the type first
  obtain ⟨homes, hsettled⟩ := exists_settled hshaped hm hrest
  have hhead := (innermost?_eq hsettled.frames).symm.trans howner
  cases homes with
  | nil => cases hhead
  | cons home homes =>
    obtain ⟨place, key⟩ := home
    obtain rfl : key = owner := Option.some.inj hhead
    obtain ⟨hp, hplace⟩ := hsettled.housed.declared _ List.mem_cons_self
    obtain rfl : place = decl := (eq_of_typeKeys_nodup hkeys hc hc hp hdecl hplace hkey).2
    obtain ⟨s, s', binding, hhosts, hfound, hvalue⟩ := hsettled.housed.exists_lookup?
      (m := f) hmem hspace (Nat.le_of_lt hsettled.ready.lt_size)
    have hlookup : m.state.table.scopes.lookup? m.state.scope .value f.name = some (s, binding) :=
      hfound
    obtain ⟨id, hid, rfl⟩ : ∃ id, m.state.table.idOf? f.key = some id ∧ binding = .symbol id := by
      rcases hvalue with (htype | ⟨-, id, s, rfl, hs, v, hv, hvariable⟩)
        | ⟨f', hf', hspace', id, hid, heq⟩
      · cases htype
      · refine absurd ?_ (hvisible _ _ hlookup v hv)
        rw [hvariable, keyOfSymbol, hs]
        rfl
      · obtain ⟨-, hname, hbinding⟩ := Definition.mk.inj heq
        exact ⟨id, hsame f' hf' hspace' hname.symm ▸ hid, hbinding⟩
    obtain ⟨symbol, hsymbol, hsymbolKey⟩ := Symbols.exists_symbol?_of_idOf? hid
    -- the index has the field under its name
    have hmirrors := mirrors_of_type? hunits hc hkeys hdecl hkey hinfo
    obtain ⟨field, hfield⟩ := Option.ne_none_iff_exists'.mp (hmirrors.present f hmem hspace)
    obtain ⟨f', hf', hspace', hname, hfieldKey, hfieldText⟩ := hmirrors.fields _ _ hfield
    rw [hsame f' hf' hspace' hname] at hfieldKey
    refine ⟨id, field, ?_, hfield, fun p => ?_, fun p object hthis => ?_, ?_⟩
    · rw [keyOfSymbol, hsymbol, Option.map_some, Option.getD_some, hsymbolKey, hdotted]
    · rw [ordinaryMeaning, hlookup]
    · have htyped : m.state.inferredType? c object = some { base := .known key } := by
        simp [inferredType?, hthis, howner]
      simp [htyped, accessMeaning, typeOf?, setType, StaticType.memberOwner?, knownMemberMeaning,
        Index.findField?_of_own hinfo hfield, fieldMeaning, target, ← hfieldKey, hid]
    · intro hfields hvar hvariable hagrees
      obtain rfl := eq_of_field_name hfields hmem hf' hspace hspace' hname
      obtain rfl : text = field.typeText := Option.some.inj (htext.symm.trans hfieldText)
      obtain ⟨id', hknows⟩ := hhosts.known f' hmem
      obtain rfl : id' = id := Option.some.inj (hknows.idOf?.symm.trans hid)
      exact symbolTypes_of_agrees hunits hkeys hc hp hplace hinfo hfields hmem hspace htype
        hsettled.noted hknows hvar hvariable hagrees

end Alike

/-- A field of the class that declares it, with and without `this` in a method. -/
theorem field_alike_parameterField :
    let c : BindingInput := ⟨Sample.parameterField, 0, Index.build [Sample.parameterField]⟩
    ∃ m ∈ moments c, m.AtRest ∧ m.state.innermost? = some "A" ∧ ∃ id type,
      m.state.keyOfSymbol id = "A.n"
        ∧ (∀ p, ordinaryMeaning c p "n" m.state = (some (.symbol id), some type))
        ∧ ∀ p object, object.kind = "this" →
          accessMeaning c p object "n" (m.state.setType object (m.state.inferredType? c object))
            = (some (.symbol id), some type) := by
  intro c
  have hunits : ∀ u ∈ [Sample.parameterField], u.shapedOK = true := by decide +kernel
  have hc : c ∈ inputs [Sample.parameterField] := mem_inputs_of_getElem? rfl
  obtain ⟨decl, hdecl, hkey, hnodup, q, hq, hkind, typeNode, htypeNode, f, hf, hname⟩ :
      ∃ decl ∈ c.unit.root.places, c.index.typeAt? c.number decl = some "A"
        ∧ (((c.membersOf "A" decl).filter (·.space = .value)).map (·.name)).Nodup
        ∧ ∃ q ∈ decl.typeMembers, q.kind = "field_declaration" ∧ ∃ t ∈ q.child? "type",
          ∃ f ∈ membersAt c "A" q, f.name = "n" := by
    decide +kernel
  have hof : Construct.of q = .field typeNode := by
    simp [Construct.of, Construct.of?, hkind, Option.mem_def.mp htypeNode]
  obtain ⟨m, hm, hrest, howner, hlookup, hvisible⟩ : ∃ m ∈ moments c, m.AtRest
      ∧ m.state.innermost? = some "A"
      ∧ m.state.table.scopes.lookup? m.state.scope .value "n" = some (1, .symbol 1)
      ∧ ∀ v ∈ moments c, v.variable? c ≠ some ("n", m.state.keyOfSymbol 1) := by
    decide +kernel
  have hknown : ((c.index.type? "A").bind fun info => info.fields["n"]?.map fun field =>
      (field.typeText, c.index.fieldType? info field)) = some ("A", some { base := .known "A" }) := by
    decide +kernel
  have hagrees : ∀ d ∈ c.typeDeclarations, c.meant? "A" d.2 = some (.known "A") := by decide +kernel
  obtain ⟨info, hinfo, hknown⟩ := Option.bind_eq_some_iff.mp hknown
  obtain ⟨id, field, hid, hfield, hbare, hthis, htype⟩ := field_alike hunits (by decide +kernel) hc
    hdecl hkey hinfo hq hof hf hm hrest howner fun scope id h => by
      rw [hname, hlookup] at h
      cases h
      rwa [hname]
  rw [hname] at hid hfield hbare hthis
  rw [hfield, Option.map_some, Option.some.injEq, Prod.mk.injEq] at hknown
  rw [hknown.1, hknown.2] at htype
  rw [htype hnodup (by decide +kernel) (fun h => by cases h) fun key => hagrees _] at hbare
  exact ⟨m, hm, hrest, howner, id, _, hid, hbare, hknown.2 ▸ hthis⟩

/-- A field whose type is a local class of the method around, used with and without `this`. -/
def Sample.localField : SourceUnit where
  path := "A.java"
  source := "class A\x7bvoid m()\x7bclass K\x7bint v;\x7dclass L\x7bK x;void f()\x7bx.v=1;this.x.v=2;"
    ++ "\x7d\x7d\x7d\x7d"
  root := open Sample in
    node 0 "program" 0 74 none [
     node 1 "class_declaration" 0 74 none [mark 2 "class" 0 5, name 3 6 7 "name",
      node 4 "class_body" 7 74 (some "body") [mark 5 "\x7b" 7 8,
       node 6 "method_declaration" 8 73 none [node 7 "void_type" 8 12 (some "type") [],
        name 8 13 14 "name",
        node 9 "formal_parameters" 14 16 (some "parameters") [mark 10 "(" 14 15, mark 11 ")" 15 16],
        node 12 "block" 16 73 (some "body") [mark 13 "\x7b" 16 17,
         node 14 "class_declaration" 17 32 none [mark 15 "class" 17 22, name 16 23 24 "name",
          node 17 "class_body" 24 32 (some "body") [mark 18 "\x7b" 24 25,
           node 19 "field_declaration" 25 31 none [
            node 20 "integral_type" 25 28 (some "type") [mark 21 "int" 25 28],
            node 22 "variable_declarator" 29 30 (some "declarator") [name 23 29 30 "name"],
            mark 24 ";" 30 31], mark 25 "\x7d" 31 32]],
         node 26 "class_declaration" 32 72 none [mark 27 "class" 32 37, name 28 38 39 "name",
          node 29 "class_body" 39 72 (some "body") [mark 30 "\x7b" 39 40,
           node 31 "field_declaration" 40 44 none [node 32 "type_identifier" 40 41 (some "type") [],
            node 33 "variable_declarator" 42 43 (some "declarator") [name 34 42 43 "name"],
            mark 35 ";" 43 44],
           node 36 "method_declaration" 44 71 none [node 37 "void_type" 44 48 (some "type") [],
            name 38 49 50 "name",
            node 39 "formal_parameters" 50 52 (some "parameters") [mark 40 "(" 50 51,
             mark 41 ")" 51 52],
            node 42 "block" 52 71 (some "body") [mark 43 "\x7b" 52 53,
             node 44 "expression_statement" 53 59 none [
              node 45 "assignment_expression" 53 58 none [
               node 46 "field_access" 53 56 (some "left") [name 47 53 54 "object",
                mark 48 "." 54 55, name 49 55 56 "field"], mark 50 "=" 56 57,
               node 51 "decimal_integer_literal" 57 58 (some "right") []], mark 52 ";" 58 59],
             node 53 "expression_statement" 59 70 none [
              node 54 "assignment_expression" 59 69 none [
               node 55 "field_access" 59 67 (some "left") [
                node 56 "field_access" 59 65 (some "object") [
                 node 57 "this" 59 63 (some "object") [], mark 58 "." 63 64, name 59 64 65 "field"],
                mark 60 "." 65 66, name 61 66 67 "field"], mark 62 "=" 67 68,
               node 63 "decimal_integer_literal" 68 69 (some "right") []], mark 64 ";" 69 70],
             mark 65 "\x7d" 70 71]], mark 66 "\x7d" 71 72]], mark 67 "\x7d" 72 73]],
       mark 68 "\x7d" 73 74]]]

/-- The scopes know the local class, the index does not: the member of the bare field is found, and
the member of the same field behind `this` is not. -/
theorem field_of_local_type_apart :
    let u := Sample.localField
    let t := Symbols.ofUnit .empty .preserve ⟨u, 0, Index.build [u]⟩
    u.shapedOK = true
      ∧ ∃ p ∈ u.root.places, ∃ q ∈ u.root.places, u.text p = "v" ∧ u.text q = "v"
        ∧ p.parent?.map u.text = some "x.v" ∧ q.parent?.map u.text = some "this.x.v"
        ∧ t.keyOf? p = some ("A.m().K.v", .valid) ∧ t.keyOf? q = some ("K.v", .missing) := by
  decide +kernel

end Legible
