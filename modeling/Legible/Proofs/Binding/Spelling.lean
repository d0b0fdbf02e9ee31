import Legible.Proofs.Binding.Courses
import Legible.Proofs.Index.Spelling
import Legible.Proofs.Naming.Hygiene
import Legible.Proofs.Survey.Recorded

/-!
# Symbols are over the alphabet of the sources

A traversal puts keys and types together from texts of the unit, names of the index and what it
noted before (`Binder.Over`). Each rule keeps this (`Introduces.over`), so the declared types of all
symbols are over the alphabet of the sources, and the names that are chosen for them are too
(`over_chosenName`): those of a dictionary are identifiers, and the others come from the types.
-/

namespace Legible

open Binder Text

variable {S : Char → Prop} {c : BindingInput} {s : Symbol} {name key : String} {m : Member}
  {t element : StaticType}

/-! ## States -/

/-- What a symbol is known by, and the type that a name can be derived from, are over the
alphabet. -/
structure Symbol.Over (S : Char → Prop) (s : Symbol) : Prop where
  key : Text.Over S s.key
  declaredType : ∀ type, s.declaredType = some type → Text.Over S type

/-- Whatever names and types a traversal has found so far are over the alphabet. -/
structure Binder.Over (S : Char → Prop) (b : Binder) : Prop where
  symbol : ∀ id s, b.table.symbol? id = some s → s.Over S
  frame : ∀ frame ∈ b.frames, Text.Over S frame.name
  member : ∀ key ∈ b.members, Text.Over S key
  type : ∀ (n : Nat) (t : StaticType), b.types[n]? = some t → t.Over S
  symbolType : ∀ (id : SymbolId) (t : StaticType), b.symbolTypes[id]? = some t → t.Over S

/-- What a binding reads is over the alphabet. -/
structure BindingInput.Over (S : Char → Prop) (c : BindingInput) : Prop where
  unit : c.unit.Over S
  index : c.index.Over S

namespace Binder.Over

variable {b : Binder} {type : Option StaticType} {found : Option Resolution × Option StaticType}
  {declaredType : Option String}

theorem new : ({} : Binder).Over S where
  symbol := by simp [Symbols.new, Symbols.symbol?]
  frame := nofun
  member := nofun
  type := by simp
  symbolType := by simp

variable (h : b.Over S)

include h

theorem setType (p : Place) (htype : ∀ t, type = some t → t.Over S) :
    (b.setType p type).Over S := by
  cases type with
  | none => exact h
  | some t =>
    refine { h with type := fun n t' ht' => ?_ }
    simp only [Binder.setType, Std.TreeMap.getElem?_insert] at ht'
    split at ht'
    · exact Option.some.inj ht' ▸ htype t rfl
    · exact h.type n t' ht'

theorem setSymbolType (id : SymbolId) (htype : ∀ t, type = some t → t.Over S) :
    (b.setSymbolType id type).Over S := by
  cases type with
  | none => exact h
  | some t =>
    refine { h with symbolType := fun n t' ht' => ?_ }
    simp only [Binder.setSymbolType, Std.TreeMap.getElem?_insert] at ht'
    split at ht'
    · exact Option.some.inj ht' ▸ htype t rfl
    · exact h.symbolType n t' ht'

theorem addSymbol (hs : s.Over S) : (b.addSymbol s).1.Over S := by
  refine { h with symbol := fun id s' hs' => ?_ }
  rcases Symbols.symbol?_add hs' with hs' | ⟨-, rfl⟩
  · exact h.symbol id s' hs'
  · exact hs

theorem bind (space : Namespace) (name : String) (binding : Binding) :
    (b.bind space name binding).Over S :=
  { h with }

theorem resolve (p : Place) (r : Resolution) : (b.resolve p r).Over S := { h with }

theorem give (p access : Place) (htype : ∀ t, found.2 = some t → t.Over S) :
    (b.give p access found).Over S := by
  refine setType ?_ access htype
  cases found.1 with
  | none => exact h
  | some r => exact h.resolve p r

theorem innermost? (hname : b.innermost? = some name) : Text.Over S name := by
  obtain ⟨frame, hframe, rfl⟩ := Option.map_eq_some_iff.mp hname
  exact h.frame frame (List.mem_of_head? hframe)

theorem variableKey (hS : Alphabet S) (kind : SymbolKind) (hname : Text.Over S name) :
    Text.Over S (b.variableKey kind name) := by
  have hmember : Text.Over S b.currentMember := by
    unfold Binder.currentMember
    split
    · next key rest hmembers => exact h.member key (hmembers ▸ List.mem_cons_self ..)
    · refine over_initializerKey hS ?_ false
      unfold Binder.innermost
      cases hinner : b.innermost? with
      | none => exact .empty
      | some name => exact h.innermost? hinner
  have hstem := (hmember.append (.literal (s := ".") hS (by decide))).append hname
  unfold Binder.variableKey
  split
  · exact hstem.append (.literal hS (by decide))
  · exact ((hstem.append (.literal hS (by decide))).append (.number hS _)).append
      (.literal hS (by decide))

theorem declareType (hkey : Text.Over S key) (name : String) :
    (b.declareType key name).1.Over S := by
  have hsymbol : Symbol.Over S { key, kind := .type, declaredName := name } := ⟨hkey, nofun⟩
  unfold Binder.declareType
  split
  · exact h
  · exact (h.addSymbol hsymbol).bind ..

theorem declare (hkey : Text.Over S m.key)
    (hdeclared : ∀ type, m.declaredType = some type → Text.Over S type)
    (htype : ∀ t, m.type b = some t → t.Over S) : (b.declare m).Over S := by
  have hsymbol : Symbol.Over S
      { key := m.key, kind := m.kind, declaredName := m.name, declaredType := m.declaredType } :=
    ⟨hkey, hdeclared⟩
  have hadded := h.addSymbol hsymbol
  unfold Binder.declare
  refine setSymbolType ?_ _ htype
  cases m.accessor <;> cases m.arity <;> exact { hadded with }

theorem declareVariable (hS : Alphabet S) (hc : c.Over S) (p : Place) (kind : SymbolKind)
    (hdeclared : ∀ text, declaredType = some text → Text.Over S text)
    (htype : ∀ t, type = some t → t.Over S) :
    (b.declareVariable c p kind declaredType type).Over S := by
  have hsymbol : Symbol.Over S
      { key := b.variableKey kind (c.unit.text p), kind, declaredName := c.unit.text p,
        declaredType } :=
    ⟨h.variableKey hS kind (hc.unit.text p), hdeclared⟩
  have hcounted : (if kind = .parameter then b
      else b.countLocal b.currentMember (c.unit.text p)).Over S := by
    split
    · exact h
    · exact { h with }
  unfold Binder.declareVariable
  dsimp only
  cases c.unit.text p == "_" with
  | true => exact h.resolve p .keep
  | false => exact setSymbolType (((hcounted.addSymbol hsymbol).bind ..).resolve ..) _ htype

end Binder.Over

/-! ## What names and expressions are found to be -/

theorem StaticType.Over.element? (h : t.Over S) (helement : t.element? = some element) :
    element.Over S := by
  unfold StaticType.element? at helement
  split at helement
  · cases helement
  · cases helement
    exact h

theorem StaticType.Over.describe (h : t.Over S) (hS : Alphabet S) : Text.Over S t.describe :=
  (Text.Over.simpleName h).append (.brackets hS t.dims)

namespace Binder.Over

section Meanings

variable {b : Binder} {c : BindingInput} {text : String} {type : StaticType} (h : b.Over S)
  (hS : Alphabet S) (hc : c.Over S)

include h hS hc

variable {p : Place}

theorem lookupType? (htext : Text.Over S text) {type : TypeRef}
    (htype : b.lookupType? c text = some type) : type.Over S := by
  refine hc.index.of_cases hS ?_ htext.trim (lookupType?_cases htype)
  rintro key ⟨scope, id, -, rfl⟩
  unfold Binder.keyOfSymbol
  cases hsymbol : b.table.symbol? id with
  | none => exact .empty
  | some s => exact (h.symbol id s hsymbol).key

theorem staticType? (htext : Text.Over S text) (htype : b.staticType? c text = some type) :
    type.Over S := by
  simp only [Binder.staticType?] at htype
  split at htype
  · cases htype
  · obtain ⟨base, hbase, rfl⟩ := Option.map_eq_some_iff.mp htype
    exact h.lookupType? hS hc htext.splitDims hbase

theorem writtenType? (htype : b.writtenType? c p = some type) : type.Over S := by
  obtain ⟨t, -, htype⟩ := Option.bind_eq_some_iff.mp htype
  exact h.staticType? hS hc (hc.unit.typeText t) htype

omit hS hc in
theorem typeOf? {p : Option Place} (htype : p.bind b.typeOf? = some type) : type.Over S := by
  obtain ⟨q, -, htype⟩ := Option.bind_eq_some_iff.mp htype
  exact h.type q.number type htype

theorem inferredType? (htype : b.inferredType? c p = some type) : type.Over S := by
  have hwritten : ∀ {text : String}, text.toList.all isPrintable = true →
      some { base := .external text } = some type ∨ some { base := .primitive text } = some type →
      type.Over S := by
    rintro text htext (heq | heq) <;> cases heq <;> exact .literal hS htext
  unfold Binder.inferredType? at htype
  split at htype
  case h_1 =>
    obtain ⟨name, hname, rfl⟩ := Option.map_eq_some_iff.mp htype
    exact h.innermost? hname
  case h_2 | h_3 => exact hwritten (by decide) (.inl htype)
  case h_4 | h_5 | h_6 => exact hwritten (by decide) (.inr htype)
  case h_7 | h_8 | h_9 | h_10 | h_11 | h_12 =>
    refine hwritten ?_ (.inr htype)
    split <;> decide
  case h_13 | h_16 => exact h.typeOf? htype
  case h_14 => exact h.writtenType? hS hc htype
  case h_15 =>
    obtain ⟨array, harray, htype⟩ := Option.bind_eq_some_iff.mp htype
    exact (h.typeOf? harray).element? htype
  case h_17 =>
    obtain ⟨element, helement, rfl⟩ := Option.map_eq_some_iff.mp htype
    have helement := h.writtenType? hS hc helement
    exact helement
  case h_18 => cases htype

omit h in
theorem fieldMeaning {owner : String} {found : TypeInfo × FieldInfo}
    (hfound : c.index.findField? owner name = some found)
    (ht : (Binder.fieldMeaning c found b).2 = some t) : t.Over S :=
  hc.index.fieldType? hS hfound ht

theorem nameMeaning (ht : (Binder.nameMeaning c p b).2 = some t) : t.Over S := by
  have hcases := nameMeaning_cases c b p
  generalize Binder.nameMeaning c p b = meaning at ht hcases
  cases hcases with
  | value => exact h.symbolType _ t ht
  | field hfound => exact fieldMeaning hS hc hfound ht
  | type htype | outerType htype =>
    cases ht
    exact h.lookupType? hS hc (hc.unit.text p) htype
  | _ => cases ht

theorem accessMeaning {object : Place} (ht : (Binder.accessMeaning c p object name b).2 = some t) :
    t.Over S := by
  unfold Binder.accessMeaning at ht
  split at ht
  · unfold Binder.qualifiedMeaning at ht
    dsimp only at ht
    split at ht
    · next type htype =>
        cases ht
        split at htype
        · exact h.lookupType? hS hc (hc.unit.typeText p) htype
        · cases htype
    · cases ht
  · split at ht
    · unfold Binder.knownMemberMeaning at ht
      split at ht
      · next found hfound => exact fieldMeaning hS hc hfound ht
      · split at ht
        · next nested hnested =>
            cases ht
            exact hc.index.findMemberType? hnested
        · cases ht
    · cases ht
    · cases ht

omit h in
theorem superMeaning (ht : (Binder.superMeaning c name b).2 = some t) : t.Over S := by
  simp only [Binder.superMeaning] at ht
  split at ht
  · next found hfound =>
      obtain ⟨type, -, hfound⟩ := List.exists_of_findSome?_eq_some hfound
      obtain ⟨owner, -, hfound⟩ := Option.bind_eq_some_iff.mp hfound
      exact fieldMeaning hS hc hfound ht
  · cases ht

end Meanings

end Binder.Over

/-! ### Calls -/

def CallTarget.Over (S : Char → Prop) : CallTarget → Prop
  | .found _ returns => ∀ t, returns = some t → t.Over S
  | _ => True

section Calls

variable {b : Binder} {c : BindingInput} {method : String} {args : List (Option StaticType)}
  {object : Option Place} {info : TypeInfo} {arguments : Place} (hS : Alphabet S) (hc : c.Over S)

include hS hc

theorem over_foundMethod {owner : String} {m : MethodInfo}
    (hfound : c.index.findMethod owner method args = .found info m) :
    (foundMethod c info m).Over S := by
  obtain ⟨hinfo, hm, -⟩ := Index.mem_of_findMethod hfound
  exact fun t ht => hc.index.returnType? hS hinfo hm ht

theorem over_returnTypeByKey? (ht : b.returnTypeByKey? c key = some t) : t.Over S := by
  obtain ⟨frame, -, ht⟩ := List.exists_of_findSome?_eq_some ht
  obtain ⟨info, hinfo, ht⟩ := List.exists_of_findSome?_eq_some ht
  obtain ⟨m, hm, ht⟩ := Option.bind_eq_some_iff.mp ht
  exact hc.index.returnType? hS hinfo (List.mem_of_find?_eq_some hm) ht

theorem over_callTarget (object : Option Place) : (b.callTarget c object method args).Over S := by
  generalize htarget : b.callTarget c object method args = target
  have htargets : Targets c b method args target := htarget ▸ targets_callTarget object
  cases htargets with
  | inherited hfound => exact over_foundMethod hS hc hfound
  | inScope => exact fun t ht => over_returnTypeByKey? hS hc ht
  | missing => trivial
  | unknown => trivial

theorem Binder.Over.callMeaning {name : Place}
    (ht : (Binder.callMeaning c object name arguments b).2 = some t) : t.Over S := by
  simp only [Binder.callMeaning] at ht
  have htarget : (b.callTarget c object (c.unit.text name)
      (arguments.namedChildren.map b.typeOf?)).Over S := over_callTarget hS hc object
  split at ht
  · next key returns heq =>
      rw [heq] at htarget
      exact htarget t ht
  · cases ht
  · cases ht

end Calls

/-! ## The rules -/

section Rules

variable {b b' : Binder} {c : BindingInput}
  {meaning : Binder → Option Resolution × Option StaticType}
  {types : Binder → Option String × Option StaticType} {visit : Visit} {locals : List Place}
  {ms : List Moment} (hS : Alphabet S) (hc : c.Over S)

include hS hc

variable {owner : String}

theorem MemberMeaning.over (h : MemberMeaning c meaning) (hb : b.Over S)
    (ht : (meaning b).2 = some t) : t.Over S := by
  cases h with
  | ofSuper => exact Binder.Over.superMeaning hS hc ht
  | access => exact hb.accessMeaning hS hc ht
  | call => exact Binder.Over.callMeaning hS hc ht

theorem NotedType.over {type : Binder → Option StaticType} (h : NotedType c type) (hb : b.Over S)
    (ht : type b = some t) : t.Over S := by
  cases h with
  | ofPlace q => exact hb.type q.number t ht
  | written type => exact hb.staticType? hS hc (hc.unit.typeText type) ht
  | inferred => exact hb.inferredType? hS hc ht

theorem VariableTypes.over (h : VariableTypes c types) (hb : b.Over S) :
    (∀ text, (types b).1 = some text → Text.Over S text)
      ∧ ∀ t, (types b).2 = some t → t.Over S := by
  cases h with
  | written h =>
    have htext : ∀ text ∈ _, Text.Over S text := fun text htext => by
      rcases h text htext with ⟨p, hp⟩ | ⟨type, dims, rfl⟩
      · exact hc.unit.parameterType? hS hp
      · exact hc.unit.typeBrackets hS type dims
    refine ⟨htext, fun t ht => ?_⟩
    obtain ⟨text, hmem, ht⟩ := Option.bind_eq_some_iff.mp ht
    exact hb.staticType? hS hc (htext text hmem) ht
  | inferred value =>
    refine ⟨fun text htext => ?_, fun t ht => hb.typeOf? ht⟩
    obtain ⟨type, htype, rfl⟩ := Option.map_eq_some_iff.mp htext
    exact (hb.typeOf? htype).describe hS
  | loop type value =>
    have helement : ∀ t, (b.typeOf? value).bind (·.element?) = some t → t.Over S := by
      intro t ht
      obtain ⟨array, harray, ht⟩ := Option.bind_eq_some_iff.mp ht
      exact (hb.type value.number array harray).element? ht
    unfold loopTypes
    split
    · refine ⟨fun text htext => ?_, helement⟩
      obtain ⟨element, hmem, rfl⟩ := Option.map_eq_some_iff.mp htext
      exact (helement element hmem).describe hS
    · have htype := hc.unit.typeText type
      exact ⟨fun text htext => Option.some.inj htext ▸ htype,
        fun t ht => hb.staticType? hS hc htype ht⟩

theorem InnerKey.over {owner : Option String} (h : InnerKey c owner key)
    (howner : ∀ name ∈ owner, Text.Over S name) : Text.Over S key := by
  cases h with
  | initializer isStatic =>
    refine over_initializerKey hS ?_ isStatic
    cases owner with
    | none => exact .empty
    | some name => exact howner name rfl
  | method hname p => exact over_memberKey hS hc.unit (howner _ hname) p

theorem over_componentMembers (howner : Text.Over S owner) {p : Place}
    (hm : m ∈ componentMembers c owner p) (hb : b.Over S) : (b.declare m).Over S := by
  obtain ⟨params, -, hm⟩ := List.mem_flatMap.mp hm
  obtain ⟨param, -, hm⟩ := List.mem_filterMap.mp hm
  split at hm
  · next name type _ htype =>
      have htype := hc.unit.parameterType? hS htype
      cases hm
      exact hb.declare ((howner.append (.literal hS (by decide))).append (hc.unit.text name))
        (fun text htext => Option.some.inj htext ▸ htype)
        fun t ht => hb.staticType? hS hc htype ht
  · cases hm

theorem over_membersAt (howner : Text.Over S owner) {p : Place} (hm : m ∈ membersAt c owner p)
    (hb : b.Over S) : (b.declare m).Over S := by
  have hfield : ∀ name : Place, Text.Over S (owner ++ "." ++ c.unit.text name) := fun name =>
    (howner.append (.literal hS (by decide))).append (hc.unit.text name)
  unfold membersAt at hm
  split at hm
  · next type _ =>
      obtain ⟨⟨d, name⟩, -, rfl⟩ := List.mem_map.mp hm
      have htype := hc.unit.typeBrackets hS type (dimensionCount (d.child? "dimensions"))
      exact hb.declare (hfield name) (fun text htext => Option.some.inj htext ▸ htype)
        fun t ht => hb.staticType? hS hc htype ht
  · next name _ _ =>
      obtain rfl := List.mem_singleton.mp hm
      exact hb.declare (hfield name) (fun text htext => Option.some.inj htext ▸ howner)
        fun t ht => Option.some.inj ht ▸ howner
  · obtain rfl := List.mem_singleton.mp hm
    refine hb.declare (over_memberKey hS hc.unit howner p) ?_ nofun
    intro text htext
    obtain ⟨type, -, rfl⟩ := Option.map_eq_some_iff.mp htext
    exact hc.unit.typeText type
  · obtain rfl := List.mem_singleton.mp hm
    exact hb.declare (over_memberKey hS hc.unit howner p) nofun nofun
  · cases hm

theorem Ahead.over {s : Step} (h : Ahead c owner s)
    (howner : ∀ m, s = .declareMember m → Text.Over S owner) (hb : b.Over S) :
    (s.run c visit b).Over S := by
  cases h with
  | typeVariable =>
    rw [Step.run]
    exact hb.bind ..
  | type _ _ hkey =>
    rw [Step.run]
    exact hb.declareType (hc.index.declared _ _ _ hkey) _
  | @member m _ hm =>
    rw [Step.run]
    obtain ⟨p, hm | hm⟩ := hm
    · exact over_membersAt hS hc (howner m rfl) hm hb
    · exact over_componentMembers hS hc (howner m rfl) hm hb

/-- A traversal keeps its state over the alphabet. -/
theorem Course.over {owner : Option String} (h : Course c owner locals b b' ms)
    (howner : ∀ name ∈ owner, Text.Over S name) (hb : b.Over S) : b'.Over S := by
  induction h with
  | idle => exact hb
  | trans _ _ _ ih ih' => exact ih' howner (ih howner hb)
  | visit _ _ _ ih => exact ih (fun name hname => hb.innermost? hname) hb
  | @name _ q access _ h _ b =>
    refine hb.give q access fun t ht => ?_
    cases h with
    | untyped h => cases (h b).symm.trans ht
    | name _ h => exact hb.nameMeaning hS hc (h ▸ ht)
    | expression _ _ h => exact h.over hS hc hb ht
  | note _ _ h => exact hb.setType _ fun t ht => h.over hS hc hb ht
  | declare h hs => exact h.over hS hc (fun m hm => absurd hm (hs m)) hb
  | parameter _ h =>
    exact hb.declareVariable hS hc _ _ (h.over hS hc hb).1 (h.over hS hc hb).2
  | localVariable _ h _ _ _ ih =>
    exact (ih howner hb).declareVariable hS hc _ _ (h.over hS hc hb).1 (h.over hS hc hb).2
  | inMember hkey _ ih =>
    have hinside := ih howner
      { hb with member := List.forall_mem_cons.mpr ⟨hkey.over hS hc howner, hb.member⟩ }
    exact { hinside with member := fun key hmem => hinside.member key (List.mem_of_mem_tail hmem) }
  | inScope _ _ _ ih | inSwitch _ ih =>
    have hinside := ih howner { hb with }
    exact { hinside with }
  | @inType _ _ b inside _ _ p key hp hkey frame hframe _ hinside visit _ _ _ ih =>
    have hkey := hc.index.declared _ _ _ hkey
    have hb' : inside.Over S := hinside ▸
      { hb with frame := List.forall_mem_cons.mpr ⟨hframe ▸ hkey, hb.frame⟩ }
    have hahead : (Step.runAll c visit (aheadSteps c key p) inside).Over S :=
      @momentsAll_induction c visit (fun _ _ => []) (fun b b' _ => b.Over S → b'.Over S)
        (fun _ hb => hb) (fun h h' hb => h' (h hb)) _
        (fun s hs _ => (ahead_aheadSteps hp key s hs).over hS hc fun _ _ => hkey) inside hb'
    have hinside := ih howner hahead
    exact { hinside with frame := fun frame hmem => hinside.frame frame (List.mem_of_mem_tail hmem) }

end Rules

/-! ## The symbols of a unit -/

theorem over_walked (hS : Alphabet S) (hc : c.Over S) : (walked c).Over S :=
  (course_moments c).over hS hc nofun .new

namespace Symbols

variable {d : Dictionary} {policy : NamingPolicy} {taken : List String} {symbols : List Symbol}
  {id : SymbolId}

theorem over_lookup? (hS : Alphabet S) (h : d.lookup? key = some name) : Text.Over S name := by
  have hname := Dictionary.isIdentifier_of_lookup? h
  rw [isIdentifier_eq, Bool.and_eq_true] at hname
  intro ch hch
  refine hS.identifier ch ?_
  cases hchars : name.toList with
  | nil => simp [hchars] at hch
  | cons first rest =>
    rw [hchars, spellsIdentifier, Bool.and_eq_true] at hname
    rw [hchars] at hch
    rcases List.mem_cons.mp hch with rfl | hch
    · simp [continuesIdentifier, hname.1.1]
    · exact List.all_eq_true.mp hname.1.2 ch hch

/-- The policy derives names over the alphabet from types over it. -/
theorem over_suggest (hS : Alphabet S) (h : ∀ type, s.declaredType = some type → Text.Over S type)
    (hname : policy.suggest taken s = some name) : Text.Over S name := by
  obtain ⟨type, base, k, htype, hbase, rfl, -⟩ := NamingPolicy.exists_candidate_of_suggest hname
  exact over_candidate hS (over_baseName hS (h type htype) hbase) k

theorem over_nameByPolicy (hS : Alphabet S)
    (h : ∀ s ∈ symbols, s.Over S ∧ ∀ name, s.chosenName = some name → Text.Over S name) :
    ∀ s ∈ nameByPolicy policy taken symbols,
      ∀ name, s.chosenName = some name → Text.Over S name := by
  induction symbols generalizing taken with
  | nil => exact nofun
  | cons s rest ih =>
    obtain ⟨hs, hrest⟩ := List.forall_mem_cons.mp h
    unfold nameByPolicy
    split
    · next name hname =>
        refine List.forall_mem_cons.mpr ⟨fun name' hname' => ?_, ih hrest⟩
        cases hname'
        split at hname
        · cases hname
        · exact over_suggest hS hs.1.declaredType hname
    · exact List.forall_mem_cons.mpr ⟨hs.2, ih hrest⟩

/-- The names that are chosen for the symbols of a unit are over the alphabet of the sources. -/
theorem over_chosenName (hS : Alphabet S) (hc : c.Over S)
    (hs : (ofUnit d policy c).symbol? id = some s) (hname : s.chosenName = some name) :
    Text.Over S name := by
  have hmem : s ∈ chooseNames d policy ((namePlaces c.unit).map c.unit.text)
      (found c).symbols.toList := by
    rw [symbol?, symbols_ofUnit, List.getElem?_toArray] at hs
    exact List.mem_of_getElem? hs
  refine over_nameByPolicy hS (fun s hs => ?_) s hmem name hname
  obtain ⟨s, hfound, rfl⟩ := List.mem_map.mp hs
  obtain ⟨id, hid⟩ := List.mem_iff_getElem?.mp hfound
  have hid : (found c).symbol? id = some s := by rw [symbol?, ← Array.getElem?_toList, hid]
  have hover : s.Over S := (over_walked hS hc).symbol id s (symbol?_found id ▸ hid)
  unfold nameByDictionary
  split
  · next name hname =>
      exact ⟨⟨hover.key, hover.declaredType⟩, fun name' h => Option.some.inj h ▸ over_lookup? hS hname⟩
  · exact ⟨hover, fun name h => by rw [chosenName_found hid] at h; cases h⟩

end Symbols

end Legible
