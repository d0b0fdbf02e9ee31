import Legible.Proofs.Binding.ValidKeys

/-!
# Members in the index

The members of a type are known twice: the scopes have them, as they are declared ahead of the body,
and the index has them. Both come from the same places, so a method of the index is a member that a
call can mean, and a field of the index is a member with the type that is written there
(`TypeInfo.Mirrors`). If no two types have one key, this holds of what the index finds under the key
of a type (`mirrors_of_type?`).
-/

namespace Legible

open Binder

/-- The method is the member, and takes as many arguments. -/
structure MethodInfo.Mirrors (mi : MethodInfo) (m : Member) : Prop where
  isCallable : m.isCallable = true
  name : m.name = mi.name
  key : m.key = mi.key
  arity : ∃ a, m.arity = some a ∧ ∀ count, a.accepts count = mi.acceptsArity count

structure TypeInfo.Mirrors (owner : String) (ms : List Member) (info : TypeInfo) : Prop where
  qualifiedName : info.qualifiedName = owner
  methods : ∀ mi ∈ info.methods, mi.name = "<init>" ∨ ∃ m ∈ ms, mi.Mirrors m
  fields : ∀ name f, info.fields[name]? = some f → ∃ m ∈ ms, m.space = .value ∧ m.name = name
    ∧ m.key = f.key ∧ m.declaredType = some f.typeText
  present : ∀ m ∈ ms, m.space = .value → info.fields[m.name]? ≠ none

namespace TypeInfo.Mirrors

variable {owner : String} {ms : List Member} {info : TypeInfo} {m : Member} {mi : MethodInfo}

section

variable (h : info.Mirrors owner ms)

include h

theorem addField (hspace : m.space = .value) (hkey : m.key = owner ++ "." ++ m.name)
    {typeText : String} (htype : m.declaredType = some typeText) :
    (info.addField m.name typeText).Mirrors owner (ms ++ [m]) where
  qualifiedName := h.qualifiedName
  methods mi hmi := by
    refine (h.methods mi hmi).imp_right ?_
    rintro ⟨m, hm, hmirrors⟩
    exact ⟨m, List.mem_append_left _ hm, hmirrors⟩
  fields name f hf := by
    rw [TypeInfo.addField, Std.TreeMap.getElem?_insert] at hf
    split at hf
    · next hname =>
        cases hf
        have hname : m.name = name := Std.LawfulEqCmp.eq_of_compare hname
        refine ⟨m, by simp, hspace, hname, ?_, htype⟩
        rw [hkey, h.qualifiedName]
    · obtain ⟨m, hm, hrest⟩ := h.fields name f hf
      exact ⟨m, List.mem_append_left _ hm, hrest⟩
  present m' hm' hspace' := by
    rw [TypeInfo.addField, Std.TreeMap.getElem?_insert]
    split
    · simp
    · next hname =>
        rcases List.mem_append.mp hm' with hm' | hm'
        · exact h.present m' hm' hspace'
        · rw [List.mem_singleton.mp hm'] at hname
          exact absurd Std.ReflCmp.compare_self hname

theorem addMethod (hmi : mi.name = "<init>" ∨ ∃ m ∈ ms, mi.Mirrors m) :
    (info.addMethod mi).Mirrors owner ms where
  __ := h
  methods mi' hmi' := by
    rcases List.mem_append.mp hmi' with hmi' | hmi'
    · exact h.methods mi' hmi'
    · rwa [List.mem_singleton.mp hmi']

theorem withoutAccessor (mi : MethodInfo) :
    (SourceUnit.withoutAccessor info mi).Mirrors owner ms where
  __ := h
  methods mi' hmi' := h.methods mi' (List.mem_of_mem_filter hmi')

/-- A method is a member that no field is held of. -/
theorem method (hspace : m.space = .method) (hmi : mi.Mirrors m) :
    (info.addMethod mi).Mirrors owner (ms ++ [m]) where
  qualifiedName := h.qualifiedName
  methods mi' hmi' := by
    rcases List.mem_append.mp hmi' with hmi' | hmi'
    · refine (h.methods mi' hmi').imp_right ?_
      rintro ⟨m, hm, hmirrors⟩
      exact ⟨m, List.mem_append_left _ hm, hmirrors⟩
    · rw [List.mem_singleton.mp hmi']
      exact .inr ⟨m, by simp, hmi⟩
  fields name f hf := by
    obtain ⟨m, hm, hrest⟩ := h.fields name f hf
    exact ⟨m, List.mem_append_left _ hm, hrest⟩
  present m' hm' hspace' := by
    rcases List.mem_append.mp hm' with hm' | hm'
    · exact h.present m' hm' hspace'
    · rw [List.mem_singleton.mp hm', hspace] at hspace'
      cases hspace'

end

/-- Members are added one by one. -/
theorem foldl {α : Type} {add : TypeInfo → α → TypeInfo} {members : α → List Member} {xs : List α}
    (hstep : ∀ info ms, ∀ x ∈ xs, info.Mirrors owner ms →
      (add info x).Mirrors owner (ms ++ members x)) (h : info.Mirrors owner ms) :
    (xs.foldl add info).Mirrors owner (ms ++ xs.flatMap members) := by
  induction xs generalizing info ms with
  | nil => simpa using h
  | cons x xs ih =>
    rw [List.foldl_cons, List.flatMap_cons, ← List.append_assoc]
    exact ih (fun info ms y hy => hstep info ms y (List.mem_cons_of_mem _ hy))
      (hstep info ms x List.mem_cons_self h)

end TypeInfo.Mirrors

section Members

variable {c : BindingInput} {p : Place} {owner : String} {ms : List Member} {info : TypeInfo}

theorem mirrors_addMember (h : info.Mirrors owner ms) (c : BindingInput) (p : Place) :
    (c.unit.addMember info p).Mirrors owner (ms ++ membersAt c owner p) := by
  have hparts := Construct.partsOf_of p
  unfold membersAt
  split
  · next type hof =>
      simp only [SourceUnit.addMember, hof]
      rw [List.map_eq_flatMap]
      refine h.foldl fun info ms declarator _ h => ?_
      exact h.addField rfl rfl rfl
  · next name body hof =>
      simp only [SourceUnit.addMember, hof, h.qualifiedName]
      exact h.addField rfl rfl rfl
  · next name params body hof =>
      rw [hof] at hparts
      obtain ⟨-, hkind, -, -⟩ := hparts
      have hkind := hkind rfl
      simp only [SourceUnit.addMember, hof]
      refine (h.withoutAccessor _).method rfl ?_
      have hparams : c.unit.methodParameters p params = (params.map c.unit.parameterTypes).getD [] := by
        cases params <;> simp [SourceUnit.methodParameters, hkind]
      refine ⟨rfl, by simp [SourceUnit.methodInfo], by simp [SourceUnit.methodInfo, h.qualifiedName],
        _, rfl, fun count => ?_⟩
      simp [Arity.accepts, MethodInfo.acceptsArity, SourceUnit.methodInfo, hparams,
        SourceUnit.methodSpreads, hkind]
  · next name hof =>
      simp only [SourceUnit.addMember, hof]
      exact h.method rfl ⟨rfl, rfl, by rw [h.qualifiedName], _, rfl, fun count => rfl⟩
  · next hfield hconstant hmethod helement =>
      rw [List.append_nil]
      unfold SourceUnit.addMember
      split
      · next hof => exact absurd hof (hfield _)
      · next hof => exact absurd hof (hconstant _ _)
      · next isConstructor hof =>
          cases isConstructor with
          | false => exact absurd hof (hmethod _ _ _)
          | true => exact h.addMethod (.inl (by simp [SourceUnit.methodInfo]))
      · next hof => exact absurd hof (helement _)
      · exact ⟨h.qualifiedName, h.methods, h.fields, h.present⟩
      · exact h

theorem mirrors_addMembers (h : info.Mirrors owner ms) (c : BindingInput) (body : Place) :
    (c.unit.addMembers info body).Mirrors owner
      (ms ++ body.bodyMembers.flatMap (membersAt c owner)) :=
  h.foldl fun _ _ p _ h => mirrors_addMember h c p

/-- A component is a field, and the method that reads it. -/
theorem mirrors_addComponents (h : info.Mirrors owner ms) (c : BindingInput)
    (hkind : p.kind = "record_declaration") :
    (c.unit.addComponents info p).Mirrors owner (ms ++ componentMembers c owner p) := by
  unfold SourceUnit.addComponents SourceUnit.recordComponents componentMembers
  rw [outward_find?_record hkind, Option.bind_some]
  cases p.child? "parameters" with
  | none => simpa using h
  | some params =>
    simp only [Option.toList_some, List.flatMap_singleton]
    induction params.namedChildren generalizing info ms with
    | nil => simpa using h
    | cons param rest ih =>
      rw [List.filterMap_cons, List.filterMap_cons]
      cases hname : param.declaredName? with
      | none => cases c.unit.parameterType? param <;> exact ih h
      | some name =>
        cases c.unit.parameterType? param with
        | none => exact ih h
        | some type =>
          rw [List.append_cons]
          refine ih ((h.addField rfl rfl rfl).addMethod (.inr ⟨_, List.mem_append_right _
            (List.mem_singleton_self _), ?_⟩))
          exact ⟨rfl, rfl, by rw [h.qualifiedName], _, rfl, fun _ => rfl⟩

/-- What the walk enters for a type are the members that are declared there. -/
theorem mirrors_of_made {e : Indexing.Entry} (h : e.Made c.unit 0 c.unit.imports) :
    e.info.Mirrors e.info.qualifiedName (c.membersOf e.info.qualifiedName e.place) := by
  have hempty : ∀ {info : TypeInfo} {owner : String}, info.qualifiedName = owner →
      info.methods = [] → info.fields = ∅ → info.Mirrors owner [] := fun hname hmethods hfields =>
    { qualifiedName := hname
      methods := fun mi hmi => by simp [hmethods] at hmi
      fields := fun name f hf => by simp [hfields] at hf
      present := fun m hm => by cases hm }
  cases h with
  | @named p name body around kind hof =>
    rw [(declaredType_qualifiedName ..).1, BindingInput.membersOf, hof]
    simp only [Indexing.declaredType]
    refine mirrors_addMembers ?_ c body
    split
    · next hrecord =>
        subst hrecord
        rw [← List.nil_append (componentMembers ..)]
        refine mirrors_addComponents ?_ c (kind_of_recordType hof)
        exact hempty rfl rfl rfl
    · exact hempty rfl rfl rfl
  | @unnamed p body around owner howner n superText hbody hnamed =>
    have hmembers : ∀ key, c.membersOf key p = body.bodyMembers.flatMap (membersAt c key) := by
      intro key
      unfold Place.typeBody? at hbody
      unfold BindingInput.membersOf
      split at hbody
      · next hof => exact absurd hof (hnamed _ _ _)
      · next hof =>
          cases hbody
          rw [hof]
      · next hof =>
          cases hbody
          rw [hof]
      · cases hbody
    rw [hmembers, Indexing.unnamedType, (addMembers_qualifiedName ..).1]
    rw [← List.nil_append (List.flatMap ..)]
    refine mirrors_addMembers ?_ c body
    exact hempty rfl rfl rfl

end Members

/-! ## Types that the index finds -/

def typeKeys (units : List SourceUnit) : List String :=
  (inputs units).flatMap fun c =>
    c.unit.root.places.flatMap fun p => (c.index.typeAt? c.number p).toList

section Build

variable {units : List SourceUnit} {c : BindingInput} {p : Place} {key : String} {info : TypeInfo}

/-- If no two types have one key, a key belongs to one place. -/
theorem eq_of_typeKeys_nodup (hkeys : (typeKeys units).Nodup) {c' : BindingInput} {p' : Place}
    (hc : c ∈ inputs units) (hc' : c' ∈ inputs units) (hp : c.Has p) (hp' : c'.Has p')
    (hkey : c.index.typeAt? c.number p = some key)
    (hkey' : c'.index.typeAt? c'.number p' = some key) : c = c' ∧ p = p' := by
  have hmem : key ∈ c.unit.root.places.flatMap fun p => (c.index.typeAt? c.number p).toList :=
    List.mem_flatMap.mpr ⟨p, hp, by simp [hkey]⟩
  have hmem' : key ∈ c'.unit.root.places.flatMap fun p => (c'.index.typeAt? c'.number p).toList :=
    List.mem_flatMap.mpr ⟨p', hp', by simp [hkey']⟩
  obtain rfl : c = c' := eq_of_nodup_flatMap hkeys hc hc' hmem hmem'
  have hnodup := (List.nodup_flatMap.mp hkeys).1 c hc
  exact ⟨rfl, eq_of_nodup_flatMap hnodup hp hp' (y := key) (by simp [hkey]) (by simp [hkey'])⟩

variable (hunits : ∀ u ∈ units, u.shapedOK = true) (hc : c ∈ inputs units)
  (hkeys : (typeKeys units).Nodup) (hp : c.Has p)

include hunits hc hkeys hp

/-- What the index finds under the key of a type was entered where the type is declared. -/
theorem exists_made_of_type? (hkey : c.index.typeAt? c.number p = some key)
    (hinfo : c.index.type? key = some info) :
    ∃ e : Indexing.Entry, e.Made c.unit 0 c.unit.imports ∧ e.place = p
      ∧ e.info.qualifiedName = key
      ∧ info = { e.info with unit := c.number, supertypes := info.supertypes } := by
  obtain ⟨hunit, hindex⟩ := mem_inputs hc
  rw [hindex] at hinfo
  obtain ⟨number, u, e, hu, hplace, hmade, hkey', hname, heq⟩ := exists_entry_of_type? hunits hinfo
  obtain ⟨hsame, hplaces⟩ := eq_of_typeKeys_nodup hkeys hc (mem_inputs_of_getElem? hu) hp hplace hkey
    hkey'
  subst hsame
  exact ⟨e, hmade, hplaces.symm, hname, heq⟩

theorem mirrors_of_type? (hkey : c.index.typeAt? c.number p = some key)
    (hinfo : c.index.type? key = some info) : info.Mirrors key (c.membersOf key p) := by
  obtain ⟨e, hmade, rfl, rfl, heq⟩ := exists_made_of_type? hunits hc hkeys hp hkey hinfo
  have h := mirrors_of_made hmade
  rw [heq]
  exact ⟨rfl, h.methods, h.fields, h.present⟩

end Build

end Legible
