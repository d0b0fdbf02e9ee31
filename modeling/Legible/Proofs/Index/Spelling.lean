import Legible.Proofs.Index.Lookup
import Legible.Proofs.Text.Spelling

/-!
# The index is over the alphabet of its sources

Every name and every type that an index holds is put together from texts of its units
(`Index.Over`). Each type is over the alphabet when it is entered (`keeps_over`), so the index of
sources over an alphabet is over it (`over_build`), and so is what a type name is resolved to
(`Index.Over.resolveType`).
-/

namespace Legible

open Text

variable {S : Char → Prop} {owner name key type simple : String} {u : SourceUnit} {m : MethodInfo}
  {types : List String} {imports : Imports} {units : List SourceUnit}

def SourceUnit.Over (S : Char → Prop) (u : SourceUnit) : Prop := Text.Over S u.source

/-! ## Texts of a unit -/

namespace SourceUnit.Over

variable {u : SourceUnit} {p : Place} {component : String × String} {params : Option Place}
  (h : u.Over S)

include h

theorem text (p : Place) : Text.Over S (u.text p) := h.slice p.span

theorem typeText (p : Place) : Text.Over S (u.typeText p) := over_typeText h p.node

theorem typeBrackets (hS : Alphabet S) (p : Place) (dims : Nat) :
    Text.Over S (u.typeText p ++ brackets dims) :=
  (h.typeText p).append (.brackets hS dims)

theorem parameterType? (hS : Alphabet S) (htype : u.parameterType? p = some type) :
    Text.Over S type := by
  obtain ⟨q, -, rfl⟩ := Option.map_eq_some_iff.mp htype
  exact h.typeBrackets hS q _

theorem recordComponents (hS : Alphabet S) (hmem : component ∈ u.recordComponents p) :
    Text.Over S component.1 ∧ Text.Over S component.2 := by
  unfold SourceUnit.recordComponents at hmem
  split at hmem
  · cases hmem
  · obtain ⟨param, -, hparam⟩ := List.mem_filterMap.mp hmem
    simp only [Option.bind_eq_bind, Option.bind_eq_some_iff, Option.some.injEq] at hparam
    obtain ⟨type, htype, name, -, rfl⟩ := hparam
    exact ⟨h.parameterType? hS htype, h.text name⟩

theorem methodParameters (hS : Alphabet S) :
    ∀ type ∈ u.methodParameters p params, Text.Over S type := by
  intro type htype
  unfold SourceUnit.methodParameters at htype
  split at htype
  · obtain ⟨component, hmem, rfl⟩ := List.mem_map.mp htype
    exact (h.recordComponents hS hmem).1
  · split at htype
    · obtain ⟨param, -, hparam⟩ := List.mem_filterMap.mp htype
      exact h.parameterType? hS hparam
    · cases htype

end SourceUnit.Over

theorem over_initializerKey (hS : Alphabet S) (howner : Over S owner) (isStatic : Bool) :
    Over S (initializerKey owner isStatic) := by
  refine (howner.append (.literal hS (by decide))).append ?_
  cases isStatic <;> exact .literal hS (by decide)

theorem over_methodKey (hS : Alphabet S) (howner : Over S owner) (hname : Over S name)
    (htypes : ∀ type ∈ types, Over S type) : Over S (methodKey owner name types) := by
  have hargs : Over S (",".intercalate types) := .intercalate (.literal hS (by decide)) htypes
  exact ((((howner.append (.literal hS (by decide))).append hname).append
    (.literal hS (by decide))).append hargs).append (.literal hS (by decide))

theorem over_memberKey (hS : Alphabet S) (hu : u.Over S) (howner : Over S owner) (p : Place) :
    Over S (u.memberKey owner p) := by
  unfold SourceUnit.memberKey
  split
  · refine over_methodKey hS howner ?_ (hu.methodParameters hS)
    split
    · exact .literal hS (by decide)
    · exact hu.text _
  · exact over_methodKey hS howner (hu.text _) nofun
  all_goals exact over_initializerKey hS howner _

/-! ## Types -/

/-- The names that a type of the index leads to, and the types of its members, are over the
alphabet. -/
structure TypeInfo.Over (S : Char → Prop) (info : TypeInfo) : Prop where
  qualifiedName : Text.Over S info.qualifiedName
  field : ∀ (name : String) (f : FieldInfo), info.fields[name]? = some f → Text.Over S f.typeText
  method : ∀ m ∈ info.methods, ∀ type, m.returnType = some type → Text.Over S type
  memberType : ∀ name key : String, info.memberTypes[name]? = some key → Text.Over S key

namespace TypeInfo.Over

variable {info : TypeInfo}

theorem addField (h : info.Over S) (name : String) (htype : Text.Over S type) :
    (info.addField name type).Over S where
  __ := h
  field := by
    intro name' f hf
    simp only [TypeInfo.addField, Std.TreeMap.getElem?_insert] at hf
    split at hf
    · cases hf
      exact htype
    · exact h.field name' f hf

theorem addMethod (h : info.Over S) (hm : ∀ type, m.returnType = some type → Text.Over S type) :
    (info.addMethod m).Over S where
  __ := h
  method := by
    intro m' hm'
    rcases List.mem_append.mp hm' with hm' | hm'
    · exact h.method m' hm'
    · rw [List.mem_singleton.mp hm']
      exact hm

theorem addMemberType (h : info.Over S) (hS : Alphabet S) (hname : Text.Over S name) :
    (info.addMemberType name).Over S where
  __ := h
  memberType := by
    intro name' key hkey
    simp only [TypeInfo.addMemberType, Std.TreeMap.getElem?_insert] at hkey
    split at hkey
    · cases hkey
      exact (h.qualifiedName.append (.literal hS (by decide))).append hname
    · exact h.memberType name' key hkey

theorem withoutAccessor (h : info.Over S) (m : MethodInfo) :
    (SourceUnit.withoutAccessor info m).Over S :=
  { h with method := fun m' hm' => h.method m' (List.mem_of_mem_filter hm') }

variable {u : SourceUnit} (h : info.Over S) (hS : Alphabet S) (hu : u.Over S)

include h hS hu

theorem addComponents (p : Place) : (u.addComponents info p).Over S := by
  refine List.foldlRecOn (motive := fun info : TypeInfo => info.Over S) _ _ h
    fun info hinfo component hmem => ?_
  have htype := (hu.recordComponents hS hmem).1
  refine addField (addMethod hinfo fun type heq => ?_) _ htype
  cases heq
  exact htype

theorem addMember (p : Place) : (u.addMember info p).Over S := by
  unfold SourceUnit.addMember
  split
  · exact List.foldlRecOn (motive := fun info : TypeInfo => info.Over S) _ _ h
      fun info hinfo _ _ => hinfo.addField _ (hu.typeBrackets hS _ _)
  · exact h.addField _ h.qualifiedName
  · next name params body isConstructor _ =>
      refine addMethod ?_ fun type htype => ?_
      · cases isConstructor with
        | true => exact h
        | false => exact h.withoutAccessor _
      · cases isConstructor with
        | true => cases htype
        | false =>
          obtain ⟨q, -, rfl⟩ := Option.map_eq_some_iff.mp htype
          exact hu.typeBrackets hS q _
  · refine h.addMethod fun type htype => ?_
    obtain ⟨q, -, rfl⟩ := Option.map_eq_some_iff.mp htype
    exact hu.typeText q
  · exact h.addMemberType hS (hu.text _)
  · exact h

theorem addMembers (body : Place) : (u.addMembers info body).Over S :=
  List.foldlRecOn (motive := fun info : TypeInfo => info.Over S) _ _ h
    fun _ hinfo p _ => hinfo.addMember hS hu p

end TypeInfo.Over

/-! ## The index -/

/-- The names that a name finds through the imports of a unit are over the alphabet. -/
structure Imports.Over (S : Char → Prop) (imports : Imports) : Prop where
  package : Text.Over S imports.package
  single : ∀ name key : String, imports.single[name]? = some key → Text.Over S key
  onDemand : ∀ name ∈ imports.onDemand, Text.Over S name

/-- The names and types that an index holds are over the alphabet. -/
structure Index.Over (S : Char → Prop) (ix : Index) : Prop where
  type : ∀ name info, ix.type? name = some info → info.Over S
  bySimple : ∀ name, ∀ key ∈ ix.bySimple.getD name [], Text.Over S key
  imports : ∀ unit imports, ix.imports? unit = some imports → imports.Over S
  declared : ∀ unit p key, ix.typeAt? unit p = some key → Text.Over S key

theorem Imports.Over.qualify (h : imports.Over S) (hS : Alphabet S) (hsimple : Text.Over S simple) :
    Text.Over S (imports.qualify simple) := by
  unfold Imports.qualify
  split
  · exact hsimple
  · exact (h.package.append (.literal hS (by decide))).append hsimple

theorem over_imports (hu : u.Over S) : u.imports.Over S := by
  refine List.foldlRecOn (motive := fun imports : Imports => imports.Over S) _ _
    ⟨.empty, by simp, by simp⟩ fun imports h p _ => ?_
  unfold SourceUnit.addHeader
  split
  · split
    · exact { h with package := hu.text _ }
    · exact h
  · unfold SourceUnit.addImport
    split
    · exact h
    · next name _ =>
        dsimp only
        split
        · refine { h with single := fun simple key hkey => ?_ }
          rw [Std.TreeMap.getElem?_insert] at hkey
          split at hkey
          · cases hkey
            exact hu.text name
          · exact h.single simple key hkey
        · refine { h with onDemand := fun q hq => ?_ }
          rcases List.mem_append.mp hq with hq | hq
          · exact h.onDemand q hq
          · rw [List.mem_singleton.mp hq]
            exact hu.text name
        · split
          · exact { h with }
          · exact h
        · exact { h with }
  · exact h

/-! ## The walk -/

structure Around.Over (S : Char → Prop) (around : Around) : Prop where
  owner : ∀ key ∈ around.owner, Text.Over S key
  member : ∀ key ∈ around.member, Text.Over S key

theorem Around.over_type (h : Text.Over S key) : ({ owner := some key } : Around).Over S :=
  ⟨fun _ hkey => Option.mem_some.mp hkey ▸ h, nofun⟩

section Walk

variable {u : SourceUnit} {unit : Nat} {around : Around}

theorem over_declaredType (hS : Alphabet S) (hu : u.Over S) (himports : imports.Over S)
    (haround : around.Over S) (p : Place) (kind : TypeKind) (name body : Place) :
    (Indexing.declaredType u unit imports around p kind name body).Over S := by
  have hname : Text.Over S (Indexing.declaredName imports around (u.text name)) := by
    unfold Indexing.declaredName
    split
    · next member hmember =>
        exact ((haround.member _ hmember).append (.literal hS (by decide))).append (hu.text name)
    · next owner _ howner =>
        exact ((haround.owner _ howner).append (.literal hS (by decide))).append (hu.text name)
    · exact himports.qualify hS (hu.text name)
  refine TypeInfo.Over.addMembers ?_ hS hu body
  split
  · exact TypeInfo.Over.addComponents ⟨hname, by simp, nofun, by simp⟩ hS hu p
  · exact ⟨hname, by simp, nofun, by simp⟩

theorem over_anonymousName (hS : Alphabet S) (s : Indexing) (howner : Text.Over S owner) :
    Text.Over S (s.anonymousName owner) :=
  (howner.append (.literal hS (by decide))).append (.number hS _)

theorem over_anonymousType (hS : Alphabet S) (hu : u.Over S) (s : Indexing)
    (howner : Text.Over S owner) (superText : String) (body : Place) :
    (s.anonymousType u unit owner superText body).Over S :=
  TypeInfo.Over.addMembers ⟨over_anonymousName hS s howner, by simp, nofun, by simp⟩ hS hu body

/-- Below surroundings over the alphabet the types that are entered are over it. -/
theorem keeps_over (hS : Alphabet S) (hu : u.Over S) (himports : imports.Over S) :
    Indexing.Keeps u imports (fun around _ => around.Over S) fun entry => entry.2.Over S where
  child _ _ h _ _ := h
  member around p h _ _ := by
    refine ⟨h.owner, fun key hkey => ?_⟩
    rcases Option.or_eq_some_iff.mp hkey with hkey | ⟨-, hkey⟩
    · obtain ⟨owner, howner, rfl⟩ := Option.map_eq_some_iff.mp hkey
      exact over_memberKey hS hu (h.owner owner howner) p
    · exact h.member key hkey
  named around p h kind name body _ := by
    have hinfo : (Indexing.declaredType u 0 imports around p kind name body).Over S :=
      over_declaredType hS hu himports h p kind name body
    exact ⟨hinfo, fun _ _ => Around.over_type hinfo.qualifiedName⟩
  unnamed _ _ h _ body _ owner howner s superText :=
    ⟨over_anonymousType hS hu s (h.owner owner howner) superText body,
      fun _ _ => Around.over_type (over_anonymousName hS s (h.owner owner howner))⟩

end Walk

/-! ## The index that is built -/

theorem over_build (hS : Alphabet S) (hunits : ∀ u ∈ units, u.Over S) :
    (Index.build units).Over S := by
  have h : (Index.build units).Holds (fun _ entry => entry.2.Over S) units :=
    Index.holds_build fun u hu => Index.exists_entries_of
      (keeps_over hS (hunits u hu) (over_imports (hunits u hu))) ⟨nofun, nofun⟩
  exact
    { type := by
        intro name info hinfo
        obtain ⟨-, _, _, entry, -, hentry, heq⟩ := h.type name info hinfo
        rw [heq]
        exact { hentry with }
      bySimple := by
        intro name key hkey
        obtain ⟨_, -, entry, hentry, -, -, rfl⟩ := h.bySimple name key hkey
        exact hentry.qualifiedName
      imports := by
        intro unit imports himports
        obtain ⟨u, hu, rfl⟩ := h.imports? unit imports himports
        exact over_imports (hunits u (List.mem_of_getElem? hu))
      declared := by
        intro unit p key hkey
        obtain ⟨_, entry, -, hentry, -, rfl⟩ := h.typeAt? unit p key hkey
        exact hentry.qualifiedName }

/-! ## What is looked up -/

def TypeRef.Over (S : Char → Prop) (type : TypeRef) : Prop := Text.Over S type.name

def StaticType.Over (S : Char → Prop) (type : StaticType) : Prop := type.base.Over S

namespace Index.Over

variable {ix : Index} {unit : Nat} {context : Option String} {inherited : Bool} {type : StaticType}
  {info : TypeInfo} {text : String} {ref : TypeRef} {found : TypeInfo × FieldInfo} (h : ix.Over S)

include h

theorem of_mem_hierarchy (hinfo : info ∈ ix.hierarchy owner) : info.Over S := by
  obtain ⟨key, hkey⟩ := exists_of_mem_hierarchy hinfo
  exact h.type key info hkey

theorem findMemberType? (hfind : ix.findMemberType? owner name = some key) : Text.Over S key := by
  obtain ⟨info, hinfo, hmember⟩ := List.exists_of_findSome?_eq_some hfind
  exact (h.of_mem_hierarchy hinfo).memberType name key hmember

variable (hS : Alphabet S)

include hS

theorem of_leads {Bound : String → String → Prop} (hbound : Bound text key → Text.Over S key)
    (htext : Text.Over S text) (hleads : ix.Leads unit Bound text key) : Text.Over S key := by
  cases hleads with
  | bound hkey => exact hbound hkey
  | around hinfo => exact (h.type _ _ hinfo).qualifiedName
  | member hinfo hkey => exact (h.type _ _ hinfo).memberType text key hkey
  | imported himports hkey => exact (h.imports unit _ himports).single text key hkey
  | package himports => exact (h.imports unit _ himports).qualify hS htext
  | onDemand himports hp =>
    exact (((h.imports unit _ himports).onDemand _ hp).append (.literal hS (by decide))).append
      htext
  | only honly => exact h.bySimple text key (mem_bySimple_of_only honly)
  | whole => exact htext
  | dotted _ hinfo hkey => exact (h.of_mem_hierarchy hinfo).memberType _ key hkey

theorem of_outside (htext : Text.Over S text) (hout : ix.Outside unit text key) :
    Text.Over S key := by
  have himport : ∀ {name key}, ix.importOf? unit name = some key → Text.Over S key := by
    intro name key hkey
    obtain ⟨imports, himports, hkey⟩ := Option.bind_eq_some_iff.mp hkey
    exact (h.imports unit imports himports).single name key hkey
  cases hout with
  | written => exact htext
  | imported hkey => exact himport hkey
  | dotted rest houter =>
    exact ((himport houter).append (.literal hS (by decide))).append htext.of_append

/-- A text means a type whose name is made of the characters of the text and of the index. -/
theorem of_cases {Bound : String → String → Prop} (hbound : ∀ key, Bound text key → Text.Over S key)
    (htext : Text.Over S text) (href : (∃ key, ref = .known key ∧ ix.Leads unit Bound text key)
      ∨ (∃ key, ref = .external key ∧ ix.Outside unit text key) ∨ ref = .primitive text) :
    ref.Over S := by
  rcases href with ⟨key, rfl, hleads⟩ | ⟨key, rfl, hout⟩ | rfl
  · exact h.of_leads hS (hbound key) htext hleads
  · exact h.of_outside hS htext hout
  · exact htext

theorem resolveType (htext : Text.Over S text) : (ix.resolveType unit context text).Over S :=
  h.of_cases hS (fun _ => False.elim) htext.trim (resolveWith_cases (fun _ _ => False) ..)

theorem memberType? {owner : TypeInfo} (htext : Text.Over S text) {params : List String}
    (htype : ix.memberType? owner text params = some type) : type.Over S := by
  simp only [Index.memberType?] at htype
  split at htype
  · cases htype
  · obtain rfl := Option.some.inj htype
    rw [StaticType.Over]
    dsimp only
    exact h.resolveType hS htext.splitDims

theorem fieldType? (hfound : ix.findField? owner name = some found)
    (htype : ix.fieldType? found.1 found.2 = some type) : type.Over S := by
  obtain ⟨info, hinfo, hfield⟩ := List.exists_of_findSome?_eq_some hfound
  obtain ⟨f, hf, rfl⟩ := Option.map_eq_some_iff.mp hfield
  exact h.memberType? hS ((h.of_mem_hierarchy hinfo).field name f hf) htype

theorem returnType? (hinfo : info ∈ ix.hierarchy owner) (hm : m ∈ info.methods)
    (htype : ix.returnType? info m = some type) : type.Over S := by
  have hinfo := h.of_mem_hierarchy hinfo
  unfold Index.returnType? at htype
  split at htype
  · next text htext => exact h.memberType? hS (hinfo.method m hm text htext) htype
  · cases htype
    exact hinfo.qualifiedName

end Index.Over

end Legible
