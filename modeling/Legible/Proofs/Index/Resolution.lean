import Legible.Proofs.Index.Census
import Legible.Proofs.Index.Lookup

/-!
# Type names lead to types of the index

The names of member types are written down when the type around them is entered, before they are
walked. The walk of the body enters each under that very name, so an index never speaks of a type
that it does not have, and what it finds by a name ends in that name (`Index.Complete`). With this
every way from a text leads to a type that has the last name of the text (`Complete.of_leads`). Only
a blank text is an exception: the types without a name go by it.
-/

namespace Legible

/-- Whether no type of the unit is declared by a name with a dot in it. -/
def SourceUnit.typeNamesOK (u : SourceUnit) : Bool :=
  u.root.places.all fun p =>
    match Construct.of p with
    | .typeDecl _ name _ => !(u.text name).toList.contains '.'
    | _ => true

/-! ## Entries -/

section Entries

open Indexing

variable {u : SourceUnit} {unit : Nat} {imports : Imports} {e : Entry} {kind : TypeKind}
  {p name body : Place}

theorem SourceUnit.simpleName_of_typeNamesOK (h : u.typeNamesOK = true) (hp : p ∈ u.root.places)
    (hof : Construct.of p = .typeDecl kind name body) :
    Text.simpleName (u.text name) = u.text name := by
  have hok := List.all_eq_true.mp h p hp
  exact Text.simpleName_of_notMem (by simpa [hof] using hok)

theorem contains_foldl_enter (ix : Index) (entries : List Entry) (key : String) :
    (entries.foldl (fun ix e => ix.enter (e.place.number, e.info)) ix).types.contains key = true
      ↔ ix.types.contains key = true ∨ ∃ e ∈ entries, e.info.qualifiedName = key := by
  induction entries generalizing ix with
  | nil => simp
  | cons e entries ih =>
    rw [List.foldl_cons, ih]
    simp [Index.enter, Std.TreeMap.contains_insert, or_assoc, or_left_comm]

namespace Indexing.Entry.Made

theorem supertypes_eq (h : e.Made u unit imports) : e.info.supertypes = [] := by
  cases h with
  | named => exact (congrArg TypeInfo.supertypes (header_declaredType ..) :)
  | @unnamed _ body => exact (congrArg TypeInfo.supertypes (header_addMembers u _ body) :)

/-- The key of a type ends in its name, if it has one. -/
theorem spelled (h : e.Made u unit imports) (hnames : u.typeNamesOK = true)
    (hp : e.place ∈ u.root.places) :
    (e.info.isLocal = true ∧ e.info.name = "")
      ∨ Text.simpleName e.info.qualifiedName = e.info.name := by
  cases h with
  | named around hof =>
    right
    rw [(declaredType_qualifiedName ..).1,
      simpleName_declaredName imports around (u.simpleName_of_typeNamesOK hnames hp hof)]
    exact (congrArg TypeInfo.name (header_declaredType ..) :).symm
  | @unnamed _ body =>
    exact .inl ⟨(congrArg TypeInfo.isLocal (header_addMembers u _ body) :),
      (congrArg TypeInfo.name (header_addMembers u _ body) :)⟩

/-- The member types of a type stand in its body. -/
theorem memberType (h : e.Made u unit imports) {name member : String}
    (hmember : e.info.memberTypes[name]? = some member) :
    member = e.info.qualifiedName ++ "." ++ name ∧ ∃ q ∈ e.place.typeMembers, ∃ kind nameNode body,
      Construct.of q = .typeDecl kind nameNode body ∧ u.text nameNode = name := by
  cases h with
  | @named p nameNode body around kind hof =>
    have hmembers := TypeInfo.MembersFrom.declaredType u unit imports around p kind nameNode body
    simpa [Place.typeMembers, Place.typeBody?, hof] using hmembers.memberType name member hmember
  | @unnamed p body around owner _ n superText hbody =>
    have hmembers : (unnamedType u unit owner n superText body).MembersFrom u [] body.bodyMembers :=
      .addMembers (.header u [] _ rfl)
    simpa [Place.typeMembers, hbody] using hmembers.memberType name member hmember

end Indexing.Entry.Made

end Entries

namespace Index

open Indexing

variable {ix ix' : Index} {unit : Nat} {text key : String} {info : TypeInfo}

/-! ## Types that are spoken of -/

/-- The key of the type ends in its name, if it has one, and those of its member types do. The
member types and the known supertypes are types of the index. -/
structure Settled (ix : Index) (key : String) (info : TypeInfo) : Prop where
  named : info.qualifiedName = key
  spelled : info.name ≠ "" → Text.simpleName key = info.name
  memberType : ∀ (name member : String), info.memberTypes[name]? = some member →
    ix.types.contains member = true ∧ Text.simpleName member = name
  supertype : ∀ super, TypeRef.known super ∈ info.supertypes → ix.types.contains super = true

/-- All types that the index speaks of are in it, under the names that they are found by. -/
structure Complete (ix : Index) : Prop where
  type : ∀ key info, ix.type? key = some info → ix.Settled key info
  bySimple : ∀ name, ∀ key ∈ ix.bySimple.getD name [],
    ix.types.contains key = true ∧ Text.simpleName key = name
  single : ∀ unit imports, ix.imports? unit = some imports → ∀ (name key : String),
    imports.single[name]? = some key → Text.simpleName key = name

theorem Settled.mono (h : ix.Settled key info)
    (hkept : ∀ key, ix.types.contains key = true → ix'.types.contains key = true) :
    ix'.Settled key info :=
  ⟨h.named, h.spelled, fun name member hmember => (h.memberType name member hmember).imp_left (hkept _),
    fun super hsuper => hkept _ (h.supertype super hsuper)⟩

namespace Complete

theorem addUnit (h : ix.Complete) {u : SourceUnit} (hnames : u.typeNamesOK = true) :
    (ix.addUnit u).Complete := by
  have hindex := addUnit_eq_foldl ix u
  have hcontains : ∀ key, (ix.addUnit u).types.contains key = true
      ↔ ix.types.contains key = true ∨ ∃ e ∈ ix.entriesOf u, e.info.qualifiedName = key := fun key =>
    hindex ▸ contains_foldl_enter (ix.begin u) (ix.entriesOf u) key
  have hmade : ∀ e ∈ ix.entriesOf u, e.place ∈ u.root.places ∧ e.Made u ix.imports.size u.imports :=
    fun _ he => made_of_mem_entriesOf he
  have hspelled := fun e he => (hmade e he).2.spelled hnames (hmade e he).1
  refine ⟨fun key info hinfo => ?_, fun name key hkey => ?_, fun unit imports himports => ?_⟩
  · rw [hindex] at hinfo
    rcases exists_entry_of_type?_foldl hinfo with ⟨e, he, rfl, rfl⟩ | hinfo
    · have hentry := (hmade e he).2
      refine ⟨rfl, fun hname => (hspelled e he).resolve_left fun hempty => hname hempty.2,
        fun name member hmember => ?_, by simp [hentry.supertypes_eq]⟩
      obtain ⟨rfl, q, hq, kind, nameNode, body, hof, rfl⟩ := hentry.memberType hmember
      obtain ⟨e', he', rfl, haround⟩ := entered_of_mem_entriesOf he hq kind nameNode body hof
      refine ⟨(hcontains _).mpr (.inr ⟨e', he', ?_⟩), ?_⟩
      · rw [(hmade e' he').2.qualifiedName_eq hof, haround]
        rfl
      · rw [Text.simpleName_append, u.simpleName_of_typeNamesOK hnames (hmade e' he').1 hof]
    · exact (h.type key info hinfo).mono fun key hkey => (hcontains key).mpr (.inl hkey)
  · rw [hindex, bySimple_foldl_enter] at hkey
    rcases List.mem_append.mp hkey with hkey | hkey
    · exact (h.bySimple name key hkey).imp_left fun hkey => (hcontains key).mpr (.inl hkey)
    · obtain ⟨e, he, rfl⟩ := List.mem_map.mp hkey
      obtain ⟨he, hlocal⟩ := List.mem_filter.mp he
      simp only [Bool.and_eq_true, Bool.not_eq_true', beq_iff_eq] at hlocal
      refine ⟨(hcontains _).mpr (.inr ⟨e, he, rfl⟩), hlocal.2 ▸ (hspelled e he).resolve_left ?_⟩
      simp [hlocal.1]
  · rw [imports?_addUnit] at himports
    split at himports
    · cases himports
      exact simpleName_single_imports u
    · exact h.single unit imports himports

/-- Every way from a text ends at a type of the index, which has the last name of the text. -/
theorem of_leads (h : ix.Complete) (hleads : ix.Leads unit (fun _ _ => False) text key) :
    ix.types.contains key = true ∧ (text ≠ "" → Text.simpleName key = Text.simpleName text) := by
  -- a last name is its own last name
  have hlast : Text.simpleName key = text → Text.simpleName key = Text.simpleName text := fun heq =>
    heq.trans (by rw [← heq, Text.simpleName_of_notMem (Text.exists_simpleName key).1])
  cases hleads with
  | bound hfalse => exact hfalse.elim
  | around hinfo =>
    have hsettled := h.type _ _ hinfo
    rw [hsettled.named] at hlast ⊢
    exact ⟨contains_iff.mpr ⟨_, hinfo⟩, fun htext => hlast (hsettled.spelled htext)⟩
  | member hinfo hkey =>
    exact ((h.type _ _ hinfo).memberType _ _ hkey).imp_right fun hname _ => hlast hname
  | imported himports hkey hcontains => exact ⟨hcontains, fun _ => hlast (h.single _ _ himports _ _ hkey)⟩
  | package _ _ hcontains => exact ⟨hcontains, fun _ => simpleName_qualify _ _⟩
  | onDemand _ _ _ hcontains => exact ⟨hcontains, fun _ => Text.simpleName_append _ _⟩
  | only honly =>
    exact (h.bySimple text key (mem_bySimple_of_only honly)).imp_right fun hname _ => hlast hname
  | whole hcontains => exact ⟨hcontains, fun _ => rfl⟩
  | dotted _ hinfo hkey =>
    obtain ⟨outer, houter⟩ := exists_of_mem_hierarchy hinfo
    obtain ⟨hcontains, hname⟩ := (h.type _ _ houter).memberType _ _ hkey
    refine ⟨hcontains, fun _ => ?_⟩
    rw [Text.simpleName_append, ← hname, Text.simpleName_of_notMem (Text.exists_simpleName key).1]

theorem of_resolveWith (h : ix.Complete) {context : Option String} {inherited : Bool}
    (hkey : ix.resolveWith unit context text inherited = .known key) :
    ix.types.contains key = true
      ∧ (Text.trim text ≠ "" → Text.simpleName key = Text.simpleName (Text.trim text)) := by
  rcases resolveWith_cases (fun _ _ => False) ix unit context text inherited with
    ⟨_, href, hleads⟩ | ⟨_, href, -⟩ | href
  · cases href.symm.trans hkey
    exact h.of_leads hleads
  · cases href.symm.trans hkey
  · cases href.symm.trans hkey

theorem linkType (h : ix.Complete) (name : String) : (ix.linkType name).Complete := by
  unfold Index.linkType
  split
  · exact h
  · next info hinfo =>
      have hkept : ∀ (info' : TypeInfo) key, ix.types.contains key = true →
          (ix.types.insert name info').contains key = true := fun info' key hkey => by
        simp [Std.TreeMap.contains_insert, hkey]
      refine ⟨fun key info' hinfo' => ?_,
        fun simple key hkey => (h.bySimple simple key hkey).imp_left (hkept _ _), h.single⟩
      simp only [type?, Std.TreeMap.getElem?_insert] at hinfo'
      split at hinfo'
      · next heq =>
          cases hinfo'
          cases Std.LawfulEqCmp.eq_of_compare heq
          refine { (h.type name info hinfo).mono (hkept _) with supertype := fun super hsuper => ?_ }
          obtain ⟨text, -, hknown⟩ := List.mem_map.mp hsuper
          exact hkept _ _ (h.of_resolveWith hknown).1
      · exact (h.type key info' hinfo').mono (hkept _)

end Complete

theorem complete_build {units : List SourceUnit} (hnames : ∀ u ∈ units, u.typeNamesOK = true) :
    (build units).Complete := by
  have hempty : ({} : Index).Complete :=
    ⟨fun key info hinfo => by simp [type?] at hinfo, by simp, by simp [imports?]⟩
  have hadded : (units.foldl addUnit {}).Complete :=
    List.foldlRecOn (motive := Complete) units addUnit hempty fun _ h u hu => h.addUnit (hnames u hu)
  exact List.foldlRecOn (motive := Complete) _ linkType hadded fun _ h name _ => h.linkType name

end Index

/-- In the index of any units whose types have names without dots, whatever the unit and the type
that a text stands in: a text that means a known type means one of the index, and if the text is
not blank the type has the last name of the text. The known supertypes and the member types of all
types are types of the index. -/
theorem resolveType_sound {units : List SourceUnit} (hnames : ∀ u ∈ units, u.typeNamesOK = true) :
    let ix := Index.build units
    (∀ unit context text key, ix.resolveType unit context text = .known key →
        ix.types.contains key = true
          ∧ (Text.trim text ≠ "" → Text.simpleName key = Text.simpleName (Text.trim text)))
      ∧ ∀ key info, ix.type? key = some info →
        (∀ super, TypeRef.known super ∈ info.supertypes → ix.types.contains super = true)
          ∧ ∀ (name member : String), info.memberTypes[name]? = some member →
            ix.types.contains member = true := by
  have hcomplete := Index.complete_build hnames
  refine ⟨fun unit context text key hkey => hcomplete.of_resolveWith hkey, fun key info hinfo => ?_⟩
  have hsettled := hcomplete.type key info hinfo
  exact ⟨hsettled.supertype, fun name member hmember => (hsettled.memberType name member hmember).1⟩

/-- An enum whose constant has a body. -/
def Sample.bodiedConstant : SourceUnit where
  path := "E.java"
  source := "enum E\x7bA\x7b\x7d\x7d"
  root := open Sample in
    node 0 "program" 0 11 none [
     node 1 "enum_declaration" 0 11 none [mark 2 "enum" 0 4, name 3 5 6 "name",
      node 4 "enum_body" 6 11 (some "body") [mark 5 "\x7b" 6 7,
       node 6 "enum_constant" 7 10 none [name 7 7 8 "name",
        node 8 "class_body" 8 10 (some "body") [mark 9 "\x7b" 8 9, mark 10 "\x7d" 9 10]],
       mark 11 "\x7d" 10 11]]]

/-- The name of the enum, from the body of the constant. -/
theorem resolveType_sound_constant :
    (∀ u ∈ [Sample.bodiedConstant], u.typeNamesOK = true)
      ∧ (Index.build [Sample.bodiedConstant]).resolveType 0 (some "E.$1") " E" = .known "E"
      ∧ (Index.build [Sample.bodiedConstant]).types.contains "E" = true
      ∧ Text.simpleName "E" = Text.simpleName (Text.trim " E") := by
  have hnames : ∀ u ∈ [Sample.bodiedConstant], u.typeNamesOK = true := by decide +kernel
  have hkey : (Index.build [Sample.bodiedConstant]).resolveType 0 (some "E.$1") " E" = .known "E" := by
    decide +kernel
  obtain ⟨hcontains, hname⟩ := (resolveType_sound hnames).1 0 (some "E.$1") " E" "E" hkey
  exact ⟨hnames, hkey, hcontains, hname (by decide +kernel)⟩

/-- A blank text means the type without a name that it stands in. -/
theorem blank_means_unnamed_type :
    (∀ u ∈ [Sample.bodiedConstant], u.typeNamesOK = true) ∧ " " ≠ ""
      ∧ (Index.build [Sample.bodiedConstant]).resolveType 0 (some "E.$1") " " = .known "E.$1"
      ∧ Text.simpleName "E.$1" ≠ Text.simpleName (Text.trim " ") := by
  decide +kernel

end Legible
