import Legible.Proofs.Index.Census

/-!
# Where types in the index come from

Every type that an index of shaped units holds is declared at a place of one of the units, and what
the index holds of its members are the members there (`Index.Rooted`). This is read off the entries
that the walk makes. It goes on into the bodies of types with the type as the owner, so a member
type has the key that its outer type gives it (`Index.Nests`).
-/

namespace Legible

/-! ## Members of a type -/

namespace SourceUnit

def memberKeysAt (u : SourceUnit) (owner : String) (p : Place) : List String :=
  match Construct.of p with
  | .field _ => p.declarators.map fun (_, name) => owner ++ "." ++ u.text name
  | .enumConstant name _ => [owner ++ "." ++ u.text name]
  | .method _ _ _ false => [u.memberKey owner p]
  | .elementDecl _ => [u.memberKey owner p]
  | _ => []

def componentKeys (u : SourceUnit) (owner : String) (p : Place) : List String :=
  match Construct.of p with
  | .typeDecl .recordType _ _ => (u.componentNames p).map fun name => owner ++ "." ++ name
  | _ => []

/-- The keys of the members of the type that is declared at `p` as `owner`. -/
def memberKeys (u : SourceUnit) (owner : String) (p : Place) : List String :=
  u.componentKeys owner p ++ p.typeMembers.flatMap (u.memberKeysAt owner)

def memberTypeNames (u : SourceUnit) (p : Place) : List String :=
  p.typeMembers.filterMap fun q =>
    match Construct.of q with
    | .typeDecl _ name _ => some (u.text name)
    | _ => none

end SourceUnit

/-- The members that are held of a type have the given keys, and its member types the given
names. -/
structure TypeInfo.Within (keys types : List String) (info : TypeInfo) : Prop where
  field : ∀ name f, info.fields[name]? = some f →
    f.key = info.qualifiedName ++ "." ++ name ∧ isPlainName name = true ∧ f.key ∈ keys
  method : ∀ m ∈ info.methods, m.name = "<init>" ∨ m.key ∈ keys
  memberType : ∀ name key, info.memberTypes[name]? = some key →
    key = info.qualifiedName ++ "." ++ name ∧ name ∈ types

section Members

variable {u : SourceUnit} {p body : Place} {keys types : List String} {info : TypeInfo}
  {name : String}

theorem outward_find?_record (h : p.kind = "record_declaration") :
    p.outward.find? (·.kind == "record_declaration") = some p := by
  simp [Place.outward, h]

variable (hshaped : u.shapedOK = true) (hp : p ∈ u.root.places)

include hshaped hp

/-- The names of components are those of the parameters. -/
theorem mem_componentKeys {nameNode : Place}
    (hof : Construct.of p = .typeDecl .recordType nameNode body)
    (hname : name ∈ (u.recordComponents p).map (·.2)) (owner : String) :
    isPlainName name = true ∧ owner ++ "." ++ name ∈ u.componentKeys owner p := by
  obtain ⟨⟨type, _⟩, hmem, rfl⟩ := List.mem_map.mp hname
  unfold SourceUnit.recordComponents at hmem
  rw [outward_find?_record (kind_of_recordType hof)] at hmem
  cases hparams : p.child? "parameters" with
  | none => simp [hparams] at hmem
  | some params =>
    simp only [Option.bind_some, hparams] at hmem
    obtain ⟨param, hparam, hmem⟩ := List.mem_filterMap.mp hmem
    simp only [Option.bind_eq_bind, Option.bind_eq_some_iff, Option.some.injEq,
      Prod.mk.injEq] at hmem
    obtain ⟨_, -, nameNode, hnameNode, -, rfl⟩ := hmem
    have hchild := Place.mem_children_of_mem_namedChildren hparam
    refine ⟨(parted_of_shapedOK hshaped).isPlainName_parameter
      (Place.mem_places_of_mem_children (Place.mem_places_of_mem_children hp
        (Place.mem_children_of_child? hparams)) hchild)
      (inParameterList_of_mem hchild (.inl (Place.role_of_child? hparams))) hnameNode, ?_⟩
    simp only [SourceUnit.componentKeys, hof]
    exact List.mem_map_of_mem (List.mem_flatMap.mpr ⟨params, by simp [hparams],
      List.mem_map_of_mem (List.mem_filterMap.mpr ⟨param, hparam, hnameNode⟩)⟩)

theorem mem_memberKeysAt (hname : name ∈ u.memberFieldNames p) (owner : String) :
    isPlainName name = true ∧ owner ++ "." ++ name ∈ u.memberKeysAt owner p := by
  have hparts := Construct.partsOf_of p
  unfold SourceUnit.memberFieldNames at hname
  split at hname
  · next hof =>
      obtain ⟨⟨d, nameNode⟩, hd, rfl⟩ := List.mem_map.mp hname
      obtain ⟨hdMem, hdKind, hdName⟩ := declarators_mem hd
      refine ⟨(parted_of_shapedOK hshaped).isPlainName_name
        (Place.mem_places_of_mem_children hp hdMem) hdName (by rw [hdKind]; decide), ?_⟩
      simp only [SourceUnit.memberKeysAt, hof]
      exact List.mem_map_of_mem (f := fun (x : Place × Place) => owner ++ "." ++ u.text x.2) hd
  · next hof =>
      rw [hof] at hparts
      cases List.mem_singleton.mp hname
      exact ⟨(parted_of_shapedOK hshaped).isPlainName_name hp hparts.2.1 (by rw [hparts.1]; decide),
        by simp [SourceUnit.memberKeysAt, hof]⟩
  · cases hname

/-- The members of the type that is declared at `p` are those of its body and its components. -/
theorem TypeInfo.MembersFrom.within (hbody : p.typeBody? = some body) {components : List String}
    (h : info.MembersFrom u components body.bodyMembers)
    (hcomponents : ∀ name ∈ components, isPlainName name = true
      ∧ info.qualifiedName ++ "." ++ name ∈ u.componentKeys info.qualifiedName p) :
    info.Within (u.memberKeys info.qualifiedName p) (u.memberTypeNames p) := by
  have hmembers : p.typeMembers = body.bodyMembers := by simp [Place.typeMembers, hbody]
  have hplace : ∀ q ∈ body.bodyMembers, q ∈ u.root.places := fun q hq =>
    Place.mem_places_of_mem_typeMembers hp (hmembers ▸ hq)
  have hkey : ∀ q ∈ body.bodyMembers, ∀ key ∈ u.memberKeysAt info.qualifiedName q,
      key ∈ u.memberKeys info.qualifiedName p := fun q hq key hkey =>
    List.mem_append_right _ (List.mem_flatMap.mpr ⟨q, hmembers ▸ hq, hkey⟩)
  refine ⟨fun name f hf => ?_, fun m hm => ?_, fun name key hname => ?_⟩
  · obtain ⟨heq, hname | ⟨q, hq, hname⟩⟩ := h.field name f hf
    · obtain ⟨hplain, hmem⟩ := hcomponents name hname
      exact ⟨heq, hplain, heq ▸ List.mem_append_left _ hmem⟩
    · obtain ⟨hplain, hmem⟩ := mem_memberKeysAt hshaped (hplace q hq) hname info.qualifiedName
      exact ⟨heq, hplain, heq ▸ hkey q hq _ hmem⟩
  · rcases h.method m hm with ⟨hname, heq⟩ | ⟨q, hq, hdeclares⟩
    · exact .inr (heq ▸ List.mem_append_left _ (hcomponents _ hname).2)
    · cases hdeclares with
      | @method _ _ _ isConstructor hof =>
        cases isConstructor with
        | true => exact .inl rfl
        | false => exact .inr (hkey q hq _ (by simp [SourceUnit.memberKeysAt, hof,
            SourceUnit.methodInfo]))
      | element hof _ heq => exact .inr (hkey q hq _ (by simp [SourceUnit.memberKeysAt, hof, heq]))
  · obtain ⟨heq, q, hq, kind, nameNode, body', hof, rfl⟩ := h.memberType name key hname
    exact ⟨heq, List.mem_filterMap.mpr ⟨q, hmembers ▸ hq, by simp [hof]⟩⟩

end Members

/-! ## The index -/

/-- The key is that of a type which is declared by name in one of the units. -/
def Index.Names (units : List SourceUnit) (ix : Index) (key : String) : Prop :=
  ∃ unit u p kind name body, units[unit]? = some u ∧ p ∈ u.root.places
    ∧ Construct.of p = .typeDecl kind name body ∧ ix.typeAt? unit p = some key

/-- The types that an index of the given units holds are declared in them. -/
structure Index.Rooted (units : List SourceUnit) (ix : Index) : Prop where
  plain : ∀ unit p key, ix.typeAt? unit p = some key → isPlainName (Text.simpleName key) = true
  /-- A type that is not declared by name is numbered. -/
  numbered : ∀ unit u, units[unit]? = some u → ∀ p ∈ u.root.places, ∀ key,
    ix.typeAt? unit p = some key → (∃ kind name body,
        Construct.of p = .typeDecl kind name body ∧ Text.simpleName key = u.text name)
      ∨ ∃ n : Nat, Text.simpleName key = "$" ++ toString n
  type : ∀ key info, ix.type? key = some info → info.qualifiedName = key
    ∧ ∃ unit u p, units[unit]? = some u ∧ p ∈ u.root.places ∧ ix.typeAt? unit p = some key
      ∧ ((∃ kind name body, Construct.of p = .typeDecl kind name body) ∨ info.name = "")
      ∧ info.Within (u.memberKeys key p) (u.memberTypeNames p)
  bySimple : ∀ name, ∀ key ∈ ix.bySimple.getD name [], ix.Names units key
  single : ∀ unit imports, ix.imports? unit = some imports →
    ∀ name key, imports.single[name]? = some key → Text.simpleName key = name

theorem Index.typeAt?_congr (ix : Index) (unit : Nat) {p q : Place} (h : p.number = q.number) :
    ix.typeAt? unit p = ix.typeAt? unit q := by
  simp only [Index.typeAt?, h]

/-- The member types of the type at `p` have the keys that it gives them. -/
def Index.NestsAt (ix : Index) (u : SourceUnit) (unit : Nat) (p : Place) : Prop :=
  ∀ key, ix.typeAt? unit p = some key → ∀ q ∈ p.typeMembers, ∀ kind name body,
    Construct.of q = .typeDecl kind name body →
    ix.typeAt? unit q = some (key ++ "." ++ u.text name)

/-- All member types have the keys that their outer types give them. -/
def Index.Nests (units : List SourceUnit) (ix : Index) : Prop :=
  ∀ unit u, units[unit]? = some u → ∀ p ∈ u.root.places, ix.NestsAt u unit p

/-! ## Entries -/

section Entries

open Place Indexing

variable {u : SourceUnit} {unit : Nat} {imports : Imports} {p : Place}

/-- A type has its declared name, or a number. -/
theorem Indexing.Entry.Made.rooted {e : Entry} (h : e.Made u unit imports)
    (hshaped : u.shapedOK = true) (hp : e.place ∈ u.root.places) :
    ((∃ kind name body, Construct.of e.place = .typeDecl kind name body
          ∧ Text.simpleName e.info.qualifiedName = u.text name)
        ∨ e.info.name = "" ∧ ∃ n : Nat, Text.simpleName e.info.qualifiedName = "$" ++ toString n)
      ∧ e.info.Within (u.memberKeys e.info.qualifiedName e.place) (u.memberTypeNames e.place) := by
  cases h with
  | @named _ name body around kind hof =>
    refine ⟨.inl ⟨kind, name, body, hof, ?_⟩, (TypeInfo.MembersFrom.declaredType u unit imports
      around _ kind name body).within hshaped hp (by simp [typeBody?, hof]) fun component hmem => ?_⟩
    · rw [(declaredType_qualifiedName ..).1]
      exact simpleName_declaredName imports around
        (simpleName_of_isPlainName ((parted_of_shapedOK hshaped).isPlainName_typeDecl hp hof))
    · split at hmem
      · next hkind =>
          subst hkind
          exact mem_componentKeys hshaped hp hof hmem _
      · cases hmem
  | @unnamed _ body _ owner _ n superText hbody _ =>
    have hkey : (unnamedType u unit owner n superText body).qualifiedName
        = owner ++ "." ++ ("$" ++ toString n) := (addMembers_qualifiedName ..).1
    have hname : (unnamedType u unit owner n superText body).name = "" :=
      (congrArg TypeInfo.name (header_addMembers u _ body) :)
    refine ⟨.inr ⟨hname, n, ?_⟩,
      TypeInfo.MembersFrom.within hshaped hp hbody (.addMembers (.header u [] _ rfl)) (by simp)⟩
    dsimp only
    rw [hkey, simpleName_dotted _ (isPlainName_anonymous n)]

end Entries

/-! ## The index that is built -/

section Build

open Indexing

variable {units : List SourceUnit}

theorem TypeKey.isPlainName {u : SourceUnit} (hshaped : u.shapedOK = true) {key : String}
    (h : TypeKey u key) : isPlainName (Text.simpleName key) = true := by
  cases h with
  | named imports around hp hof =>
    have hplain := (parted_of_shapedOK hshaped).isPlainName_typeDecl hp hof
    rwa [simpleName_declaredName imports around (simpleName_of_isPlainName hplain)]
  | numbered owner n =>
    have hplain := isPlainName_anonymous n
    rwa [simpleName_dotted owner hplain]

/-- A type that can be found by its simple name is declared by name. -/
theorem names_of_bySimple (hshaped : ∀ u ∈ units, u.shapedOK = true) (name key : String)
    (hkey : key ∈ (Index.build units).bySimple.getD name []) :
    (Index.build units).Names units key := by
  rw [Index.bySimple_build] at hkey
  obtain ⟨u, hu, hkey⟩ := List.mem_flatMap.mp hkey
  obtain ⟨unit, hunit⟩ := List.mem_iff_getElem?.mp hu
  obtain ⟨entries, h⟩ := exists_census (hshaped u hu)
  rw [h.bySimple] at hkey
  obtain ⟨e, he, rfl⟩ := List.mem_map.mp hkey
  obtain ⟨he, hlocal⟩ := List.mem_filter.mp he
  have htype : (Index.build units).typeAt? unit e.place = some e.info.qualifiedName := by
    rw [(Index.held_build hunit).2, h.typeAt? e he]
  cases h.made e he with
  | named around hof => exact ⟨unit, u, _, _, _, _, hunit, h.places _ he, hof, htype⟩
  | @unnamed _ body _ owner _ n superText _ _ =>
    have hunnamed : (unnamedType u 0 owner n superText body).isLocal = true :=
      (congrArg TypeInfo.isLocal (header_addMembers u _ body) :)
    simp [hunnamed] at hlocal

theorem rooted_build (hshaped : ∀ u ∈ units, u.shapedOK = true) :
    (Index.build units).Rooted units ∧ (Index.build units).Nests units := by
  have hheld : (Index.build units).Holds (fun _ _ => True) units := Index.holds_build fun u _ =>
    (Index.exists_entries u).imp fun _ hadd => ⟨fun _ _ => trivial, hadd⟩
  have hunit : ∀ {unit : Nat} {u : SourceUnit}, units[unit]? = some u → u.shapedOK = true := fun hu =>
    hshaped _ (List.mem_of_getElem? hu)
  refine ⟨⟨fun unit p key hkey => ?_, fun unit u hu p hp key hkey => ?_, fun key info hinfo => ?_,
    names_of_bySimple hshaped, fun unit imports himports => ?_⟩,
    fun unit u hu p hp key hkey q hq kind name body hof => ?_⟩
  · obtain ⟨u, -, hu, -⟩ := hheld.typeAt? unit p key hkey
    exact (typesKeyed_build hu p key hkey).isPlainName (hunit hu)
  · obtain ⟨entries, h⟩ := exists_census (hunit hu)
    rw [(Index.held_build hu).2] at hkey
    obtain ⟨e, he, rfl, rfl⟩ := h.entry p hp key hkey
    exact ((h.made e he).rooted (hunit hu) hp).1.imp_right fun h => h.2
  · obtain ⟨unit, u, e, hu, hp, hmade, hkey, rfl, hentry⟩ := exists_entry_of_type? hshaped hinfo
    obtain ⟨hdecl, hwithin⟩ := hmade.rooted (hunit hu) hp
    rw [hentry]
    refine ⟨rfl, unit, u, e.place, hu, hp, hkey, hdecl.imp ?_ fun h => h.1, { hwithin with }⟩
    rintro ⟨kind, name, body, hof, -⟩
    exact ⟨kind, name, body, hof⟩
  · obtain ⟨u, -, rfl⟩ := hheld.imports? unit imports himports
    exact simpleName_single_imports u
  · -- a member type is entered with its outer type, and has its key from there
    obtain ⟨entries, h⟩ := exists_census (hunit hu)
    have hat := (Index.held_build hu).2
    obtain ⟨e, he, rfl, rfl⟩ := h.entry p hp key (hat ▸ hkey)
    obtain ⟨e', he', rfl, haround⟩ := h.nested e he q hq kind name body hof
    rw [hat, h.typeAt? e' he', (h.made e' he').qualifiedName_eq hof, haround]
    rfl

end Build

end Legible
