import Legible.Proofs.Index.Origin

/-!
# Types that other units can name

A type is passed over by the search for the only type of a name if it stands directly in a member,
or has no name (`Place.isHidden`). What stands in the body of such a type is not passed over. So a
name that is not declared around, not imported and not of the package means the one type of that
name among those that are not hidden (`exposedTypes`), wherever it is nested, and a hidden type is
never meant from outside (`resolveType_outside`).
-/

namespace Legible

/-! ## Hidden types -/

/-- Whether the place stands in a member of a type, with no other type between them. -/
def Place.inMember (p : Place) : Bool := p.seat.owner.isSome && p.seat.member.isSome

/-- Whether what the place declares is a type in a member, or one without a name. -/
def Place.isHidden (p : Place) : Bool :=
  match Construct.of p with
  | .typeDecl .. => p.inMember
  | _ => true

/-- What a unit's own package and its imports may make of a simple name. -/
def Imports.readings (imports : Imports) (name : String) : List String :=
  imports.single[name]?.toList
    ++ imports.qualify name :: imports.onDemand.map fun p => p ++ "." ++ name

namespace SourceUnit

/-- The key of the type at `p` if it is not hidden and has the given simple name. -/
def exposedKey? (u : SourceUnit) (types : Place → Option String) (name : String) (p : Place) :
    Option String :=
  match Construct.of p with
  | .typeDecl _ nameNode _ => if !p.inMember && u.text nameNode == name then types p else none
  | _ => none

/-- The keys of the types of a unit that are not hidden and have the given simple name. -/
def exposedTypes (u : SourceUnit) (types : Place → Option String) (name : String) : List String :=
  u.root.places.filterMap (u.exposedKey? types name)

variable {u : SourceUnit} {types : Place → Option String} {name key : String} {p : Place}

theorem isHidden_of_exposedKey? (h : u.exposedKey? types name p = some key) :
    types p = some key ∧ p.isHidden = false := by
  unfold exposedKey? at h
  unfold Place.isHidden
  split at h
  · split at h
    · next hexposed =>
        rw [Bool.and_eq_true, Bool.not_eq_true'] at hexposed
        exact ⟨h, hexposed.1⟩
    · cases h
  · cases h

end SourceUnit

/-- The keys of the types of the units that are not hidden and have the given simple name. -/
def exposedTypes (units : List SourceUnit) (name : String) : List String :=
  units.zipIdx.flatMap fun (u, number) =>
    u.exposedTypes ((Index.build units).typeAt? number) name

/-! ## Names without an owner -/

section Census

variable {u : SourceUnit} {entries : List Indexing.Entry}

/-- The flag of an entry says whether the type is hidden. -/
theorem Census.exposedKey?_eq (h : Census u entries) {e : Indexing.Entry} (he : e ∈ entries)
    (name : String) : u.exposedKey? ((Index.ofUnit u).typeAt? 0) name e.place
      = if !e.info.isLocal && e.info.name == name then some e.info.qualifiedName else none := by
  have hat := h.typeAt? e he
  have haround := (h.around e he).2
  have howned := h.owned e he
  unfold SourceUnit.exposedKey?
  cases h.made e he with
  | @named p nameNode body around kind hof =>
    have hheader := header_declaredType u 0 u.imports around p kind nameNode body
    have hlocal := congrArg TypeInfo.isLocal hheader
    have hname := congrArg TypeInfo.name hheader
    dsimp only [TypeInfo.header] at hlocal hname hat haround howned ⊢
    -- a member counts only inside of a type, and that type has a key
    have hmember : around.member.isSome = p.inMember := by
      rw [haround _ _ _ hof, Place.inMember, SourceUnit.aroundAt]
      rcases howned with hnone | ⟨e', he', hsome⟩
      · simp [hnone]
      · simp [hsome, h.typeAt? e' he']
    rw [hof, hlocal, hname, hmember, hat]
  | @unnamed p body around owner howner n superText hbody hnamed =>
    have hlocal : (Indexing.unnamedType u 0 owner n superText body).isLocal = true :=
      congrArg TypeInfo.isLocal (header_addMembers u _ body)
    rw [hlocal]
    split
    · next hof => exact absurd hof (hnamed _ _ _)
    · rfl

/-- The names that a unit enters are those of its exposed types. -/
theorem Census.bySimple_perm (h : Census u entries) (hshaped : u.shapedOK = true) (name : String) :
    ((Index.ofUnit u).bySimple.getD name []).Perm
      (u.exposedTypes ((Index.ofUnit u).typeAt? 0) name) := by
  let key? := u.exposedKey? ((Index.ofUnit u).typeAt? 0) name
  have hentries : (Index.ofUnit u).bySimple.getD name []
      = (entries.map (·.place)).filterMap key? := by
    rw [h.bySimple, List.filterMap_map, ← List.filterMap_eq_map, ← List.filterMap_eq_filter,
      List.filterMap_filterMap]
    refine List.filterMap_congr fun e he => ?_
    refine Eq.trans ?_ (h.exposedKey?_eq he name).symm
    cases hexposed : !e.info.isLocal && e.info.name == name <;> simp [Option.guard, hexposed]
  have hplaces : u.root.places.filterMap key?
      = (u.root.places.filter fun p => ((Index.ofUnit u).typeAt? 0 p).isSome).filterMap key? := by
    rw [List.filterMap_filter]
    refine List.filterMap_congr fun p _ => ?_
    split
    · rfl
    · next hnone =>
        by_contra hkey
        obtain ⟨key, hkey⟩ := Option.ne_none_iff_exists'.mp hkey
        simp [(SourceUnit.isHidden_of_exposedKey? hkey).1] at hnone
  rw [hentries, SourceUnit.exposedTypes, hplaces]
  refine List.Perm.filterMap key? ?_
  -- each type has one entry, and each entry has a place of its own
  have hnodup : (entries.map (·.place)).Nodup := by
    have hnumbers : ((entries.map (·.place)).map Place.number).Nodup := by
      rw [List.map_map]
      exact h.nodup
    exact hnumbers.of_map
  have hnodup' : u.root.places.Nodup := (parted_of_shapedOK hshaped).numbers.of_map
  rw [List.perm_ext_iff_of_nodup hnodup (hnodup'.filter _)]
  intro p
  rw [List.mem_map, List.mem_filter]
  constructor
  · rintro ⟨e, he, rfl⟩
    exact ⟨h.places e he, by rw [h.typeAt? e he]; rfl⟩
  · rintro ⟨hp, hkey⟩
    obtain ⟨key, hkey⟩ := Option.isSome_iff_exists.mp hkey
    obtain ⟨e, he, hplace, -⟩ := h.entry p hp key hkey
    exact ⟨e, he, hplace⟩

end Census

section Build

variable {units : List SourceUnit} {info : TypeInfo}

theorem bySimple_build_perm (hunits : ∀ u ∈ units, u.shapedOK = true) (name : String) :
    ((Index.build units).bySimple.getD name []).Perm (exposedTypes units name) := by
  rw [Index.bySimple_build, exposedTypes]
  conv => lhs; rw [← List.zipIdx_map_fst 0 units, List.flatMap_map]
  refine List.Perm.flatMap_left _ ?_
  rintro ⟨u, number⟩ hmem
  have hu := List.mem_zipIdx_iff_getElem?.mp hmem
  have hshaped := hunits u (List.mem_of_getElem? hu)
  obtain ⟨entries, h⟩ := exists_census hshaped
  have hperm := h.bySimple_perm hshaped name
  rw [← (Index.held_build hu).2] at hperm
  exact hperm

/-- One type is entered by a simple name if one that is not hidden has it. -/
theorem bySimple_build_singleton (hunits : ∀ u ∈ units, u.shapedOK = true) (name key : String) :
    (Index.build units).bySimple[name]? = some [key] ↔ exposedTypes units name = [key] := by
  rw [← List.perm_singleton (l := exposedTypes units name)]
  have hperm := bySimple_build_perm hunits name
  constructor
  · intro h
    rw [Std.TreeMap.getD_eq_getD_getElem?, h] at hperm
    exact hperm.symm
  · intro h
    have hsingle := List.perm_singleton.mp (hperm.trans h)
    rw [Std.TreeMap.getD_eq_getD_getElem?] at hsingle
    cases hentry : (Index.build units).bySimple[name]? with
    | none => simp [hentry] at hsingle
    | some keys => simpa [hentry] using hsingle

/-! ## Names asked outside of a type -/

/-- A member of a type is not in a member. -/
theorem Place.inMember_of_mem_typeMembers {u : SourceUnit} (hshaped : u.shapedOK = true)
    {p q : Place} (hp : p ∈ u.root.places) (hq : q ∈ p.typeMembers) : q.inMember = false := by
  rw [inMember, Indexing.seat_of_mem_typeMembers hshaped hp hq]
  rfl

variable {number : Nat} {u : SourceUnit} {context : Option String} {name key : String}

def HiddenKey (units : List SourceUnit) (key : String) : Prop :=
  ∀ number u, units[number]? = some u → ∀ p ∈ u.root.places,
    (Index.build units).typeAt? number p = some key → p.isHidden = true

theorem HiddenKey.notMem_exposedTypes (h : HiddenKey units key) (name : String) :
    key ∉ exposedTypes units name := by
  intro hmem
  obtain ⟨⟨u, number⟩, hu, hmem⟩ := List.mem_flatMap.mp hmem
  obtain ⟨p, hp, hkey⟩ := List.mem_filterMap.mp hmem
  obtain ⟨htype, hexposed⟩ := SourceUnit.isHidden_of_exposedKey? hkey
  rw [h number u (List.mem_zipIdx_iff_getElem?.mp hu) p hp htype] at hexposed
  cases hexposed

/-- A hidden type is no member of another. -/
theorem HiddenKey.findMemberType?_ne (h : HiddenKey units key)
    (hunits : ∀ u ∈ units, u.shapedOK = true) (owner name : String) :
    (Index.build units).findMemberType? owner name ≠ some key := by
  intro hfind
  obtain ⟨info, hinfo, hmember⟩ := List.exists_of_findSome?_eq_some hfind
  obtain ⟨outer, houter⟩ := Index.exists_of_mem_hierarchy hinfo
  obtain ⟨hrooted, hnests⟩ := rooted_build hunits
  obtain ⟨unit, u, p, hu, hp, q, hq, kind, nameNode, body, hof, htype⟩ :=
    hrooted.exists_member_of_memberTypes hnests houter hmember
  have hplace := Place.mem_places_of_mem_typeMembers hp hq
  have hhidden := h unit u hu q hplace htype
  have hmember := Place.inMember_of_mem_typeMembers (hunits u (List.mem_of_getElem? hu)) hp hq
  rw [Place.isHidden, hof, hmember] at hhidden
  cases hhidden

/-- A hidden type is found around a place only inside of itself. -/
theorem HiddenKey.nameWithin?_ne (h : HiddenKey units key) (hunits : ∀ u ∈ units, u.shapedOK = true)
    (hne : info.qualifiedName ≠ key) (name : String) :
    (Index.build units).nameWithin? true name info ≠ some key := by
  unfold Index.nameWithin?
  split
  · simpa using hne
  · simpa using h.findMemberType?_ne hunits info.qualifiedName name

/-- What a simple name means in a unit, if neither the package nor an import makes it the type. -/
theorem importedName?_eq_some_iff (ix : Index) {imports : Imports}
    (himports : key ∉ imports.readings name) :
    ix.importedName? imports name = some key ↔ imports.single[name]? = none
      ∧ (∀ reading ∈ imports.readings name, ix.types.contains reading = false)
      ∧ ix.bySimple[name]? = some [key] := by
  unfold Imports.readings at himports ⊢
  unfold Index.importedName?
  cases hsingle : imports.single[name]? with
  | some qualified =>
    have hne : qualified ≠ key := by
      rintro rfl
      simp [hsingle] at himports
    simp [hne]
  | none =>
    simp only [hsingle, Option.toList_none, List.nil_append, List.mem_cons, not_or] at himports
    obtain ⟨hpackage, honDemand⟩ := himports
    simp only [Option.toList_none, List.nil_append, List.forall_mem_cons, true_and]
    by_cases hcontains : ix.types.contains (imports.qualify name) = true
    · simp [hcontains, Ne.symm hpackage]
    · rw [if_neg hcontains]
      cases hfind : (imports.onDemand.map fun p => p ++ "." ++ name).find? ix.types.contains with
      | some qualified =>
        have hmem := List.mem_of_find?_eq_some hfind
        have hfound := List.find?_some hfind
        have hne : qualified ≠ key := fun heq => honDemand (heq ▸ hmem)
        simp only [Option.some.injEq, hne, false_iff]
        rintro ⟨⟨-, hnone⟩, -⟩
        rw [hnone qualified hmem] at hfound
        cases hfound
      | none =>
        have hnone : ∀ reading ∈ imports.onDemand.map fun p => p ++ "." ++ name,
            ix.types.contains reading = false :=
          fun reading hmem => Bool.not_eq_true _ |>.mp (List.find?_eq_none.mp hfind reading hmem)
        refine Iff.trans ?_ (iff_and_self.mpr fun _ =>
          ⟨Bool.not_eq_true _ |>.mp hcontains, hnone⟩ : _ ↔ _ ∧ ix.bySimple[name]? = some [key])
        dsimp only
        constructor
        · intro h
          split at h
          · next only honly =>
              cases h
              exact honly
          · cases h
        · intro h
          rw [h]

/-- What is asked in one unit is asked outside of the types of the others. -/
theorem ne_of_unit_ne (hunits : ∀ u ∈ units, u.shapedOK = true)
    (hinfo : (Index.build units).type? key = some info) (hne : info.unit ≠ number)
    (hcontext : ∀ outer ∈ (Index.build units).enclosingTypes context, outer.unit = number) :
    ∀ outer ∈ (Index.build units).enclosingTypes context, outer.qualifiedName ≠ key := by
  rintro outer houter rfl
  obtain ⟨key, hkey⟩ := Index.exists_of_mem_enclosingTypes houter
  have hname := ((rooted_build hunits).1.type key outer hkey).1
  rw [hname, hkey] at hinfo
  exact hne (Option.some.inj hinfo ▸ hcontext outer houter)

/-- What a name of one segment means where it is asked outside of a type, and neither the package
nor an import makes it that type. A hidden type is not meant. Any other is meant if it is a member
of a type around, or if nothing else is found and it is the only type of the name that is not
hidden, however deep it stands in a member. -/
theorem resolveType_outside (hunits : ∀ u ∈ units, u.shapedOK = true)
    (hu : units[number]? = some u) (hsegment : Text.splitFirst (Text.trim name) = none)
    (houtside : ∀ outer ∈ (Index.build units).enclosingTypes context, outer.qualifiedName ≠ key)
    (himports : key ∉ u.imports.readings (Text.trim name)) :
    let ix := Index.build units
    let around := (ix.enclosingTypes context).findSome? (ix.nameWithin? true (Text.trim name))
    (HiddenKey units key → ix.resolveType number context name ≠ .known key)
      ∧ (ix.resolveType number context name = .known key
        ↔ Text.trim name ∉ Index.primitives
          ∧ (around = some key
            ∨ around = none ∧ u.imports.single[Text.trim name]? = none
              ∧ (∀ reading ∈ u.imports.readings (Text.trim name), ix.types.contains reading = false)
              ∧ exposedTypes units (Text.trim name) = [key])) := by
  intro ix around
  have hmeant : ix.resolveType number context name = .known key
      ↔ Text.trim name ∉ Index.primitives
        ∧ (around = some key
          ∨ around = none ∧ u.imports.single[Text.trim name]? = none
            ∧ (∀ reading ∈ u.imports.readings (Text.trim name), ix.types.contains reading = false)
            ∧ exposedTypes units (Text.trim name) = [key]) := by
    have hlookup : ix.lookupSimple? number context (Text.trim name) true
        = around.or (ix.importedName? u.imports (Text.trim name)) := by
      rw [Index.lookupSimple?, (Index.held_build hu).1, Option.bind_some]
    have hknown : ix.lookupSimple? number context (Text.trim name) true = some key
        ↔ (around = some key
          ∨ around = none ∧ u.imports.single[Text.trim name]? = none
            ∧ (∀ reading ∈ u.imports.readings (Text.trim name), ix.types.contains reading = false)
            ∧ exposedTypes units (Text.trim name) = [key]) := by
      rw [hlookup, Option.or_eq_some_iff, importedName?_eq_some_iff ix himports,
        bySimple_build_singleton hunits]
    rw [← hknown, Index.resolveType, Index.resolveWith]
    by_cases hprimitive : Text.trim name ∈ Index.primitives
    · simp [hprimitive]
    · simp only [List.contains_iff_mem, hprimitive, if_false, hsegment, not_false_eq_true, true_and]
      cases ix.lookupSimple? number context (Text.trim name) true <;> simp
  refine ⟨fun hhidden hknown => ?_, hmeant⟩
  rcases (hmeant.mp hknown).2 with haround | ⟨-, -, -, hexposed⟩
  · obtain ⟨outer, houter, hwithin⟩ := List.exists_of_findSome?_eq_some haround
    exact hhidden.nameWithin?_ne hunits (houtside outer houter) _ hwithin
  · refine hhidden.notMem_exposedTypes (Text.trim name) ?_
    rw [hexposed]
    exact List.mem_singleton_self key

end Build

/-- A class in a method with a class in it. -/
def Sample.localType : SourceUnit where
  path := "A.java"
  source := "class A\x7bvoid m()\x7bclass L\x7bclass M\x7b\x7d\x7d\x7d\x7d"
  root := open Sample in
    node 0 "program" 0 37 none [
     node 1 "class_declaration" 0 37 none [mark 2 "class" 0 5, name 3 6 7 "name",
      node 4 "class_body" 7 37 (some "body") [mark 5 "\x7b" 7 8,
       node 6 "method_declaration" 8 36 none [node 7 "void_type" 8 12 (some "type") [],
        name 8 13 14 "name",
        node 9 "formal_parameters" 14 16 (some "parameters") [mark 10 "(" 14 15, mark 11 ")" 15 16],
        node 12 "block" 16 36 (some "body") [mark 13 "\x7b" 16 17,
         node 14 "class_declaration" 17 35 none [mark 15 "class" 17 22, name 16 23 24 "name",
          node 17 "class_body" 24 35 (some "body") [mark 18 "\x7b" 24 25,
           node 19 "class_declaration" 25 34 none [mark 20 "class" 25 30, name 21 31 32 "name",
            node 22 "class_body" 32 34 (some "body") [mark 23 "\x7b" 32 33, mark 24 "\x7d" 33 34]],
           mark 25 "\x7d" 34 35]], mark 26 "\x7d" 35 36]], mark 27 "\x7d" 36 37]]]

/-- A class of its own. -/
def Sample.otherType : SourceUnit where
  path := "B.java"
  source := "class B\x7b\x7d"
  root := open Sample in
    node 0 "program" 0 9 none [
     node 1 "class_declaration" 0 9 none [mark 2 "class" 0 5, name 3 6 7 "name",
      node 4 "class_body" 7 9 (some "body") [mark 5 "\x7b" 7 8, mark 6 "\x7d" 8 9]]]

theorem Sample.shapedOK_localType :
    ∀ u ∈ [Sample.localType, Sample.otherType], u.shapedOK = true := by decide +kernel

/-- The class in the method is not meant from the other unit. -/
theorem resolveType_outside_local :
    let units := [Sample.localType, Sample.otherType]
    (∀ u ∈ units, u.shapedOK = true)
      ∧ (∃ info, (Index.build units).type? "A.m().L" = some info ∧ info.unit = 0)
      ∧ (Index.build units).resolveType 1 (some "B") "L" ≠ .known "A.m().L" := by
  intro units
  have hunits : ∀ u ∈ units, u.shapedOK = true := Sample.shapedOK_localType
  obtain ⟨info, hinfo, hunit⟩ :
      ∃ info, (Index.build units).type? "A.m().L" = some info ∧ info.unit = 0 :=
    Option.map_eq_some_iff.mp (by decide +kernel)
  have houtside : ∀ outer ∈ (Index.build units).enclosingTypes (some "B"),
      outer.qualifiedName ≠ "A.m().L" :=
    ne_of_unit_ne hunits hinfo (by rw [hunit]; exact Nat.zero_ne_one) (by decide +kernel)
  have hhidden : HiddenKey units "A.m().L" := by
    have hall : ∀ i < 2, ∀ u, units[i]? = some u → ∀ p ∈ u.root.places,
        (Index.build units).typeAt? i p = some "A.m().L" → p.isHidden = true := by
      decide +kernel
    intro number u hu
    exact hall number (List.getElem?_eq_some_iff.mp hu).1 u hu
  exact ⟨hunits, ⟨info, hinfo, hunit⟩,
    (resolveType_outside hunits (rfl : units[1]? = _) (by decide +kernel) houtside
      (by decide +kernel)).1 hhidden⟩

/-- The class in that class is. -/
theorem member_of_local_type_resolved :
    let units := [Sample.localType, Sample.otherType]
    (∀ u ∈ units, u.shapedOK = true)
      ∧ "A.m().L.M" ∉ Sample.otherType.imports.readings "M"
      ∧ exposedTypes units "M" = ["A.m().L.M"]
      ∧ (Index.build units).resolveType 1 (some "B") "M" = .known "A.m().L.M" :=
  ⟨Sample.shapedOK_localType, by decide +kernel⟩

end Legible
