import Legible.Proofs.Index.Entries
import Legible.Proofs.Index.Members

/-!
# Keys in the index

Every key that an index of tidy units holds ends in the name that it is found by: a type by its
simple name, a field, method or member type by its own (`Index.Keyed`). Each type is keyed when it
is entered (`keeps_keyed`), so the index that is built is keyed (`keyed_build`).
-/

namespace Legible

variable {name : String}

theorem mem_values_iff {α β : Type} {cmp : α → α → Ordering} [Std.TransCmp cmp]
    [Std.LawfulEqCmp cmp] {m : Std.TreeMap α β cmp} {v : β} :
    v ∈ m.values ↔ ∃ k : α, m[k]? = some v := by
  simp [values_eq_map_toList, Std.TreeMap.mem_toList_iff_getElem?_eq_some]

/-! ## Types -/

/-- The keys of a type and of its members end in the names they go by. -/
structure TypeInfo.Keyed (info : TypeInfo) : Prop where
  noComment : '/' ∉ info.qualifiedName.toList
  plain : isPlainName (Text.simpleName info.qualifiedName) = true
  simple : info.name ≠ "" → Text.simpleName info.qualifiedName = info.name
  field : ∀ name f, info.fields[name]? = some f → f.key = info.qualifiedName ++ "." ++ name
  method : ∀ m ∈ info.methods, keyName m.key = m.name
  memberType : ∀ name key, info.memberTypes[name]? = some key →
    key = info.qualifiedName ++ "." ++ name ∧ isPlainName name = true

section Members

variable {u : SourceUnit} {p : Place}

theorem isPlainName_recordComponents (htidy : u.tidyOK = true) (hp : p ∈ u.root.places)
    {type : String} (h : (type, name) ∈ u.recordComponents p) : isPlainName name = true := by
  have hparted := parted_of_tidyOK htidy
  obtain ⟨param, name', hparam, hlist, -, hname, rfl⟩ := exists_of_mem_recordComponents hp h
  have hkind := hparted.kind_of_inParameterList hparam hlist
  exact hparted.isPlainName_of_isName (mem_places_of_declaredName? hparam hname).1
    (hparted.isName_declaredName? hparam hkind.2 hname)

theorem keyName_methodInfo (htidy : u.tidyOK = true) (hp : p ∈ u.root.places) {name : Place}
    {params body : Option Place} {isConstructor : Bool}
    (hof : Construct.of p = .method name params body isConstructor) (owner : String) :
    let m := u.methodInfo owner p name params isConstructor
    keyName m.key = m.name := by
  cases isConstructor with
  | false => exact (keyName_memberKey htidy hp (.inl ⟨_, _, hof⟩) owner).1
  | true =>
    obtain ⟨-, -, -, hparams⟩ := Construct.partsOf hof
    simp only [SourceUnit.methodInfo, SourceUnit.memberKey, hof, if_true]
    exact keyName_methodKey owner (by decide) fun type htype =>
      (notMem_methodParameters (fun _ => parameterOK_of_tidyOK htidy) hp hparams htype).1

/-- A type whose members come from a tidy unit is keyed. -/
theorem TypeInfo.MembersFrom.keyed {info : TypeInfo} {components : List String}
    {places : List Place} (h : info.MembersFrom u components places) (htidy : u.tidyOK = true)
    (hcomponents : ∀ name ∈ components, isPlainName name = true)
    (hplaces : ∀ p ∈ places, p ∈ u.root.places) (hcomment : '/' ∉ info.qualifiedName.toList)
    (hplain : isPlainName (Text.simpleName info.qualifiedName) = true)
    (hsimple : info.name ≠ "" → Text.simpleName info.qualifiedName = info.name) : info.Keyed where
  noComment := hcomment
  plain := hplain
  simple := hsimple
  field name f hf := (h.field name f hf).1
  method m hm := by
    rcases h.method m hm with ⟨hname, hkey⟩ | ⟨p, hp, hdeclares⟩
    · rw [hkey]
      exact keyName_dotted _ (hcomponents _ hname)
    · cases hdeclares with
      | method hof => exact keyName_methodInfo htidy (hplaces p hp) hof _
      | element hof hname hkey =>
        rw [hkey, hname]
        exact (keyName_memberKey htidy (hplaces p hp) (.inr hof) _).1
  memberType name key hkey := by
    obtain ⟨hkey, p, hp, kind, nameNode, body, hof, rfl⟩ := h.memberType name key hkey
    exact ⟨hkey, (parted_of_tidyOK htidy).isPlainName_typeDecl (hplaces p hp) hof⟩

end Members

/-! ## The index -/

/-- What an index of the given units holds goes by the names that its keys end in. -/
structure Index.Keyed (units : List SourceUnit) (ix : Index) : Prop where
  type : ∀ key info, ix.type? key = some info → info.qualifiedName = key ∧ info.Keyed
  bySimple : ∀ name, ∀ key ∈ ix.bySimple.getD name [],
    Text.simpleName key = name ∧ isPlainName name = true
  single : ∀ unit imports, ix.imports? unit = some imports →
    ∀ name key, imports.single[name]? = some key → Text.simpleName key = name
  declared : ∀ unit u, units[unit]? = some u → ∀ p ∈ u.root.places, ∀ kind name body,
    Construct.of p = .typeDecl kind name body →
    ∀ key, ix.typeAt? unit p = some key → Text.simpleName key = u.text name

/-! ## The walk -/

structure Around.Clean (around : Around) : Prop where
  owner : ∀ key ∈ around.owner, '/' ∉ key.toList
  member : ∀ key ∈ around.member, '/' ∉ key.toList

theorem Around.clean_type {key : String} (h : '/' ∉ key.toList) :
    ({ owner := some key } : Around).Clean :=
  ⟨fun _ hkey => Option.mem_some.mp hkey ▸ h, nofun⟩

theorem Around.clean_top : ({} : Around).Clean := ⟨nofun, nofun⟩

section Walk

variable {u : SourceUnit} {p : Place} {around : Around} {imports : Imports}
  {units : List SourceUnit} {unit : Nat} {owner simple : String}

theorem notMem_methodKey {types : List String} (howner : '/' ∉ owner.toList)
    (hname : '/' ∉ name.toList) (htypes : ∀ type ∈ types, '/' ∉ type.toList) :
    '/' ∉ (methodKey owner name types).toList := by
  have hargs : '/' ∉ (",".intercalate types).toList := Text.notMem_intercalate (by decide) htypes
  simpa [methodKey, howner, hname] using hargs

theorem notMem_memberKey (htidy : u.tidyOK = true) (hp : p ∈ u.root.places)
    (howner : '/' ∉ owner.toList) : '/' ∉ (u.memberKey owner p).toList := by
  have hinit : ∀ isStatic, '/' ∉ (initializerKey owner isStatic).toList := by
    intro isStatic
    cases isStatic <;> simp [initializerKey, howner]
  unfold SourceUnit.memberKey
  split
  · next name params body isConstructor hof =>
      have hparts := Construct.partsOf hof
      have htypes : ∀ type ∈ u.methodParameters p params, '/' ∉ type.toList :=
        fun type htype =>
          (notMem_methodParameters (fun _ => parameterOK_of_tidyOK htidy) hp hparts.2.2.2 htype).2
      cases isConstructor with
      | true => exact notMem_methodKey howner (by simp) htypes
      | false =>
        have hplain := (keyName_memberKey htidy hp (.inl ⟨_, _, hof⟩) owner).2
        exact notMem_methodKey howner (notMem_of_isPlainName hplain rfl) htypes
  · next name hof =>
      have hplain := (keyName_memberKey htidy hp (.inr hof) owner).2
      exact notMem_methodKey howner (notMem_of_isPlainName hplain rfl) nofun
  · exact hinit _
  · exact hinit _
  · exact hinit _

theorem simpleName_declaredName (imports : Imports) (around : Around)
    (h : Text.simpleName simple = simple) :
    Text.simpleName (Indexing.declaredName imports around simple) = simple := by
  unfold Indexing.declaredName Imports.qualify
  split
  · rw [Text.simpleName_append, h]
  · rw [Text.simpleName_append, h]
  · split
    · exact h
    · rw [Text.simpleName_append, h]

theorem notMem_declaredName (haround : around.Clean) (himports : '/' ∉ imports.package.toList)
    (h : isPlainName simple = true) :
    '/' ∉ (Indexing.declaredName imports around simple).toList := by
  have hsimple : '/' ∉ simple.toList := notMem_of_isPlainName h rfl
  unfold Indexing.declaredName Imports.qualify
  split
  · next member hmember => simp [haround.member member hmember, hsimple]
  · next owner _ howner => simp [haround.owner owner howner, hsimple]
  · split
    · exact hsimple
    · simp [himports, hsimple]

/-- A type declared by name is keyed. -/
theorem keyed_declaredType (htidy : u.tidyOK = true) (unit : Nat) (hp : p ∈ u.root.places)
    (haround : around.Clean) (himports : '/' ∉ imports.package.toList) {kind : TypeKind}
    {name body : Place} (hof : Construct.of p = .typeDecl kind name body) :
    let info := Indexing.declaredType u unit imports around p kind name body
    info.Keyed ∧ info.name = u.text name ∧ Text.simpleName info.qualifiedName = u.text name := by
  have hplain := (parted_of_tidyOK htidy).isPlainName_typeDecl hp hof
  have hbody := mem_places_of_typeDecl hp hof
  have hheader := header_declaredType u unit imports around p kind name body
  intro info
  have hname : info.name = u.text name := congrArg TypeInfo.name hheader
  have hkey := (declaredType_qualifiedName u unit imports around p kind name body).1
  have hsimple : Text.simpleName info.qualifiedName = u.text name := by
    rw [hkey, simpleName_declaredName imports around (simpleName_of_isPlainName hplain)]
  refine ⟨(TypeInfo.MembersFrom.declaredType u unit imports around p kind name body).keyed htidy
    (fun component hmem => ?_) (fun q hq => mem_places_of_mem_bodyMembers hbody hq) ?_
    (hsimple ▸ hplain) fun _ => hsimple.trans hname.symm, hname, hsimple⟩
  · split at hmem
    · obtain ⟨⟨type, _⟩, hpair, rfl⟩ := List.mem_map.mp hmem
      exact isPlainName_recordComponents htidy hp hpair
    · cases hmem
  · rw [hkey]
    exact notMem_declaredName haround himports hplain

theorem toList_anonymous (n : Nat) : ("$" ++ toString n).toList = '$' :: Nat.toDigits 10 n := by
  rw [String.toList_append, Nat.toString_eq_repr, Nat.toList_repr]
  rfl

theorem isPlainName_anonymous (n : Nat) : isPlainName ("$" ++ toString n) = true := by
  have hdigits : ∀ c ∈ Nat.toDigits 10 n, isNameChar c = true := fun c hc =>
    isNameChar_of_isDigit (Nat.isDigit_of_mem_toDigits (by decide) (by decide) hc)
  simp only [isPlainName, toList_anonymous, List.isEmpty_cons, Bool.not_false, Bool.true_and,
    List.all_cons, Bool.and_eq_true, List.all_eq_true]
  exact ⟨by decide, hdigits⟩

theorem anonymousName_eq (s : Indexing) (owner : String) : s.anonymousName owner
    = owner ++ "." ++ ("$" ++ toString (s.anonymous.getD owner 0 + 1)) := by
  rw [← String.toList_inj]
  simp [Indexing.anonymousName]

/-- An anonymous type is keyed. -/
theorem keyed_anonymousType (htidy : u.tidyOK = true) (unit : Nat) (s : Indexing)
    (howner : '/' ∉ owner.toList) (superText : String) {body : Place}
    (hbody : body ∈ u.root.places) :
    let info := s.anonymousType u unit owner superText body
    info.Keyed ∧ info.isLocal = true ∧ '/' ∉ (s.anonymousName owner).toList := by
  have hplain := isPlainName_anonymous (s.anonymous.getD owner 0 + 1)
  have hname := anonymousName_eq s owner
  have hclean : '/' ∉ (s.anonymousName owner).toList := by
    have := notMem_of_isPlainName hplain (d := '/') rfl
    simpa [hname, howner] using this
  intro info
  have hheader : info.header = _ := header_addMembers u _ body
  have hkey : info.qualifiedName = s.anonymousName owner := congrArg TypeInfo.qualifiedName hheader
  have hempty : info.name = "" := congrArg TypeInfo.name hheader
  have hmembers : info.MembersFrom u [] body.bodyMembers := .addMembers (.header u _ _ rfl)
  refine ⟨hmembers.keyed htidy (by simp) (fun q hq => mem_places_of_mem_bodyMembers hbody hq)
    (hkey ▸ hclean) ?_ fun h => absurd hempty h, congrArg TypeInfo.isLocal hheader, hclean⟩
  rwa [hkey, hname, simpleName_dotted _ hplain]

theorem mem_places_of_mem_namedChildren (hp : p ∈ u.root.places) :
    ∀ q ∈ p.namedChildren, q ∈ u.root.places := fun _ hq =>
  Place.mem_places_of_mem_children hp (Place.mem_children_of_mem_namedChildren hq)

/-- What a tidy unit enters for the node of a number. -/
def SourceUnit.KeyedEntry (u : SourceUnit) (entry : Nat × TypeInfo) : Prop :=
  entry.2.Keyed ∧ (entry.2.isLocal = false → entry.2.name ≠ "")
    ∧ ∃ p ∈ u.root.places, p.number = entry.1 ∧ ∀ kind name body,
      Construct.of p = .typeDecl kind name body →
        Text.simpleName entry.2.qualifiedName = u.text name

/-- Below clean surroundings the types that are entered are keyed. -/
theorem keeps_keyed (htidy : u.tidyOK = true) (himports : '/' ∉ imports.package.toList) :
    Indexing.Keeps u imports (fun around p => around.Clean ∧ p ∈ u.root.places) u.KeyedEntry where
  child _ _ h q hq := ⟨h.1, mem_places_of_mem_namedChildren h.2 q hq⟩
  member around p h q hq := by
    refine ⟨⟨h.1.owner, fun key hkey => ?_⟩, mem_places_of_mem_namedChildren h.2 q hq⟩
    rcases Option.or_eq_some_iff.mp hkey with hkey | ⟨-, hkey⟩
    · obtain ⟨owner, howner, rfl⟩ := Option.map_eq_some_iff.mp hkey
      exact notMem_memberKey htidy h.2 (h.1.owner owner howner)
    · exact h.1.member key hkey
  named around p h kind name body hof := by
    obtain ⟨hkeyed, hname, hsimple⟩ := keyed_declaredType htidy 0 h.2 h.1 himports hof
    refine ⟨⟨hkeyed, fun _ hempty => ?_, p, h.2, rfl, fun _ _ _ hof' => ?_⟩, fun q hq =>
      ⟨Around.clean_type hkeyed.noComment,
        mem_places_of_mem_namedChildren (mem_places_of_typeDecl h.2 hof) q hq⟩⟩
    · have hplain := (parted_of_tidyOK htidy).isPlainName_typeDecl h.2 hof
      rw [← hname, hempty] at hplain
      cases hplain
    · cases hof.symm.trans hof'
      exact hsimple
  unnamed around p h hnamed body hbody owner howner s superText := by
    have hbody := Place.mem_places_of_mem_children h.2 hbody
    obtain ⟨hkeyed, hlocal, hclean⟩ :=
      keyed_anonymousType htidy 0 s (h.1.owner owner howner) superText hbody
    refine ⟨⟨hkeyed, fun hnot => ?_, p, h.2, rfl, fun kind name body hof =>
      absurd hof (hnamed kind name body)⟩, fun q hq =>
        ⟨Around.clean_type hclean, mem_places_of_mem_namedChildren hbody q hq⟩⟩
    cases hlocal.symm.trans hnot

end Walk

/-! ## The index that is built -/

section Build

variable {u : SourceUnit} {units : List SourceUnit} {ix : Index}

theorem package_addImport (u : SourceUnit) (imports : Imports) (p : Place) :
    (u.addImport imports p).package = imports.package := by
  simp only [SourceUnit.addImport]
  repeat' split
  all_goals rfl

theorem notMem_package_imports (htidy : u.tidyOK = true) : '/' ∉ u.imports.package.toList := by
  have hnone : '/' ∉ ({} : Imports).package.toList := by decide
  refine List.foldlRecOn (motive := fun imports => '/' ∉ imports.package.toList)
    u.top.namedChildren u.addHeader hnone fun imports himports p hp => ?_
  have hp := mem_places_of_mem_namedChildren (Place.mem_below_self u.top) p hp
  unfold SourceUnit.addHeader
  split
  · split
    · next name hname =>
        have hplace := mem_places_of_mem_namedChildren hp name (List.mem_of_find?_eq_some hname)
        exact notMem_text_qualifiedName htidy hplace (by simpa using List.find?_some hname)
    · exact himports
  · rwa [package_addImport]
  · exact himports

theorem simpleName_single_imports (u : SourceUnit) :
    ∀ name key, u.imports.single[name]? = some key → Text.simpleName key = name := by
  refine List.foldlRecOn (motive := fun (imports : Imports) => ∀ name key,
    imports.single[name]? = some key → Text.simpleName key = name)
    u.top.namedChildren u.addHeader (by simp) fun imports himports p _ => ?_
  unfold SourceUnit.addHeader
  split
  · split <;> exact himports
  · simp only [SourceUnit.addImport]
    split
    · exact himports
    · next c _ =>
        split
        · intro name key hkey
          rw [Std.TreeMap.getElem?_insert] at hkey
          split at hkey
          · next heq =>
              cases hkey
              exact Std.LawfulEqCmp.eq_of_compare heq
          · exact himports name key hkey
        · exact himports
        · split <;> exact himports
        · exact himports
  · exact himports

theorem keyed_build (htidy : ∀ u ∈ units, u.tidyOK = true) : (Index.build units).Keyed units := by
  have h : (Index.build units).Holds SourceUnit.KeyedEntry units :=
    Index.holds_build fun u hu => Index.exists_entries_of
      (keeps_keyed (htidy u hu) (notMem_package_imports (htidy u hu)))
      ⟨Around.clean_top, Place.mem_below_self u.top⟩
  exact
    { type := by
        intro key info hinfo
        obtain ⟨hname, unit, u, entry, -, hentry, heq⟩ := h.type key info hinfo
        refine ⟨hname, ?_⟩
        rw [heq]
        exact { hentry.1 with }
      bySimple := by
        intro name key hkey
        obtain ⟨u, -, entry, hentry, hlocal, rfl, rfl⟩ := h.bySimple name key hkey
        have hsimple := hentry.1.simple (hentry.2.1 hlocal)
        exact ⟨hsimple, hsimple ▸ hentry.1.plain⟩
      single := by
        intro unit imports himports
        obtain ⟨u, -, rfl⟩ := h.imports? unit imports himports
        exact simpleName_single_imports u
      declared := by
        intro unit u hu p hp kind name body hof key hkey
        obtain ⟨u', entry, hu', ⟨-, -, q, hq, hnumber, hdecl⟩, hentry, rfl⟩ :=
          h.typeAt? unit p key hkey
        cases hu.symm.trans hu'
        have hparted := parted_of_tidyOK (htidy u (List.mem_of_getElem? hu))
        rw [hparted.eq_of_number_eq hq hp (hnumber.trans hentry)] at hdecl
        exact hdecl kind name body hof }

end Build

end Legible
