import Legible.Proofs.Index.Hierarchy
import Legible.Proofs.Index.Keyed

/-!
# What lookups find

`Index.Leads` lists the ways from a text to a type of the index: a simple name is searched in the
types around and then in the imports, and of a dotted one any beginning may be a type. A text that
leads nowhere stands for itself or for an import (`Index.Outside`).

In a keyed index the key that is found ends in the name that was looked up (`NamedBy`), and so does
the key that stands for a text that no type is found for (`meantBy_of_cases`).
-/

namespace Legible

variable {owner key text name : String} {info : TypeInfo}

/-! ## Ways to a type -/

namespace Index

variable {ix : Index} {unit : Nat} {Bound : String → String → Prop} {context : Option String}
  {inherited : Bool}

/-- The text leads to the key of a type in a unit where some names are bound. -/
inductive Leads (ix : Index) (unit : Nat) (Bound : String → String → Prop) :
    String → String → Prop
  | bound {name key : String} (h : Bound name key) : Leads ix unit Bound name key
  | around {outer : String} {info : TypeInfo} (h : ix.type? outer = some info) :
      Leads ix unit Bound info.name info.qualifiedName
  | member {outer name key : String} {info : TypeInfo} (h : ix.type? outer = some info)
      (hkey : info.memberTypes[name]? = some key) : Leads ix unit Bound name key
  | imported {imports : Imports} {name key : String} (h : ix.imports? unit = some imports)
      (hkey : imports.single[name]? = some key) (hcontains : ix.types.contains key = true) :
      Leads ix unit Bound name key
  | package {imports : Imports} {name : String} (h : ix.imports? unit = some imports)
      (hdot : '.' ∉ name.toList) (hcontains : ix.types.contains (imports.qualify name) = true) :
      Leads ix unit Bound name (imports.qualify name)
  | onDemand {imports : Imports} {p name : String} (h : ix.imports? unit = some imports)
      (hp : p ∈ imports.onDemand) (hdot : '.' ∉ name.toList)
      (hcontains : ix.types.contains (p ++ "." ++ name) = true) :
      Leads ix unit Bound name (p ++ "." ++ name)
  | only {name key : String} (h : ix.bySimple[name]? = some [key]) : Leads ix unit Bound name key
  | whole {key : String} (h : ix.types.contains key = true) : Leads ix unit Bound key key
  /-- A member of what the text before the last dot leads to, or of one of its supertypes. -/
  | dotted {text outer name key : String} {info : TypeInfo} (h : Leads ix unit Bound text outer)
      (hinfo : info ∈ ix.hierarchy outer) (hkey : info.memberTypes[name]? = some key) :
      Leads ix unit Bound (text ++ "." ++ name) key

/-- The text stands for the key of a type that is not in the index. -/
inductive Outside (ix : Index) (unit : Nat) : String → String → Prop
  | written (text : String) : Outside ix unit text text
  | imported {name key : String} (h : ix.importOf? unit name = some key)
      (hdot : '.' ∉ name.toList) : Outside ix unit name key
  | dotted {first outer : String} (rest : String) (h : ix.importOf? unit first = some outer) :
      Outside ix unit (first ++ "." ++ rest) (outer ++ "." ++ rest)

theorem exists_of_mem_hierarchy (hinfo : info ∈ ix.hierarchy owner) :
    ∃ key, ix.type? key = some info := by
  obtain ⟨key, _, hkey⟩ := List.mem_filterMap.mp hinfo
  exact ⟨key, hkey⟩

theorem exists_of_mem_enclosingTypes (hinfo : info ∈ ix.enclosingTypes context) :
    ∃ key, ix.type? key = some info := by
  unfold Index.enclosingTypes at hinfo
  generalize ix.size = steps at hinfo
  induction steps generalizing context with
  | zero => cases hinfo
  | succ steps ih =>
    unfold Index.enclosingFrom at hinfo
    split at hinfo
    · next info' hinfo' =>
        rcases List.mem_cons.mp hinfo with rfl | hinfo
        · obtain ⟨key, _, hkey⟩ := Option.bind_eq_some_iff.mp hinfo'
          exact ⟨key, hkey⟩
        · exact ih hinfo
    · cases hinfo

theorem leads_of_lookupSimple? (hdot : '.' ∉ name.toList)
    (h : ix.lookupSimple? unit context name inherited = some key) :
    ix.Leads unit Bound name key := by
  rcases Option.or_eq_some_iff.mp h with h | ⟨-, h⟩
  · obtain ⟨info, hinfo, h⟩ := List.exists_of_findSome?_eq_some h
    obtain ⟨outer, houter⟩ := exists_of_mem_enclosingTypes hinfo
    unfold nameWithin? at h
    split at h
    · next hname =>
        cases h
        rw [← beq_iff_eq.mp hname]
        exact .around houter
    · split at h
      · obtain ⟨info, hinfo, h⟩ := List.exists_of_findSome?_eq_some h
        obtain ⟨outer, houter⟩ := exists_of_mem_hierarchy hinfo
        exact .member houter h
      · exact .member houter h
  · obtain ⟨imports, himports, h⟩ := Option.bind_eq_some_iff.mp h
    unfold importedName? at h
    split at h
    · next hsingle =>
        obtain ⟨hcontains, h⟩ := Option.ite_none_right_eq_some.mp h
        cases h
        exact .imported himports hsingle hcontains
    · split at h
      · next hcontains =>
          cases h
          exact .package himports hdot hcontains
      · split at h
        · next hfind =>
            cases h
            obtain ⟨p, hp, rfl⟩ := List.mem_map.mp (List.mem_of_find?_eq_some hfind)
            exact .onDemand himports hp hdot (List.find?_some hfind)
        · split at h
          · next honly =>
              cases h
              exact .only honly
          · cases h

theorem leads_of_descend? {outer : String} {names : List String}
    (houter : ix.Leads unit Bound text outer) (h : ix.descend? outer names = some key) :
    ix.Leads unit Bound (Text.behind text names) key := by
  unfold descend? at h
  induction names generalizing text outer with
  | nil =>
    cases h
    exact houter
  | cons name names ih =>
    rw [List.foldlM_cons] at h
    obtain ⟨inner, hinner, h⟩ := Option.bind_eq_some_iff.mp h
    obtain ⟨info, hinfo, hinner⟩ := List.exists_of_findSome?_eq_some hinner
    exact ih (.dotted houter hinfo hinner) h

theorem leads_of_lookupDotted? {first rest : String}
    (hsplit : Text.splitFirst text = some (first, rest))
    (h : ix.lookupDotted? unit context text first rest inherited = some key) :
    ix.Leads unit Bound text key := by
  obtain ⟨htext, hdot⟩ := Text.splitFirst_eq_some hsplit
  unfold lookupDotted? at h
  split at h
  · next hcontains =>
      cases h
      exact .whole hcontains
  · rcases Option.or_eq_some_iff.mp h with h | ⟨-, h⟩
    · obtain ⟨outer, houter, h⟩ := Option.bind_eq_some_iff.mp h
      rw [htext, ← Text.behind_segments]
      exact leads_of_descend? (leads_of_lookupSimple? hdot houter) h
    · obtain ⟨k, hk, h⟩ := List.exists_of_findSome?_eq_some h
      rw [List.mem_reverse, List.mem_range'_1] at hk
      obtain ⟨houter, h⟩ := Option.ite_none_right_eq_some.mp h
      rw [← Text.behind_drop text hk.1]
      exact leads_of_descend? (.whole houter) h

/-- What a text means as a type. -/
theorem resolveWith_cases (Bound : String → String → Prop) (ix : Index) (unit : Nat)
    (context : Option String) (text : String) (inherited : Bool) :
    (∃ key, ix.resolveWith unit context text inherited = .known key
        ∧ ix.Leads unit Bound (Text.trim text) key)
      ∨ (∃ key, ix.resolveWith unit context text inherited = .external key
        ∧ ix.Outside unit (Text.trim text) key)
      ∨ ix.resolveWith unit context text inherited = .primitive (Text.trim text) := by
  simp only [resolveWith]
  split
  · exact .inr (.inr rfl)
  · split
    · next hsplit =>
        split
        · next hfound => exact .inl ⟨_, rfl, leads_of_lookupDotted? hsplit hfound⟩
        · split
          · next houter =>
              rw [(Text.splitFirst_eq_some hsplit).1]
              exact .inr (.inl ⟨_, rfl, .dotted _ houter⟩)
          · exact .inr (.inl ⟨_, rfl, .written _⟩)
    · next hsplit =>
        have hdot := Text.notMem_of_splitFirst_eq_none hsplit
        split
        · next hfound => exact .inl ⟨_, rfl, leads_of_lookupSimple? hdot hfound⟩
        · cases himport : ix.importOf? unit (Text.trim text) with
          | none => exact .inr (.inl ⟨_, rfl, .written _⟩)
          | some key => exact .inr (.inl ⟨_, rfl, .imported himport hdot⟩)

end Index

/-! ## Names of keys -/

/-- The key ends in the last name of the text, and the text has no comment in it. -/
structure NamedBy (key text : String) : Prop where
  plain : isPlainName (Text.simpleName text) = true
  name : keyName key = Text.simpleName text
  noComment : '/' ∉ text.toList

theorem NamedBy.of_simpleName (hplain : isPlainName (Text.simpleName text) = true)
    (hname : Text.simpleName key = Text.simpleName text) (hcomment : '/' ∉ text.toList) :
    NamedBy key text :=
  ⟨hplain, by rw [keyName_of_plain_simpleName (by rwa [hname]), hname], hcomment⟩

theorem NamedBy.of_isPlainName (hplain : isPlainName name = true)
    (hname : Text.simpleName key = name) : NamedBy key name := by
  have hsimple := simpleName_of_isPlainName hplain
  exact .of_simpleName (by rwa [hsimple]) (by rw [hname, hsimple])
    (notMem_of_isPlainName hplain rfl)

inductive TypeRef.MeantBy (text : String) : TypeRef → Prop
  /-- Only anonymous types go by the empty name. -/
  | known {key : String} (h : text ≠ "" → Legible.NamedBy key text) : MeantBy text (.known key)
  | external {key : String} (h : Text.simpleName key = Text.simpleName text) :
      MeantBy text (.external key)
  | primitive (name : String) : MeantBy text (.primitive name)

namespace TypeRef.MeantBy

theorem keyName_known (h : MeantBy text (.known key)) (hname : Text.simpleName text = name)
    (hplain : isPlainName name = true) : keyName key = name := by
  cases h with
  | known h =>
    refine (h ?_).name.trans hname
    rintro rfl
    rw [← hname] at hplain
    cases hplain

theorem keyName_external (h : MeantBy text (.external key)) (hname : Text.simpleName text = name)
    (hplain : isPlainName name = true) : keyName key = name := by
  cases h with
  | external h =>
    have hsimple : Text.simpleName key = name := h.trans hname
    rw [keyName_of_plain_simpleName (by rwa [hsimple]), hsimple]

end TypeRef.MeantBy

theorem Index.simpleName_qualify (imports : Imports) (name : String) :
    Text.simpleName (imports.qualify name) = Text.simpleName name := by
  unfold Imports.qualify
  split
  · rfl
  · exact Text.simpleName_append _ _

namespace Index.Keyed

variable {units : List SourceUnit} {ix : Index} {unit : Nat} {ref : TypeRef}

/-! ## Members -/

variable (h : ix.Keyed units)

include h

theorem contains (hkey : ix.types.contains key = true) : NamedBy key key := by
  obtain ⟨info, hinfo⟩ := contains_iff.mp hkey
  obtain ⟨rfl, hkeyed⟩ := h.type key info hinfo
  exact .of_simpleName hkeyed.plain rfl hkeyed.noComment

theorem of_mem_hierarchy (hinfo : info ∈ ix.hierarchy owner) : info.Keyed := by
  obtain ⟨key, hkey⟩ := exists_of_mem_hierarchy hinfo
  exact (h.type key info hkey).2

theorem key_of_findField? {f : FieldInfo} (hfind : ix.findField? owner name = some (info, f)) :
    f.key = info.qualifiedName ++ "." ++ name := by
  obtain ⟨info', hinfo', hfield⟩ := List.exists_of_findSome?_eq_some hfind
  obtain ⟨f', hf', heq⟩ := Option.map_eq_some_iff.mp hfield
  cases heq
  exact (h.of_mem_hierarchy hinfo').field name f hf'

theorem simpleName_of_findMemberType? (hfind : ix.findMemberType? owner name = some key) :
    Text.simpleName key = name ∧ isPlainName name = true := by
  obtain ⟨info, hinfo, hmember⟩ := List.exists_of_findSome?_eq_some hfind
  obtain ⟨rfl, hplain⟩ := (h.of_mem_hierarchy hinfo).memberType name key hmember
  exact ⟨simpleName_dotted _ hplain, hplain⟩

/-- What a text leads to is named by it. Only an anonymous type goes by the empty name. -/
theorem namedBy_of_leads {Bound : String → String → Prop}
    (hbound : ∀ name key, Bound name key → NamedBy key name)
    (hleads : ix.Leads unit Bound text key) : text ≠ "" → NamedBy key text := by
  -- a key that the index has and that ends in the name
  have hfound : ∀ {name key}, ix.types.contains key = true → Text.simpleName key = name →
      NamedBy key name := fun hkey heq => .of_isPlainName (heq ▸ (h.contains hkey).plain) heq
  induction hleads with
  | bound hkey => exact fun _ => hbound _ _ hkey
  | @around outer info hinfo =>
    intro hempty
    have hkeyed := (h.type outer info hinfo).2
    have hsimple := hkeyed.simple hempty
    exact .of_isPlainName (hsimple ▸ hkeyed.plain) hsimple
  | @member outer name key info hinfo hkey =>
    obtain ⟨rfl, hplain⟩ := (h.type outer info hinfo).2.memberType name key hkey
    exact fun _ => .of_isPlainName hplain (simpleName_dotted _ hplain)
  | @imported imports name key himports hkey hcontains =>
    exact fun _ => hfound hcontains (h.single unit imports himports name key hkey)
  | package himports hdot hcontains =>
    exact fun _ => hfound hcontains
      ((simpleName_qualify _ _).trans (Text.simpleName_of_notMem hdot))
  | onDemand himports hp hdot hcontains =>
    exact fun _ => hfound hcontains
      ((Text.simpleName_append _ _).trans (Text.simpleName_of_notMem hdot))
  | @only name key honly =>
    obtain ⟨heq, hplain⟩ := h.bySimple name key (mem_bySimple_of_only honly)
    exact fun _ => .of_isPlainName hplain heq
  | whole hcontains => exact fun _ => h.contains hcontains
  | @dotted text outer name key info _ hinfo hkey ih =>
    obtain ⟨rfl, hplain⟩ := (h.of_mem_hierarchy hinfo).memberType name key hkey
    have hname := simpleName_of_isPlainName hplain
    refine fun _ => .of_simpleName ?_ ?_ fun hcomment => ?_
    · rwa [Text.simpleName_append, hname]
    · rw [Text.simpleName_append, Text.simpleName_append]
    · rw [String.toList_append, String.toList_append, List.mem_append, List.mem_append] at hcomment
      rcases hcomment with (hcomment | hcomment) | hcomment
      · have hne : text ≠ "" := by
          rintro rfl
          cases hcomment
        exact (ih hne).noComment hcomment
      · simp at hcomment
      · exact notMem_of_isPlainName hplain rfl hcomment

theorem simpleName_of_outside (hout : ix.Outside unit text key) :
    Text.simpleName key = Text.simpleName text := by
  cases hout with
  | written => rfl
  | imported himport hdot =>
    obtain ⟨imports, himports, hkey⟩ := Option.bind_eq_some_iff.mp himport
    rw [Text.simpleName_of_notMem hdot, h.single unit imports himports _ key hkey]
  | dotted => rw [Text.simpleName_append, Text.simpleName_append]

/-- A text means a type that ends as the text does, in the index and outside of it. -/
theorem meantBy_of_cases {Bound : String → String → Prop}
    (hbound : ∀ name key, Bound name key → NamedBy key name)
    (href : (∃ key, ref = .known key ∧ ix.Leads unit Bound text key)
      ∨ (∃ key, ref = .external key ∧ ix.Outside unit text key) ∨ ref = .primitive text) :
    ref.MeantBy text := by
  rcases href with ⟨key, rfl, hleads⟩ | ⟨key, rfl, hout⟩ | rfl
  · exact .known (h.namedBy_of_leads hbound hleads)
  · exact .external (h.simpleName_of_outside hout)
  · exact .primitive text

theorem meantBy_resolveType {context : Option String}
    (href : ix.resolveType unit context text = ref) : ref.MeantBy (Text.trim text) :=
  href ▸ h.meantBy_of_cases (fun _ _ => False.elim) (resolveWith_cases (fun _ _ => False) ..)

end Index.Keyed

end Legible
