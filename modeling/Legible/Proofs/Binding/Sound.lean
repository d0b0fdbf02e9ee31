import Legible.Proofs.Binding.Names
import Legible.Proofs.Binding.ScopeLaws
import Legible.Proofs.Binding.Traversal

/-!
# Names refer to what is called so

Whatever a traversal resolves a name to is called by that name: the key ends in it, and the symbol
was declared with it (`Symbols.Sound`). The exceptions are the names of constructors, which stand
for the type around them, and names of which only a key without a name is known. Each step of a
traversal keeps this, so it holds of every table that a traversal of a tidy unit builds
(`sound_found`).
-/

namespace Legible

open Binder

variable {r : Resolution} {key name : String} {b : Binder} {scope : ScopeId} {space : Namespace}

/-! ## Scopes -/

namespace Scopes

variable {g : Scopes} {s : ScopeId} {binding : Binding}

theorem mem_of_mem_lookupIn (h : binding ∈ g.lookupIn s space name) :
    ⟨space, name, binding⟩ ∈ g.definitionsIn s := by
  obtain ⟨d, hd, heq⟩ := List.mem_filterMap.mp h
  split at heq
  · next hname =>
      cases heq
      simp only [Bool.and_eq_true, decide_eq_true_eq, beq_iff_eq] at hname
      obtain ⟨rfl, rfl⟩ := hname
      exact hd
  · cases heq

theorem mem_of_lookup? (h : g.lookup? scope space name = some (s, binding)) :
    ⟨space, name, binding⟩ ∈ g.definitionsIn s := by
  obtain ⟨s', _, hlast⟩ := List.exists_of_findSome?_eq_some h
  obtain ⟨binding', hbinding, heq⟩ := Option.map_eq_some_iff.mp hlast
  cases heq
  exact mem_of_mem_lookupIn (List.mem_of_getLast? hbinding)

theorem mem_of_mem_lookupAll (h : (s, binding) ∈ g.lookupAll scope space name) :
    ⟨space, name, binding⟩ ∈ g.definitionsIn s := by
  obtain ⟨s', _, hmem⟩ := List.mem_flatMap.mp h
  obtain ⟨binding', hbinding, heq⟩ := List.mem_map.mp hmem
  cases heq
  exact mem_of_mem_lookupIn hbinding

end Scopes

/-! ## Soundness of a table -/

def Symbols.Refers (c : BindingInput) (t : Symbols) (p : Place) : Resolution → Prop
  | .symbol id =>
    (∃ s, t.symbol? id = some s ∧ s.declaredName = c.unit.text p)
      -- the name of a constructor
      ∨ ∃ q params body, c.Has q ∧ Construct.of q = .method p params body true
        ∧ ∀ key, c.InBody q key → ∃ s, t.symbol? id = some s ∧ s.key = key
  | .member key .valid => keyName key = c.unit.text p
  | .member key .missing => keyName key = c.unit.text p ∨ isPlainName (keyName key) = false
  | .keep => True

/-- Symbols, bindings and resolutions of a table go by the right names. -/
structure Symbols.Sound (c : BindingInput) (t : Symbols) : Prop where
  symbol : ∀ id s, t.symbol? id = some s →
    keyName s.key = s.declaredName ∧ isPlainName s.declaredName = true
  binding : ∀ scope space name id, ⟨space, name, .symbol id⟩ ∈ t.scopes.definitionsIn scope →
    ∃ s, t.symbol? id = some s ∧ s.declaredName = name
  resolution : ∀ p r, c.Has p → p.node.isName = true → t.resolution? p = some r → t.Refers c p r

namespace Symbols

variable {c : BindingInput} {t t' : Symbols} {id : SymbolId}

theorem Refers.mono (hsymbols : ∀ id s, t.symbol? id = some s → t'.symbol? id = some s) {p : Place}
    (h : t.Refers c p r) : t'.Refers c p r := by
  match r, h with
  | .symbol id, .inl ⟨s, hs, hname⟩ => exact .inl ⟨s, hsymbols id s hs, hname⟩
  | .symbol id, .inr ⟨q, params, body, hq, hof, hkey⟩ =>
    refine .inr ⟨q, params, body, hq, hof, fun key hin => ?_⟩
    obtain ⟨s, hs, hskey⟩ := hkey key hin
    exact ⟨s, hsymbols id s hs, hskey⟩
  | .member _ .valid, h => exact h
  | .member _ .missing, h => exact h
  | .keep, _ => trivial

theorem Sound.of_idOf? (h : t.Sound c) (hid : t.idOf? key = some id) :
    ∃ s, t.symbol? id = some s ∧ s.declaredName = keyName key := by
  obtain ⟨s, hs, rfl⟩ := exists_symbol?_of_idOf? hid
  exact ⟨s, hs, (h.symbol id s hs).1.symm⟩

/-- The key of a bound symbol ends in the name that it is bound to. -/
theorem Sound.keyName_keyOfSymbol (h : b.table.Sound c)
    (hbound : ⟨space, name, .symbol id⟩ ∈ b.table.scopes.definitionsIn scope) :
    keyName (b.keyOfSymbol id) = name ∧ isPlainName name = true := by
  obtain ⟨s, hs, rfl⟩ := h.binding scope space name id hbound
  have hkey : b.keyOfSymbol id = s.key := by simp [keyOfSymbol, hs]
  rw [hkey]
  exact h.symbol id s hs

end Symbols

/-! ## Type names -/

section Lookup

variable {c : BindingInput} {units : List SourceUnit}

/-- A text means what is in scope under its first name and what that leads to, or else what the
index says. -/
theorem meantBy_lookupType? (hindex : c.index.Keyed units) (hsound : b.table.Sound c)
    {text : String} {ref : TypeRef} (href : b.lookupType? c text = some ref) :
    ref.MeantBy (Text.trim text) := by
  refine hindex.meantBy_of_cases ?_ (lookupType?_cases href)
  rintro name key ⟨scope, id, hlookup, rfl⟩
  obtain ⟨hname, hplain⟩ := hsound.keyName_keyOfSymbol (Scopes.mem_of_lookup? hlookup)
  have hsimple := simpleName_of_isPlainName hplain
  exact ⟨by rwa [hsimple], by rwa [hsimple], notMem_of_isPlainName hplain rfl⟩

end Lookup

/-! ## Keys -/

section Means

variable {c : BindingInput} {units : List SourceUnit} {p last : Place}

/-- A type node ends in the name that it is named by. -/
theorem simpleName_typeNameParts? (htidy : c.Tidy) (hp : c.Has p) (hlast : c.Has last)
    (hname : last.node.isName = true) {first : Option Place}
    (hparts : typeNameParts? p = some (first, last)) :
    Text.simpleName (Text.trim (c.unit.typeText p)) = c.unit.text last := by
  have hplain := ((parted_of_tidyOK htidy).name _ hlast hname).2
  unfold typeNameParts? at hparts
  split at hparts
  · next hkind =>
      obtain ⟨last', hfind, heq⟩ := Option.map_eq_some_iff.mp hparts
      cases heq
      obtain ⟨pre, htext⟩ := typeText_scopedType htidy hp (beq_iff_eq.mp hkind) hfind
      exact simpleName_trim htext hplain
  · split at hparts
    · next hkind =>
        obtain ⟨last', hchild, heq⟩ := Option.map_eq_some_iff.mp hparts
        cases heq
        obtain ⟨⟨pre, htext⟩, -⟩ := text_scopedName htidy hp (beq_iff_eq.mp hkind) hchild
        exact simpleName_trim htext hplain
    · cases hparts
      rw [typeText_of_isName htidy hp hname, trim_of_isPlainName hplain,
        simpleName_of_isPlainName hplain]

/-- An imported name ends in its last name, unless a blank stands before that. -/
theorem simpleName_imported (htidy : c.Tidy) (hp : c.Has p) (hlast : c.Has last)
    (hname : last.node.isName = true)
    (hparts : (if p.kind == "scoped_identifier" then p.child? "name" else some p) = some last) :
    let text := Text.trim (c.unit.text p)
    Text.simpleName text = c.unit.text last
      ∨ text ≠ "" ∧ isPlainName (Text.simpleName text) = false
        ∧ (Text.simpleName text).toList.getLast? ≠ some ')' := by
  have hplain := ((parted_of_tidyOK htidy).name _ hlast hname).2
  split at hparts
  · next hkind =>
      obtain ⟨-, pre, sep, rfl | hsep, htext⟩ :=
        text_scopedName htidy hp (beq_iff_eq.mp hkind) hparts
      · exact .inl (simpleName_trim htext hplain)
      · refine (simpleName_trim_blank hsep htext hplain).imp_right fun h => ⟨fun hempty => ?_, h⟩
        obtain ⟨d, rest, hd⟩ := List.exists_cons_of_ne_nil (toList_ne_nil_of_isPlainName hplain)
        have hmem : d ∈ (Text.trim (c.unit.text p)).toList :=
          Text.mem_trim (by simp [htext, hd]) (isBlank_of_isPlainName hplain (by simp [hd]))
        simp [hempty] at hmem
  · cases hparts
    exact .inl (by rw [trim_of_isPlainName hplain, simpleName_of_isPlainName hplain])

/-- A key that a name means ends in the name. -/
theorem Means.refers (htidy : c.Tidy) (hindex : c.index.Keyed units) (hsound : b.table.Sound c)
    {found : Found} (h : Means c b p key found) (hp : c.Has p) (hname : p.node.isName = true) :
    b.table.Refers c p (.member key found) := by
  have hplain := ((parted_of_tidyOK htidy).name _ hp hname).2
  have htext : Text.simpleName (Text.trim (c.unit.text p)) = c.unit.text p := by
    rw [trim_of_isPlainName hplain, simpleName_of_isPlainName hplain]
  cases h with
  | typeName hq hparts hkey =>
    exact (meantBy_lookupType? hindex hsound hkey).keyName_known
      (simpleName_typeNameParts? htidy hq hp hname hparts) hplain
  | outerTypeName hq hparts hkey =>
    exact .inl ((meantBy_lookupType? hindex hsound hkey).keyName_external
      (simpleName_typeNameParts? htidy hq hp hname hparts) hplain)
  | importedName hq hlast hkey =>
    have hmeant := hindex.meantBy_resolveType hkey
    rcases simpleName_imported htidy hq hp hname hlast with hsimple | ⟨hne, hblank, -⟩
    · exact hmeant.keyName_known hsimple hplain
    · -- no type of the index has a blank in its name
      cases hmeant with
      | known h => simp [(h hne).plain] at hblank
  | outerImportedName hq hlast hkey =>
    have hmeant := hindex.meantBy_resolveType hkey
    rcases simpleName_imported htidy hq hp hname hlast with hsimple | ⟨-, hblank, hend⟩
    · exact .inl (hmeant.keyName_external hsimple hplain)
    · cases hmeant with
      | external h =>
        rw [← h] at hblank hend
        exact .inr (by rw [keyName_of_getLast?_simpleName hend]; exact hblank)
  | field hfind =>
    rw [hindex.key_of_findField? hfind]
    exact keyName_dotted _ hplain
  | method hinfo hm hmname => exact ((hindex.of_mem_hierarchy hinfo).method _ hm).trans hmname
  | scopedMethod hbound => exact (hsound.keyName_keyOfSymbol (Scopes.mem_of_mem_lookupAll hbound)).1
  | memberType hfind =>
    obtain ⟨hsimple, -⟩ := hindex.simpleName_of_findMemberType? hfind
    exact (keyName_of_plain_simpleName (by rwa [hsimple])).trans hsimple
  | simpleType hkey => exact (meantBy_lookupType? hindex hsound hkey).keyName_known htext hplain
  | outerSimpleType hkey =>
    exact .inl ((meantBy_lookupType? hindex hsound hkey).keyName_external htext hplain)
  | qualifiedType hq hkind hfield hident hkey =>
    have hmeant := meantBy_lookupType? hindex hsound hkey
    rcases typeText_fieldAccess htidy hq hkind hfield hident with ⟨pre, hends⟩ | hcomment
    · exact hmeant.keyName_known (simpleName_trim hends hplain) hplain
    · have hmem := Text.mem_trim hcomment (by decide)
      cases hmeant with
      | known h => exact absurd hmem (h fun hempty => by simp [hempty] at hmem).noComment
  | caseLabel => exact keyName_dotted _ hplain
  | declared h =>
    cases h with
    | component | field | constant => exact keyName_dotted _ hplain
    | method hq hof => exact (keyName_memberKey htidy hq.has hof _).1
  | missingMember => exact .inl (keyName_dotted _ hplain)
  | missingMethod =>
    refine .inl (keyName_methodKey _ hplain fun type htype => ?_)
    rw [List.eq_of_mem_replicate htype]
    decide

theorem keyName_variableKey (b : Binder) (kind : SymbolKind) (h : isPlainName name = true) :
    keyName (b.variableKey kind name) = name := by
  rw [variableKey_eq, callKey, keyName_parenthesized _ (b.notMem_variableTail kind name),
    simpleName_dotted _ h]

theorem MemberKey.keyName_eq (htidy : c.Tidy) (h : MemberKey c p key) :
    keyName key = c.unit.text p ∧ isPlainName (c.unit.text p) = true := by
  cases h with
  | field owner hname => exact ⟨keyName_dotted owner hname, hname⟩
  | method owner hp hof => exact keyName_memberKey htidy hp hof owner

/-- A type goes by the name at its declaration. -/
theorem keyName_typeAt? (htidy : c.Tidy) (hindex : c.index.Keyed units)
    (hunit : units[c.number]? = some c.unit) {decl name body : Place} {kind : TypeKind}
    (hdecl : c.Has decl) (hof : Construct.of decl = .typeDecl kind name body)
    (hkey : c.index.typeAt? c.number decl = some key) :
    keyName key = c.unit.text name ∧ isPlainName (c.unit.text name) = true := by
  have hplain := (parted_of_tidyOK htidy).isPlainName_typeDecl hdecl hof
  have hsimple := hindex.declared c.number c.unit hunit decl hdecl kind name body hof key hkey
  exact ⟨(keyName_of_plain_simpleName (by rwa [hsimple])).trans hsimple, hplain⟩

end Means

/-! ## Steps -/

namespace Symbols.Sound

variable {c : BindingInput} {b : Binder} {units : List SourceUnit} {p : Place} {s : Symbol}

section

variable (htidy : c.Tidy) (hindex : c.index.Keyed units) (hunit : units[c.number]? = some c.unit)

include htidy hindex hunit

/-- A resolution that a traversal gives is right. -/
theorem refers_of_resolves (h : b.table.Sound c) (hr : Resolves c b p r) (hp : c.Has p)
    (hname : p.node.isName = true) : b.table.Refers c p r := by
  have hplain := ((parted_of_tidyOK htidy).name _ hp hname).2
  cases hr with
  | keep => trivial
  | value hbound => exact .inl (h.binding _ _ _ _ (Scopes.mem_of_lookup? hbound))
  | @linked _ key found hmeans =>
    have hrefers := hmeans.refers htidy hindex h hp hname
    unfold target
    split
    · next id hid =>
        obtain ⟨s, hs, hdeclared⟩ := h.of_idOf? hid
        exact .inl ⟨s, hs, hdeclared.trans hrefers⟩
    · exact hrefers
  | typeName hdecl hof hkey hid =>
    obtain ⟨s, hs, hdeclared⟩ := h.of_idOf? hid
    exact .inl ⟨s, hs, hdeclared.trans (keyName_typeAt? htidy hindex hunit hdecl hof hkey).1⟩
  | @variableName _ s id kind hs member hkey _ =>
    refine .inl ⟨s, hs, ?_⟩
    rw [← (h.symbol id s hs).1, hkey, keyName_variableKey member kind hplain]
  | constructorName hq hof hid hplaced => exact .inr ⟨_, _, _, hq, hof, hplaced⟩

theorem resolve (h : b.table.Sound c) (hr : Resolves c b p r) (hp : c.Has p) :
    (b.table.resolve p r).Sound c where
  __ := h
  resolution := by
    intro q r' hq hname hr'
    rcases resolution?_resolve_cases hr' with hr' | ⟨hnumber, rfl⟩
    · exact h.resolution q r' hq hname hr'
    · have hsame : p = q := (parted_of_tidyOK htidy).eq_of_number_eq hp hq hnumber
      subst hsame
      exact h.refers_of_resolves htidy hindex hunit hr hp hname

theorem keyName_of_declares (hs : Declares c b s) :
    keyName s.key = s.declaredName ∧ isPlainName s.declaredName = true := by
  cases hs with
  | type hdecl hof hkey _ hname =>
    rw [hname]
    exact keyName_typeAt? htidy hindex hunit hdecl hof hkey
  | member hkey _ hname =>
    rw [hname]
    exact hkey.keyName_eq htidy
  | varName hp hname hkey _ hdeclared =>
    have hplain := ((parted_of_tidyOK htidy).name _ hp hname).2
    rw [hdeclared, hkey]
    exact ⟨keyName_variableKey b s.kind hplain, hplain⟩

end

theorem define (h : b.table.Sound c) {d : Definition} (hd : ∀ id, d.binding = .symbol id →
      ∃ s, b.table.symbol? id = some s ∧ s.declaredName = d.name) :
    (b.table.define scope d).Sound c where
  __ := h
  binding := by
    intro scope' space name id hmem
    rcases Scopes.mem_define_iff.mp hmem with hmem | ⟨rfl, -⟩
    · exact h.binding scope' space name id hmem
    · exact hd id rfl

theorem add (h : b.table.Sound c)
    (hs : keyName s.key = s.declaredName ∧ isPlainName s.declaredName = true) :
    (b.table.add s).1.Sound c where
  symbol := by
    intro id s' hs'
    rcases symbol?_add hs' with hs' | ⟨_, rfl⟩
    · exact h.symbol id s' hs'
    · exact hs
  binding := by
    intro scope space name id hmem
    rw [b.table.scopes_add] at hmem
    obtain ⟨s', hs', hname⟩ := h.binding scope space name id hmem
    exact ⟨s', symbol?_add_of_symbol? s hs', hname⟩
  resolution := by
    intro p r hp hname hr
    rw [b.table.resolution?_add] at hr
    exact (h.resolution p r hp hname hr).mono fun id s' => symbol?_add_of_symbol? s

theorem declared (h : b.table.Sound c)
    (hs : keyName s.key = s.declaredName ∧ isPlainName s.declaredName = true) :
    (b.declared space s).Sound c := by
  have hadd := h.add hs
  refine Sound.define (b := { b with table := (b.table.add s).1 }) hadd fun id hid => ?_
  cases hid
  obtain ⟨s', hs', hkey, -⟩ := b.table.exists_symbol?_add s
  refine ⟨s', hs', ?_⟩
  rw [← (hadd.symbol _ s' hs').1, hkey]
  exact hs.1

theorem of_run (htidy : c.Tidy) (hindex : c.index.Keyed units)
    (hunit : units[c.number]? = some c.unit) {N : List Nat} {b' : Binder} (hrun : Run c N b b')
    (h : b.table.Sound c) : b'.table.Sound c := by
  refine hrun.keeps (I := Symbols.Sound c) ?_ ?_ ?_ ?_ ?_ ?_ h
  · exact fun b p r hp hr h => h.resolve htidy hindex hunit hr hp
  · exact fun b space s hs _ h => h.declared (keyName_of_declares htidy hindex hunit hs)
  · intro b p owner id hname hid h
    refine h.define fun id' hid' => ?_
    cases hid'
    obtain ⟨s, hs, hdeclared⟩ := h.of_idOf? hid
    exact ⟨s, hs, hdeclared.trans (keyName_dotted owner hname)⟩
  · exact fun b name h => h.define fun id hid => by cases hid
  · exact fun b kind h => ⟨h.symbol, h.binding, h.resolution⟩
  · exact fun b h => ⟨h.symbol, h.binding, h.resolution⟩

end Symbols.Sound

/-- What a traversal of a tidy unit finds goes by the right names. -/
theorem sound_found {c : BindingInput} {units : List SourceUnit} (htidy : c.Tidy)
    (hindex : c.index.Keyed units) (hunit : units[c.number]? = some c.unit) :
    (Symbols.found c).Sound c := by
  have hnew : Symbols.Sound c ({} : Binder).table := by
    refine ⟨?_, ?_, ?_⟩
    · intro id s hs
      simp [Symbols.symbol?, Symbols.new] at hs
    · intro scope space name id hmem
      simp [Symbols.new, Scopes.new, Scopes.definitionsIn] at hmem
    · intro p r _ _ hr
      simp [Symbols.resolution?, Symbols.new] at hr
  have hsound : (traverse c).table.Sound c := by
    have h := hnew.of_run htidy hindex hunit (walked_run (parted_of_tidyOK htidy))
    rw [Binder.traverse]
    exact ⟨h.symbol, h.binding, h.resolution⟩
  -- the names left over are kept, which is right for every name
  refine List.foldlRecOn (motive := Symbols.Sound c) (Symbols.namePlaces c.unit) _ hsound
    fun t h p hp => ?_
  exact Symbols.Sound.resolve (b := { table := t }) htidy hindex hunit h (.keep p)
    (List.mem_of_mem_filter hp)

end Legible
