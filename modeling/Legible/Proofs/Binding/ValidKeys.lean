import Legible.Proofs.Binding.Registered
import Legible.Proofs.Binding.Scoping
import Legible.Proofs.Layout.Fidelity

/-!
# Valid keys are declared

A name that is not resolved to a symbol of its unit, but to a key that was found, has the key from
the index: it is that of a type that is declared by name or of a member of a type (`Index.Knows`,
`admits_knows`). Where the traversals of the units visit all types of the index, each of these keys
is that of a symbol (`registered_of_visited`). Together this is `valid_keys_declared`.

The index does not know the types that are declared in the header of another one. Inside of such a
type a member gets a key for the type around it, which no declaration has
(`member_of_unknown_type`). These names are `BindingInput.stray`.
-/

namespace Legible

open Binder Trace

variable {units : List SourceUnit} {c : BindingInput} {text key : String} {p : Place}

/-! ## Numbers of types -/

def isTypeNumber (name : String) : Bool :=
  match name.toList with
  | '$' :: digits => !digits.isEmpty && digits.all Char.isDigit
  | _ => false

/-- The key is that of a type which is declared by name, or of a member of a type. -/
def Index.Knows (units : List SourceUnit) (ix : Index) (key : String) : Prop :=
  ix.Names units key ∨ ix.Declares units key

/-- A text that ends in an identifier finds no type without a name. -/
theorem Index.Finds.names {ix : Index} {name : String} (h : ix.Finds units (Text.trim text) key)
    (hname : isIdentifierText name = true) (hnumber : isTypeNumber name = false)
    (hends : name.toList <:+ text.toList) : ix.Names units key := by
  cases h with
  | named h => exact h
  | numbered n hkey htext =>
    exfalso
    have hplain := isPlainName_of_isIdentifierText hname
    obtain ⟨ch, rest, hcons⟩ := List.exists_cons_of_ne_nil (toList_ne_nil_of_isPlainName hplain)
    obtain ⟨left, hleft⟩ := hends
    have htrim := toList_trim_of_isPlainName hleft.symm hplain
    rcases htext with htext | htext
    · rw [htext] at htrim
      simp [hcons] at htrim
    · obtain ⟨mid, hmid⟩ :=
        Text.simpleName_of_append_notMem htrim (notMem_of_isPlainName hplain rfl)
      have hdigits : mid ++ name.toList = '$' :: Nat.toDigits 10 n := by
        rw [← hmid, htext, hkey, String.toList_append, Nat.toString_eq_repr, Nat.toList_repr]
        rfl
      have hdigit : ∀ d ∈ Nat.toDigits 10 n, d.isDigit = true := fun d hd =>
        Nat.isDigit_of_mem_toDigits (by decide) (by decide) hd
      cases mid with
      | nil =>
        -- the identifier is the number itself
        rw [List.nil_append] at hdigits
        have hnumber : ∃ d ∈ Nat.toDigits 10 n, d.isDigit = false := by
          simpa [isTypeNumber, hdigits, Nat.toDigits_ne_nil] using hnumber
        obtain ⟨d, hd, hnot⟩ := hnumber
        simp [hdigit d hd] at hnot
      | cons d mid =>
        -- it starts inside of the number
        have hmem : ch ∈ Nat.toDigits 10 n := by
          rw [← (List.cons.inj hdigits).2]
          simp [hcons]
        simp [isIdentifierText, hcons, hdigit ch hmem] at hname

/-! ## Members in place -/

def Place.memberNames (p : Place) : List Place :=
  match Construct.of p with
  | .field _ => p.declarators.map (·.2)
  | .enumConstant name _ => [name]
  | .method name _ _ false => [name]
  | .elementDecl name => [name]
  | _ => []

/-- Whether at `q` stands the name of a member that is in no body of a type which the index knows.
-/
def BindingInput.stray (c : BindingInput) (q : Place) : Bool :=
  c.unit.root.places.any fun p => q.isIn p.memberNames
    && !c.unit.root.places.any fun d =>
      (c.index.typeAt? c.number d).isSome && p.isIn d.typeMembers

theorem exists_typeMembers_of_stray (hshaped : c.unit.shapedOK = true) {q : Place}
    (hstray : c.stray q = false) (hp : c.Has p) (hq : q ∈ p.memberNames) :
    ∃ d key, c.Has d ∧ c.index.typeAt? c.number d = some key ∧ p ∈ d.typeMembers := by
  have hin : (c.unit.root.places.any fun d =>
      (c.index.typeAt? c.number d).isSome && p.isIn d.typeMembers) = true := by
    have hnot := List.any_eq_false.mp hstray p hp
    have hself : q.isIn p.memberNames = true := Place.isIn_eq_true_iff.mpr ⟨q, hq, rfl⟩
    simpa [hself] using hnot
  obtain ⟨d, hd, hin⟩ := List.any_eq_true.mp hin
  rw [Bool.and_eq_true] at hin
  obtain ⟨key, hkey⟩ := Option.isSome_iff_exists.mp hin.1
  obtain ⟨p', hp', hnumber⟩ := Place.isIn_eq_true_iff.mp hin.2
  have hp'Has : c.Has p' := Place.mem_places_of_mem_typeMembers hd hp'
  exact ⟨d, key, hd, hkey, (parted_of_shapedOK hshaped).eq_of_number_eq hp hp'Has hnumber ▸ hp'⟩

section Names

variable {c : BindingInput} {units : List SourceUnit} {q : Place} {G : Nat → String → Prop}
  {b : Binder} {log : List Event}

/-- A member that is no stray one is in the innermost of its regions that are types, and is
declared there. -/
theorem declares_of_stray (hshaped : c.unit.shapedOK = true)
    (hunit : units[c.number]? = some c.unit) (hp : c.Has p) (hq : q ∈ p.memberNames)
    (hstray : c.stray q = false) : ∃ owner, innermostType? (c.regions p) = some owner
      ∧ ∀ key ∈ c.unit.memberKeysAt owner p, c.index.Declares units key := by
  obtain ⟨d, owner, hd, howner, hmem⟩ := exists_typeMembers_of_stray hshaped hstray hp hq
  refine ⟨owner, ?_, fun key hkey => ⟨c.number, c.unit, d, owner, hunit, hd, howner,
    List.mem_append_right _ (List.mem_flatMap.mpr ⟨p, hmem, hkey⟩)⟩⟩
  obtain ⟨body, hbody, hp'⟩ := List.mem_flatMap.mp hmem
  rw [regions_bodyMember hshaped hd (Option.mem_toList.mp hbody) howner hp']
  rfl

/-- The name of a member that is no stray one has a key of a type that the index knows. -/
theorem declares_of_memberName (hshaped : c.unit.shapedOK = true)
    (hunit : units[c.number]? = some c.unit) {R : List Region} (h : MemberName c R q key)
    (hstray : c.stray q = false) : c.index.Declares units key := by
  cases h with
  | component hp hof hkey hparams hparam hq =>
    refine ⟨c.number, c.unit, _, _, hunit, hp, hkey, List.mem_append_left _ ?_⟩
    simp only [SourceUnit.componentKeys, hof, SourceUnit.componentNames, hparams hshaped,
      Option.toList_some, List.flatMap_singleton]
    exact List.mem_map_of_mem (List.mem_map_of_mem (List.mem_filterMap.mpr ⟨_, hparam, hq⟩))
  | field hp hof hd =>
    obtain ⟨owner, hinner, hkeys⟩ := declares_of_stray hshaped hunit hp.has
      (by simp only [Place.memberNames, hof]; exact List.mem_map_of_mem (f := (·.2)) hd) hstray
    rw [← hp.regions hshaped, hinner]
    refine hkeys _ ?_
    simp only [SourceUnit.memberKeysAt, hof]
    exact List.mem_map.mpr ⟨_, hd, rfl⟩
  | constant hp hof =>
    obtain ⟨owner, hinner, hkeys⟩ := declares_of_stray hshaped hunit hp.has
      (by simp [Place.memberNames, hof]) hstray
    rw [← hp.regions hshaped, hinner]
    exact hkeys _ (by simp [SourceUnit.memberKeysAt, hof])
  | method hp hof howner =>
    obtain ⟨owner, hinner, hkeys⟩ := declares_of_stray hshaped hunit hp.has
      (by rcases hof with ⟨_, _, hof⟩ | hof <;> simp [Place.memberNames, hof]) hstray
    cases (hp.regions hshaped ▸ hinner).symm.trans howner
    refine hkeys _ ?_
    rcases hof with ⟨_, _, hof⟩ | hof <;> simp [SourceUnit.memberKeysAt, hof]

/-! ## Keys of names -/

theorem Symbols.not_hasKey_of_idOf? {t : Symbols} (h : t.idOf? key = none) : ¬ t.HasKey key := by
  rintro ⟨id, s, hs, hkey⟩
  have hnone := Array.findIdx?_eq_none_iff.mp h s (Array.mem_of_getElem? hs)
  simp [hkey] at hnone

/-- A key that was found is kept for a name only if there is no symbol of it. -/
theorem Resolves.means (h : Resolves c b q (.member key .valid)) :
    Means c b q key .valid ∧ ¬ b.table.HasKey key := by
  generalize hr : Resolution.member key .valid = r at h
  cases h with
  | linked h =>
    unfold target at hr
    split at hr
    · cases hr
    · next hnone =>
        cases hr
        refine ⟨h, Symbols.not_hasKey_of_idOf? ?_⟩
        exact Option.eq_none_iff_forall_ne_some.mpr fun id hid => hnone id rfl hid
  | _ => cases hr

/-- Where an identifier is the last name of a text, the type that the text means is one that the
table has a symbol of, or one that is declared by name. -/
theorem names_of_lookupType? (hrooted : c.index.Rooted units) (hnests : c.index.Nests units)
    (hlex : Lexical c G b.table log) {name : String} (h : b.lookupType? c text = some (.known key))
    (hkey : ¬ b.table.HasKey key) (hname : isIdentifierText name = true)
    (hnumber : isTypeNumber name = false) (hends : name.toList <:+ text.toList) :
    c.index.Names units key := by
  rcases declared_or_finds_of_lookupType? hrooted hnests hlex.plainTypes h with ⟨id, s, hs, hs', -⟩ | hfinds
  · exact absurd ⟨id, s, hs, hs'⟩ hkey
  · exact hfinds.names hname hnumber hends

/-- The last name of a type name ends it. -/
theorem suffix_of_typeNameParts? (hshaped : c.unit.shapedOK = true) {first : Option Place}
    (hp : c.Has p) (hq : c.Has q) (hname : q.node.isName = true)
    (hparts : typeNameParts? p = some (first, q)) :
    (c.unit.text q).toList <:+ (c.unit.typeText p).toList := by
  by_cases htype : p.kind = "scoped_type_identifier"
  · simp only [typeNameParts?, htype, beq_self_eq_true, if_true, Option.map_eq_some_iff,
      Prod.mk.injEq] at hparts
    obtain ⟨last, hlast, -, rfl⟩ := hparts
    exact lastType_of_shapedOK hshaped hp htype hlast
  by_cases hscoped : p.kind = "scoped_identifier"
  · exact (lastName_of_shapedOK hshaped hp hscoped (typeNameParts?_scopedName hscoped hparts).2).1
  · rw [typeNameParts?_eq_self htype hscoped] at hparts
    cases hparts
    have htext := typeText_of_isLeaf c.unit hname (identifier_of_shapedOK hshaped hq hname).1
    exact htext.symm ▸ List.suffix_refl (c.unit.text p).toList

/-- The last name of an imported name ends it. -/
theorem suffix_of_imported (hshaped : c.unit.shapedOK = true) (hp : c.Has p)
    (hlast : (if p.kind == "scoped_identifier" then p.child? "name" else some p) = some q) :
    (c.unit.text q).toList <:+ (c.unit.text p).toList := by
  split at hlast
  · next hkind => exact (lastName_of_shapedOK hshaped hp (beq_iff_eq.mp hkind) hlast).2
  · cases hlast
    exact List.suffix_refl _

theorem ne_init_of_isIdentifierText {name : String} (h : isIdentifierText name = true) :
    name ≠ "<init>" := by
  rintro rfl
  revert h
  decide

variable (hshaped : c.unit.shapedOK = true) (hrooted : c.index.Rooted units)
  (hnests : c.index.Nests units) (hunit : units[c.number]? = some c.unit)

include hshaped hrooted hnests hunit

/-- The index knows a key that a name means and that no symbol has. -/
theorem Means.knows (hlex : Lexical c G b.table log) (hq : c.Has q) (hname : q.node.isName = true)
    (hnumber : isTypeNumber (c.unit.text q) = false) (hstray : c.stray q = false)
    (h : Means c b q key .valid) (hnot : ¬ b.table.HasKey key) : c.index.Knows units key := by
  have hident := (identifier_of_shapedOK hshaped hq hname).2
  have htype {text : String} (hkey : b.lookupType? c text = some (.known key))
      (hends : (c.unit.text q).toList <:+ text.toList) : c.index.Knows units key :=
    .inl (names_of_lookupType? hrooted hnests hlex hkey hnot hident hnumber hends)
  cases h with
  | typeName hp hparts hkey => exact htype hkey (suffix_of_typeNameParts? hshaped hp hq hname hparts)
  | importedName hp hlast hkey =>
    exact .inl ((hrooted.finds_of_resolveType hnests hkey).names hident hnumber
      (suffix_of_imported hshaped hp hlast))
  | field hfound => exact .inr (hrooted.declares_of_findField? hfound).2
  | method hinfo hm heq =>
    exact .inr (hrooted.declares_of_mem_methods hinfo hm (heq ▸ ne_init_of_isIdentifierText hident))
  | scopedMethod hmem =>
    -- a method in scope has a symbol
    obtain ⟨s, hs, -⟩ := hlex.bound _ _ _ _ (Scopes.mem_of_mem_lookupAll hmem)
    exact absurd ⟨_, s, hs, by simp [keyOfSymbol, hs]⟩ hnot
  | memberType hnested => exact .inl (hrooted.names_of_findMemberType? hnests hnested)
  | simpleType hkey => exact htype hkey (List.suffix_refl _)
  | qualifiedType hp hkind hfield hfieldKind hkey =>
    exact htype hkey (lastField_of_shapedOK hshaped hp hkind hfield hfieldKind)
  | caseLabel howner => exact .inr (hrooted.declares_of_enumsWith howner).2
  | declared hmember => exact .inr (declares_of_memberName hshaped hunit hmember hstray)

/-- Whatever rule gives a name a key that was found, the index knows the key. -/
theorem admits_knows :
    Admits c fun k key => ∀ q, c.Has q → q.number = k → q.node.isName = true →
      isTypeNumber (c.unit.text q) = false → c.stray q = false → c.index.Knows units key := by
  intro R q meaning hq hnaming t key hlex hin h q' hq' heq hname hnumber hstray
  cases (parted_of_shapedOK hshaped).eq_of_number_eq hq' hq heq
  have hresolves : Resolves c t.binder q (.member key .valid) := by
    cases hnaming with
    | identifier hof => exact resolves_nameMeaning hof h
    | linked hlinking => exact hlinking.resolves (fun _ heq => by cases heq) h
  obtain ⟨hmeans, hnot⟩ := hresolves.means
  exact hmeans.knows hshaped hrooted hnests hunit hlex hq hname hnumber hstray hnot

end Names

/-! ## Declarations of keys -/

def Event.visits (p : Place) : Event → Bool
  | .visited q => q.same p
  | _ => false

/-- Whether the traversal visits every place where the index has a type. -/
def BindingInput.reachesTypes (c : BindingInput) : Bool :=
  c.unit.root.places.all fun p =>
    (c.index.typeAt? c.number p).isNone || (Trace.of c).log.any (Event.visits p)

theorem registers_of_reachesTypes (hshaped : c.unit.shapedOK = true)
    (hrooted : c.index.Rooted units) (hnests : c.index.Nests units)
    (hreaches : c.reachesTypes = true) (hp : c.Has p) {owner : String}
    (howner : c.index.typeAt? c.number p = some owner) : (traverse c).table.Registers c p := by
  have hvisits := List.all_eq_true.mp hreaches p hp
  rw [howner, Option.isNone_some, Bool.false_or] at hvisits
  obtain ⟨e, he, hvisits⟩ := List.any_eq_true.mp hvisits
  cases e with
  | visited q =>
    have hlex := lexical_traverse hshaped hrooted hnests (G := fun _ _ => True)
      fun _ _ _ _ _ _ _ _ _ _ => trivial
    have heq := (parted_of_shapedOK hshaped).eq_of_number_eq (hlex.has q he) hp
      (beq_iff_eq.mp hvisits)
    exact heq ▸ registered_of_visited hshaped he
  | opened => cases hvisits
  | declared => cases hvisits

theorem mem_inputs_of_getElem? {unit : Nat} {u : SourceUnit} (h : units[unit]? = some u) :
    ⟨u, unit, Index.build units⟩ ∈ inputs units :=
  List.mem_map.mpr ⟨(u, unit), List.mem_zipIdx_iff_getElem?.mpr h, rfl⟩

/-- What the index knows is declared in one of the units. -/
theorem exists_hasKey_of_knows (hunits : ∀ u ∈ units, u.shapedOK = true)
    (hreaches : ∀ c ∈ inputs units, c.reachesTypes = true)
    (h : (Index.build units).Knows units key) :
    ∃ c ∈ inputs units, (traverse c).table.HasKey key := by
  obtain ⟨hrooted, hnests⟩ := rooted_build hunits
  have hregisters : ∀ unit u p owner, units[unit]? = some u → p ∈ u.root.places →
      (Index.build units).typeAt? unit p = some owner →
      ∃ c ∈ inputs units, c.unit = u ∧ c.Has p ∧ c.index.typeAt? c.number p = some owner
        ∧ (traverse c).table.Registers c p := by
    intro unit u p owner hu hp howner
    have hc := mem_inputs_of_getElem? hu
    exact ⟨_, hc, rfl, hp, howner, registers_of_reachesTypes
      (hunits u (List.mem_of_getElem? hu)) hrooted hnests (hreaches _ hc) hp howner⟩
  rcases h with ⟨unit, u, p, kind, name, body, hu, hp, hof, howner⟩
    | ⟨unit, u, p, owner, hu, hp, howner, hkey⟩
  · obtain ⟨c, hc, rfl, hp, howner, hregisters⟩ := hregisters unit u p key hu hp howner
    exact ⟨c, hc, (hregisters hp key howner).1 kind name body hof⟩
  · obtain ⟨c, hc, rfl, hp, howner, hregisters⟩ := hregisters unit u p owner hu hp howner
    exact ⟨c, hc, (hregisters hp owner howner).2 key hkey⟩

theorem Symbols.hasKey_ofUnit (d : Dictionary) (policy : NamingPolicy)
    (h : (traverse c).table.HasKey key) : (ofUnit d policy c).HasKey key := by
  obtain ⟨id, s, hs, rfl⟩ := h
  have hmap := map_symbol?_ofUnit d policy c (f := (·.key)) (fun _ _ => rfl) id
  rw [symbol?_found, hs, Option.map_some] at hmap
  obtain ⟨s', hs', hkey⟩ := Option.map_eq_some_iff.mp hmap
  exact ⟨id, s', hs', hkey⟩

/-- Where the traversals reach all types that the index has, a key that a name has and that was
found is the key of a symbol of one of the units. The name is not a number of a type, nor that of a
member outside of the bodies of types that the index knows. -/
theorem valid_keys_declared {units : List SourceUnit} (hunits : ∀ u ∈ units, u.shapedOK = true)
    (hreaches : ∀ c ∈ inputs units, c.reachesTypes = true) (d : Dictionary) (policy : NamingPolicy)
    {c : BindingInput} (hc : c ∈ inputs units) {p : Place} (hp : c.Has p)
    (hname : p.node.isName = true) (hnumber : isTypeNumber (c.unit.text p) = false)
    (hstray : c.stray p = false) {key : String}
    (hkey : (Symbols.ofUnit d policy c).keyOf? p = some (key, .valid)) :
    ∃ c' ∈ inputs units, (Symbols.ofUnit d policy c').HasKey key := by
  obtain ⟨hunit, hindex⟩ := mem_inputs hc
  have hshaped := hunits c.unit (List.mem_of_getElem? hunit)
  obtain ⟨hrooted, hnests⟩ := rooted_build hunits
  rw [← hindex] at hrooted hnests
  unfold Symbols.keyOf? at hkey
  split at hkey
  · next id hr =>
      obtain ⟨s, hs, heq⟩ := Option.map_eq_some_iff.mp hkey
      cases heq
      exact ⟨c, hc, id, s, hs, rfl⟩
  · next key' found hr =>
      cases hkey
      have hr : (traverse c).table.resolution? p = some (.member key .valid) :=
        (Symbols.resolution?_of_keepUnresolved _ hr).resolve_right nofun
      have hlex := lexical_traverse hshaped hrooted hnests
        (admits_knows hshaped hrooted hnests hunit)
      have hknows := hlex.valid p key hr p hp rfl hname hnumber hstray
      rw [hindex] at hknows
      obtain ⟨c', hc', hkey⟩ := exists_hasKey_of_knows hunits hreaches hknows
      exact ⟨c', hc', Symbols.hasKey_ofUnit d policy hkey⟩
  · cases hkey

/-- A class with a field. -/
def Sample.holder : SourceUnit where
  path := "A.java"
  source := "class A\x7bint x;\x7d"
  root := open Sample in
    node 0 "program" 0 15 none [
     node 1 "class_declaration" 0 15 none [mark 2 "class" 0 5, name 3 6 7 "name",
      node 4 "class_body" 7 15 (some "body") [mark 5 "\x7b" 7 8,
       node 6 "field_declaration" 8 14 none [
        node 7 "integral_type" 8 11 (some "type") [mark 8 "int" 8 11],
        node 9 "variable_declarator" 12 13 (some "declarator") [name 10 12 13 "name"],
        mark 11 ";" 13 14], mark 12 "\x7d" 14 15]]]

/-- A class that reads the field of the other one. -/
def Sample.reader : SourceUnit where
  path := "B.java"
  source := "class B\x7bint f(A a)\x7breturn a.x;\x7d\x7d"
  root := open Sample in
    node 0 "program" 0 32 none [
     node 1 "class_declaration" 0 32 none [mark 2 "class" 0 5, name 3 6 7 "name",
      node 4 "class_body" 7 32 (some "body") [mark 5 "\x7b" 7 8,
       node 6 "method_declaration" 8 31 none [
        node 7 "integral_type" 8 11 (some "type") [mark 8 "int" 8 11], name 9 12 13 "name",
        node 10 "formal_parameters" 13 18 (some "parameters") [mark 11 "(" 13 14,
         node 12 "formal_parameter" 14 17 none [node 13 "type_identifier" 14 15 (some "type") [],
          name 14 16 17 "name"], mark 15 ")" 17 18],
        node 16 "block" 18 31 (some "body") [mark 17 "\x7b" 18 19,
         node 18 "return_statement" 19 30 none [mark 19 "return" 19 25,
          node 20 "field_access" 26 29 none [name 21 26 27 "object", mark 22 "." 27 28,
           name 23 28 29 "field"], mark 24 ";" 29 30], mark 25 "\x7d" 30 31]],
       mark 26 "\x7d" 31 32]]]

/-- The field that is read is declared in the other unit. -/
theorem valid_keys_declared_reader :
    let units := [Sample.holder, Sample.reader]
    let c : BindingInput := ⟨Sample.reader, 1, Index.build units⟩
    ∃ p, c.Has p ∧ p.number = 23
      ∧ (Symbols.ofUnit .empty .typeDerived c).resolution? p = some (.member "A.x" .valid)
      ∧ ∃ c' ∈ inputs units, (Symbols.ofUnit .empty .typeDerived c').HasKey "A.x" := by
  intro units c
  have hunits : ∀ u ∈ units, u.shapedOK = true := by decide +kernel
  have hreaches : ∀ c ∈ inputs units, c.reachesTypes = true := by decide +kernel
  have hname : ∃ p ∈ c.unit.root.places, p.number = 23 ∧ p.node.isName = true
      ∧ isTypeNumber (c.unit.text p) = false ∧ c.stray p = false
      ∧ (Symbols.ofUnit .empty .typeDerived c).resolution? p = some (.member "A.x" .valid) := by
    decide +kernel
  obtain ⟨p, hp, hp23, hname, hnumber, hstray, hr⟩ := hname
  refine ⟨p, hp, hp23, hr, valid_keys_declared hunits hreaches .empty .typeDerived
    (mem_inputs_of_getElem? rfl) hp hname hnumber hstray ?_⟩
  rw [Symbols.keyOf?, hr]

/-- A class with a class in its header, which has a field. -/
def Sample.hidden : SourceUnit where
  path := "Outer.java"
  source := "@A(()->\x7bclass Inner\x7bint x;\x7d\x7d)class Outer\x7b\x7d"
  root := open Sample in
    node 0 "program" 0 42 none [
     node 1 "class_declaration" 0 42 none [
      node 2 "modifiers" 0 29 none [
       node 3 "annotation" 0 29 none [mark 4 "@" 0 1, name 5 1 2 "name",
        node 6 "annotation_argument_list" 2 29 (some "arguments") [mark 7 "(" 2 3,
         node 8 "lambda_expression" 3 28 none [
          node 9 "formal_parameters" 3 5 (some "parameters") [mark 10 "(" 3 4, mark 11 ")" 4 5],
          mark 12 "->" 5 7,
          node 13 "block" 7 28 (some "body") [mark 14 "\x7b" 7 8,
           node 15 "class_declaration" 8 27 none [mark 16 "class" 8 13, name 17 14 19 "name",
            node 18 "class_body" 19 27 (some "body") [mark 19 "\x7b" 19 20,
             node 20 "field_declaration" 20 26 none [
              node 21 "integral_type" 20 23 (some "type") [mark 22 "int" 20 23],
              node 23 "variable_declarator" 24 25 (some "declarator") [name 24 24 25 "name"],
              mark 25 ";" 25 26], mark 26 "\x7d" 26 27]], mark 27 "\x7d" 27 28]],
         mark 28 ")" 28 29]]], mark 29 "class" 29 34, name 30 35 40 "name",
      node 31 "class_body" 40 42 (some "body") [mark 32 "\x7b" 40 41, mark 33 "\x7d" 41 42]]]

/-- The class in the header is not indexed, so its field gets the key of a field of the class around
it. All members are in bodies of type declarations and the traversal reaches what the index has, but
no symbol has that key. -/
theorem member_of_unknown_type :
    let c : BindingInput := ⟨Sample.hidden, 0, Index.build [Sample.hidden]⟩
    let t := Symbols.ofUnit .empty .preserve c
    Sample.hidden.shapedOK = true ∧ c.reachesTypes = true
      ∧ (Sample.hidden.root.places.all fun p => p.memberNames.isEmpty
        || Sample.hidden.root.places.any fun d =>
          (Construct.of d matches .typeDecl ..) && p.isIn d.typeMembers) = true
      ∧ (∃ p ∈ Sample.hidden.root.places, p.node.isName = true
        ∧ isTypeNumber (Sample.hidden.text p) = false
        ∧ t.keyOf? p = some ("Outer.x", .valid))
      ∧ ¬ t.HasKey "Outer.x" := by
  intro c t
  refine ⟨by decide +kernel, by decide +kernel, by decide +kernel, by decide +kernel, ?_⟩
  exact Symbols.not_hasKey_of_idOf? (by decide +kernel)

end Legible
