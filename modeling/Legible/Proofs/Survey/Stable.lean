import Legible.Proofs.Binding.Variables
import Legible.Proofs.Layout.Renaming
import Legible.Proofs.Naming.Policy
import Legible.Proofs.Survey.Recorded

/-!
# A survey renames nothing

What a survey of the found names records is how they are spelled, so that writing the units with the
dictionary it leaves gives the texts from before, whatever the policy: the variables that a policy
would name all have a name now. For this the constructors have to be found with the types they are
named after, and a type is found only if the index knows it (`constructorsIndexedOK`). That is no
part of a tidy tree: a type in the header of another one is not indexed, and its constructor is
taken for one of the type around it. The spelling of the constructor may then be recorded for that
type (`texts_after_survey_header`).

`texts_after_survey` also says exactly when a survey changes a text: when it records for a key
neither the name in the key nor the spelling of every name that has it.
-/

namespace Legible

open Binder Layout

variable {key : String}

/-! ## Constructors -/

/-- The body that a member stands in; what follows the constants of an enum is nested deeper. -/
def Place.enclosingBody? (p : Place) : Option Place :=
  p.parent?.bind fun holder =>
    if holder.kind == "enum_body_declarations" then holder.parent? else some holder

/-- The type declaration in whose body a member stands, and its name. -/
def Place.declaration? (p : Place) : Option (Place × Place) :=
  p.enclosingBody?.bind fun body => body.parent?.bind fun decl =>
    match Construct.of decl with
    | .typeDecl _ name body' => if body'.same body then some (decl, name) else none
    | _ => none

/-- Every constructor stands in the body of a type declaration and is named after it. -/
def SourceUnit.constructorsNamedOK (u : SourceUnit) : Bool :=
  u.root.places.all fun p =>
    match Construct.of p with
    | .method name _ _ true =>
      p.declaration?.any fun (_, typeName) => u.text typeName == u.text name
    | _ => true

/-- The index knows the types of all constructors. -/
def BindingInput.constructorsIndexedOK (c : BindingInput) : Bool :=
  c.unit.root.places.all fun p =>
    match Construct.of p with
    | .method _ _ _ true =>
      p.declaration?.all fun (decl, _) => (c.index.typeAt? c.number decl).isSome
    | _ => true

section Constructors

variable {c : BindingInput} {units : List SourceUnit} {p : Place}

theorem has_enclosingBody? (hp : c.Has p) {body : Place} (h : p.enclosingBody? = some body) :
    c.Has body := by
  obtain ⟨holder, hholder, hbody⟩ := Option.bind_eq_some_iff.mp h
  have hholderHas := (Place.mem_places_of_parent? hp hholder).1
  split at hbody
  · exact (Place.mem_places_of_parent? hholderHas hbody).1
  · cases hbody
    exact hholderHas

theorem inBody_of_enclosingBody? {body : Place} (h : p.enclosingBody? = some body)
    (hbody : c.IsBodyOf body key) : c.InBody p key := by
  obtain ⟨holder, hholder, hwhere⟩ := Option.bind_eq_some_iff.mp h
  split at hwhere
  · next hkind => exact .nested hholder (beq_iff_eq.mp hkind) hwhere hbody
  · cases hwhere
    exact .direct hholder hbody

/-- A member stands in the body of its declaration. -/
theorem inBody_of_declaration? (htidy : c.Tidy) (hp : c.Has p) {decl name : Place}
    (hdecl : p.declaration? = some (decl, name)) (hkey : c.index.typeAt? c.number decl = some key) :
    c.InBody p key ∧ c.Has decl ∧ ∃ kind body, Construct.of decl = .typeDecl kind name body := by
  obtain ⟨body, hbody, hdecl⟩ := Option.bind_eq_some_iff.mp hdecl
  obtain ⟨decl', hparent, hmatch⟩ := Option.bind_eq_some_iff.mp hdecl
  have hbodyHas := has_enclosingBody? hp hbody
  have hdeclHas := (Place.mem_places_of_parent? hbodyHas hparent).1
  split at hmatch
  · next kind name' body' hof =>
      split at hmatch
      · next hsame =>
          cases hmatch
          have hbody' := mem_places_of_typeDecl hdeclHas hof
          obtain rfl : body' = body :=
            (parted_of_tidyOK htidy).eq_of_number_eq hbody' hbodyHas
              (by simpa [Place.same] using hsame)
          exact ⟨inBody_of_enclosingBody? hbody ⟨decl, kind, name, hparent, hof, hkey⟩, hdeclHas,
            kind, body', hof⟩
      · cases hmatch
  · cases hmatch

variable (htidy : c.Tidy) (hindex : c.index.Keyed units) (hunit : units[c.number]? = some c.unit)
  (hnamed : c.unit.constructorsNamedOK = true)

include htidy hindex hunit hnamed

/-- A constructor that is found with the type it is named after stands in a body of that name. -/
theorem inBody_of_constructor (hindexed : c.constructorsIndexedOK = true) (hp : c.Has p)
    {name : Place} {params body : Option Place}
    (hof : Construct.of p = .method name params body true) :
    ∃ key, c.InBody p key ∧ keyName key = c.unit.text name := by
  have hnamed := List.all_eq_true.mp hnamed p hp
  have hindexed := List.all_eq_true.mp hindexed p hp
  rw [hof] at hnamed hindexed
  obtain ⟨⟨decl, typeName⟩, hdecl, htext⟩ := Option.any_eq_true _ _ |>.mp hnamed
  rw [hdecl, Option.all_some] at hindexed
  obtain ⟨key, hkey⟩ := Option.isSome_iff_exists.mp hindexed
  obtain ⟨hin, hdeclHas, kind, body', hofDecl⟩ := inBody_of_declaration? htidy hp hdecl hkey
  refine ⟨key, hin, ?_⟩
  rw [(keyName_typeAt? htidy hindex hunit hdeclHas hofDecl hkey).1]
  exact beq_iff_eq.mp htext

/-- A name that is found has a key that ends in it. -/
theorem keyName_of_keyOf? (hindexed : c.constructorsIndexedOK = true) (hp : c.Has p)
    (hname : p.node.isName = true) (hkey : (Symbols.found c).keyOf? p = some (key, .valid)) :
    keyName key = c.unit.text p := by
  have hsound := sound_found htidy hindex hunit
  rcases Symbols.nameFor?_cases (Symbols.found c) p with ⟨hnone, _⟩ | ⟨key', found, hr, hkey', _⟩
    | ⟨id, s, hr, hs, hkey', _⟩
  · rw [hnone] at hkey
    cases hkey
  · rw [hkey'] at hkey
    cases hkey
    exact hsound.resolution p _ hp hname hr
  · rw [hkey'] at hkey
    cases hkey
    rcases hsound.resolution p _ hp hname hr with
      ⟨s', hs', hdeclared⟩ | ⟨q, params, body, hq, hof, hplaced⟩
    · rw [hs] at hs'
      cases hs'
      rw [(hsound.symbol id s hs).1, hdeclared]
    · obtain ⟨key, hin, hkeyName⟩ := inBody_of_constructor htidy hindex hunit hnamed hindexed hq hof
      obtain ⟨s', hs', hskey⟩ := hplaced key hin
      rw [hs] at hs'
      cases hs'
      rw [hskey, hkeyName]

end Constructors

/-! ## Texts -/

namespace Symbols

variable {c : BindingInput} {d d' : Dictionary} {p : Place}

/-- Two dictionaries write the same for a name if they have the same for its key, or if the one has
nothing and the other the name in the key or the spelling of the name. -/
theorem getD_nameFor?_eq (hsound : (found c).Sound c) (hp : c.Has p) (hname : p.node.isName = true)
    (h : ∀ key, ((found c).keyOf? p).map Prod.fst = some key → d'.lookup? key = d.lookup? key
      ∨ d.lookup? key = none ∧ ∃ name, d'.lookup? key = some name ∧ isPlainName name = true
        ∧ (name = keyName key ∨ c.unit.text p = name)) :
    ((found c).nameFor? d' p).getD (c.unit.text p)
      = ((found c).nameFor? d p).getD (c.unit.text p) := by
  rcases nameFor?_cases (found c) p with ⟨_, hfor⟩ | ⟨key, found, hr, hkey, hfor⟩
    | ⟨id, s, _, hs, hkey, hfor⟩
  · rw [hfor, hfor]
  · rw [hfor, hfor]
    have hrefers := hsound.resolution p _ hp hname hr
    rcases h key (by rw [hkey]; rfl) with heq | ⟨hd, name, hd', hplain, hwritten⟩
    · rw [heq]
    · rw [hd, hd']
      rcases hwritten with rfl | rfl
      · cases found with
        | valid => exact hrefers
        | missing => exact hrefers.resolve_right (by simp [hplain])
      · rfl
  · rw [hfor, hfor]
    rcases h s.key (by rw [hkey]; rfl) with heq | ⟨hd, name, hd', _, hwritten⟩
    · rw [heq]
    · rw [hd, hd']
      rcases hwritten with rfl | rfl
      · simp [(hsound.symbol id s hs).1, Option.filter_some]
      · by_cases hsame : c.unit.text p = s.declaredName <;> simp [Option.filter_some, hsame]

/-- A name that the dictionary has for a key and that is not in the key is written for all names
with the key. -/
theorem nameFor?_eq_some (hsound : (found c).Sound c) {name : String}
    (hkey : ((found c).keyOf? p).map Prod.fst = some key) (hname : d.lookup? key = some name)
    (hne : name ≠ keyName key) : (found c).nameFor? d p = some name := by
  rcases nameFor?_cases (found c) p with ⟨hkey', _⟩ | ⟨key', found, _, hkey', hfor⟩
    | ⟨id, s, _, hs, hkey', hfor⟩
  · rw [hkey'] at hkey
    cases hkey
  · rw [hkey'] at hkey
    cases hkey
    rw [hfor, hname]
  · rw [hkey'] at hkey
    cases hkey
    rw [(hsound.symbol id s hs).1] at hne
    rw [hfor, hname]
    simp [Option.filter_some, hne]

theorem nameFor?_eq_none {t : Symbols} (hkey : (t.keyOf? p).map Prod.fst = some key)
    (hnone : d.lookup? key = none) : t.nameFor? d p = none := by
  rcases nameFor?_cases t p with ⟨_, hfor⟩ | ⟨key', found, _, hkey', hfor⟩
    | ⟨id, s, _, _, hkey', hfor⟩
  · exact hfor d
  · rw [hkey'] at hkey
    cases hkey
    rw [hfor, hnone]
  · rw [hkey'] at hkey
    cases hkey
    rw [hfor, hnone]
    rfl

end Symbols

/-- The texts of all units, bound and written with one dictionary. -/
def textsOf (d : Dictionary) (policy : NamingPolicy) (units : List SourceUnit) :
    List (List String) :=
  (analyze d policy units).map (·.texts d)

section Texts

variable {units : List SourceUnit} {d d' : Dictionary}

theorem textsOf_eq_map (d : Dictionary) (policy : NamingPolicy) (units : List SourceUnit) :
    textsOf d policy units = (inputs units).map fun c =>
      (AnalyzedUnit.mk c.unit (Symbols.ofUnit d policy c)).texts d := by
  rw [textsOf, analyze_eq_map, List.map_map]
  rfl

/-- Two dictionaries give the same texts if they give the same at each name. -/
theorem textsOf_preserve_eq_iff :
    textsOf d' .preserve units = textsOf d .preserve units
      ↔ ∀ c ∈ inputs units, ∀ p ∈ writtenPlaces c.unit.root, p.node.isName = true →
        ((Symbols.found c).nameFor? d' p).getD (c.unit.text p)
          = ((Symbols.found c).nameFor? d p).getD (c.unit.text p) := by
  rw [textsOf_eq_map, textsOf_eq_map, List.map_inj_left]
  refine forall_congr' fun c => imp_congr_right fun _ => ?_
  rw [texts_preserve, texts_preserve, List.map_inj_left]
  refine forall_congr' fun p => imp_congr_right fun _ => ?_
  cases p.node.isName <;> simp

theorem textsOf_empty (units : List SourceUnit) :
    textsOf .empty .preserve units = units.map fun u => (writtenPlaces u.root).map u.text := by
  conv_rhs => rw [← map_unit_inputs units, List.map_map]
  rw [textsOf_eq_map]
  refine List.map_congr_left fun c _ => ?_
  rw [AnalyzedUnit.texts, map_text_tokens]
  refine List.map_congr_left fun p _ => ?_
  rw [writtenText, Symbols.replacement?_empty]
  exact ite_self _

end Texts

namespace Survey

variable {units : List SourceUnit} {d : Dictionary} {surveying : NamingPolicy}

theorem exists_name_of_foundAs {name : String} (h : FoundAs (analyze d surveying units) key name) :
    ∃ c ∈ inputs units, ∃ p, c.Has p ∧ p.node.isName = true
      ∧ (Symbols.found c).keyOf? p = some (key, .valid) ∧ c.unit.text p = name := by
  obtain ⟨a, ha, p, hp, hkey, htext⟩ := h
  obtain ⟨c, hc, rfl⟩ := mem_analyze.mp ha
  obtain ⟨hplace, hisName⟩ := List.mem_filter.mp hp
  rw [Symbols.keyOf?_ofUnit] at hkey
  exact ⟨c, hc, p, hplace, hisName, hkey, htext⟩

/-- After a survey the variables all have a name, and the policy does not matter. -/
theorem textsOf_survey (htidy : ∀ u ∈ units, u.tidyOK = true) (d : Dictionary)
    (surveying policy : NamingPolicy) :
    textsOf (survey .valid d (analyze d surveying units)).1 policy units
      = textsOf (survey .valid d (analyze d surveying units)).1 .preserve units := by
  rw [textsOf_eq_map, textsOf_eq_map]
  refine List.map_congr_left fun c hc => ?_
  have hcTidy : c.Tidy := htidy c.unit (List.mem_of_getElem? (mem_inputs hc).1)
  rw [Symbols.ofUnit_eq_preserve _ policy]
  intro id s hs hkind hmeaningless
  obtain ⟨hne, p, hp, hname, htext, hr⟩ := variablesFound_found hcTidy id s hs hkind
  have hkey : (Symbols.ofUnit d surveying c).keyOf? p = some (s.key, .valid) := by
    rw [Symbols.keyOf?_ofUnit, Symbols.keyOf?, hr]
    simp [hs]
  exact isSome_lookup?_survey d
    ⟨_, mem_analyze.mpr ⟨c, hc, rfl⟩, p, List.mem_filter.mpr ⟨hp, hname⟩, hkey, htext⟩
    (isIdentifier_of_isMeaningless hmeaningless hne)

/-- Every new name is the one in its key, or else how all names with the key are spelled. -/
def Faithful (found : List AnalyzedUnit) (d d' : Dictionary) : Prop :=
  ∀ key name, d.lookup? key = none → d'.lookup? key = some name → name = keyName key
    ∨ ∀ a ∈ found, ∀ p ∈ writtenPlaces a.unit.root, p.node.isName = true →
      (a.symbols.keyOf? p).map Prod.fst = some key → a.unit.text p = name

theorem textsOf_eq_iff_faithful (htidy : ∀ u ∈ units, u.tidyOK = true) (d : Dictionary)
    (surveying : NamingPolicy) :
    let found := analyze d surveying units
    let d' := (survey .valid d found).1
    textsOf d' .preserve units = textsOf d .preserve units ↔ Faithful found d d' := by
  intro found d'
  have hsound : ∀ c ∈ inputs units, (Symbols.found c).Sound c := by
    intro c hc
    obtain ⟨hunit, hindex⟩ := mem_inputs hc
    exact sound_found (htidy c.unit (List.mem_of_getElem? hunit)) (hindex ▸ keyed_build htidy) hunit
  rw [textsOf_preserve_eq_iff]
  constructor
  · intro hsame key name hnone hname
    rw [or_iff_not_imp_left]
    intro hne a ha p hp hisName hkey
    obtain ⟨c, hc, rfl⟩ := mem_analyze.mp ha
    rw [Symbols.keyOf?_ofUnit] at hkey
    have hsame := hsame c hc p hp hisName
    rw [Symbols.nameFor?_eq_some (hsound c hc) hkey hname hne,
      Symbols.nameFor?_eq_none hkey hnone] at hsame
    exact hsame.symm
  · intro hfaithful c hc p hp hisName
    refine Symbols.getD_nameFor?_eq (hsound c hc) (mem_places_of_mem_writtenPlaces hp) hisName
      fun key hkey => ?_
    refine ((survey_adds d (List.Subset.refl found)).lookup?_cases key).imp_right ?_
    rintro ⟨hnone, name, hname, hfound⟩
    refine ⟨hnone, name, hname, ?_, (hfaithful key name hnone hname).imp_right fun hall => ?_⟩
    · obtain ⟨c', hc', q, hq, hqName, -, rfl⟩ := exists_name_of_foundAs hfound
      have hunit := List.mem_of_getElem? (mem_inputs hc').1
      exact ((parted_of_tidyOK (htidy c'.unit hunit)).name _ hq hqName).2
    · rw [← Symbols.keyOf?_ofUnit d surveying] at hkey
      exact hall _ (mem_analyze.mpr ⟨c, hc, rfl⟩) p hp hisName hkey

/-- Where constructors are found with their types, what is added is the name in the key. -/
theorem faithful_of_constructorsOK (htidy : ∀ u ∈ units, u.tidyOK = true)
    (hnamed : ∀ u ∈ units, u.constructorsNamedOK = true)
    (hindexed : ∀ c ∈ inputs units, c.constructorsIndexedOK = true) (found : List AnalyzedUnit) :
    Faithful found d (survey .valid d (analyze d surveying units)).1 := by
  intro key name hnone hname
  have hfound : FoundAs (analyze d surveying units) key name :=
    ((survey_adds d (List.Subset.refl _)).added key name hname).resolve_left (by simp [hnone])
  obtain ⟨c, hc, p, hp, hisName, hkey, rfl⟩ := exists_name_of_foundAs hfound
  obtain ⟨hunit, hindex⟩ := mem_inputs hc
  have hmem : c.unit ∈ units := List.mem_of_getElem? hunit
  exact .inl (keyName_of_keyOf? (htidy c.unit hmem) (hindex ▸ keyed_build htidy) hunit
    (hnamed c.unit hmem) (hindexed c hc) hp hisName hkey).symm

end Survey

/-- A survey leaves the texts as they are, whatever the policy, just if what it records is faithful;
and so it is where every constructor is found with the type it is named after. -/
theorem texts_after_survey {units : List SourceUnit} (htidy : ∀ u ∈ units, u.tidyOK = true)
    (d : Dictionary) (surveying : NamingPolicy) :
    let found := analyze d surveying units
    let d' := (Survey.survey .valid d found).1
    ((∀ policy, textsOf d' policy units = textsOf d .preserve units)
        ↔ Survey.Faithful found d d')
      ∧ ((∀ u ∈ units, u.constructorsNamedOK = true) →
        (∀ c ∈ inputs units, c.constructorsIndexedOK = true) →
        (∀ policy, textsOf d' policy units = textsOf d .preserve units)
          ∧ (d = .empty → ∀ policy, textsOf d' policy units
            = units.map fun u => (writtenPlaces u.root).map u.text)) := by
  intro found d'
  have hpolicy : ∀ policy, textsOf d' policy units = textsOf d' .preserve units :=
    Survey.textsOf_survey htidy d surveying
  have hiff : textsOf d' .preserve units = textsOf d .preserve units
      ↔ Survey.Faithful found d d' := Survey.textsOf_eq_iff_faithful htidy d surveying
  refine ⟨⟨fun h => hiff.mp (h .preserve), fun h policy => (hpolicy policy).trans (hiff.mpr h)⟩, ?_⟩
  intro hnamed hindexed
  have hsame : ∀ policy, textsOf d' policy units = textsOf d .preserve units := fun policy =>
    (hpolicy policy).trans
      (hiff.mpr (Survey.faithful_of_constructorsOK htidy hnamed hindexed found))
  refine ⟨hsame, ?_⟩
  rintro rfl policy
  rw [hsame policy, textsOf_empty]

/-- The parameter is renamed by its type without a survey, and no longer after one. -/
theorem texts_after_survey_box :
    let d' := (Survey.survey .valid .empty (analyze .empty .preserve [Sample.box])).1
    Sample.box.tidyOK = true
      ∧ Sample.box.constructorsNamedOK = true
      ∧ (∀ c ∈ inputs [Sample.box], c.constructorsIndexedOK = true)
      ∧ textsOf .empty .typeDerived [Sample.box] ≠ textsOf .empty .preserve [Sample.box]
      ∧ textsOf d' .typeDerived [Sample.box]
        = [["class", "Box", "\x7b", "int", "v", ";", "Box", "(", "int", "p", ")", "\x7b", "v", "=",
          "p", ";", "\x7d", "\x7d"]] := by
  intro d'
  have htidy : Sample.box.tidyOK = true := by decide +kernel
  have hnamed : Sample.box.constructorsNamedOK = true := by decide +kernel
  have hindexed : ∀ c ∈ inputs [Sample.box], c.constructorsIndexedOK = true := by decide +kernel
  refine ⟨htidy, hnamed, hindexed, by decide +kernel, ?_⟩
  have hsame := (texts_after_survey (List.forall_mem_singleton.mpr htidy) .empty .preserve).2
    (List.forall_mem_singleton.mpr hnamed) hindexed
  rw [hsame.1 .typeDerived]
  decide +kernel

/-- A class with a class in its header, which has a constructor. -/
def Sample.header : SourceUnit where
  path := "Outer.java"
  source := "@A(()->\x7bclass Inner\x7bInner()\x7b\x7d\x7d\x7d)class Outer\x7b\x7d"
  root := open Sample in
    node 0 "program" 0 45 none [
     node 1 "class_declaration" 0 45 none [
      node 2 "modifiers" 0 32 none [
       node 3 "annotation" 0 32 none [mark 4 "@" 0 1, name 5 1 2 "name",
        node 6 "annotation_argument_list" 2 32 (some "arguments") [mark 7 "(" 2 3,
         node 8 "lambda_expression" 3 31 none [
          node 9 "formal_parameters" 3 5 (some "parameters") [mark 10 "(" 3 4, mark 11 ")" 4 5],
          mark 12 "->" 5 7,
          node 13 "block" 7 31 (some "body") [mark 14 "\x7b" 7 8,
           node 15 "class_declaration" 8 30 none [mark 16 "class" 8 13, name 17 14 19 "name",
            node 18 "class_body" 19 30 (some "body") [mark 19 "\x7b" 19 20,
             node 20 "constructor_declaration" 20 29 none [name 21 20 25 "name",
              node 22 "formal_parameters" 25 27 (some "parameters") [mark 23 "(" 25 26,
               mark 24 ")" 26 27],
              node 25 "constructor_body" 27 29 (some "body") [mark 26 "\x7b" 27 28,
               mark 27 "\x7d" 28 29]], mark 28 "\x7d" 29 30]], mark 29 "\x7d" 30 31]],
         mark 30 ")" 31 32]]], mark 31 "class" 32 37, name 32 38 43 "name",
      node 33 "class_body" 43 45 (some "body") [mark 34 "\x7b" 43 44, mark 35 "\x7d" 44 45]]]

/-- The class in the header is not indexed, so that its constructor is recorded for the class
around it, and that class is renamed. -/
theorem texts_after_survey_header :
    let d' := (Survey.survey .valid .empty (analyze .empty .preserve [Sample.header])).1
    let texts := fun name => [["@", "A", "(", "(", ")", "->", "\x7b", "class", "Inner", "\x7b",
      "Inner", "(", ")", "\x7b", "\x7d", "\x7d", "\x7d", ")", "class", name, "\x7b", "\x7d"]]
    Sample.header.tidyOK = true
      ∧ Sample.header.constructorsNamedOK = true
      ∧ (inputs [Sample.header]).map (·.constructorsIndexedOK) = [false]
      ∧ d'.lookup? "Outer" = some "Inner"
      ∧ textsOf .empty .preserve [Sample.header] = texts "Outer"
      ∧ textsOf d' .preserve [Sample.header] = texts "Inner" := by
  decide +kernel

end Legible
