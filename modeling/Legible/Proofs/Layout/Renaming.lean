import Legible.Proofs.Binding.Sound
import Legible.Proofs.Layout.Fidelity

/-!
# Renaming follows the keys

Under the policy that keeps names, what is written for a name is what the dictionary says of its
key (`textByKey`), whether the name was resolved to a symbol of the unit or to a key alone. The
keys themselves do not depend on the dictionary, so a change to one entry of it shows at the names
with that key and nowhere else (`renaming_by_key`).
-/

namespace Legible

open Layout

/-- The place is the name of a constructor, which is written with its type. -/
def SourceUnit.IsConstructorName (u : SourceUnit) (p : Place) : Prop :=
  ∃ q ∈ u.root.places, ∃ params body, Construct.of q = .method p params body true

def AnalyzedUnit.texts (a : AnalyzedUnit) (d : Dictionary) : List String :=
  (tokens a.unit a.symbols d).map Token.text

/-- The text for a name by its key: the dictionary's name for it, or else the text as it is. -/
def textByKey (u : SourceUnit) (t : Symbols) (d : Dictionary) (p : Place) : String :=
  ((t.keyOf? p).bind fun (key, _) => d.lookup? key).getD (u.text p)

namespace Symbols

/-- The dictionary's name for what a place refers to, unless it is called so already. -/
def nameFor? (t : Symbols) (d : Dictionary) (p : Place) : Option String :=
  match t.resolution? p with
  | some (.symbol id) =>
    (t.symbol? id).bind fun s => (d.lookup? s.key).filter (· != s.declaredName)
  | some (.member key _) => d.lookup? key
  | _ => none

variable {c : BindingInput} {p : Place}

theorem replacement?_preserve (d : Dictionary) :
    (ofUnit d .preserve c).replacement? d p = (found c).nameFor? d p := by
  rw [replacement?, nameFor?, resolution?_ofUnit]
  cases hr : (found c).resolution? p with
  | none => rfl
  | some r =>
    cases r with
    | symbol id =>
      simp only [symbol?_ofUnit_preserve]
      cases hs : (found c).symbol? id with
      | none => rfl
      | some s =>
        have hchosen := chosenName_found hs
        cases hlookup : d.lookup? s.key with
        | none => simp [nameByDictionary, hlookup, Symbol.isRenamed, hchosen]
        | some name =>
          simp [nameByDictionary, hlookup, Symbol.isRenamed, Symbol.displayName,
            Option.filter_some]
    | member key found => rfl
    | keep => rfl

/-- A place has no key, a key alone, or a symbol; this says all that matters for its name. -/
theorem nameFor?_cases (t : Symbols) (p : Place) :
    (t.keyOf? p = none ∧ ∀ d, t.nameFor? d p = none)
      ∨ (∃ key found, t.resolution? p = some (.member key found)
        ∧ t.keyOf? p = some (key, found) ∧ ∀ d, t.nameFor? d p = d.lookup? key)
      ∨ ∃ id s, t.resolution? p = some (.symbol id) ∧ t.symbol? id = some s
        ∧ t.keyOf? p = some (s.key, .valid)
        ∧ ∀ d, t.nameFor? d p = (d.lookup? s.key).filter (· != s.declaredName) := by
  unfold keyOf? nameFor?
  cases hr : t.resolution? p with
  | none => exact .inl ⟨rfl, fun _ => rfl⟩
  | some r =>
    cases r with
    | keep => exact .inl ⟨rfl, fun _ => rfl⟩
    | member key found => exact .inr (.inl ⟨key, found, rfl, rfl, fun _ => rfl⟩)
    | symbol id =>
      cases hs : t.symbol? id with
      | none => exact .inl ⟨by simp [hs], fun d => by simp [hs]⟩
      | some s => exact .inr (.inr ⟨id, s, rfl, hs, by simp [hs], fun d => by simp [hs]⟩)

/-- The place refers to a symbol that the dictionary calls as it was declared. -/
def KeepsName (t : Symbols) (d : Dictionary) (p : Place) : Prop :=
  ∃ id s, t.resolution? p = some (.symbol id) ∧ t.symbol? id = some s
    ∧ d.lookup? s.key = some s.declaredName

theorem KeepsName.ofUnit {d : Dictionary} (h : (found c).KeepsName d p) :
    (Symbols.ofUnit d .preserve c).KeepsName d p := by
  obtain ⟨id, s, hr, hs, hlookup⟩ := h
  refine ⟨id, nameByDictionary d s, hr, by rw [symbol?_ofUnit_preserve, hs, Option.map_some], ?_⟩
  rw [nameByDictionary, hlookup]
  exact hlookup

/-- A name is written by its key, or it stays because the dictionary has the declared name. -/
theorem getD_nameFor?_or (t : Symbols) (d : Dictionary) (u : SourceUnit) (p : Place) :
    (t.nameFor? d p).getD (u.text p) = textByKey u t d p
      ∨ (t.nameFor? d p).getD (u.text p) = u.text p ∧ t.KeepsName d p := by
  unfold textByKey
  rcases nameFor?_cases t p with ⟨hkey, hfor⟩ | ⟨key, found, -, hkey, hfor⟩
    | ⟨id, s, hr, hs, hkey, hfor⟩
  · rw [hkey, hfor]
    exact .inl rfl
  · rw [hkey, hfor]
    exact .inl rfl
  · rw [hkey, hfor]
    show _ = (d.lookup? s.key).getD (u.text p) ∨ _
    cases hlookup : d.lookup? s.key with
    | none => exact .inl rfl
    | some name =>
      by_cases hsame : name = s.declaredName
      · exact .inr ⟨by simp [Option.filter_some, hsame], id, s, hr, hs, hlookup.trans (by rw [hsame])⟩
      · exact .inl (by simp [Option.filter_some, hsame])

/-- Where symbols are declared under the names that refer to them, a name is written by its key,
unless it names a constructor. -/
theorem getD_nameFor? (hsound : (found c).Sound c) (hp : c.Has p) (hname : p.node.isName = true)
    (hconstructor : ¬ c.unit.IsConstructorName p) (d : Dictionary) :
    ((found c).nameFor? d p).getD (c.unit.text p) = textByKey c.unit (found c) d p := by
  rcases getD_nameFor?_or (found c) d c.unit p with hbyKey | ⟨hkept, id, s, hr, hs, hlookup⟩
  · exact hbyKey
  · rcases hsound.resolution p _ hp hname hr with
      ⟨s', hs', hdeclared⟩ | ⟨q, params, body, hq, hof, _⟩
    · rw [hs] at hs'
      cases hs'
      have hkey : (found c).keyOf? p = some (s.key, .valid) := by
        rw [keyOf?, hr]
        simp [hs]
      rw [hkept, textByKey, hkey]
      show _ = (d.lookup? s.key).getD _
      rw [hlookup, hdeclared, Option.getD_some]
    · exact absurd ⟨q, hq, params, body, hof⟩ hconstructor

/-- What is written for a name depends on the dictionary's name for its key only. -/
theorem nameFor?_congr {t : Symbols} {d d' : Dictionary}
    (h : ∀ key found, t.keyOf? p = some (key, found) → d.lookup? key = d'.lookup? key) :
    t.nameFor? d p = t.nameFor? d' p := by
  rcases nameFor?_cases t p with ⟨_, hfor⟩ | ⟨key, found, _, hkey, hfor⟩ | ⟨_, s, _, _, hkey, hfor⟩
  · rw [hfor, hfor]
  · rw [hfor, hfor, h key found hkey]
  · rw [hfor, hfor, h s.key .valid hkey]

end Symbols

/-- The texts of a unit under the policy that keeps names. -/
theorem texts_preserve (c : BindingInput) (d : Dictionary) :
    (AnalyzedUnit.mk c.unit (Symbols.ofUnit d .preserve c)).texts d
      = (writtenPlaces c.unit.root).map fun p =>
        if p.node.isName then ((Symbols.found c).nameFor? d p).getD (c.unit.text p)
        else c.unit.text p := by
  rw [AnalyzedUnit.texts, map_text_tokens]
  refine List.map_congr_left fun p _ => ?_
  rw [writtenText, Symbols.replacement?_preserve]

theorem getElem?_analyze (d : Dictionary) (policy : NamingPolicy) (units : List SourceUnit)
    (n : Nat) :
    (analyze d policy units)[n]? = units[n]?.map fun unit =>
      { unit, symbols := Symbols.ofUnit d policy ⟨unit, n, Index.build units⟩ } := by
  simp [analyze, Function.comp_def]

/-- The names of a unit are found with keys that do not depend on the dictionary. Each is written by
its key, or stays because it refers to a symbol that the dictionary calls as it was declared; in
tidy units each is written by its key, constructors aside. Dictionaries that agree on all keys but
one make a difference to names with that key only. -/
theorem renaming_by_key {units : List SourceUnit} {d d' : Dictionary} {n : Nat}
    {a a' : AnalyzedUnit}
    (ha : (analyze d .preserve units)[n]? = some a)
    (ha' : (analyze d' .preserve units)[n]? = some a') :
    let places := writtenPlaces a.unit.root
    a'.unit = a.unit
      ∧ (∀ p, a'.symbols.keyOf? p = a.symbols.keyOf? p)
      ∧ (∀ (i : Nat) (p : Place), places[i]? = some p → p.node.isName = true →
        (a.texts d)[i]? = some (textByKey a.unit a.symbols d p)
          ∨ (a.texts d)[i]? = some (a.unit.text p) ∧ a.symbols.KeepsName d p)
      ∧ ((∀ u ∈ units, u.tidyOK = true) →
        ∀ (i : Nat) (p : Place), places[i]? = some p → p.node.isName = true →
          ¬ a.unit.IsConstructorName p → (a.texts d)[i]? = some (textByKey a.unit a.symbols d p))
      ∧ ∀ key, (∀ k, k ≠ key → d.lookup? k = d'.lookup? k) →
        (a.texts d).length = (a'.texts d').length
          ∧ ∀ (i : Nat) (p : Place), places[i]? = some p →
            (a.symbols.keyOf? p).map Prod.fst ≠ some key →
            (a.texts d)[i]? = (a'.texts d')[i]? := by
  rw [getElem?_analyze] at ha ha'
  obtain ⟨unit, hunit, rfl⟩ := Option.map_eq_some_iff.mp ha
  obtain ⟨unit', hunit', rfl⟩ := Option.map_eq_some_iff.mp ha'
  rw [hunit] at hunit'
  cases hunit'
  let c : BindingInput := ⟨unit, n, Index.build units⟩
  have hkeys : ∀ e p, (Symbols.ofUnit e .preserve c).keyOf? p = (Symbols.found c).keyOf? p :=
    fun e => Symbols.keyOf?_ofUnit e .preserve c
  have hbyKey : ∀ p, textByKey unit (Symbols.ofUnit d .preserve c) d p
      = textByKey unit (Symbols.found c) d p := fun p => by rw [textByKey, textByKey, hkeys d p]
  intro places
  have hwritten : ∀ (i : Nat) (p : Place), places[i]? = some p → p.node.isName = true →
      ((AnalyzedUnit.mk unit (Symbols.ofUnit d .preserve c)).texts d)[i]?
        = some (((Symbols.found c).nameFor? d p).getD (unit.text p)) := by
    intro i p hp hname
    rw [texts_preserve c d, List.getElem?_map, hp, Option.map_some, if_pos hname]
  refine ⟨rfl, fun p => (hkeys d' p).trans (hkeys d p).symm, ?_, ?_, fun key hagree => ⟨?_, ?_⟩⟩
  · intro i p hp hname
    rw [hwritten i p hp hname, hbyKey p]
    exact (Symbols.getD_nameFor?_or (Symbols.found c) d unit p).imp (congrArg some)
      fun hkept => ⟨congrArg some hkept.1, hkept.2.ofUnit⟩
  · intro htidy i p hp hname hconstructor
    have hsound : (Symbols.found c).Sound c :=
      sound_found (htidy unit (List.mem_of_getElem? hunit)) (keyed_build htidy) hunit
    have hplace : c.Has p := mem_places_of_mem_writtenPlaces (List.mem_of_getElem? hp)
    rw [hwritten i p hp hname, Symbols.getD_nameFor? hsound hplace hname hconstructor, hbyKey p]
  · rw [texts_preserve c d, texts_preserve c d', List.length_map, List.length_map]
  · intro i p hp hkey
    have hsame : (Symbols.found c).nameFor? d p = (Symbols.found c).nameFor? d' p := by
      refine Symbols.nameFor?_congr fun k found hk => hagree k ?_
      rintro rfl
      apply hkey
      rw [hkeys d p, hk]
      rfl
    rw [texts_preserve c d, texts_preserve c d', List.getElem?_map, List.getElem?_map, hp]
    simp only [Option.map_some, hsame]

/-- Two dictionaries that agree but for the class: it and its constructor differ, the field does
not. -/
theorem renaming_by_key_box :
    let d := (Dictionary.empty.record "Box.v" (some "w")).record "Box" (some "Case")
    let d' := Dictionary.empty.record "Box.v" (some "w")
    Sample.box.tidyOK = true
      ∧ (∀ k, k ≠ "Box" → d.lookup? k = d'.lookup? k)
      ∧ ∃ a a', (analyze d .preserve [Sample.box])[0]? = some a
        ∧ (analyze d' .preserve [Sample.box])[0]? = some a'
        ∧ a.texts d = ["class", "Case", "\x7b", "int", "w", ";", "Case", "(", "int", "p", ")",
          "\x7b", "w", "=", "p", ";", "\x7d", "\x7d"]
        ∧ a'.texts d' = ["class", "Box", "\x7b", "int", "w", ";", "Box", "(", "int", "p", ")",
          "\x7b", "w", "=", "p", ";", "\x7d", "\x7d"]
        ∧ (∀ (i : Nat) (p : Place), (writtenPlaces a.unit.root)[i]? = some p →
          p.node.isName = true → ¬ a.unit.IsConstructorName p →
          (a.texts d)[i]? = some (textByKey a.unit a.symbols d p))
        ∧ ∀ (i : Nat) (p : Place), (writtenPlaces a.unit.root)[i]? = some p →
          (a.symbols.keyOf? p).map Prod.fst ≠ some "Box" → (a.texts d)[i]? = (a'.texts d')[i]? := by
  intro d d'
  have htidy : Sample.box.tidyOK = true := by decide +kernel
  have hagree : ∀ k, k ≠ "Box" → d.lookup? k = d'.lookup? k := by
    intro k hk
    have hrecorded : d.recorded[k]? = d'.recorded[k]? := by
      have hne : compare "Box" k ≠ .eq := fun h => hk (Std.LawfulEqCmp.eq_of_compare h).symm
      simp [d, d', Dictionary.record, Std.TreeMap.getElem?_insert, hne]
    simp only [Dictionary.lookup?, Dictionary.entry?, hrecorded]
    rfl
  refine ⟨htidy, hagree, _, _, rfl, rfl, by decide +kernel, by decide +kernel, ?_⟩
  obtain ⟨-, -, -, hwritten, hdiffer⟩ := renaming_by_key
    (show (analyze d .preserve [Sample.box])[0]? = _ from rfl)
    (show (analyze d' .preserve [Sample.box])[0]? = _ from rfl)
  exact ⟨hwritten (List.forall_mem_singleton.mpr htidy), (hdiffer "Box" hagree).2⟩

/-- Parameters of variable arity with a comment before their type, which is taken for the type. -/
def Sample.spread : SourceUnit where
  path := "A.java"
  source := "class A\x7bvoid g(final //Y[]).L.h(//Z\nint... a)\x7b\x7dvoid g(final //Y\n"
    ++ "long... a)\x7bclass L\x7bvoid h(final //Z\nint... b)\x7b\x7d\x7d\x7d\x7d"
  root := open Sample in
    node 0 "program" 0 114 none [
     node 1 "class_declaration" 0 114 none [mark 2 "class" 0 5, name 3 6 7 "name",
      node 4 "class_body" 7 114 (some "body") [mark 5 "\x7b" 7 8,
       node 6 "method_declaration" 8 47 none [node 7 "void_type" 8 12 (some "type") [],
        name 8 13 14 "name",
        node 9 "formal_parameters" 14 45 (some "parameters") [mark 10 "(" 14 15,
         node 11 "spread_parameter" 15 44 none [
          node 12 "modifiers" 15 20 none [mark 13 "final" 15 20],
          node 14 "line_comment" 21 35 none [],
          node 15 "integral_type" 36 39 none [mark 16 "int" 36 39], mark 17 "..." 39 42,
          node 18 "variable_declarator" 43 44 none [name 19 43 44 "name"]], mark 20 ")" 44 45],
        node 21 "block" 45 47 (some "body") [mark 22 "\x7b" 45 46, mark 23 "\x7d" 46 47]],
       node 24 "method_declaration" 47 113 none [node 25 "void_type" 47 51 (some "type") [],
        name 26 52 53 "name",
        node 27 "formal_parameters" 53 74 (some "parameters") [mark 28 "(" 53 54,
         node 29 "spread_parameter" 54 73 none [
          node 30 "modifiers" 54 59 none [mark 31 "final" 54 59],
          node 32 "line_comment" 60 63 none [],
          node 33 "integral_type" 64 68 none [mark 34 "long" 64 68], mark 35 "..." 68 71,
          node 36 "variable_declarator" 72 73 none [name 37 72 73 "name"]], mark 38 ")" 73 74],
        node 39 "block" 74 113 (some "body") [mark 40 "\x7b" 74 75,
         node 41 "class_declaration" 75 112 none [mark 42 "class" 75 80, name 43 81 82 "name",
          node 44 "class_body" 82 112 (some "body") [mark 45 "\x7b" 82 83,
           node 46 "method_declaration" 83 111 none [node 47 "void_type" 83 87 (some "type") [],
            name 48 88 89 "name",
            node 49 "formal_parameters" 89 109 (some "parameters") [mark 50 "(" 89 90,
             node 51 "spread_parameter" 90 108 none [
              node 52 "modifiers" 90 95 none [mark 53 "final" 90 95],
              node 54 "line_comment" 96 99 none [],
              node 55 "integral_type" 100 103 none [mark 56 "int" 100 103], mark 57 "..." 103 106,
              node 58 "variable_declarator" 107 108 none [name 59 107 108 "name"]],
             mark 60 ")" 108 109],
            node 61 "block" 109 111 (some "body") [mark 62 "\x7b" 109 110, mark 63 "\x7d" 110 111]],
           mark 64 "\x7d" 111 112]], mark 65 "\x7d" 112 113]], mark 66 "\x7d" 113 114]]]

/-- Nothing but the types of the parameters is untidy, and two methods have one key. The dictionary
has the name that the first of them is declared with, so the second keeps its own. -/
theorem method_not_written_by_key :
    let u := Sample.spread
    let key := "A.g(//Y[]).L.h(//Z[])"
    let d := Dictionary.empty.record key (some "g")
    let t := Symbols.ofUnit d .preserve ⟨u, 0, Index.build [u]⟩
    (∀ p ∈ u.root.places, u.nameOK p && u.roleOK p && u.scopedTypeOK p && u.scopedNameOK p
        && u.fieldAccessOK p && SourceUnit.partsOK p)
      ∧ ∃ p ∈ u.root.places, ∃ q ∈ u.root.places,
        p.parentKind? = some "method_declaration" ∧ q.parentKind? = some "method_declaration"
          ∧ u.text p = "g" ∧ u.text q = "h"
          ∧ t.keyOf? p = some (key, .valid) ∧ t.keyOf? q = some (key, .valid)
          ∧ textByKey u t d q = "g" ∧ writtenText u t d q = "h" := by
  decide +kernel

end Legible
