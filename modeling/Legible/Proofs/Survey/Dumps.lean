import Legible.Proofs.Layout.Fidelity
import Legible.Proofs.Survey.Recorded

/-!
# Dumps one after the other

A dump surveys units into a dictionary and saves it; the next dump loads what was saved. What a
survey does to a key depends on what it sees of that key alone (`entry?_survey`), and comes to this:
a key that has a name keeps it; else a survey of the found names records the first spelling that can
be written as an identifier, or else the last spelling, and a survey of the missing ones records
the mark for an unresolved symbol (`Survey.settled`). What the names of the units are does not
depend on the dictionary, and neither saving nor loading changes an entry, so that dumps in a row do
to a key what that rule does in a row (`history_ok`).
-/

namespace Legible

variable {s : Sighting}

namespace Survey

/-! ## What a survey does to a key -/

/-- The name that an entry gives, if it can be written as an identifier. -/
def nameOf? (entry : Option (Option String)) : Option String := entry.join.filter isIdentifier

/-- A name as a survey sees it: its key and class, and how it is spelled. -/
structure Sighting where
  key : String
  found : Found
  text : String
deriving DecidableEq

/-- What is seen at a place; names without a key are passed over. -/
def sightingAt? (a : AnalyzedUnit) (p : Place) : Option Sighting :=
  (a.symbols.keyOf? p).map fun (key, found) => { key, found, text := a.unit.text p }

/-- What is seen in a unit, in source order. -/
def sightings (a : AnalyzedUnit) : List Sighting :=
  (Symbols.namePlaces a.unit).filterMap (sightingAt? a)

def see (wanted : Found) (entry : Option (Option String)) (s : Sighting) : Option (Option String) :=
  match wanted, s.found with
  | .valid, .valid => some (some ((nameOf? entry).getD s.text))
  | .missing, .missing => if (nameOf? entry).isNone then some none else entry
  | _, _ => entry

def note (wanted : Found) (d : Dictionary) (s : Sighting) : Dictionary :=
  match entryFor wanted d s.key s.found s.text with
  | some name => d.record s.key name
  | none => d

theorem entry?_note (wanted : Found) (d : Dictionary) (s : Sighting) (k : String) :
    Dictionary.entry? (note wanted d s) k
      = if s.key = k then see wanted (d.entry? k) s else d.entry? k := by
  have hname : ∀ key, d.lookup? key = nameOf? (d.entry? key) := fun _ => rfl
  unfold note see entryFor
  cases wanted <;> cases s.found <;> grind [Dictionary.entry?_record]

theorem entry?_foldl_note (wanted : Found) (d : Dictionary) (seen : List Sighting) (k : String) :
    Dictionary.entry? (seen.foldl (note wanted) d) k
      = (seen.filter (·.key = k)).foldl (see wanted) (d.entry? k) := by
  induction seen generalizing d with
  | nil => rfl
  | cons s seen ih =>
    rw [List.foldl_cons, ih, entry?_note, List.filter_cons]
    by_cases h : s.key = k <;> simp [h]

theorem fst_surveyName_eq_note (wanted : Found) (a : AnalyzedUnit) (state : Dictionary × Tally)
    (p : Place) :
    (surveyName wanted a state p).1 = (sightingAt? a p).elim state.1 (note wanted state.1) := by
  unfold surveyName sightingAt? note
  cases a.symbols.keyOf? p with
  | none => rfl
  | some found =>
    cases hentry : entryFor wanted state.1 found.1 found.2 (a.unit.text p) <;> simp [hentry]

theorem fst_surveyUnit (wanted : Found) (d : Dictionary) (a : AnalyzedUnit) :
    (surveyUnit wanted d a).1 = (sightings a).foldl (note wanted) d := by
  have hfold : ∀ (places : List Place) (state : Dictionary × Tally),
      (places.foldl (surveyName wanted a) state).1
        = (places.filterMap (sightingAt? a)).foldl (note wanted) state.1 := by
    intro places
    induction places with
    | nil => exact fun _ => rfl
    | cons p places ih =>
      intro state
      rw [List.foldl_cons, ih, fst_surveyName_eq_note, List.filterMap_cons]
      cases sightingAt? a p <;> rfl
  exact hfold _ (d, {})

theorem fst_survey (wanted : Found) (d : Dictionary) (units : List AnalyzedUnit) :
    (survey wanted d units).1 = (units.flatMap sightings).foldl (note wanted) d := by
  induction units generalizing d with
  | nil => rfl
  | cons a units ih => rw [survey, ih, fst_surveyUnit, List.flatMap_cons, List.foldl_append]

/-! ## Where it leads -/

/-- The spelling that a survey of found names settles on: the first that can be written as an
identifier, or else the last. -/
def spelling? (seen : List Sighting) : Option String :=
  let texts := (seen.filter (·.found = .valid)).map Sighting.text
  (texts.find? isIdentifier).or texts.getLast?

/-- The entry of a key after a survey that has seen it so. -/
def settled (wanted : Found) (seen : List Sighting) (entry : Option (Option String)) :
    Option (Option String) :=
  if (nameOf? entry).isSome then entry
  else
    match wanted with
    | .valid => ((spelling? seen).map some).or entry
    | .missing => if seen.any (·.found = .missing) then some none else entry

variable {wanted : Found} {entry : Option (Option String)} {seen : List Sighting} {name : String}

theorem eq_some_of_nameOf? (h : nameOf? entry = some name) :
    entry = some (some name) ∧ isIdentifier name = true := by
  obtain ⟨hjoin, hname⟩ := Option.filter_eq_some_iff.mp h
  exact ⟨Option.join_eq_some_iff.mp hjoin, hname⟩

theorem foldl_see_of_nameOf? (wanted : Found) (seen : List Sighting)
    (h : nameOf? entry = some name) : seen.foldl (see wanted) entry = entry := by
  induction seen with
  | nil => rfl
  | cons s seen ih =>
    have hsee : see wanted entry s = entry := by
      have hentry := (eq_some_of_nameOf? h).1
      unfold see
      cases wanted <;> cases s.found <;> simp only [h] <;> simp [hentry]
    rw [List.foldl_cons, hsee, ih]

theorem foldl_see_missing (seen : List Sighting) (h : nameOf? entry = none) :
    seen.foldl (see .missing) entry
      = if seen.any (·.found = .missing) then some none else entry := by
  induction seen generalizing entry with
  | nil => rfl
  | cons s seen ih =>
    rw [List.foldl_cons]
    cases hs : s.found with
    | valid =>
      have hsee : see .missing entry s = entry := by simp [see, hs]
      rw [hsee, ih h]
      simp [hs]
    | missing =>
      have hsee : see .missing entry s = some none := by simp [see, hs, h]
      rw [hsee, ih rfl]
      simp [hs]

theorem spelling?_cons (s : Sighting) (seen : List Sighting) :
    spelling? (s :: seen)
      = if s.found = .valid then
          if isIdentifier s.text then some s.text else (spelling? seen).or (some s.text)
        else spelling? seen := by
  unfold spelling?
  by_cases hs : s.found = .valid
  · by_cases htext : isIdentifier s.text = true
    · simp [hs, htext]
    · simp [hs, htext, List.getLast?_cons]
  · simp [hs]

theorem foldl_see_valid (seen : List Sighting) (h : nameOf? entry = none) :
    seen.foldl (see .valid) entry = ((spelling? seen).map some).or entry := by
  induction seen generalizing entry with
  | nil => rfl
  | cons s seen ih =>
    rw [List.foldl_cons, spelling?_cons]
    by_cases hs : s.found = .valid
    · have hsee : see .valid entry s = some (some s.text) := by simp [see, hs, h]
      rw [hsee, if_pos hs]
      by_cases htext : isIdentifier s.text = true
      · have hname : nameOf? (some (some s.text)) = some s.text := by simp [nameOf?, htext]
        rw [foldl_see_of_nameOf? .valid seen hname, if_pos htext]
        rfl
      · rw [ih (by simp [nameOf?, htext]), if_neg htext]
        cases spelling? seen <;> rfl
    · have hsee : see .valid entry s = entry := by
        unfold see
        cases hf : s.found <;> simp_all
      rw [hsee, if_neg hs, ih h]

theorem foldl_see (wanted : Found) (seen : List Sighting) (entry : Option (Option String)) :
    seen.foldl (see wanted) entry = settled wanted seen entry := by
  unfold settled
  cases h : nameOf? entry with
  | some name => exact foldl_see_of_nameOf? wanted seen h
  | none =>
    cases wanted with
    | valid => exact foldl_see_valid seen h
    | missing => exact foldl_see_missing seen h

/-- What a survey does to a key. -/
theorem entry?_survey (wanted : Found) (d : Dictionary) (units : List AnalyzedUnit) (key : String) :
    Dictionary.entry? (survey wanted d units).1 key
      = settled wanted ((units.flatMap sightings).filter (·.key = key)) (d.entry? key) := by
  rw [fst_survey, entry?_foldl_note, foldl_see]

theorem settled_of_nameOf? (wanted : Found) (seen : List Sighting)
    (h : nameOf? entry = some name) : settled wanted seen entry = entry := by
  simp [settled, h]

theorem settled_valid (seen : List Sighting) (h : nameOf? entry = none) :
    settled .valid seen entry = ((spelling? seen).map some).or entry := by
  simp [settled, h]

theorem settled_missing (seen : List Sighting) (h : nameOf? entry = none) :
    settled .missing seen entry = if seen.any (·.found = .missing) then some none else entry := by
  simp [settled, h]

theorem isSome_settled (wanted : Found) (seen : List Sighting) (h : entry.isSome = true) :
    (settled wanted seen entry).isSome = true := by
  unfold settled
  cases wanted <;> grind

/-- A key that was seen in the class that is recorded has an entry. -/
theorem isSome_settled_of_mem (hs : s ∈ seen) (hfound : s.found = wanted)
    (entry : Option (Option String)) : (settled wanted seen entry).isSome = true := by
  cases h : nameOf? entry with
  | some name => rw [settled_of_nameOf? wanted seen h, (eq_some_of_nameOf? h).1]; rfl
  | none =>
    cases wanted with
    | valid =>
      rw [settled_valid seen h]
      have hspelling : (spelling? seen).isSome = true := by
        simp only [spelling?, Option.isSome_or, Bool.or_eq_true, List.getLast?_isSome]
        exact .inr (by simpa using ⟨s, hs, hfound⟩)
      obtain ⟨text, htext⟩ := Option.isSome_iff_exists.mp hspelling
      rw [htext]
      rfl
    | missing =>
      have hany : seen.any (·.found = .missing) = true :=
        List.any_eq_true.mpr ⟨s, hs, by simp [hfound]⟩
      rw [settled_missing seen h, if_pos hany]
      rfl

theorem mem_of_spelling? (h : spelling? seen = some name) : ∃ s ∈ seen, s.text = name := by
  have hmem : name ∈ (seen.filter (·.found = .valid)).map Sighting.text :=
    (Option.or_eq_some_iff.mp h).elim List.mem_of_find?_eq_some fun hlast =>
      List.mem_of_getLast? hlast.2
  obtain ⟨s, hs, htext⟩ := List.mem_map.mp hmem
  exact ⟨s, List.mem_of_mem_filter hs, htext⟩

/-- Seeing the same again changes nothing. -/
theorem settled_settled (wanted : Found) (seen : List Sighting) (entry : Option (Option String)) :
    settled wanted seen (settled wanted seen entry) = settled wanted seen entry := by
  cases h : nameOf? entry with
  | some name => rw [settled_of_nameOf? wanted seen h, settled_of_nameOf? wanted seen h]
  | none =>
    cases wanted with
    | valid =>
      rw [settled_valid seen h]
      cases hspelling : spelling? seen with
      | none => exact (settled_valid seen h).trans (by rw [hspelling])
      | some text =>
        cases hname : nameOf? (some (some text)) with
        | some name => exact settled_of_nameOf? .valid seen hname
        | none => exact (settled_valid seen hname).trans (by rw [hspelling]; rfl)
    | missing =>
      rw [settled_missing seen h]
      by_cases hany : seen.any (·.found = .missing) = true
      · rw [if_pos hany, settled_missing seen rfl, if_pos hany]
      · rw [if_neg hany, settled_missing seen h, if_neg hany]

/-- Where every spelling can be written as an identifier, it does not matter which class is recorded
first. -/
theorem settled_comm (h : ∀ s ∈ seen, isIdentifier s.text = true)
    (entry : Option (Option String)) :
    settled .missing seen (settled .valid seen entry)
      = settled .valid seen (settled .missing seen entry) := by
  cases hentry : nameOf? entry with
  | some name => simp only [settled_of_nameOf? _ seen hentry]
  | none =>
    have hmarked : nameOf? (settled .missing seen entry) = none := by
      rw [settled_missing seen hentry]
      split
      · rfl
      · exact hentry
    rw [settled_valid seen hentry, settled_valid seen hmarked]
    cases hspelling : spelling? seen with
    | none => rfl
    | some text =>
      obtain ⟨s, hs, htext⟩ := mem_of_spelling? hspelling
      have hname : nameOf? (some (some text)) = some text := by
        simp [nameOf?, ← htext, h s hs]
      exact settled_of_nameOf? .missing seen hname

end Survey

/-! ## Dumps -/

/-- A dump: the class of names that it records, and the units that it goes through. -/
structure Dump where
  wanted : Found
  units : List SourceUnit

namespace Dump

open Survey

def apply (x : Dump) (d : Dictionary) : Dictionary :=
  (survey x.wanted d (analyze d .preserve x.units)).1

def seen (x : Dump) : List Sighting :=
  (analyze .empty .preserve x.units).flatMap sightings

/-- The dictionary after dumps one after the other, each of which loads what the one before it has
saved. -/
def history (origin : String) (d : Dictionary) : List Dump → Except Error Dictionary
  | [] => .ok d
  | x :: rest =>
    match Dictionary.ofJson origin (x.apply d).toJson with
    | .ok d => history origin d rest
    | .error e => .error e

def saved (origin : String) (d : Dictionary) (dumps : List Dump) :
    Except Error (List (String × Option String)) :=
  (history origin d dumps).map fun d => d.merged.toList

variable (origin : String) (d : Dictionary)

/-- What the names of units are does not depend on the dictionary. -/
theorem flatMap_sightings_analyze (units : List SourceUnit) :
    (analyze d .preserve units).flatMap sightings
      = (analyze .empty .preserve units).flatMap sightings := by
  have hunit : ∀ c : BindingInput, sightings ⟨c.unit, Symbols.ofUnit d .preserve c⟩
      = sightings ⟨c.unit, Symbols.ofUnit .empty .preserve c⟩ := by
    intro c
    have hat : ∀ d, sightingAt? ⟨c.unit, Symbols.ofUnit d .preserve c⟩
        = sightingAt? ⟨c.unit, Symbols.found c⟩ := by
      intro d
      funext p
      simp only [sightingAt?, Symbols.keyOf?_ofUnit]
    simp only [sightings, hat]
  simp only [analyze_eq_map, List.flatMap_map, hunit]

theorem entry?_apply (x : Dump) (key : String) :
    Dictionary.entry? (x.apply d) key
      = settled x.wanted (x.seen.filter (·.key = key)) (d.entry? key) := by
  rw [apply, entry?_survey, flatMap_sightings_analyze, seen]

/-- Dictionaries with the same entries have the same entries after dumps. -/
theorem entry?_foldl_apply (dumps : List Dump) (key : String) :
    Dictionary.entry? (dumps.foldl (fun d x => x.apply d) d) key
      = dumps.foldl (fun entry x => settled x.wanted (x.seen.filter (·.key = key)) entry)
          (d.entry? key) := by
  induction dumps generalizing d with
  | nil => rfl
  | cons x dumps ih => rw [List.foldl_cons, ih, entry?_apply, List.foldl_cons]

/-- Every dump finds a dictionary that it can load, and loading makes no difference to the
entries. -/
theorem history_ok (dumps : List Dump) :
    ∃ d', history origin d dumps = .ok d'
      ∧ ∀ key, d'.entry? key = Dictionary.entry? (dumps.foldl (fun d x => x.apply d) d) key := by
  induction dumps generalizing d with
  | nil => exact ⟨d, rfl, fun _ => rfl⟩
  | cons x dumps ih =>
    obtain ⟨d₁, hload, hsame⟩ := Dictionary.ofJson_toJson origin (x.apply d)
    obtain ⟨d', hhistory, hentries⟩ := ih d₁
    refine ⟨d', ?_, fun key => ?_⟩
    · rw [history, hload]
      exact hhistory
    · rw [hentries, List.foldl_cons, entry?_foldl_apply, entry?_foldl_apply, hsame]

theorem saved_eq (dumps : List Dump) :
    saved origin d dumps = .ok (dumps.foldl (fun d x => x.apply d) d).merged.toList := by
  obtain ⟨d', hhistory, hentries⟩ := history_ok origin d dumps
  rw [saved, hhistory, ← Dictionary.toList_merged_congr hentries]
  rfl

theorem history_append (before after : List Dump) :
    history origin d (before ++ after)
      = (history origin d before).bind fun d => history origin d after := by
  induction before generalizing d with
  | nil => rfl
  | cons x before ih =>
    rw [List.cons_append, history, history]
    cases Dictionary.ofJson origin (x.apply d).toJson with
    | ok d₁ => exact ih d₁
    | error e => rfl

variable {d}

/-- What dumps keep of a dictionary: every entry stays one, and every name the same. -/
theorem entry?_kept (dumps : List Dump) (key : String) :
    ((d.entry? key).isSome = true
        → (Dictionary.entry? (dumps.foldl (fun d x => x.apply d) d) key).isSome = true)
      ∧ ∀ name, d.lookup? key = some name
        → (dumps.foldl (fun d x => x.apply d) d).lookup? key = some name := by
  induction dumps generalizing d with
  | nil => exact ⟨id, fun _ => id⟩
  | cons x dumps ih =>
    obtain ⟨hsome, hname⟩ := ih (d := x.apply d)
    refine ⟨fun h => hsome ?_, fun name h => hname name ?_⟩
    · rw [entry?_apply]
      exact isSome_settled x.wanted _ h
    · have hentry : Dictionary.entry? (x.apply d) key = d.entry? key := by
        rw [entry?_apply, settled_of_nameOf? x.wanted _ h]
      rw [Dictionary.lookup?, hentry]
      exact h

/-- A dump enters the keys of all the names of its class. -/
theorem isSome_entry?_of_seen {dumps : List Dump} {x : Dump} (hx : x ∈ dumps) (hs : s ∈ x.seen)
    (hfound : s.found = x.wanted) :
    (Dictionary.entry? (dumps.foldl (fun d x => x.apply d) d) s.key).isSome = true := by
  obtain ⟨before, after, rfl⟩ := List.append_of_mem hx
  rw [List.foldl_append, List.foldl_cons]
  refine (entry?_kept after s.key).1 ?_
  rw [entry?_apply]
  exact isSome_settled_of_mem (List.mem_filter.mpr ⟨hs, by simp⟩) hfound _

/-- Dumps forget nothing. Whatever dumps are done, the dictionary can always be loaded again; a key
that was in it once stays in it, with the name that it has, if any; and each dump enters the keys
of all the names of its class. -/
theorem history_keeps (origin : String) (d : Dictionary) (before after : List Dump) :
    ∃ d₁ d₂, history origin d before = .ok d₁
      ∧ history origin d (before ++ after) = .ok d₂
      ∧ (∀ key ∈ d₁.merged, key ∈ d₂.merged)
      ∧ (∀ key name, d₁.lookup? key = some name → d₂.lookup? key = some name)
      ∧ ∀ x ∈ before, ∀ s ∈ x.seen, s.found = x.wanted → s.key ∈ d₁.merged := by
  obtain ⟨d₁, hbefore, hentries₁⟩ := history_ok origin d before
  obtain ⟨d₂, hafter, hentries₂⟩ := history_ok origin d₁ after
  refine ⟨d₁, d₂, hbefore, ?_, fun key hkey => ?_, fun key name hname => ?_,
    fun x hx s hs hfound => ?_⟩
  · rw [history_append, hbefore]
    exact hafter
  · rw [Dictionary.mem_merged_iff] at hkey ⊢
    rw [hentries₂]
    exact (entry?_kept after key).1 hkey
  · rw [Dictionary.lookup?, hentries₂]
    exact (entry?_kept after key).2 name hname
  · rw [Dictionary.mem_merged_iff, hentries₁]
    exact isSome_entry?_of_seen hx hs hfound

/-- A dump that is done again changes nothing, and the dumps of the two classes of names can be done
in either order if the names that have a key are all spelled as identifiers. Whether the dictionary
is saved and loaded in between makes no difference. -/
theorem saved_repeated_and_swapped (origin : String) (d : Dictionary) (units : List SourceUnit) :
    (∀ wanted, let x : Dump := ⟨wanted, units⟩
      (x.apply (x.apply d)).merged.toList = (x.apply d).merged.toList
        ∧ saved origin d [x] = .ok (x.apply d).merged.toList
        ∧ saved origin d [x, x] = .ok (x.apply d).merged.toList)
      ∧ ((∀ a ∈ analyze d .preserve units, ∀ p ∈ Symbols.namePlaces a.unit,
          (a.symbols.keyOf? p).isSome = true → isIdentifier (a.unit.text p) = true) →
        let x : Dump := ⟨.valid, units⟩
        let y : Dump := ⟨.missing, units⟩
        (y.apply (x.apply d)).merged.toList = (x.apply (y.apply d)).merged.toList
          ∧ saved origin d [x, y] = .ok (y.apply (x.apply d)).merged.toList
          ∧ saved origin d [y, x] = .ok (y.apply (x.apply d)).merged.toList) := by
  refine ⟨fun wanted => ?_, fun hidentifiers => ?_⟩
  · intro x
    have hagain : (x.apply (x.apply d)).merged.toList = (x.apply d).merged.toList :=
      Dictionary.toList_merged_congr fun key => by
        rw [entry?_apply, entry?_apply, settled_settled]
    exact ⟨hagain, saved_eq origin d [x], by rw [saved_eq, ← hagain]; rfl⟩
  · intro x y
    have hspelled : ∀ s ∈ x.seen, isIdentifier s.text = true := by
      intro s hs
      rw [seen, ← flatMap_sightings_analyze d] at hs
      obtain ⟨a, ha, hs⟩ := List.mem_flatMap.mp hs
      obtain ⟨p, hp, hs⟩ := List.mem_filterMap.mp hs
      obtain ⟨found, hkey, rfl⟩ := Option.map_eq_some_iff.mp hs
      exact hidentifiers a ha p hp (by rw [hkey]; rfl)
    have hcomm : (y.apply (x.apply d)).merged.toList = (x.apply (y.apply d)).merged.toList :=
      Dictionary.toList_merged_congr fun key => by
        simp only [entry?_apply]
        exact settled_comm (fun s hs => hspelled s (List.mem_of_mem_filter hs)) (d.entry? key)
    exact ⟨hcomm, saved_eq origin d [x, y], by rw [saved_eq, hcomm]; rfl⟩

end Dump

/-- A class with a field whose type is not known. -/
def Sample.field : SourceUnit where
  path := "A.java"
  source := "class A\x7bB b;\x7d"
  root := open Sample in
    node 0 "program" 0 13 none [
     node 1 "class_declaration" 0 13 none [mark 2 "class" 0 5, name 3 6 7 "name",
      node 4 "class_body" 7 13 (some "body") [mark 5 "\x7b" 7 8,
       node 6 "field_declaration" 8 12 none [node 7 "type_identifier" 8 9 (some "type") [],
        node 8 "variable_declarator" 10 11 (some "declarator") [name 9 10 11 "name"],
        mark 10 ";" 11 12], mark 11 "\x7d" 12 13]]]

/-- The two classes of names of a class that has both, into a dictionary without entries. -/
theorem Dump.saved_swapped_field :
    let x : Dump := ⟨.valid, [Sample.field]⟩
    let y : Dump := ⟨.missing, [Sample.field]⟩
    (∀ a ∈ analyze .empty .preserve [Sample.field], ∀ p ∈ Symbols.namePlaces a.unit,
        (a.symbols.keyOf? p).isSome = true → isIdentifier (a.unit.text p) = true)
      ∧ saved "s.json" .empty [y, x] = .ok [("A", some "A"), ("A.b", some "b"), ("B", none)]
      ∧ saved "s.json" .empty [x, y] = saved "s.json" .empty [y, x] := by
  intro x y
  have hidentifiers : ∀ a ∈ analyze .empty .preserve [Sample.field],
      ∀ p ∈ Symbols.namePlaces a.unit,
        (a.symbols.keyOf? p).isSome = true → isIdentifier (a.unit.text p) = true := by
    decide +kernel
  obtain ⟨hcomm, hxy, hyx⟩ :=
    (saved_repeated_and_swapped "s.json" .empty [Sample.field]).2 hidentifiers
  refine ⟨hidentifiers, ?_, hxy.trans hyx.symm⟩
  rw [hyx]
  exact congrArg Except.ok (by decide +kernel)

end Legible
