import Legible.Proofs.Binding.Names
import Legible.Proofs.Dictionary.Histories
import Legible.Survey

/-!
# What a survey records

A survey of the names that were found adds to a dictionary and takes nothing away: what had a name
keeps it, what has one afterwards was found under it (`Survey.Adds`), and every key that was found
under an identifier has a name (`isSome_lookup?_survey`).
-/

namespace Legible

variable {key name : String}

namespace Dictionary

theorem isIdentifier_of_lookup? {d : Dictionary} (h : d.lookup? key = some name) :
    isIdentifier name = true :=
  (Option.filter_eq_some_iff.mp h).2

end Dictionary

namespace Survey

variable {units : List AnalyzedUnit}

/-- The second dictionary is the first with more names, each with the property. -/
structure Adds (P : String → String → Prop) (d d' : Dictionary) : Prop where
  kept : ∀ key name, d.lookup? key = some name → d'.lookup? key = some name
  added : ∀ key name, d'.lookup? key = some name → d.lookup? key = some name ∨ P key name

namespace Adds

variable {P : String → String → Prop} {d d' d'' : Dictionary}

theorem refl (d : Dictionary) : Adds P d d := ⟨fun _ _ h => h, fun _ _ h => .inl h⟩

theorem trans (h : Adds P d d') (h' : Adds P d' d'') : Adds P d d'' where
  kept key name hname := h'.kept key name (h.kept key name hname)
  added key name hname := (h'.added key name hname).elim (h.added key name) .inr

/-- What a key has after it had before, or it had nothing. -/
theorem lookup?_cases (h : Adds P d d') (key : String) :
    d'.lookup? key = d.lookup? key
      ∨ d.lookup? key = none ∧ ∃ name, d'.lookup? key = some name ∧ P key name := by
  cases hd : d.lookup? key with
  | some name => exact .inl (h.kept key name hd)
  | none =>
    cases hd' : d'.lookup? key with
    | none => exact .inl rfl
    | some name =>
      refine .inr ⟨rfl, name, rfl, (h.added key name hd').resolve_left ?_⟩
      rw [hd]
      exact nofun

theorem foldl {α : Type} {step : Dictionary × Tally → α → Dictionary × Tally} {xs : List α}
    (hstep : ∀ s, ∀ x ∈ xs, Adds P s.1 (step s x).1) (s : Dictionary × Tally) :
    Adds P s.1 (xs.foldl step s).1 := by
  induction xs generalizing s with
  | nil => exact refl s.1
  | cons x xs ih =>
    exact (hstep s x (List.mem_cons_self ..)).trans
      (ih (fun s y hy => hstep s y (List.mem_cons_of_mem _ hy)) _)

end Adds

def FoundAs (units : List AnalyzedUnit) (key name : String) : Prop :=
  ∃ a ∈ units, ∃ p ∈ Symbols.namePlaces a.unit,
    a.symbols.keyOf? p = some (key, .valid) ∧ a.unit.text p = name

variable {a : AnalyzedUnit} {p : Place}

/-- A survey of what was found records a name that was found, unless it has one. -/
theorem fst_surveyName (a : AnalyzedUnit) (s : Dictionary × Tally) (p : Place) :
    (surveyName .valid a s p).1 =
      match a.symbols.keyOf? p with
      | some (key, .valid) => s.1.record key (some ((s.1.lookup? key).getD (a.unit.text p)))
      | _ => s.1 := by
  unfold surveyName
  cases hkey : a.symbols.keyOf? p with
  | none => rfl
  | some found =>
    obtain ⟨key, found⟩ := found
    cases found <;> rfl

theorem surveyName_adds (ha : a ∈ units) (hp : p ∈ Symbols.namePlaces a.unit)
    (s : Dictionary × Tally) : Adds (FoundAs units) s.1 (surveyName .valid a s p).1 := by
  rw [fst_surveyName]
  split
  · next key hkey =>
      constructor
      · intro k name hname
        rw [Dictionary.lookup?_record]
        split
        · next heq =>
            subst heq
            simp [hname, Dictionary.isIdentifier_of_lookup? hname]
        · exact hname
      · intro k name hname
        rw [Dictionary.lookup?_record] at hname
        split at hname
        · next heq =>
            subst heq
            have hname := (Option.filter_eq_some_iff.mp hname).1
            cases hold : s.1.lookup? key with
            | some old => exact .inl (by simpa [hold] using hname)
            | none => exact .inr ⟨a, ha, p, hp, hkey, by simpa [hold] using hname⟩
        · exact .inl hname
  · exact .refl s.1

theorem isSome_lookup?_surveyName (hkey : a.symbols.keyOf? p = some (key, .valid))
    (hname : isIdentifier (a.unit.text p) = true) (s : Dictionary × Tally) :
    ((surveyName .valid a s p).1.lookup? key).isSome = true := by
  rw [fst_surveyName, hkey]
  dsimp only
  rw [Dictionary.lookup?_record, if_pos rfl]
  cases hold : s.1.lookup? key with
  | none => simp [hname]
  | some old => simp [Dictionary.isIdentifier_of_lookup? hold]

theorem surveyUnit_adds (ha : a ∈ units) (d : Dictionary) :
    Adds (FoundAs units) d (surveyUnit .valid d a).1 :=
  .foldl (fun s _ hp => surveyName_adds ha hp s) (d, {})

theorem survey_adds (d : Dictionary) {found : List AnalyzedUnit} (h : units ⊆ found) :
    Adds (FoundAs found) d (survey .valid d units).1 := by
  induction units generalizing d with
  | nil => exact .refl d
  | cons a units ih =>
    rw [List.cons_subset] at h
    exact (surveyUnit_adds h.1 d).trans (ih (surveyUnit .valid d a).1 h.2)

theorem isSome_lookup?_surveyUnit (d : Dictionary) (hp : p ∈ Symbols.namePlaces a.unit)
    (hkey : a.symbols.keyOf? p = some (key, .valid)) (hname : isIdentifier (a.unit.text p) = true) :
    ((surveyUnit .valid d a).1.lookup? key).isSome = true := by
  obtain ⟨before, after, hsplit⟩ := List.append_of_mem hp
  have hafter : ∀ q ∈ after, q ∈ Symbols.namePlaces a.unit := fun q hq => by simp [hsplit, hq]
  rw [surveyUnit, hsplit, List.foldl_append, List.foldl_cons]
  have hsome := isSome_lookup?_surveyName hkey hname (before.foldl (surveyName .valid a) (d, {}))
  obtain ⟨name, hlookup⟩ := Option.isSome_iff_exists.mp hsome
  have hadds : Adds (FoundAs [a]) _ (after.foldl (surveyName .valid a) _).1 := .foldl
    (fun s q hq => surveyName_adds (List.mem_singleton_self a) (hafter q hq) s)
    (surveyName .valid a (before.foldl (surveyName .valid a) (d, {})) p)
  rw [hadds.kept key name hlookup]
  rfl

/-- After a survey every key has a name that was found under an identifier. -/
theorem isSome_lookup?_survey (d : Dictionary) (h : FoundAs units key name)
    (hname : isIdentifier name = true) : ((survey .valid d units).1.lookup? key).isSome = true := by
  obtain ⟨a, ha, p, hp, hkey, rfl⟩ := h
  induction units generalizing d with
  | nil => cases ha
  | cons a' units ih =>
    rcases List.mem_cons.mp ha with rfl | ha
    · obtain ⟨name, hlookup⟩ := Option.isSome_iff_exists.mp
        (isSome_lookup?_surveyUnit d hp hkey hname)
      have hadds := survey_adds (surveyUnit .valid d a).1 (List.Subset.refl units)
      rw [survey, hadds.kept key name hlookup]
      rfl
    · exact ih (surveyUnit .valid d a').1 ha

end Survey

end Legible
