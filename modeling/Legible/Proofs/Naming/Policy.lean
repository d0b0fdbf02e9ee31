import Legible.Proofs.Binding.Names

/-!
# When a policy names nothing

A policy names variables that have no name from the dictionary and that are called something
without meaning. Such names can be written as identifiers, all but the underscore
(`isIdentifier_of_isMeaningless`), so a dictionary can hold them. Where it does, the policy is left
without work (`ofUnit_eq_preserve`).
-/

namespace Legible

variable {cs : List Char} {name : String}

/-! ## Meaningless names are identifiers -/

section Characters

variable {c : Char}

theorem startsIdentifier_of_isPlainStart (h : isPlainStart c = true) :
    startsIdentifier c = true := by
  have hupper : ∀ n < 91, 65 ≤ n → Text.letterRanges.contains n = true := by decide
  have hlower : ∀ n < 123, 97 ≤ n → Text.letterRanges.contains n = true := by decide
  simp only [isPlainStart, Bool.or_eq_true, beq_iff_eq] at h
  rcases h with (h | rfl) | rfl
  · have hletter : Text.isLetter c = true := by
      rcases Bool.or_eq_true_iff.mp h with h | h
      · have hrange : 'A'.val ≤ c.val ∧ c.val ≤ 'Z'.val := of_decide_eq_true h
        rw [UInt32.le_iff_toNat_le, UInt32.le_iff_toNat_le] at hrange
        exact hupper c.toNat (Nat.lt_succ_of_le hrange.2) hrange.1
      · have hrange : 'a'.val ≤ c.val ∧ c.val ≤ 'z'.val :=
          (Bool.and_eq_true_iff.mp h).imp of_decide_eq_true of_decide_eq_true
        rw [UInt32.le_iff_toNat_le, UInt32.le_iff_toNat_le] at hrange
        exact hlower c.toNat (Nat.lt_succ_of_le hrange.2) hrange.1
    simp [startsIdentifier, hletter]
  · decide
  · decide

theorem continuesIdentifier_of_isDigit (h : c.isDigit = true) : continuesIdentifier c = true := by
  have hdigits : ∀ n < 58, 48 ≤ n → Text.numeralRanges.contains n = true := by decide
  obtain ⟨hlow, hhigh⟩ := Char.isDigit_iff_toNat.mp h
  have hnumeral : Text.isNumeral c = true := hdigits c.toNat (Nat.lt_succ_of_le hhigh) hlow
  simp [continuesIdentifier, hnumeral]

theorem startsIdentifier_of_isLookalikeStart (h : isLookalikeStart c = true) :
    startsIdentifier c = true := by
  simp only [isLookalikeStart, Bool.or_eq_true, beq_iff_eq] at h
  rcases h with (((rfl | rfl) | rfl) | rfl) | rfl <;> decide

theorem continuesIdentifier_of_isLookalike (h : isLookalike c = true) :
    continuesIdentifier c = true := by
  simp only [isLookalike, Bool.or_eq_true, beq_iff_eq] at h
  rcases h with (h | rfl) | rfl
  · simp [continuesIdentifier, startsIdentifier_of_isLookalikeStart h]
  · decide
  · decide

end Characters

/-- Whether the characters can stand in an identifier, keywords aside. -/
def spellsIdentifier : List Char → Bool
  | [] => false
  | c :: rest => startsIdentifier c && rest.all continuesIdentifier

theorem isIdentifier_eq (name : String) :
    isIdentifier name = (spellsIdentifier name.toList && !isKeyword name) := by
  unfold isIdentifier
  cases name.toList <;> rfl

theorem spellsIdentifier_append {ds : List Char} (hcs : spellsIdentifier cs = true)
    (hds : ds.all continuesIdentifier = true) : spellsIdentifier (cs ++ ds) = true := by
  cases cs with
  | nil => cases hcs
  | cons c rest =>
    simp only [spellsIdentifier, Bool.and_eq_true] at hcs
    simp [spellsIdentifier, hcs, hds]

theorem spellsIdentifier_of_isNumberedWord (h : isNumberedWord cs = true) :
    spellsIdentifier cs = true := by
  have hwords : ∀ word ∈ stockWords, spellsIdentifier word.toList = true := by decide
  obtain ⟨word, hword, hmatch⟩ := List.any_eq_true.mp h
  split at hmatch
  · cases hmatch
  · simp only [Bool.and_eq_true, beq_iff_eq, List.all_eq_true] at hmatch
    rw [← List.take_append_drop word.length cs, hmatch.1]
    refine spellsIdentifier_append (hwords word hword) (List.all_eq_true.mpr fun c hc => ?_)
    exact continuesIdentifier_of_isDigit (hmatch.2 c hc)

theorem spellsIdentifier_of_isMeaningless (h : isMeaningless name = true) :
    spellsIdentifier name.toList = true := by
  simp only [isMeaningless, Bool.or_eq_true] at h
  rcases h with (h | h) | h
  · cases hcs : name.toList with
    | nil => simp [hcs, isNumberedLetter] at h
    | cons c rest =>
      simp only [hcs, isNumberedLetter, Bool.and_eq_true, List.all_eq_true] at h
      simp only [spellsIdentifier, Bool.and_eq_true, List.all_eq_true]
      exact ⟨startsIdentifier_of_isPlainStart h.1, fun d hd =>
        continuesIdentifier_of_isDigit (h.2 d hd)⟩
  · exact spellsIdentifier_of_isNumberedWord h
  · unfold isConfusable at h
    split at h
    · next c d rest hcs =>
        simp only [Bool.and_eq_true, List.all_eq_true] at h
        rw [hcs]
        simp only [spellsIdentifier, Bool.and_eq_true, List.all_eq_true]
        exact ⟨startsIdentifier_of_isLookalikeStart h.1, fun e he =>
          continuesIdentifier_of_isLookalike (h.2 e he)⟩
    · cases h

/-- No keyword is a name without meaning but the underscore. -/
theorem isIdentifier_of_isMeaningless (h : isMeaningless name = true) (hne : name ≠ "_") :
    isIdentifier name = true := by
  have hkeywords : ∀ k ∈ keywords, isMeaningless k = true → k = "_" := by decide
  have hkeyword : isKeyword name = false := by
    rw [isKeyword, List.contains_eq_mem, decide_eq_false_iff_not]
    exact fun hmem => hne (hkeywords name hmem h)
  rw [isIdentifier_eq, spellsIdentifier_of_isMeaningless h, hkeyword]
  rfl

/-! ## Without work for the policy -/

namespace Symbols

theorem suggest_eq_none (policy : NamingPolicy) (taken : List String) {s : Symbol}
    (h : s.kind.isVariable = true → isMeaningless s.declaredName = false) :
    policy.suggest taken s = none := by
  cases policy with
  | preserve => rfl
  | typeDerived =>
    unfold NamingPolicy.suggest
    cases hkind : s.kind.isVariable with
    | false => simp
    | true => simp [h hkind]

theorem nameByPolicy_eq_self (policy : NamingPolicy) (taken : List String) {symbols : List Symbol}
    (h : ∀ s ∈ symbols, s.chosenName = none → s.kind.isVariable = true →
      isMeaningless s.declaredName = false) : nameByPolicy policy taken symbols = symbols := by
  induction symbols with
  | nil => rfl
  | cons s symbols ih =>
    have hnone : (if s.chosenName.isSome then none else policy.suggest taken s) = none := by
      split
      · rfl
      · next hchosen =>
          exact suggest_eq_none policy taken (h s (List.mem_cons_self ..) (by simpa using hchosen))
    rw [nameByPolicy, hnone, ih fun s' hs' => h s' (List.mem_cons_of_mem _ hs')]

/-- Where the dictionary names every variable without a meaning, the policy does not matter. -/
theorem ofUnit_eq_preserve (d : Dictionary) (policy : NamingPolicy) {c : BindingInput}
    (h : ∀ id s, (found c).symbol? id = some s → s.kind.isVariable = true →
      isMeaningless s.declaredName = true → (d.lookup? s.key).isSome = true) :
    ofUnit d policy c = ofUnit d .preserve c := by
  have hsame : chooseNames d policy ((namePlaces c.unit).map c.unit.text) (found c).symbols.toList
      = chooseNames d .preserve ((namePlaces c.unit).map c.unit.text) (found c).symbols.toList := by
    rw [chooseNames_preserve]
    refine nameByPolicy_eq_self policy _ fun s' hs' hchosen hkind => ?_
    obtain ⟨s, hs, rfl⟩ := List.mem_map.mp hs'
    obtain ⟨id, hid⟩ := List.getElem?_of_mem hs
    unfold nameByDictionary at hchosen hkind ⊢
    split at hchosen
    · cases hchosen
    · next hlookup =>
        rw [hlookup] at hkind
        rw [Bool.eq_false_iff]
        intro hmeaningless
        have hnamed := h id s (by simpa [symbol?] using hid) hkind hmeaningless
        simp [hlookup] at hnamed
  unfold ofUnit
  exact congrArg (fun symbols => { found c with symbols := symbols.toArray }) hsame

end Symbols

end Legible
