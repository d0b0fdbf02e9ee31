import Legible.Proofs.Naming.Candidates
import Legible.Proofs.Survey.Recorded
import Legible.Proofs.Text.LetterCase

/-!
# Which replacements are identifiers

What a dictionary hands out is an identifier, but a name derived from a type is one only if the
word for the type is: marks and numbers do no harm, and nothing derived is a keyword
(`Derivation.isIdentifier_eq`). The word for a type that is spelled like an identifier is spelled
like one too, with one exception: the capital I with a dot above has a mark in lower case.
-/

namespace Legible

variable {cs : List Char}

/-! ## Lower case in identifiers -/

section Characters

variable {c d : Char}

theorem startsIdentifier_of_mem_lowercase (h : startsIdentifier c = true) (hne : c ≠ 'İ')
    (hd : d ∈ Text.lowercase c) : startsIdentifier d = true := by
  have hunderscore : Text.lowercase '_' = ['_'] := by decide +kernel
  have hdollar : Text.lowercase '$' = ['$'] := by decide +kernel
  simp only [startsIdentifier, Bool.or_eq_true, beq_iff_eq] at h ⊢
  rcases h with (h | rfl) | rfl
  · have hcode : c.toNat ≠ 0x130 := fun heq => hne (Char.toNat_inj.mp heq)
    exact .inl (.inl (Text.kept_letterRanges.contains_lowercase h hcode hd))
  · rw [hunderscore, List.mem_singleton] at hd
    exact .inl (.inr hd)
  · rw [hdollar, List.mem_singleton] at hd
    exact .inr hd

theorem continuesIdentifier_of_mem_lowercase (h : continuesIdentifier c = true) (hne : c ≠ 'İ')
    (hd : d ∈ Text.lowercase c) : continuesIdentifier d = true := by
  rw [continuesIdentifier, Bool.or_eq_true] at h ⊢
  rcases h with h | h
  · exact .inl (startsIdentifier_of_mem_lowercase h hne hd)
  · have hcode : c.toNat ≠ 0x130 := fun heq => hne (Char.toNat_inj.mp heq)
    exact .inr (Text.kept_numeralRanges.contains_lowercase h hcode hd)

end Characters

theorem spellsIdentifier_append_eq {ds : List Char} (hcs : cs ≠ [])
    (hds : ds.all continuesIdentifier = true) :
    spellsIdentifier (cs ++ ds) = spellsIdentifier cs := by
  cases cs with
  | nil => exact absurd rfl hcs
  | cons c cs => simp only [List.cons_append, spellsIdentifier, List.all_append, hds, Bool.and_true]

/-- An identifier stays one when its first characters turn to lower case. -/
theorem spellsIdentifier_lowered (h : spellsIdentifier cs = true) (hdot : 'İ' ∉ cs) (n : Nat) :
    spellsIdentifier ((cs.take n).flatMap Text.lowercase ++ cs.drop n) = true := by
  cases cs with
  | nil => cases h
  | cons c rest =>
    cases n with
    | zero => exact h
    | succ n =>
      simp only [spellsIdentifier, Bool.and_eq_true, List.all_eq_true] at h
      obtain ⟨hc, hrest⟩ := h
      obtain ⟨hne, hdot⟩ := not_or.mp (mt List.mem_cons.mpr hdot)
      have hlower : ∀ d ∈ Text.lowercase c, startsIdentifier d = true := fun d =>
        startsIdentifier_of_mem_lowercase hc (Ne.symm hne)
      have htail : ((rest.take n).flatMap Text.lowercase ++ rest.drop n).all
          continuesIdentifier = true := by
        rw [List.all_eq_true]
        intro d hd
        rcases List.mem_append.mp hd with hd | hd
        · obtain ⟨e, he, hd⟩ := List.mem_flatMap.mp hd
          have he := List.mem_of_mem_take he
          exact continuesIdentifier_of_mem_lowercase (hrest e he) (fun heq => hdot (heq ▸ he)) hd
        · exact hrest d (List.mem_of_mem_drop hd)
      rw [List.take_succ_cons, List.drop_succ_cons, List.flatMap_cons, List.append_assoc,
        spellsIdentifier_append_eq (Text.lowercase_ne_nil c) htail]
      cases hcs : Text.lowercase c with
      | nil => exact absurd hcs (Text.lowercase_ne_nil c)
      | cons d ds =>
        rw [hcs] at hlower
        simp only [spellsIdentifier, Bool.and_eq_true, List.all_eq_true]
        refine ⟨hlower d List.mem_cons_self, fun e he => ?_⟩
        rw [continuesIdentifier, hlower e (List.mem_cons_of_mem _ he), Bool.true_or]

/-! ## Words for types -/

namespace Naming

variable {type : String}

/-- Whether the word for the type, if there is one, is spelled like an identifier. -/
def isSpeakable (type : String) : Bool :=
  (wordFor (simpleType type)).all fun word => spellsIdentifier word.toList

theorem lowerCamel_ne_empty (h : type ≠ "") : lowerCamel type ≠ "" := by
  have hlower : ∀ {cs : List Char} (n : Nat), cs ≠ [] →
      (cs.take n).flatMap Text.lowercase ++ cs.drop n ≠ [] := by
    intro cs n hcs
    cases cs with
    | nil => exact absurd rfl hcs
    | cons c cs =>
      cases n with
      | zero => exact hcs
      | succ n => simp [Text.lowercase_ne_nil]
  intro heq
  rw [lowerCamel, String.ofList_eq_empty_iff] at heq
  exact hlower _ (fun hnil => h (String.toList_eq_nil_iff.mp hnil)) heq

theorem wordFor_ne_empty {word : String} (h : wordFor type = some word) : word ≠ "" := by
  unfold wordFor at h
  split at h
  case h_14 =>
    split at h
    · cases h
    · cases h
      exact lowerCamel_ne_empty ‹_›
  all_goals cases h
  all_goals decide

/-- Of the types that are spelled like identifiers only those with a dotted capital I are not
speakable. -/
theorem isSpeakable_of_spellsIdentifier (h : spellsIdentifier (simpleType type).toList = true)
    (hdot : 'İ' ∉ (simpleType type).toList) : isSpeakable type = true := by
  unfold isSpeakable wordFor
  split
  case h_14 =>
    split
    · rfl
    · rw [Option.all_some, lowerCamel, String.toList_ofList]
      exact spellsIdentifier_lowered h hdot _
  all_goals decide

namespace Derivation

/-- What stands behind the word. -/
def tail (e : Derivation type) : String :=
  e.mark ++ if e.number = 0 then "" else toString (e.number + 1)

theorem name_eq (e : Derivation type) : e.name = e.word ++ e.tail := by
  rw [name, candidate, tail]
  split <;> simp [String.append_assoc]

theorem continuesIdentifier_tail (e : Derivation type) :
    e.tail.toList.all continuesIdentifier = true := by
  have hmarks : ∀ mark ∈ marks, mark.toList.all continuesIdentifier = true := by decide
  rw [tail, String.toList_append, List.all_append, hmarks e.mark e.mark_mem, Bool.true_and,
    List.all_eq_true]
  intro c hc
  split at hc
  · cases hc
  · exact continuesIdentifier_of_isDigit (isDigit_of_mem_toString hc)

theorem isKeyword_eq_false (e : Derivation type) : isKeyword e.name = false := by
  have hdigits : ∀ k ∈ keywords, (k.toList.any Char.isDigit) = false := by decide
  rw [name, candidate]
  split
  · exact e.isKeyword_stem
  · refine isKeyword_append_eq_false _ (fun k hk hsuffix => ?_) _
    obtain ⟨c, hmem⟩ := List.exists_mem_of_ne_nil _ (toList_toString_ne_nil (e.number + 1))
    exact List.any_eq_false.mp (hdigits k hk) c (hsuffix.subset hmem) (isDigit_of_mem_toString hmem)

theorem isIdentifier_eq (e : Derivation type) : isIdentifier e.name = isSpeakable type := by
  have hword : e.word.toList ≠ [] := fun hnil =>
    wordFor_ne_empty e.wordFor (String.toList_eq_nil_iff.mp hnil)
  rw [Legible.isIdentifier_eq, e.isKeyword_eq_false, isSpeakable, e.wordFor, Option.all_some,
    Bool.not_false, Bool.and_true, e.name_eq, String.toList_append,
    spellsIdentifier_append_eq hword e.continuesIdentifier_tail]

end Derivation

end Naming

/-! ## Replacements -/

namespace Symbols

variable {d : Dictionary} {policy : NamingPolicy} {c : BindingInput} {p : Place} {name : String}

/-- The name at `p` refers to a symbol that the dictionary does not name and whose type, in lower
case, is no identifier. -/
def IsUnspeakable (t : Symbols) (d : Dictionary) (p : Place) : Prop :=
  ∃ id s type, t.resolution? p = some (.symbol id) ∧ t.symbol? id = some s
    ∧ d.lookup? s.key = none ∧ s.declaredType = some type ∧ Naming.isSpeakable type = false

theorem chosenName_of_isRenamed {s : Symbol}
    (h : (if s.isRenamed = true then some s.displayName else none) = some name) :
    s.chosenName = some name := by
  split at h
  · next hrenamed =>
      cases hchosen : s.chosenName with
      | none => simp [Symbol.isRenamed, hchosen] at hrenamed
      | some chosen => simpa [Symbol.displayName, hchosen] using h
  · cases h

end Symbols

open Symbols in
/-- A replacement is an identifier unless it is derived from a type whose word is none, and the word
for a type spelled like an identifier is none only where the type has a dotted capital I. -/
theorem replacement_isIdentifier_iff (d : Dictionary) (policy : NamingPolicy) (c : BindingInput)
    (p : Place) (name : String) (h : (ofUnit d policy c).replacement? d p = some name) :
    (isIdentifier name = true ↔ ¬ (ofUnit d policy c).IsUnspeakable d p)
      ∧ ∀ type, spellsIdentifier (Naming.simpleType type).toList = true →
        'İ' ∉ (Naming.simpleType type).toList → Naming.isSpeakable type = true := by
  refine ⟨?_, fun type => Naming.isSpeakable_of_spellsIdentifier⟩
  unfold replacement? at h
  split at h
  · next id hresolution =>
      obtain ⟨s, hs, hrenamed⟩ := Option.bind_eq_some_iff.mp h
      have hname := chosenName_of_isRenamed hrenamed
      obtain ⟨taken, hchosen⟩ := chosenName_ofUnit hs
      rw [hname] at hchosen
      cases hlookup : d.lookup? s.key with
      | some given =>
        rw [hlookup, Option.some_or] at hchosen
        refine iff_of_true (Dictionary.isIdentifier_of_lookup? (hlookup.trans hchosen.symm)) ?_
        rintro ⟨id', s', type, hres, hs', hnone, -⟩
        cases hresolution.symm.trans hres
        cases hs.symm.trans hs'
        cases hlookup.symm.trans hnone
      | none =>
        rw [hlookup, Option.none_or] at hchosen
        obtain ⟨type, htype, e, rfl⟩ := NamingPolicy.exists_derivation_of_suggest hchosen.symm
        rw [e.isIdentifier_eq]
        constructor
        · rintro hspeakable ⟨id', s', type', hres, hs', -, htype', hnot⟩
          cases hresolution.symm.trans hres
          cases hs.symm.trans hs'
          cases htype.symm.trans htype'
          cases hspeakable.symm.trans hnot
        · intro hnot
          by_contra hspeakable
          exact hnot ⟨id, s, type, hresolution, hs, hlookup, htype,
            Bool.eq_false_iff.mpr hspeakable⟩
  · next hresolution =>
      refine iff_of_true (Dictionary.isIdentifier_of_lookup? h) ?_
      rintro ⟨id, s, type, hres, -⟩
      cases hresolution.symm.trans hres
  · cases h

/-- A method whose parameters are called something without meaning. -/
def Sample.dottedCapital : SourceUnit where
  path := "A.java"
  source := "class A\x7bvoid f(İ a,Reader b)\x7b\x7d\x7d"
  root := open Sample in
    node 0 "program" 0 32 none [
     node 1 "class_declaration" 0 32 none [mark 2 "class" 0 5, name 3 6 7 "name",
      node 4 "class_body" 7 32 (some "body") [mark 5 "\x7b" 7 8,
       node 6 "method_declaration" 8 31 none [node 7 "void_type" 8 12 (some "type") [],
        name 8 13 14 "name",
        node 9 "formal_parameters" 14 29 (some "parameters") [mark 10 "(" 14 15,
         node 11 "formal_parameter" 15 19 none [node 12 "type_identifier" 15 17 (some "type") [],
          name 13 18 19 "name"], mark 14 "," 19 20,
         node 15 "formal_parameter" 20 28 none [node 16 "type_identifier" 20 26 (some "type") [],
          name 17 27 28 "name"], mark 18 ")" 28 29],
        node 19 "block" 29 31 (some "body") [mark 20 "\x7b" 29 30, mark 21 "\x7d" 30 31]],
       mark 22 "\x7d" 31 32]]]

open Symbols in
/-- The second parameter is called after its type, and can be. -/
theorem replacement_isIdentifier_reader :
    let c : BindingInput := ⟨Sample.dottedCapital, 0, Index.build [Sample.dottedCapital]⟩
    let t := ofUnit .empty .typeDerived c
    ∃ p ∈ namePlaces c.unit, t.replacement? .empty p = some "reader"
      ∧ isIdentifier "reader" = true ∧ ¬ t.IsUnspeakable .empty p := by
  intro c t
  obtain ⟨p, hp, hreplacement⟩ : ∃ p ∈ namePlaces c.unit,
      t.replacement? .empty p = some "reader" := by
    decide +kernel
  have hreader : isIdentifier "reader" = true := by decide +kernel
  exact ⟨p, hp, hreplacement, hreader,
    (replacement_isIdentifier_iff .empty .typeDerived c p "reader" hreplacement).1.mp hreader⟩

open Symbols in
/-- The first parameter is called after its type, and the name is no identifier. -/
theorem dotted_capital_replacement :
    let c : BindingInput := ⟨Sample.dottedCapital, 0, Index.build [Sample.dottedCapital]⟩
    c.unit.shapedOK = true
      ∧ (∃ p ∈ namePlaces c.unit, c.unit.text p = "a"
        ∧ (ofUnit .empty .typeDerived c).replacement? .empty p = some "i\u0307")
      ∧ isIdentifier "i\u0307" = false := by
  decide +kernel

end Legible
