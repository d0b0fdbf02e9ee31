import Legible.Proofs.Naming.Legality

/-!
# Which derived names have a meaning

A second run over its own output looks at the names that the first one gave. It leaves alone those
that have a meaning and derives a new name for the others. A mark behind the word always makes a
meaning (`Derivation.isMeaningless_eq`); a word without one is as good as its letters, and of the
stock words, which say nothing with a number behind them, one is itself a word for a type.
-/

namespace Legible

/-! ## Numbers behind a name -/

section Numbers

variable {cs ds : List Char}

theorem isNumberedLetter_append (hcs : cs ≠ []) :
    isNumberedLetter (cs ++ ds) = (isNumberedLetter cs && ds.all Char.isDigit) := by
  cases cs with
  | nil => exact absurd rfl hcs
  | cons c cs => simp [isNumberedLetter, Bool.and_assoc]

theorem isNumberedWord_iff : isNumberedWord cs = true
    ↔ ∃ word ∈ stockWords, ∃ digits, digits ≠ [] ∧ cs = word.toList ++ digits
      ∧ digits.all Char.isDigit = true := by
  rw [isNumberedWord, List.any_eq_true]
  refine exists_congr fun word => and_congr_right fun hword => ?_
  rw [← String.length_toList]
  constructor
  · intro h
    split at h
    · cases h
    · next hne =>
        simp only [Bool.and_eq_true, beq_iff_eq] at h
        refine ⟨cs.drop word.toList.length, hne, ?_, h.2⟩
        calc cs = cs.take word.toList.length ++ cs.drop word.toList.length :=
              (List.take_append_drop _ _).symm
          _ = word.toList ++ cs.drop word.toList.length := by rw [h.1]
  · rintro ⟨digits, hne, rfl, hall⟩
    rw [List.drop_left, List.take_left]
    split
    · exact absurd rfl hne
    · simpa using hall

/-- A number behind a name makes a numbered word out of a numbered word or out of the bare word. -/
theorem isNumberedWord_append {base : String} (hds : ds ≠ [])
    (hdigits : ds.all Char.isDigit = true) :
    isNumberedWord (base.toList ++ ds) = (isNumberedWord base.toList || stockWords.contains base) := by
  have hwords : ∀ word ∈ stockWords, word.toList.any Char.isDigit = false := by decide
  rw [List.all_eq_true] at hdigits
  rw [Bool.eq_iff_iff, Bool.or_eq_true, isNumberedWord_iff, isNumberedWord_iff,
    List.contains_iff_mem]
  constructor
  · rintro ⟨word, hword, digits, hne, heq, hall⟩
    rcases List.append_eq_append_iff.mp heq with ⟨mid, hmid, hds'⟩ | ⟨mid, hmid, rfl⟩
    · -- the word has no digits, so it ends where the number starts
      cases mid with
      | nil =>
        rw [List.append_nil] at hmid
        exact .inr (String.toList_inj.mp hmid ▸ hword)
      | cons c mid =>
        have hdigit := hdigits c (hds' ▸ List.mem_append_left _ List.mem_cons_self)
        exact absurd hdigit (List.any_eq_false.mp (hwords word hword) c (by simp [hmid]))
    · cases mid with
      | nil =>
        rw [List.append_nil] at hmid
        exact .inr (String.toList_inj.mp hmid ▸ hword)
      | cons c mid =>
        rw [List.all_append, Bool.and_eq_true] at hall
        exact .inl ⟨word, hword, c :: mid, List.cons_ne_nil _ _, hmid, hall.1⟩
  · rintro (⟨word, hword, digits, hne, heq, hall⟩ | hword)
    · refine ⟨word, hword, digits ++ ds, by simp [hne], by rw [heq, List.append_assoc], ?_⟩
      rw [List.all_append, hall, Bool.true_and, List.all_eq_true]
      exact hdigits
    · exact ⟨base, hword, ds, hds, rfl, List.all_eq_true.mpr hdigits⟩

theorem isConfusable_append (hcs : isNumberedLetter cs = false) (hne : cs ≠ []) :
    isConfusable (cs ++ ds) = (isConfusable cs && ds.all isLookalike) := by
  have hstart : ∀ c, isLookalikeStart c = true → isPlainStart c = true := by
    intro c h
    simp only [isLookalikeStart, Bool.or_eq_true, beq_iff_eq] at h
    rcases h with (((rfl | rfl) | rfl) | rfl) | rfl <;> decide
  rcases cs with _ | ⟨c, _ | ⟨d, cs⟩⟩
  · exact absurd rfl hne
  · -- a single lookalike would be a letter
    have hc : isLookalikeStart c = false := by
      rw [Bool.eq_false_iff]
      intro h
      simp [isNumberedLetter, hstart c h] at hcs
    cases ds <;> simp [isConfusable, hc]
  · simp [isConfusable, Bool.and_assoc]

end Numbers

namespace Naming

/-- Whether the word says nothing once it has its number: it said nothing before, but for
lookalikes with other digits than zeros and ones, or it is a stock word. -/
def isHollow (word : String) (number : Nat) : Bool :=
  if number = 0 then isMeaningless word
  else
    isNumberedLetter word.toList || isNumberedWord word.toList || stockWords.contains word
      || isConfusable word.toList && (toString (number + 1)).toList.all isLookalike

theorem isMeaningless_candidate {word : String} (hword : word ≠ "") (number : Nat) :
    isMeaningless (candidate word number) = isHollow word number := by
  have hne : word.toList ≠ [] := fun hnil => hword (String.toList_eq_nil_iff.mp hnil)
  unfold candidate isHollow
  split
  · rfl
  · have hdigits : (toString (number + 1)).toList.all Char.isDigit = true :=
      List.all_eq_true.mpr fun c => isDigit_of_mem_toString
    rw [isMeaningless, String.toList_append, isNumberedLetter_append hne, hdigits, Bool.and_true,
      isNumberedWord_append (toList_toString_ne_nil _) hdigits]
    cases hletter : isNumberedLetter word.toList with
    | true => simp
    | false => rw [isConfusable_append hletter hne, Bool.false_or, Bool.false_or]

/-- Behind a word a mark with a letter that is none of the lookalikes makes a meaning. -/
theorem isHollow_append_eq_false {word mark : String} (hword : word ≠ "") {c : Char}
    (hlast : mark.toList.getLast? = some c) (hc : c.isDigit = false ∧ isLookalike c = false)
    (hmark : ∀ stock ∈ stockWords, ¬ mark.toList <:+ stock.toList) (number : Nat) :
    isHollow (word ++ mark) number = false := by
  have hne : word.toList ≠ [] := fun hnil => hword (String.toList_eq_nil_iff.mp hnil)
  have hmem : c ∈ mark.toList := List.mem_of_getLast? hlast
  have hletter : isNumberedLetter (word.toList ++ mark.toList) = false := by
    rw [isNumberedLetter_append hne, Bool.and_eq_false_iff]
    exact .inr (List.all_eq_false.mpr ⟨c, hmem, by simp [hc.1]⟩)
  have hnumbered : isNumberedWord (word.toList ++ mark.toList) = false := by
    rw [Bool.eq_false_iff, ne_eq, isNumberedWord_iff]
    rintro ⟨stock, -, digits, hdigits, heq, hall⟩
    have hend : digits.getLast? = some c := by
      have hends := congrArg List.getLast? heq
      rw [List.getLast?_append, List.getLast?_append, hlast, Option.some_or] at hends
      rw [List.getLast?_eq_some_getLast hdigits, Option.some_or] at hends
      rw [List.getLast?_eq_some_getLast hdigits, ← hends]
    cases hc.1.symm.trans (List.all_eq_true.mp hall c (List.mem_of_getLast? hend))
  have hconfusable : isConfusable (word.toList ++ mark.toList) = false := by
    rcases hcs : word.toList ++ mark.toList with _ | ⟨e, _ | ⟨f, rest⟩⟩
    · rfl
    · rfl
    · obtain ⟨front, hfront⟩ := List.exists_cons_of_ne_nil hne
      obtain ⟨tail, hfront⟩ := hfront
      rw [hfront, List.cons_append] at hcs
      have htail := (List.cons.inj hcs).2
      rw [isConfusable, Bool.and_eq_false_iff, ← htail]
      exact .inr (List.all_eq_false.mpr ⟨c, List.mem_append_right _ hmem, by simp [hc.2]⟩)
  have hstock : stockWords.contains (word ++ mark) = false := by
    rw [List.contains_eq_mem, decide_eq_false_iff_not]
    intro hstock
    refine hmark _ hstock ?_
    rw [String.toList_append]
    exact List.suffix_append _ _
  unfold isHollow
  split
  · rw [isMeaningless, String.toList_append, hletter, hnumbered, hconfusable]
    rfl
  · rw [String.toList_append, hletter, hnumbered, hconfusable, hstock]
    rfl

/-- A derived name says nothing if it is made of a hollow word without a mark. -/
theorem Derivation.isMeaningless_iff {type : String} (e : Derivation type) :
    isMeaningless e.name = true ↔ e.mark = "" ∧ isHollow e.word e.number = true := by
  have hword := wordFor_ne_empty e.wordFor
  have hstem : e.word ++ e.mark ≠ "" := fun heq => hword (String.append_eq_empty_iff.mp heq).1
  rw [name, isMeaningless_candidate hstem]
  have hmark := e.mark_mem
  simp only [marks, List.mem_cons, List.not_mem_nil, or_false] at hmark
  rcases hmark with hmark | hmark | hmark
  · simp [hmark]
  · rw [hmark, isHollow_append_eq_false (c := 'y') hword (by decide) (by decide) (by decide)]
    simp
  · rw [hmark, isHollow_append_eq_false (c := 'e') hword (by decide) (by decide) (by decide)]
    simp

end Naming

open Symbols in
/-- A suggested name says nothing just where it is a hollow word without a mark, and where it does
not, a variable of that name is given another one, if there is a word for its type. -/
theorem suggested_name_meaningless_iff (policy : NamingPolicy) (taken : List String) (s : Symbol)
    (name : String) (h : policy.suggest taken s = some name) :
    (∃ type, s.declaredType = some type ∧ ∃ e : Naming.Derivation type, e.name = name
      ∧ (isMeaningless name = true ↔ e.mark = "" ∧ Naming.isHollow e.word e.number = true))
    ∧ ∀ d c id s', (ofUnit d policy c).symbol? id = some s' → s'.kind.isVariable = true →
      s'.declaredName = name → d.lookup? s'.key = none →
      (s'.chosenName.isSome = true
        ↔ isMeaningless name = true
          ∧ ((s'.declaredType.map Naming.simpleType).bind Naming.wordFor).isSome = true) := by
  obtain ⟨type, htype, e, rfl⟩ := NamingPolicy.exists_derivation_of_suggest h
  refine ⟨⟨type, htype, e, rfl, e.isMeaningless_iff⟩, fun d c id s' hs' hkind hname hlookup => ?_⟩
  obtain ⟨taken', hchosen⟩ := chosenName_ofUnit hs'
  have hpolicy : policy = .typeDerived := by
    cases policy with
    | preserve => cases h
    | typeDerived => rfl
  rw [hchosen, hlookup, Option.none_or, hpolicy, NamingPolicy.isSome_suggest_iff hkind, hname]

/-- Two parameters without a meaning and of a type whose word is a stock word. -/
def Sample.objects (first second : String) : SourceUnit :=
  let a := first.utf8ByteSize
  let b := a + second.utf8ByteSize
  { path := "A.java"
    source := "class A\x7bvoid f(Object " ++ first ++ ",Object " ++ second ++ ")\x7b\x7d\x7d"
    root := open Sample in
      node 0 "program" 0 (34 + b) none [
        node 1 "class_declaration" 0 (34 + b) none [mark 2 "class" 0 5, name 3 6 7 "name",
          node 4 "class_body" 7 (34 + b) (some "body") [mark 5 "\x7b" 7 8,
            node 6 "method_declaration" 8 (33 + b) none [
              node 7 "void_type" 8 12 (some "type") [], name 8 13 14 "name",
              node 9 "formal_parameters" 14 (31 + b) (some "parameters") [mark 10 "(" 14 15,
                node 11 "formal_parameter" 15 (22 + a) none [
                  node 12 "type_identifier" 15 21 (some "type") [], name 13 22 (22 + a) "name"],
                mark 14 "," (22 + a) (23 + a),
                node 15 "formal_parameter" (23 + a) (30 + b) none [
                  node 16 "type_identifier" (23 + a) (29 + a) (some "type") [],
                  name 17 (30 + a) (30 + b) "name"],
                mark 18 ")" (30 + b) (31 + b)],
              node 19 "block" (31 + b) (33 + b) (some "body") [
                mark 20 "\x7b" (31 + b) (32 + b), mark 21 "\x7d" (32 + b) (33 + b)]],
            mark 22 "\x7d" (33 + b) (34 + b)]]] }

open Symbols in
/-- The first parameter has a name that the second run leaves alone. -/
theorem suggested_name_kept :
    let s : Symbol :=
      { key := "A.f(Object,Object).a(param)", kind := .parameter, declaredName := "a",
        declaredType := some "Object" }
    let u := Sample.objects "obj" "obj2"
    let c : BindingInput := ⟨u, 0, Index.build [u]⟩
    NamingPolicy.typeDerived.suggest [] s = some "obj"
      ∧ ∃ s', (ofUnit .empty .typeDerived c).symbol? 2 = some s' ∧ s'.kind.isVariable = true
        ∧ s'.declaredName = "obj" ∧ s'.chosenName = none := by
  intro s u c
  have hsuggest : NamingPolicy.typeDerived.suggest [] s = some "obj" := by decide +kernel
  obtain ⟨s', hs', hkind, hname⟩ : ∃ s' ∈ (ofUnit .empty .typeDerived c).symbol? 2,
      s'.kind.isVariable = true ∧ s'.declaredName = "obj" := by
    decide +kernel
  refine ⟨hsuggest, s', hs', hkind, hname, ?_⟩
  have hsecond := (suggested_name_meaningless_iff .typeDerived [] s "obj" hsuggest).2 .empty c 2 s'
    hs' hkind hname rfl
  have hmeaning : isMeaningless "obj" = false := by decide
  rw [hmeaning, Option.isSome_iff_ne_none] at hsecond
  simpa using hsecond

/-- What the variables of the unit are called, and what they shall be called. -/
def Sample.variableNames (u : SourceUnit) : List (String × Option String) :=
  (((Symbols.ofUnit .empty .typeDerived ⟨u, 0, Index.build [u]⟩).symbols.toList).filter
    (·.kind.isVariable)).map fun s => (s.declaredName, s.chosenName)

/-- The second parameter is given a name without a meaning, and another one on the second run. -/
theorem stock_word_named_again :
    Sample.variableNames (Sample.objects "a" "b") = [("a", some "obj"), ("b", some "obj2")]
      ∧ isMeaningless "obj2" = true
      ∧ Sample.variableNames (Sample.objects "obj" "obj2")
        = [("obj", none), ("obj2", some "obj3")] := by
  decide +kernel

end Legible
