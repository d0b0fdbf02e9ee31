import Legible.Layout.Token
import Legible.Proofs.Naming.Policy

/-!
# Names from the policy are fresh

The policy names one symbol after the other, and a name once given is taken for the symbols that
follow. So a name from the policy occurs nowhere in the unit, is none that the dictionary may hand
out, and is given to one symbol only. Whatever is written like it therefore refers to that symbol
(`policy_names_fresh`).
-/

namespace Legible

variable {taken : List String} {name : String} {policy : NamingPolicy} {s : Symbol}

/-! ## Free names -/

namespace Naming

/-- The search ends at the first candidate that is not taken. -/
theorem exists_of_searchFree {base : String} {tries k : Nat}
    (h : searchFree taken base tries k = some name) :
    ∃ j, name = candidate base (k + j) ∧ name ∉ taken ∧ ∀ i < j, candidate base (k + i) ∈ taken := by
  induction tries generalizing k with
  | zero => cases h
  | succ tries ih =>
    unfold searchFree at h
    split at h
    · next htaken =>
        obtain ⟨j, rfl, hfree, hbefore⟩ := ih h
        refine ⟨j + 1, by rw [Nat.add_right_comm, Nat.add_assoc], hfree, fun i hi => ?_⟩
        cases i with
        | zero => simpa using htaken
        | succ i =>
          rw [← Nat.add_assoc, Nat.add_right_comm]
          exact hbefore i (Nat.lt_of_succ_lt_succ hi)
    · next hfree =>
        cases h
        exact ⟨0, rfl, by simpa using hfree, fun i hi => absurd hi (Nat.not_lt_zero i)⟩

end Naming

/-- A suggested name is the first candidate for the declared type that is not taken. -/
theorem NamingPolicy.exists_candidate_of_suggest (h : policy.suggest taken s = some name) :
    ∃ type base k, s.declaredType = some type ∧ Naming.baseName type = some base
      ∧ name = Naming.candidate base k ∧ name ∉ taken
      ∧ ∀ j < k, Naming.candidate base j ∈ taken := by
  cases policy with
  | preserve => cases h
  | typeDerived =>
    simp only [NamingPolicy.suggest] at h
    split at h
    · cases h
    · obtain ⟨base, hbase, hfree⟩ := Option.bind_eq_some_iff.mp h
      obtain ⟨type, htype, hbase⟩ := Option.bind_eq_some_iff.mp hbase
      obtain ⟨k, hname, hfree, hbefore⟩ := Naming.exists_of_searchFree hfree
      simp only [Nat.zero_add] at hname hbefore
      exact ⟨type, base, k, htype, hbase, hname, hfree, hbefore⟩

theorem NamingPolicy.notMem_of_suggest (h : policy.suggest taken s = some name) : name ∉ taken := by
  obtain ⟨_, _, _, -, -, -, hname, -⟩ := exists_candidate_of_suggest h
  exact hname

theorem Dictionary.mem_names_of_lookup? {d : Dictionary} {key : String}
    (h : d.lookup? key = some name) : name ∈ d.names := by
  obtain ⟨hjoin, -⟩ := Option.filter_eq_some_iff.mp h
  obtain hentry : d.entry? key = some (some name) := Option.join_eq_some_iff.mp hjoin
  rw [Dictionary.names, List.mem_append, List.mem_filterMap, List.mem_filterMap]
  rcases Option.or_eq_some_iff.mp hentry with hrecorded | ⟨-, hloaded⟩
  · exact .inr ⟨some name, mem_values_iff.mpr ⟨key, hrecorded⟩, rfl⟩
  · exact .inl ⟨some name, mem_values_iff.mpr ⟨key, hloaded⟩, rfl⟩

namespace Symbols

/-! ## Naming one symbol after the other -/

section NameByPolicy

variable {taken : List String} {symbols : List Symbol} {i : Nat} {s' : Symbol}

/-- What the first symbol is given is taken from then on. -/
theorem nameByPolicy_cons (policy : NamingPolicy) (taken : List String) (s : Symbol)
    (symbols : List Symbol) :
    nameByPolicy policy taken (s :: symbols)
      = { s with chosenName := s.chosenName.or (policy.suggest taken s) }
        :: nameByPolicy policy
          ((if s.chosenName.isSome then none else policy.suggest taken s).toList ++ taken)
          symbols := by
  rw [nameByPolicy]
  cases hchosen : s.chosenName with
  | some name => cases s; cases hchosen; rfl
  | none =>
    cases hgiven : policy.suggest taken s with
    | none => cases s; cases hchosen; simp
    | some name => simp

/-- A symbol keeps the name it has; one without gets what is suggested for it, when at least the
names taken from the start are taken. -/
theorem getElem?_nameByPolicy (h : (nameByPolicy policy taken symbols)[i]? = some s') :
    ∃ s taken', symbols[i]? = some s ∧ taken ⊆ taken'
      ∧ s' = { s with chosenName := s.chosenName.or (policy.suggest taken' s) } := by
  induction symbols generalizing taken i with
  | nil => cases h
  | cons head symbols ih =>
    rw [nameByPolicy_cons] at h
    cases i with
    | zero => exact ⟨head, taken, rfl, List.Subset.refl _, (Option.some.inj h).symm⟩
    | succ i =>
      obtain ⟨s, taken', hs, hsub, heq⟩ := ih h
      exact ⟨s, taken', hs, List.Subset.trans (List.subset_append_right ..) hsub, heq⟩

/-- A symbol without a name gets none that was taken from the start. -/
theorem notMem_of_nameByPolicy (hs : symbols[i]? = some s) (hnone : s.chosenName = none)
    (hs' : (nameByPolicy policy taken symbols)[i]? = some s') (hname : s'.chosenName = some name) :
    name ∉ taken := by
  obtain ⟨s₀, taken', hs₀, hsub, rfl⟩ := getElem?_nameByPolicy hs'
  cases hs.symm.trans hs₀
  simp only [hnone, Option.none_or] at hname
  exact fun hmem => NamingPolicy.notMem_of_suggest hname (hsub hmem)

/-- No two symbols that had no name get the same one. -/
theorem nameByPolicy_injective {j : Nat} {t t' : Symbol} (hs : symbols[i]? = some s)
    (ht : symbols[j]? = some t) (hsnone : s.chosenName = none) (htnone : t.chosenName = none)
    (hs' : (nameByPolicy policy taken symbols)[i]? = some s')
    (ht' : (nameByPolicy policy taken symbols)[j]? = some t') (hsname : s'.chosenName = some name)
    (htname : t'.chosenName = some name) : i = j := by
  induction symbols generalizing taken i j with
  | nil => cases hs
  | cons head symbols ih =>
    -- the name of the head is taken for the tail, so only two of the tail could share one
    have htail : ∀ {k : Nat} {u u' : Symbol}, symbols[k]? = some u → u.chosenName = none →
        (nameByPolicy policy (name :: taken) symbols)[k]? = some u' →
        u'.chosenName ≠ some name := fun hu hnone hu' hname =>
      notMem_of_nameByPolicy hu hnone hu' hname (List.mem_cons_self ..)
    rw [nameByPolicy_cons] at hs' ht'
    cases i <;> cases j
    case zero.zero => rfl
    case zero.succ =>
      cases hs
      cases hs'
      simp only [hsnone, Option.none_or] at hsname
      rw [List.getElem?_cons_succ] at ht ht'
      simp only [hsnone, hsname] at ht'
      exact absurd htname (htail ht htnone ht')
    case succ.zero =>
      cases ht
      cases ht'
      simp only [htnone, Option.none_or] at htname
      rw [List.getElem?_cons_succ] at hs hs'
      simp only [htnone, htname] at hs'
      exact absurd hsname (htail hs hsnone hs')
    case succ.succ => exact congrArg _ (ih hs ht hs' ht')

end NameByPolicy

/-! ## The names of a unit -/

/-- The symbol has its name from the policy: the dictionary has none for it. -/
def NamedByPolicy (t : Symbols) (d : Dictionary) (id : SymbolId) (name : String) : Prop :=
  ∃ s, t.symbol? id = some s ∧ d.lookup? s.key = none ∧ s.chosenName = some name

variable {d : Dictionary} {c : BindingInput} {id : SymbolId}

/-- A symbol of the unit before and after the policy named it. -/
theorem symbol?_ofUnit_cases (h : (ofUnit d policy c).symbol? id = some s) :
    ∃ s₀, s₀.key = s.key ∧ s₀.chosenName = d.lookup? s.key
      ∧ ((found c).symbols.toList.map (nameByDictionary d))[id]? = some s₀
      ∧ (nameByPolicy policy (d.names ++ (namePlaces c.unit).map c.unit.text)
          ((found c).symbols.toList.map (nameByDictionary d)))[id]? = some s := by
  have hkey := map_symbol?_ofUnit d policy c (f := (·.key)) (fun _ _ => rfl) id
  rw [h, Option.map_some] at hkey
  obtain ⟨s₀, hs₀, hsame⟩ := Option.map_eq_some_iff.mp hkey.symm
  have hlisted : (found c).symbols.toList[id]? = some s₀ := by simpa [symbol?] using hs₀
  refine ⟨nameByDictionary d s₀, (key_nameByDictionary d s₀).trans hsame, ?_, ?_, ?_⟩
  · rw [← hsame, nameByDictionary]
    split
    · next hlookup => exact hlookup.symm
    · next hlookup => exact (chosenName_found hs₀).trans hlookup.symm
  · rw [List.getElem?_map, hlisted, Option.map_some]
  · simpa [symbol?, symbols_ofUnit, chooseNames] using h

/-- A name that the policy gave is neither a name of the dictionary nor a text of the unit. -/
theorem NamedByPolicy.notMem (h : (ofUnit d policy c).NamedByPolicy d id name) :
    name ∉ d.names ++ (namePlaces c.unit).map c.unit.text := by
  obtain ⟨s, hs, hlookup, hname⟩ := h
  obtain ⟨s₀, -, hchosen, hbefore, hafter⟩ := symbol?_ofUnit_cases hs
  exact notMem_of_nameByPolicy hbefore (hchosen.trans hlookup) hafter hname

/-- The name of a symbol is the one from the dictionary, and where there is none the one that the
policy suggests. -/
theorem chosenName_ofUnit (h : (ofUnit d policy c).symbol? id = some s) :
    ∃ taken, s.chosenName = (d.lookup? s.key).or (policy.suggest taken s) := by
  obtain ⟨s₀, -, hchosen, hbefore, hafter⟩ := symbol?_ofUnit_cases h
  obtain ⟨s₁, taken, hs₁, -, rfl⟩ := getElem?_nameByPolicy hafter
  obtain rfl := Option.some.inj (hbefore.symm.trans hs₁)
  refine ⟨taken, ?_⟩
  rw [← hchosen]
  rfl

/-- The policy gives a name to one symbol only. -/
theorem NamedByPolicy.unique {id' : SymbolId} (h : (ofUnit d policy c).NamedByPolicy d id name)
    (h' : (ofUnit d policy c).NamedByPolicy d id' name) : id' = id := by
  obtain ⟨s, hs, hlookup, hname⟩ := h
  obtain ⟨t, ht, hlookup', hname'⟩ := h'
  obtain ⟨s₀, -, hchosen, hbefore, hafter⟩ := symbol?_ofUnit_cases hs
  obtain ⟨t₀, -, hchosen', hbefore', hafter'⟩ := symbol?_ofUnit_cases ht
  exact nameByPolicy_injective hbefore' hbefore (hchosen'.trans hlookup') (hchosen.trans hlookup)
    hafter' hafter hname' hname

/-- A name that a symbol has been given is from the dictionary or from the policy. -/
theorem mem_names_or_namedByPolicy (hs : (ofUnit d policy c).symbol? id = some s)
    (hname : s.chosenName = some name) :
    name ∈ d.names ∨ (ofUnit d policy c).NamedByPolicy d id name := by
  obtain ⟨taken, hchosen⟩ := chosenName_ofUnit hs
  cases hlookup : d.lookup? s.key with
  | none => exact .inr ⟨s, hs, hlookup, hname⟩
  | some given =>
    rw [hname, hlookup, Option.some_or] at hchosen
    exact .inl (Dictionary.mem_names_of_lookup? (hlookup.trans hchosen.symm))

end Symbols

open Symbols in
/-- A name that the policy gave a symbol is the text of no name of the unit, is no name of the
dictionary and is given to no other symbol; what is written like it refers to the symbol. -/
theorem policy_names_fresh (d : Dictionary) (policy : NamingPolicy) (c : BindingInput)
    (id : SymbolId) (name : String) (hnamed : (ofUnit d policy c).NamedByPolicy d id name) :
    (∀ p ∈ namePlaces c.unit, c.unit.text p ≠ name)
      ∧ name ∉ d.names
      ∧ (∀ id', (ofUnit d policy c).NamedByPolicy d id' name → id' = id)
      ∧ ∀ p ∈ namePlaces c.unit,
        Layout.writtenText c.unit (ofUnit d policy c) d p = name →
        (ofUnit d policy c).resolution? p = some (.symbol id) := by
  have hfresh := hnamed.notMem
  rw [List.mem_append, not_or] at hfresh
  have htext : ∀ p ∈ namePlaces c.unit, c.unit.text p ≠ name := fun p hp heq =>
    hfresh.2 (List.mem_map.mpr ⟨p, hp, heq⟩)
  refine ⟨htext, hfresh.1, fun id' => hnamed.unique, fun p hp hwritten => ?_⟩
  have hname : p.node.isName = true := (List.mem_filter.mp hp).2
  rw [Layout.writtenText, if_pos hname] at hwritten
  -- the text is not the name, so there is a replacement, and it is no name of the dictionary
  cases hreplacement : (ofUnit d policy c).replacement? d p with
  | none =>
    rw [hreplacement] at hwritten
    exact absurd hwritten (htext p hp)
  | some written =>
    rw [hreplacement, Option.getD_some] at hwritten
    subst hwritten
    unfold replacement? at hreplacement
    split at hreplacement
    · next id' hresolution =>
        obtain ⟨s, hs, hrenamed⟩ := Option.bind_eq_some_iff.mp hreplacement
        obtain ⟨chosen, hchosen⟩ : ∃ chosen, s.chosenName = some chosen := by
          cases hchosen : s.chosenName with
          | none => simp [Symbol.isRenamed, hchosen] at hrenamed
          | some chosen => exact ⟨chosen, rfl⟩
        have hdisplay : chosen = written := by
          simp only [Symbol.displayName, hchosen, Option.getD_some] at hrenamed
          split at hrenamed
          · exact Option.some.inj hrenamed
          · cases hrenamed
        subst hdisplay
        rcases mem_names_or_namedByPolicy hs hchosen with hmem | hnamed'
        · exact absurd hmem hfresh.1
        · rw [hresolution, hnamed.unique hnamed']
    · exact absurd (Dictionary.mem_names_of_lookup? hreplacement) hfresh.1
    · cases hreplacement

open Symbols in
/-- The parameter of the constructor is called after its type; the two names written so are its
declaration and its use. -/
theorem policy_names_fresh_box :
    let c : BindingInput := ⟨Sample.box, 0, Index.build [Sample.box]⟩
    let t := ofUnit .empty .typeDerived c
    t.NamedByPolicy .empty 2 "num"
      ∧ ((namePlaces c.unit).filter fun p =>
          Layout.writtenText c.unit t .empty p == "num").map Place.number = [19, 27]
      ∧ (∀ p ∈ namePlaces c.unit, c.unit.text p ≠ "num")
      ∧ "num" ∉ Dictionary.empty.names
      ∧ (∀ id', t.NamedByPolicy .empty id' "num" → id' = 2)
      ∧ ∀ p ∈ namePlaces c.unit, Layout.writtenText c.unit t .empty p = "num" →
        t.resolution? p = some (.symbol 2) := by
  intro c t
  have hnamed : t.NamedByPolicy .empty 2 "num" :=
    ⟨⟨"Box.<init>(int).p(param)", .parameter, "p", some "num", some "int"⟩, by decide +kernel,
      rfl, rfl⟩
  exact ⟨hnamed, by decide +kernel, policy_names_fresh .empty .typeDerived c 2 "num" hnamed⟩

end Legible
