import Legible.Binding.Names
import Legible.Proofs.Binding.Shares

/-!
# What the symbols of a unit are

The symbols of a unit come from one traversal, which knows neither dictionary nor policy. These
only choose names, so that what a name refers to, and by which key, does not depend on them
(`resolution?_ofUnit`, `keyOf?_ofUnit`). Under the policy that keeps every name, a symbol is called
what the dictionary says, or else as declared (`symbol?_ofUnit_preserve`).
-/

namespace Legible

open Binder

namespace Symbols

variable {t : Symbols} {p q : Place} {r : Resolution} {s : Symbol} {b : Binder}

/-! ## Resolutions -/

/-- The first resolution that a node gets stays. -/
theorem resolution?_resolve (t : Symbols) (p q : Place) (r : Resolution) :
    (t.resolve p r).resolution? q
      = if p.number = q.number ∧ t.resolution? p = none then some r else t.resolution? q := by
  simp only [resolution?, resolve, Std.TreeMap.getElem?_insertIfNew, Nat.compare_eq_eq,
    Std.TreeMap.mem_iff_isSome_getElem?, Option.not_isSome_iff_eq_none]
  exact if_congr Iff.rfl rfl rfl

theorem resolution?_resolve_of_eq_some (h : t.resolution? q = some r) (r' : Resolution) :
    (t.resolve p r').resolution? q = some r := by
  rw [resolution?_resolve, if_neg, h]
  rintro ⟨hnumber, hnone⟩
  rw [resolution?, hnumber] at hnone
  rw [resolution?, hnone] at h
  cases h

theorem resolution?_resolve_cases {r' : Resolution} (h : (t.resolve p r').resolution? q = some r) :
    t.resolution? q = some r ∨ p.number = q.number ∧ r = r' := by
  rw [resolution?_resolve] at h
  split at h
  · next hnew => exact .inr ⟨hnew.1, (Option.some.inj h).symm⟩
  · exact .inl h

theorem resolution?_keepUnresolved_of_eq_some (names : List Place) (h : t.resolution? p = some r) :
    (t.keepUnresolved names).resolution? p = some r := by
  unfold keepUnresolved
  induction names generalizing t with
  | nil => exact h
  | cons q names ih => exact ih (resolution?_resolve_of_eq_some h _)

theorem symbols_keepUnresolved (t : Symbols) (names : List Place) :
    (t.keepUnresolved names).symbols = t.symbols := by
  unfold keepUnresolved
  induction names generalizing t with
  | nil => rfl
  | cons q names ih => exact ih _

/-! ## Choosing names -/

theorem key_nameByDictionary (d : Dictionary) (s : Symbol) :
    (nameByDictionary d s).key = s.key := by
  unfold nameByDictionary
  split <;> rfl

theorem nameByPolicy_preserve (taken : List String) (symbols : List Symbol) :
    nameByPolicy .preserve taken symbols = symbols := by
  induction symbols with
  | nil => rfl
  | cons s symbols ih => simp [nameByPolicy, NamingPolicy.suggest, ih]

section Unchosen

-- what of a symbol does not depend on its chosen name
variable {α : Type} {f : Symbol → α} (hf : ∀ s name, f { s with chosenName := name } = f s)
include hf

theorem map_nameByPolicy (policy : NamingPolicy) (taken : List String) (symbols : List Symbol) :
    (nameByPolicy policy taken symbols).map f = symbols.map f := by
  induction symbols generalizing taken with
  | nil => rfl
  | cons s symbols ih =>
    unfold nameByPolicy
    split <;> simp [ih, hf]

/-- Nothing but names is chosen. -/
theorem map_chooseNames (d : Dictionary) (policy : NamingPolicy) (texts : List String)
    (symbols : List Symbol) : (chooseNames d policy texts symbols).map f = symbols.map f := by
  rw [chooseNames, map_nameByPolicy hf, List.map_map]
  refine List.map_congr_left fun s _ => ?_
  rw [Function.comp_apply, nameByDictionary]
  split <;> simp [hf]

end Unchosen

theorem chooseNames_preserve (d : Dictionary) (texts : List String) (symbols : List Symbol) :
    chooseNames d .preserve texts symbols = symbols.map (nameByDictionary d) :=
  nameByPolicy_preserve _ _

/-! ## The symbols of a unit -/

/-- What a traversal finds, with every name resolved and no names chosen. -/
def found (c : BindingInput) : Symbols :=
  (traverse c).table.keepUnresolved (namePlaces c.unit)

variable (d : Dictionary) (policy : NamingPolicy) (c : BindingInput)

theorem resolution?_ofUnit (p : Place) :
    (ofUnit d policy c).resolution? p = (found c).resolution? p :=
  rfl

theorem symbols_ofUnit : (ofUnit d policy c).symbols
    = (chooseNames d policy ((namePlaces c.unit).map c.unit.text)
        (found c).symbols.toList).toArray :=
  rfl

theorem map_symbol?_ofUnit {α : Type} {f : Symbol → α}
    (hf : ∀ s name, f { s with chosenName := name } = f s) (id : SymbolId) :
    ((ofUnit d policy c).symbol? id).map f = ((found c).symbol? id).map f := by
  have hmap := map_chooseNames hf d policy ((namePlaces c.unit).map c.unit.text)
    (found c).symbols.toList
  have hat := congrArg (·[id]?) hmap
  simpa [symbol?, symbols_ofUnit] using hat

/-- What a name refers to, and by which key, depends on neither dictionary nor policy. -/
theorem keyOf?_ofUnit (p : Place) : (ofUnit d policy c).keyOf? p = (found c).keyOf? p := by
  rw [keyOf?, keyOf?, resolution?_ofUnit]
  split
  · next id _ =>
      have hkey := congrArg (Option.map fun key => (key, Found.valid))
        (map_symbol?_ofUnit d policy c (f := (·.key)) (fun _ _ => rfl) id)
      simpa [Option.map_map, Function.comp_def] using hkey
  · rfl
  · rfl

theorem symbol?_ofUnit_preserve (id : SymbolId) :
    (ofUnit d .preserve c).symbol? id = ((found c).symbol? id).map (nameByDictionary d) := by
  simp [symbol?, symbols_ofUnit, chooseNames_preserve]

variable {c}

theorem symbol?_found (id : SymbolId) : (found c).symbol? id = (traverse c).table.symbol? id := by
  rw [symbol?, found, symbols_keepUnresolved]
  rfl

/-! ## A traversal chooses no names -/

def Unchosen (t : Symbols) : Prop := ∀ id s, t.symbol? id = some s → s.chosenName = none

theorem Unchosen.add (h : t.Unchosen) (hs : s.chosenName = none) : (t.add s).1.Unchosen := by
  intro id s' hs'
  rcases symbol?_add hs' with hold | ⟨-, rfl⟩
  · exact h id s' hold
  · exact hs

theorem Unchosen.declareVariable (h : b.table.Unchosen) (p : Place) (kind : SymbolKind)
    (declaredType : Option String) (type : Option StaticType) :
    (b.declareVariable c p kind declaredType type).table.Unchosen := by
  rcases b.declareVariable_cases c p kind declaredType type with
    ⟨_, heq⟩ | ⟨_, s, _, _, _, hnone, htable, _⟩
  · rw [heq]
    exact h
  · rw [htable]
    exact h.add hnone

theorem symbols_declare (b : Binder) (m : Member) :
    (b.declare m).table.symbols
      = (b.table.add
          { key := m.key, kind := m.kind, declaredName := m.name
            declaredType := m.declaredType }).1.symbols := by
  unfold Binder.declare
  cases m.arity <;> cases m.accessor <;> cases m.type b <;> rfl

mutual

variable {visit : Visit}

theorem unchosen_run (hvisit : ∀ p (b : Binder), b.table.Unchosen → (visit p b).table.Unchosen)
    (s : Step) (b : Binder) (hb : b.table.Unchosen) : (s.run c visit b).table.Unchosen := by
  cases s with
  | visit p =>
    rw [Step.run]
    exact hvisit p b hb
  | name p access meaning =>
    rw [Step.run, give]
    cases (meaning b).1 <;> cases (meaning b).2 <;> exact hb
  | note p type =>
    rw [Step.run]
    cases type b <;> exact hb
  | declareType key name =>
    rw [Step.run]
    rcases b.declareType_cases key name with ⟨_, _, heq⟩ | heq <;> rw [heq]
    · exact hb
    · exact hb.add rfl
  | declareMember m =>
    rw [Step.run]
    intro id s hs
    rw [symbol?, symbols_declare] at hs
    exact hb.add rfl id s hs
  | bindTypeVariable name =>
    rw [Step.run]
    exact hb
  | declareVariable p kind types before =>
    rw [Step.run]
    exact (unchosen_runAll hvisit before b hb).declareVariable p kind _ _
  | inScope _ _ steps | inMember _ steps | inFrame _ steps | inSwitch _ steps =>
    rw [Step.run]
    exact unchosen_runAll hvisit steps _ hb
  | choose test yes no =>
    rw [Step.run]
    split
    · exact unchosen_runAll hvisit yes b hb
    · exact unchosen_runAll hvisit no b hb

theorem unchosen_runAll (hvisit : ∀ p (b : Binder), b.table.Unchosen → (visit p b).table.Unchosen)
    (steps : List Step) (b : Binder) (hb : b.table.Unchosen) :
    (Step.runAll c visit steps b).table.Unchosen := by
  cases steps with
  | nil => simpa using hb
  | cons s steps =>
    rw [Step.runAll_cons]
    exact unchosen_runAll hvisit steps _ (unchosen_run hvisit s b hb)

end

theorem unchosen_visit (levels : Nat) (p : Place) (b : Binder) (hb : b.table.Unchosen) :
    (visit c levels p b).table.Unchosen := by
  induction levels generalizing p b with
  | zero => exact hb
  | succ levels ih =>
    rw [Binder.visit]
    exact unchosen_runAll ih _ b hb

theorem chosenName_found {id : SymbolId} (h : (found c).symbol? id = some s) :
    s.chosenName = none := by
  rw [symbol?_found, Binder.traverse, walked] at h
  exact unchosen_runAll (unchosen_visit c.unit.root.height) (unitSteps c) {}
    (fun id s hs => by simp [symbol?, Symbols.new] at hs) id s h

end Symbols

end Legible
