import Legible.Proofs.Binding.Names
import Legible.Proofs.Binding.Traversal

/-!
# Variables are found at their declarations

A name is resolved once, by the first who gets to it, so it is not obvious that the name at the
declaration of a variable refers to the variable. It does because a traversal visits no name twice:
the numbers that a run uses up are distinct in a tidy tree, and what it has not used up is fresh
(`Run.resolution?_of_notMem`).
-/

namespace Legible

open Binder

section Fresh

variable {c : BindingInput} {N : List Nat} {b b' : Binder} {p : Place}

/-- A run leaves the names alone that it does not use up. -/
theorem Run.resolution?_of_notMem (h : Run c N b b') (hp : p.number ∉ N) :
    b'.table.resolution? p = b.table.resolution? p := by
  have hresolve : ∀ (t : Symbols) (q : Place) (r : Resolution), q.number ≠ p.number →
      (t.resolve q r).resolution? p = t.resolution? p := by
    intro t q r hne
    rw [Symbols.resolution?_resolve, if_neg fun h => hne h.1]
  induction h with
  | refl => rfl
  | trans _ _ ih ih' =>
    rw [List.mem_append, not_or] at hp
    rw [ih' hp.2, ih hp.1]
  | mono _ hsub ih => exact ih fun hmem => hp (hsub.subset hmem)
  | resolve _ _ hmem _ ih =>
    rw [← ih hp]
    exact hresolve _ _ _ fun heq => hp (heq ▸ hmem)
  | @declareType b _ name _ _ key =>
    rcases b.declareType_cases key (c.unit.text name) with ⟨_, _, heq⟩ | heq
    · rw [heq]
    · rw [heq]
      exact b.table.resolution?_add _ p
  | @declareMember b _ _ _ _ _ => exact b.table.resolution?_add _ p
  | @declareVariable b q kind declaredType type =>
    have hne : q.number ≠ p.number := fun heq => hp (List.mem_singleton.mpr heq.symm)
    rcases b.declareVariable_cases c q kind declaredType type with
      ⟨_, heq⟩ | ⟨_, s, _, _, _, _, htable, _⟩
    · rw [heq]
      exact hresolve _ q _ hne
    · rw [htable, hresolve _ q _ hne]
      exact b.table.resolution?_add s p
  | inScope _ _ ih => exact ih hp
  | inMember _ _ ih => exact ih hp
  | inFrame _ _ ih => exact ih hp
  | inSwitch _ _ ih => exact ih hp
  | _ => rfl

end Fresh

/-- Every variable of the table is what the name at its declaration refers to. -/
def Symbols.VariablesFound (c : BindingInput) (t : Symbols) : Prop :=
  ∀ id s, t.symbol? id = some s → s.kind.isVariable = true → s.declaredName ≠ "_"
    ∧ ∃ p, c.Has p ∧ p.node.isName = true ∧ c.unit.text p = s.declaredName
      ∧ t.resolution? p = some (.symbol id)

namespace Symbols.VariablesFound

variable {c : BindingInput} {t t' : Symbols} {b : Binder}

/-- Variables stay found while resolutions are kept and no variables are added. -/
theorem mono (h : t.VariablesFound c)
    (hsymbol : ∀ id s, t'.symbol? id = some s → s.kind.isVariable = true → t.symbol? id = some s)
    (hresolution : ∀ p r, t.resolution? p = some r → t'.resolution? p = some r) :
    t'.VariablesFound c := by
  intro id s hs hkind
  obtain ⟨hname, p, hp, hisName, htext, hr⟩ := h id s (hsymbol id s hs hkind) hkind
  exact ⟨hname, p, hp, hisName, htext, hresolution p _ hr⟩

theorem resolve (h : t.VariablesFound c) (p : Place) (r : Resolution) :
    (t.resolve p r).VariablesFound c :=
  h.mono (fun _ _ hs _ => hs) fun _ _ hq => resolution?_resolve_of_eq_some hq r

/-- Declaring what is no variable keeps the variables found. -/
theorem declared (h : b.table.VariablesFound c) (space : Namespace) {s : Symbol}
    (hkind : s.kind.isVariable = false) : (b.declared space s).VariablesFound c := by
  refine h.mono (fun id s' hs' hkind' => ?_) fun p r hr => (b.table.resolution?_add s p).trans hr
  rcases symbol?_add hs' with hs' | ⟨_, rfl⟩
  · exact hs'
  · rw [hkind] at hkind'
    cases hkind'

/-- A variable is found at the name that it is declared by, if that was not resolved before. -/
theorem declareVariable (h : b.table.VariablesFound c) {p : Place} (hp : c.Has p)
    (hfresh : b.table.resolution? p = none) {kind : SymbolKind}
    (hname : p.node.isName = true ∨ c.unit.text p = "_") (declaredType : Option String)
    (type : Option StaticType) :
    (b.declareVariable c p kind declaredType type).table.VariablesFound c := by
  rcases b.declareVariable_cases c p kind declaredType type with
    ⟨_, heq⟩ | ⟨hne, s, _, _, hdeclared, _, htable, _⟩
  · rw [heq]
    exact h.resolve p .keep
  · rw [htable]
    intro id s' hs' hkind'
    rcases symbol?_add hs' with hold | ⟨rfl, rfl⟩
    · obtain ⟨hname', q, hq, hisName, htext, hr⟩ := h id s' hold hkind'
      refine ⟨hname', q, hq, hisName, htext, resolution?_resolve_of_eq_some ?_ _⟩
      exact (b.table.resolution?_add s q).trans hr
    · have hnew : (b.declared .value s').resolution? p = none :=
        (b.table.resolution?_add s' p).trans hfresh
      refine ⟨hdeclared ▸ hne, p, hp, hname.resolve_right hne, hdeclared.symm, ?_⟩
      rw [resolution?_resolve, if_pos ⟨rfl, hnew⟩]

theorem of_run {N : List Nat} {b' : Binder} (hrun : Run c N b b') (hnodup : N.Nodup)
    (hfresh : ∀ p : Place, p.number ∈ N → b.table.resolution? p = none)
    (h : b.table.VariablesFound c) : b'.table.VariablesFound c := by
  induction hrun with
  | refl => exact h
  | trans hrun _ ih ih' =>
    obtain ⟨hN, hM, hdisjoint⟩ := List.nodup_append.mp hnodup
    refine ih' hM (fun p hp => ?_) (ih hN (fun p hp => hfresh p (List.mem_append_left _ hp)) h)
    rw [hrun.resolution?_of_notMem fun hp' => hdisjoint _ hp' _ hp rfl]
    exact hfresh p (List.mem_append_right _ hp)
  | mono _ hsub ih =>
    have hsubset := hsub.subset
    obtain ⟨l, hperm, hsub⟩ := hsub
    exact ih (hperm.nodup_iff.mp (hnodup.sublist hsub)) (fun p hp => hfresh p (hsubset hp)) h
  | resolve _ _ _ _ ih => exact (ih hnodup hfresh h).resolve _ _
  | @declareType b _ name _ _ key =>
    rcases b.declareType_cases key (c.unit.text name) with ⟨_, _, heq⟩ | heq
    · rw [heq]
      exact h
    · rw [heq]
      exact h.declared .type rfl
  | @declareMember _ _ _ space _ _ _ hkind => exact h.declared space hkind
  | bindAccessor => exact h.mono (fun _ _ hs _ => hs) fun _ _ hr => hr
  | bindTypeVariable => exact h.mono (fun _ _ hs _ => hs) fun _ _ hr => hr
  | declareVariable declaredType type hp _ hname =>
    exact h.declareVariable hp (hfresh _ (List.mem_singleton_self _)) hname declaredType type
  | note => exact h
  | inScope _ _ ih | inMember _ _ ih | inFrame _ _ ih | inSwitch _ _ ih => exact ih hnodup hfresh h

end Symbols.VariablesFound

theorem variablesFound_found {c : BindingInput} (htidy : c.Tidy) :
    (Symbols.found c).VariablesFound c := by
  have hparted := parted_of_tidyOK htidy
  have hnew : Symbols.VariablesFound c ({} : Binder).table := by
    intro id s hs
    simp [Symbols.symbol?, Symbols.new] at hs
  have hfresh : ∀ p : Place, ({} : Binder).table.resolution? p = none := by
    intro p
    simp [Symbols.resolution?, Symbols.new]
  have htable : (traverse c).table.VariablesFound c := by
    have h := hnew.of_run (walked_run hparted) hparted.numbers fun p _ => hfresh p
    rw [Binder.traverse]
    exact h.mono (fun _ _ hs _ => hs) fun _ _ hr => hr
  refine htable.mono (fun id s hs _ => ?_) fun p r =>
    Symbols.resolution?_keepUnresolved_of_eq_some _
  rwa [Symbols.symbol?_found] at hs

end Legible
