import Legible.Binding.Scopes
import Legible.Proofs.Loop

/-!
# Laws of scopes

Scopes come about by changes of the root alone: a scope is opened, a name is bound, a scope is
closed. What one change does to the parents, to the closed scopes and to the names is said once, and
what all of them do follows (`Rising.foldl`, `lookupIn_foldl`). As a scope is opened in one that is
there, the scopes around it have smaller numbers, and going outward comes to the root
(`Rising.induction`). What a name is bound to in a scope is read off the changes up to the one that
closes the scope (`Scopes.bound`), and looking a name up is said in terms of that (`scope_laws`).
-/

namespace Legible

namespace Scopes

variable {g : Scopes} {s outer : ScopeId} {steps : Nat}

/-! ## One change -/

section Change

variable (g : Scopes) (scope s : ScopeId) (d : Definition)

theorem opened_define : (g.define scope d).opened = g.opened := by
  unfold define
  split <;> rfl

theorem size_define : (g.define scope d).size = g.size := by rw [size, opened_define, size]

theorem parent?_define : (g.define scope d).parent? s = g.parent? s := by
  rw [parent?, opened_define, parent?]

theorem isClosed_define : (g.define scope d).isClosed s = g.isClosed s := by
  unfold define
  split <;> rfl

theorem definitionsIn_define : (g.define scope d).definitionsIn s
    = g.definitionsIn s ++ if scope = s ∧ g.isClosed s = false then [d] else [] := by
  unfold define
  by_cases hscope : scope = s
  · subst hscope
    cases hclosed : g.isClosed scope <;> simp [definitionsIn]
  · have hcompare : compare scope s ≠ .eq := fun heq => hscope (Std.LawfulEqCmp.eq_of_compare heq)
    split <;> simp [definitionsIn, Std.TreeMap.getD_insert, hcompare, hscope]

theorem mem_define_iff {g : Scopes} {scope s : ScopeId} {d d' : Definition} :
    d' ∈ (g.define scope d).definitionsIn s
      ↔ d' ∈ g.definitionsIn s ∨ d' = d ∧ scope = s ∧ g.isClosed s = false := by
  rw [definitionsIn_define, List.mem_append]
  split <;> simp [*]

theorem isClosed_close : (g.close scope).isClosed s = (scope == s || g.isClosed s) := by
  rw [isClosed, close, Std.TreeMap.contains_insert, isClosed]
  congr 1
  rw [Bool.eq_iff_iff]
  simp

theorem size_openIn (outer : ScopeId) (kind : ScopeKind) :
    (g.openIn outer kind).size = g.size + 1 :=
  Array.size_push ..

theorem parent?_openIn (outer : ScopeId) (kind : ScopeKind) :
    (g.openIn outer kind).parent? s = if s = g.size then some outer else g.parent? s := by
  rw [parent?, openIn, Array.getElem?_push, apply_ite (Option.bind · _)]
  rfl

theorem parent?_openIn_self (outer : ScopeId) (kind : ScopeKind) :
    (g.openIn outer kind).parent? g.size = some outer := by
  rw [parent?_openIn, if_pos rfl]

theorem lt_size_of_parent? (h : g.parent? s = some outer) : s < g.size := by
  obtain ⟨_, hopened, -⟩ := Option.bind_eq_some_iff.mp h
  exact (Array.getElem?_eq_some_iff.mp hopened).1

end Change

/-! ## Going outward -/

section Outward

variable {scope : ScopeId}

/-- The scopes around one that has another around it. -/
theorem exists_outward (hparent : g.parent? scope = some outer) (hlt : outer < scope)
    (hsteps : scope ≤ steps) :
    ∃ steps', outer ≤ steps' ∧ g.outward steps scope = scope :: g.outward steps' outer := by
  cases steps with
  | zero => exact absurd (Nat.lt_of_lt_of_le hlt hsteps) (Nat.not_lt_zero _)
  | succ steps =>
    exact ⟨steps, Nat.le_of_lt_succ (Nat.lt_of_lt_of_le hlt hsteps), by rw [outward, hparent]⟩

theorem outward_eq_singleton (h : g.parent? scope = none) (steps : Nat) :
    g.outward steps scope = [scope] := by
  cases steps with
  | zero => rfl
  | succ steps => rw [outward, h]

end Outward

/-- Every scope lies in an earlier one, and only the root in none. -/
structure Rising (g : Scopes) : Prop where
  parent_lt : ∀ s outer, g.parent? s = some outer → outer < s
  root : ∀ s < g.size, g.parent? s = none → s = 0

/-- One step outward, with the scopes that were passed. -/
def chainStep (g : Scopes) :
    List ScopeId × ScopeId → List ScopeId ⊕ (List ScopeId × ScopeId)
  | (passed, scope) =>
    match g.parent? scope with
    | some outer => .inr (passed ++ [scope], outer)
    | none => .inl (passed ++ [scope])

namespace Rising

variable (h : g.Rising)

include h

theorem induction {motive : ScopeId → Prop} (stop : ∀ s, g.parent? s = none → motive s)
    (next : ∀ s outer, g.parent? s = some outer → motive outer → motive s) (s : ScopeId) :
    motive s := by
  induction s using Nat.strongRecOn with
  | _ s ih =>
    cases hparent : g.parent? s with
    | none => exact stop s hparent
    | some outer => exact next s outer hparent (ih outer (h.parent_lt s outer hparent))

theorem outward_eq {steps' : Nat} (hsteps : s ≤ steps) (hsteps' : s ≤ steps') :
    g.outward steps s = g.outward steps' s := by
  induction s using h.induction generalizing steps steps' with
  | stop s hparent => rw [outward_eq_singleton hparent, outward_eq_singleton hparent]
  | next s outer hparent ih =>
    have hlt := h.parent_lt s outer hparent
    obtain ⟨n, hn, heq⟩ := exists_outward hparent hlt hsteps
    obtain ⟨n', hn', heq'⟩ := exists_outward hparent hlt hsteps'
    rw [heq, heq', ih hn hn']

theorem chain_eq_cons (hparent : g.parent? s = some outer) : g.chain s = s :: g.chain outer := by
  have hlt := h.parent_lt s outer hparent
  have hle := Nat.le_of_lt (g.lt_size_of_parent? s hparent)
  obtain ⟨n, hn, heq⟩ := exists_outward hparent hlt hle
  rw [chain, heq, h.outward_eq hn (Nat.le_trans (Nat.le_of_lt hlt) hle), chain]

theorem mem_loop_chainStep (passed : List ScopeId) (s : ScopeId) :
    passed ++ g.chain s ∈ loop g.chainStep (passed, s) := by
  induction s using h.induction generalizing passed with
  | stop s hparent =>
    rw [chain, outward_eq_singleton hparent]
    exact mem_loop_of_stop (by rw [chainStep, hparent])
  | next s outer hparent ih =>
    rw [h.chain_eq_cons hparent, List.append_cons]
    exact mem_loop_of_next (by rw [chainStep, hparent]) (ih (passed ++ [s]))

theorem le_of_mem_chain {t : ScopeId} (ht : t ∈ g.chain s) : t ≤ s := by
  induction s using h.induction with
  | stop s hparent =>
    rw [chain, outward_eq_singleton hparent] at ht
    exact Nat.le_of_eq (List.mem_singleton.mp ht)
  | next s outer hparent ih =>
    rw [h.chain_eq_cons hparent] at ht
    rcases List.mem_cons.mp ht with rfl | ht
    · exact Nat.le_refl _
    · exact Nat.le_trans (ih ht) (Nat.le_of_lt (h.parent_lt s outer hparent))

theorem pairwise_chain (s : ScopeId) : (g.chain s).Pairwise (· > ·) := by
  induction s using h.induction with
  | stop s hparent =>
    rw [chain, outward_eq_singleton hparent]
    exact List.pairwise_singleton ..
  | next s outer hparent ih =>
    rw [h.chain_eq_cons hparent]
    refine List.pairwise_cons.mpr ⟨fun t ht => ?_, ih⟩
    exact Nat.lt_of_le_of_lt (h.le_of_mem_chain ht) (h.parent_lt s outer hparent)

theorem getLast?_chain (hs : s < g.size) : (g.chain s).getLast? = some 0 := by
  induction s using h.induction with
  | stop s hparent =>
    rw [chain, outward_eq_singleton hparent, h.root s hs hparent]
    rfl
  | next s outer hparent ih =>
    have hlt := h.parent_lt s outer hparent
    rw [h.chain_eq_cons hparent, List.getLast?_cons, ih (Nat.lt_trans hlt hs)]
    rfl

end Rising

/-! ## Changes -/

/-- What is done to the scopes of a unit. -/
inductive Change where
  | openIn (parent : ScopeId) (kind : ScopeKind)
  | define (scope : ScopeId) (d : Definition)
  | close (scope : ScopeId)
deriving DecidableEq

def apply (g : Scopes) : Change → Scopes
  | .openIn parent kind => g.openIn parent kind
  | .define scope d => g.define scope d
  | .close scope => g.close scope

/-- The scopes that come from the root alone. -/
def after (changes : List Change) : Scopes := changes.foldl apply new

/-- Whether every scope is opened in one that is there, of which there are `size` at first. -/
def opensInside : (size : Nat) → List Change → Bool
  | _, [] => true
  | size, .openIn parent _ :: changes => parent < size && opensInside (size + 1) changes
  | size, .define .. :: changes => opensInside size changes
  | size, .close _ :: changes => opensInside size changes

/-- What the changes bind a name to in a scope before they close it. -/
def bound (s : ScopeId) (space : Namespace) (name : String) (changes : List Change) :
    List Binding :=
  (changes.takeWhile (· != .close s)).filterMap fun
    | .define scope d =>
      if scope = s ∧ d.space = space ∧ d.name = name then some d.binding else none
    | _ => none

theorem rising_new : new.Rising where
  parent_lt s outer hparent := by
    cases s <;> simp [parent?, new] at hparent
  root s hs _ := Nat.lt_one_iff.mp hs

theorem Rising.foldl {changes : List Change} (h : g.Rising)
    (hopens : opensInside g.size changes = true) : (changes.foldl apply g).Rising := by
  induction changes generalizing g with
  | nil => exact h
  | cons change changes ih =>
    cases change with
    | openIn outer kind =>
      obtain ⟨hlt, hopens⟩ := Bool.and_eq_true_iff.mp hopens
      refine ih (g := g.openIn outer kind) ⟨fun s outer' hparent => ?_, fun s hs hparent => ?_⟩
        (by rwa [size_openIn])
      · rw [parent?_openIn] at hparent
        split at hparent
        · next heq =>
            cases hparent
            rw [heq]
            exact of_decide_eq_true hlt
        · exact h.parent_lt s outer' hparent
      · rw [parent?_openIn] at hparent
        split at hparent
        · cases hparent
        · next hne =>
            rw [size_openIn] at hs
            exact h.root s (Nat.lt_of_le_of_ne (Nat.le_of_lt_succ hs) hne) hparent
    | define scope d =>
      refine ih (g := g.define scope d) ⟨fun s => ?_, fun s => ?_⟩ (by rwa [size_define])
      · rw [parent?_define]
        exact h.parent_lt s
      · rw [parent?_define, size_define]
        exact h.root s
    | close scope => exact ih (g := g.close scope) ⟨h.parent_lt, h.root⟩ hopens

section Bound

variable (s : ScopeId) (space : Namespace) (name : String)

theorem lookupIn_define (g : Scopes) (scope : ScopeId) (d : Definition) :
    (g.define scope d).lookupIn s space name = g.lookupIn s space name
      ++ if scope = s ∧ g.isClosed s = false ∧ d.space = space ∧ d.name = name
        then [d.binding] else [] := by
  rw [lookupIn, definitionsIn_define, List.filterMap_append, lookupIn]
  congr 1
  by_cases hscope : scope = s ∧ g.isClosed s = false
  · by_cases hd : d.space = space ∧ d.name = name <;> simp [hscope, hd]
  · rw [if_neg hscope, if_neg (by tauto), List.filterMap_nil]

/-- In a scope that is open a name gets what the changes bind it to, and in a closed one nothing. -/
theorem lookupIn_foldl (g : Scopes) (changes : List Change) :
    (changes.foldl apply g).lookupIn s space name = g.lookupIn s space name
      ++ if g.isClosed s then [] else bound s space name changes := by
  induction changes generalizing g with
  | nil => simp [bound]
  | cons change changes ih =>
    rw [List.foldl_cons, ih]
    cases change with
    | openIn outer kind => rfl
    | define scope d =>
      rw [apply, lookupIn_define, isClosed_define]
      cases g.isClosed s with
      | true => simp
      | false => by_cases hd : scope = s ∧ d.space = space ∧ d.name = name <;> simp [bound, hd]
    | close scope =>
      rw [apply, isClosed_close]
      by_cases hscope : scope = s <;> simp [bound, hscope, close, lookupIn, definitionsIn]

theorem isClosed_foldl (g : Scopes) (changes : List Change) :
    (changes.foldl apply g).isClosed s = (changes.contains (.close s) || g.isClosed s) := by
  induction changes generalizing g with
  | nil => rfl
  | cons change changes ih =>
    rw [List.foldl_cons, ih]
    cases change with
    | openIn outer kind => simp [apply, openIn, isClosed]
    | define scope d => simp [apply, isClosed_define]
    | close scope =>
      rw [apply, isClosed_close]
      by_cases hs : scope = s
      · simp [hs]
      · simp [Ne.symm hs, beq_eq_false_iff_ne.mpr hs]

end Bound

/-! ## The laws -/

/-- What can be relied on of scopes that come about by the given changes. -/
structure Laws (changes : List Change) (g : Scopes) : Prop where
  parent_lt : ∀ s outer, g.parent? s = some outer → outer < s
  chain : ∀ s, g.chain s ∈ loop g.chainStep ([], s)
  decreasing : ∀ s, (g.chain s).Pairwise (· > ·)
  root : ∀ s < g.size, (g.chain s).getLast? = some 0
  lookupIn : ∀ s space name, g.lookupIn s space name = bound s space name changes
  /-- The latest binding of the innermost scope that binds the name. -/
  lookup : ∀ scope space name s b, g.lookup? scope space name = some (s, b) ↔
    ∃ inner outer, g.chain scope = inner ++ s :: outer
      ∧ (∀ t ∈ inner, bound t space name changes = [])
      ∧ (bound s space name changes).getLast? = some b
  lookupAll : ∀ scope space name, g.lookupAll scope space name
    = (g.chain scope).flatMap fun s => (bound s space name changes).map fun b => (s, b)
  first : ∀ scope space name, (g.lookupAll scope space name).head?.map (·.1)
    = (g.lookup? scope space name).map (·.1)
  closed : ∀ s, .close s ∈ changes → ∀ (later : List Change) space name,
    (later.foldl apply g).lookupIn s space name = g.lookupIn s space name
  apart : ∀ s space name (later : List Change),
    (∀ d, .define s d ∈ later → d.space = space → d.name ≠ name) →
    (later.foldl apply g).lookupIn s space name = g.lookupIn s space name

theorem lookup?_eq_some_iff (g : Scopes) (scope s : ScopeId) (space : Namespace) (name : String)
    (b : Binding) : g.lookup? scope space name = some (s, b) ↔
      ∃ inner outer, g.chain scope = inner ++ s :: outer
        ∧ (∀ t ∈ inner, g.lookupIn t space name = [])
        ∧ (g.lookupIn s space name).getLast? = some b := by
  rw [lookup?, List.findSome?_eq_some_iff]
  constructor
  · rintro ⟨inner, t, outer, hchain, hfound, hinner⟩
    obtain ⟨b', hb', heq⟩ := Option.map_eq_some_iff.mp hfound
    cases heq
    exact ⟨inner, outer, hchain, fun t ht => by simpa using hinner t ht, hb'⟩
  · rintro ⟨inner, outer, hchain, hinner, hb⟩
    exact ⟨inner, s, outer, hchain, by rw [hb]; rfl, fun t ht => by simp [hinner t ht]⟩

theorem head?_lookupAll (g : Scopes) (scope : ScopeId) (space : Namespace) (name : String) :
    (g.lookupAll scope space name).head?.map (·.1) = (g.lookup? scope space name).map (·.1) := by
  rw [lookupAll, lookup?, List.head?_flatMap, List.map_findSome?, List.map_findSome?]
  congr 1
  funext s
  cases hin : g.lookupIn s space name <;> simp [hin, List.getLast?_cons]

end Scopes

open Scopes

/-- Whatever is opened, bound and closed, where every scope is opened in one that is there: parents
have smaller numbers, so going outward stops, at the root, and a name is looked up from the
innermost scope outward among what was bound before the scopes were closed. -/
theorem scope_laws (changes : List Change) (h : opensInside 1 changes = true) :
    Laws changes (after changes) := by
  have hrising : (after changes).Rising := rising_new.foldl h
  have hin : ∀ s space name,
      (after changes).lookupIn s space name = bound s space name changes := by
    intro s space name
    rw [after, lookupIn_foldl]
    simp [new, Scopes.lookupIn, definitionsIn, isClosed]
  refine
    { parent_lt := hrising.parent_lt
      chain := hrising.mem_loop_chainStep []
      decreasing := hrising.pairwise_chain
      root := fun s hs => hrising.getLast?_chain hs
      lookupIn := hin
      lookup := fun scope space name s b => ?_
      lookupAll := fun scope space name => ?_
      first := head?_lookupAll _
      closed := fun s hs later space name => ?_
      apart := fun s space name later hlater => ?_ }
  · simp only [lookup?_eq_some_iff, hin]
  · simp only [Scopes.lookupAll, hin]
  · rw [lookupIn_foldl, after, isClosed_foldl]
    simp [hs]
  · have hnone : bound s space name later = [] := by
      refine List.filterMap_eq_nil_iff.mpr fun change hchange => ?_
      cases change with
      | define scope d =>
        refine if_neg fun ⟨hscope, hspace, hname⟩ => hlater d ?_ hspace hname
        exact hscope ▸ List.takeWhile_subset _ hchange
      | openIn | close => rfl
    rw [lookupIn_foldl, hnone, ite_self, List.append_nil]

/-- A name is bound twice in a scope and once around it, and refused after the scope is closed. -/
theorem scope_laws_shadowing :
    let x : SymbolId → Definition := fun id => ⟨.value, "x", .symbol id⟩
    let changes : List Change := [.openIn 0 .typeBody, .define 1 (x 0), .openIn 1 .block,
      .define 2 (x 1), .define 2 (x 2), .close 2, .define 2 (x 3)]
    opensInside 1 changes = true ∧ (after changes).lookup? 2 .value "x" = some (2, .symbol 2)
      ∧ Laws changes (after changes) :=
  ⟨by decide, by decide +kernel, scope_laws _ (by decide)⟩

end Legible
