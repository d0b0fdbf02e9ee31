import Legible.Proofs.Binding.Sound
import Legible.Proofs.Binding.Trace

/-!
# Scopes and regions

While a place is visited the scopes from the innermost one outward belong to the regions around the
place, one by one (`Chain`, `Stands`). Each scope is opened for one place and each place opens one
scope (`Paired`), so a name is looked up in the regions around it from the inside out. What is found
in the scopes is therefore what a reader of the tree sees (`exists_sees`).
-/

namespace Legible

variable {c : BindingInput} {name : String} {g : Scopes} {s scope : ScopeId} {R R' : List Region}
  {p q n : Place} {space : Namespace} {binding : Binding} {log : List Event} {id : SymbolId}

/-! ## What a name sees -/

/-- The innermost of the regions `R` lies strictly inside of the innermost of `R'`. -/
def StrictlyInside (R R' : List Region) : Prop := R' <:+ R ∧ R ≠ R'

/-- Of what was declared up to then, the name at `n` sees the variable `id` declared at `d`: it lies
in the region of the declaration, and no declaration of that name is nearer. -/
structure Sees (c : BindingInput) (earlier : List Event) (n d : Place) (id : SymbolId) : Prop where
  declared : .declared d id ∈ earlier
  text : c.unit.text d = c.unit.text n
  inside : c.regions d <:+ c.regions n
  noVariable : ∀ d' id', .declared d' id' ∈ earlier → c.unit.text d' = c.unit.text n →
    c.regions d' <:+ c.regions n → ¬ StrictlyInside (c.regions d') (c.regions d)
  noField : ∀ r R, r :: R <:+ c.regions n → c.unit.text n ∈ c.unit.fieldNames r.place →
    ¬ StrictlyInside (r :: R) (c.regions d)

theorem StrictlyInside.length_lt (h : StrictlyInside R R') : R'.length < R.length :=
  Nat.lt_of_le_of_ne h.1.length_le fun heq => h.2 (h.1.eq_of_length heq).symm

/-! ## Scopes that grow -/

namespace Scopes

variable {g' g'' : Scopes}

/-- What was opened and bound is still there, and no scope was closed that was open. -/
structure Grows (g g' : Scopes) : Prop where
  parent : ∀ s outer, g.parent? s = some outer → g'.parent? s = some outer
  size : g.size ≤ g'.size
  isClosed : ∀ s < g.size, g'.isClosed s = g.isClosed s
  definitions : ∀ s d, d ∈ g.definitionsIn s → d ∈ g'.definitionsIn s

namespace Grows

theorem refl (g : Scopes) : g.Grows g where
  parent _ _ h := h
  size := Nat.le_refl _
  isClosed _ _ := rfl
  definitions _ _ h := h

theorem trans (h : g.Grows g') (h' : g'.Grows g'') : g.Grows g'' where
  parent s outer hs := h'.parent s outer (h.parent s outer hs)
  size := Nat.le_trans h.size h'.size
  isClosed s hs := (h'.isClosed s (Nat.lt_of_lt_of_le hs h.size)).trans (h.isClosed s hs)
  definitions s d hd := h'.definitions s d (h.definitions s d hd)

theorem define (g : Scopes) (scope : ScopeId) (d : Definition) : g.Grows (g.define scope d) where
  parent s outer hs := by rwa [parent?_define]
  size := Nat.le_of_eq (size_define ..).symm
  isClosed s _ := isClosed_define ..
  definitions s d hd := mem_define_iff.mpr (.inl hd)

theorem openIn (g : Scopes) (outer : ScopeId) (kind : ScopeKind) :
    g.Grows (g.openIn outer kind) where
  parent s outer' hs := by
    rw [parent?_openIn, if_neg (Nat.ne_of_lt (lt_size_of_parent? _ _ hs)), hs]
  size := Nat.le_of_lt (Nat.lt_of_lt_of_eq (Nat.lt_succ_self _) (size_openIn ..).symm)
  isClosed _ _ := rfl
  definitions _ _ hd := hd

theorem close (h : g.Grows g') (hscope : g.size ≤ scope) : g.Grows (g'.close scope) where
  __ := h
  isClosed s hs := by
    have hne : scope ≠ s := (Nat.ne_of_lt (Nat.lt_of_lt_of_le hs hscope)).symm
    rw [isClosed_close, beq_eq_false_iff_ne.mpr hne, Bool.false_or, h.isClosed s hs]

end Grows

end Scopes

/-! ## Chains of scopes -/

/-- The scope was opened for the innermost of the regions, the scope around it for the next one, and
so on out to the root. -/
inductive Chain (c : BindingInput) (g : Scopes) (log : List Event) : ScopeId → List Region → Prop
  | root : Chain c g log 0 []
  | inside {scope outer : ScopeId} {p : Place} {R : List Region} (hopened : .opened scope p ∈ log)
      (hparent : g.parent? scope = some outer) (hlt : outer < scope)
      (h : Chain c g log outer R) : Chain c g log scope (c.region p :: R)

/-- Each scope is opened for one place, and each place opens one scope. -/
structure Paired (log : List Event) : Prop where
  place : ∀ scope p q, .opened scope p ∈ log → .opened scope q ∈ log → p = q
  scope : ∀ scope scope' p, .opened scope p ∈ log → .opened scope' p ∈ log → scope = scope'

theorem BindingInput.region_inj (h : c.region p = c.region q) : p = q :=
  congrArg Region.place h

namespace Chain

variable {g' : Scopes} {log log' : List Event} {scope scope' : ScopeId} {R R' : List Region}
  {steps : Nat}

theorem mono (h : Chain c g log scope R)
    (hg : ∀ s outer, g.parent? s = some outer → g'.parent? s = some outer) (hlog : log ⊆ log') :
    Chain c g' log' scope R := by
  induction h with
  | root => exact .root
  | inside hopened hparent hlt _ ih => exact .inside (hlog hopened) (hg _ _ hparent) hlt ih

theorem regions_eq (hpaired : Paired log) (h : Chain c g log scope R)
    (h' : Chain c g log scope R') : R = R' := by
  induction h generalizing R' with
  | root =>
    cases h' with
    | root => rfl
    | inside _ _ hlt _ => exact absurd hlt (Nat.not_lt_zero _)
  | inside hopened hparent hlt _ ih =>
    cases h' with
    | root => exact absurd hlt (Nat.not_lt_zero _)
    | inside hopened' hparent' _ h' =>
      cases hparent.symm.trans hparent'
      rw [hpaired.place _ _ _ hopened hopened', ih h']

theorem scope_eq (hpaired : Paired log) (h : Chain c g log scope R)
    (h' : Chain c g log scope' R) : scope = scope' := by
  cases h with
  | root =>
    cases h'
    rfl
  | inside hopened _ _ _ =>
    generalize hR : c.region _ :: _ = R at h'
    cases h' with
    | root => cases hR
    | inside hopened' _ _ _ =>
      cases BindingInput.region_inj (List.cons.inj hR).1
      exact hpaired.scope _ _ _ hopened hopened'

/-- A search from the scope outward finds what it finds in a region around, and nothing in a region
that is nearer. -/
theorem findSome?_outward {α : Type} {f : ScopeId → Option α} {x : α} (hpaired : Paired log)
    (hroot : g.parent? 0 = none) (h : Chain c g log scope R) (hsteps : scope ≤ steps)
    (hfind : (g.outward steps scope).findSome? f = some x) :
    ∃ s R', R' <:+ R ∧ Chain c g log s R' ∧ f s = some x
      ∧ ∀ s' R'', R'' <:+ R → Chain c g log s' R'' → R'.length < R''.length → f s' = none := by
  induction h generalizing steps with
  | root =>
    rw [Scopes.outward_eq_singleton hroot] at hfind
    refine ⟨0, [], List.suffix_refl _, .root, ?_, fun s' R'' hR'' _ hlt => ?_⟩
    · simpa using hfind
    · have := hR''.length_le
      omega
  | @inside scope outer p R hopened hparent hlt h ih =>
    have hself : Chain c g log scope (c.region p :: R) := .inside hopened hparent hlt h
    obtain ⟨steps, hsteps, heq⟩ := Scopes.exists_outward hparent hlt hsteps
    rw [heq, List.findSome?_cons] at hfind
    cases hf : f scope with
    | some y =>
      rw [hf] at hfind
      refine ⟨scope, c.region p :: R, List.suffix_refl _, hself, hf.trans hfind, ?_⟩
      intro s' R'' hR'' _ hlt
      have := hR''.length_le
      omega
    | none =>
      rw [hf] at hfind
      obtain ⟨s, R', hR', hs, hx, hnearer⟩ := ih hsteps hfind
      refine ⟨s, R', hR'.trans (List.suffix_cons _ _), hs, hx, fun s' R'' hR'' hs' hlt => ?_⟩
      rcases List.suffix_cons_iff.mp hR'' with rfl | hR''
      · rwa [hs'.scope_eq hpaired hself]
      · exact hnearer s' R'' hR'' hs' hlt

end Chain

/-! ## Where a traversal stands -/

/-- A chain of open scopes in which the fields of the types are bound. -/
inductive Stands (c : BindingInput) (g : Scopes) (log : List Event) : ScopeId → List Region → Prop
  | root (hsize : 0 < g.size) (hopen : g.isClosed 0 = false) : Stands c g log 0 []
  | inside {scope outer : ScopeId} {p : Place} {R : List Region} (hopened : .opened scope p ∈ log)
      (hparent : g.parent? scope = some outer) (hlt : outer < scope) (hsize : scope < g.size)
      (hopen : g.isClosed scope = false)
      (hfields : ∀ name ∈ c.unit.fieldNames p, ∃ binding,
        ⟨.value, name, binding⟩ ∈ g.definitionsIn scope)
      (h : Stands c g log outer R) : Stands c g log scope (c.region p :: R)

namespace Stands

variable {g' : Scopes} {log log' : List Event} {scope : ScopeId} {R R' : List Region} {r : Region}
  (h : Stands c g log scope R)

include h

theorem chain : Chain c g log scope R := by
  induction h with
  | root => exact .root
  | inside hopened hparent hlt _ _ _ _ ih => exact .inside hopened hparent hlt ih

theorem lt_size : scope < g.size := by
  cases h <;> assumption

theorem isClosed : g.isClosed scope = false := by
  cases h <;> assumption

theorem mono (hg : g.Grows g') (hlog : log ⊆ log') : Stands c g' log' scope R := by
  induction h with
  | root hsize hopen =>
    exact .root (Nat.lt_of_lt_of_le hsize hg.size) ((hg.isClosed 0 hsize).trans hopen)
  | inside hopened hparent hlt hsize hopen hfields _ ih =>
    refine .inside (hlog hopened) (hg.parent _ _ hparent) hlt
      (Nat.lt_of_lt_of_le hsize hg.size) ((hg.isClosed _ hsize).trans hopen) ?_ ih
    intro name hname
    obtain ⟨binding, hbound⟩ := hfields name hname
    exact ⟨binding, hg.definitions _ _ hbound⟩

theorem exists_of_suffix (hR : R' <:+ R) : ∃ s, Stands c g log s R' := by
  induction h with
  | root hsize hopen =>
    rw [List.suffix_nil.mp hR]
    exact ⟨0, .root hsize hopen⟩
  | inside hopened hparent hlt hsize hopen hfields h ih =>
    rcases List.suffix_cons_iff.mp hR with rfl | hR
    · exact ⟨_, .inside hopened hparent hlt hsize hopen hfields h⟩
    · exact ih hR

/-- The fields of a type around are bound in its scope. -/
theorem field (hR : r :: R' <:+ R) (hname : name ∈ c.unit.fieldNames r.place) :
    ∃ s binding, Chain c g log s (r :: R') ∧ ⟨.value, name, binding⟩ ∈ g.definitionsIn s := by
  obtain ⟨s, hs⟩ := h.exists_of_suffix hR
  cases hs with
  | inside hopened hparent hlt _ _ hfields h =>
    obtain ⟨binding, hbound⟩ := hfields name hname
    exact ⟨s, binding, .inside hopened hparent hlt h.chain, hbound⟩

end Stands

/-! ## Looking a name up -/

theorem Scopes.getLast?_lookupIn (h : ⟨space, name, binding⟩ ∈ g.definitionsIn s) :
    ((g.lookupIn s space name).getLast?.map fun b => (s, b)) ≠ none := by
  have hmem : binding ∈ g.lookupIn s space name :=
    List.mem_filterMap.mpr ⟨_, h, by simp⟩
  have hne : g.lookupIn s space name ≠ [] := List.ne_nil_of_mem hmem
  simpa using hne

/-- A variable that the scopes have for a name is one that the name sees. -/
theorem exists_sees (hpaired : Paired log) (hroot : g.parent? 0 = none)
    (hstands : Stands c g log scope (c.regions n))
    (hlookup : g.lookup? scope .value (c.unit.text n) = some (s, .symbol id))
    (hdefined : ∃ d, .declared d id ∈ log ∧ c.unit.text d = c.unit.text n
      ∧ Chain c g log s (c.regions d))
    (hdeclared : ∀ d id, .declared d id ∈ log → ∃ s, Chain c g log s (c.regions d)
      ∧ ⟨.value, c.unit.text d, .symbol id⟩ ∈ g.definitionsIn s) : ∃ d, Sees c log n d id := by
  obtain ⟨d, hd, htext, hchain⟩ := hdefined
  obtain ⟨s', R', hR', hs', hfound, hnearer⟩ := hstands.chain.findSome?_outward hpaired hroot
    (Nat.le_of_lt hstands.lt_size) hlookup
  obtain ⟨binding, _, heq⟩ := Option.map_eq_some_iff.mp hfound
  cases heq
  obtain rfl := hs'.regions_eq hpaired hchain
  -- a scope that binds the name is not nearer than the one it was found in
  have hfar : ∀ s' R'' binding, R'' <:+ c.regions n → Chain c g log s' R'' →
      ⟨.value, c.unit.text n, binding⟩ ∈ g.definitionsIn s' →
      ¬ StrictlyInside R'' (c.regions d) :=
    fun s' R'' binding hR'' hs' hbound hin =>
      Scopes.getLast?_lookupIn hbound (hnearer s' R'' hR'' hs' hin.length_lt)
  refine ⟨d, hd, htext, hR', ?_, ?_⟩
  · intro d' id' hd' htext' hin
    obtain ⟨s'', hs'', hbound⟩ := hdeclared d' id' hd'
    rw [htext'] at hbound
    exact hfar s'' _ _ hin hs'' hbound
  · intro r R hR hfield
    obtain ⟨s'', binding, hs'', hbound⟩ := hstands.field hR hfield
    exact hfar s'' _ binding hR hs'' hbound

end Legible
