import Legible.Proofs.Binding.Homes

/-!
# Programs go down the tree

The program of a place visits places that are lower in the tree, so a traversal never runs out of
levels: where it comes by a place, all moments of the visit of that place are among its moments
(`exists_visitMoments`). And of names in expressions a program notes a static type only where it
resolves the name, so where a name is not resolved yet it has no static type
(`typeOf?_of_unresolved`).
-/

namespace Legible

open Binder Place

variable {q access : Place} {s : Step}

/-! ## Static types of names -/

/-- A name that has a static type has a resolution. -/
def Binder.TypedResolved (c : BindingInput) (b : Binder) : Prop :=
  ∀ p, c.Has p → Construct.of p = .identifier → b.typeOf? p ≠ none → b.table.resolution? p ≠ none

/-- Symbols and resolutions stay, and a name gets a static type only with a resolution. -/
structure Binder.Resolving (c : BindingInput) (b b' : Binder) : Prop where
  symbols : ∀ id s, b.table.symbol? id = some s → b'.table.symbol? id = some s
  kept : ∀ p r, b.table.resolution? p = some r → b'.table.resolution? p = some r
  types : ∀ p, c.Has p → Construct.of p = .identifier → b'.typeOf? p = b.typeOf? p
    ∨ b'.table.resolution? p ≠ none

namespace Binder.Resolving

variable {c : BindingInput} {b b₁ b₂ : Binder} {p : Place}

theorem of_eq (hsymbols : ∀ id s, b.table.symbol? id = some s → b₁.table.symbol? id = some s)
    (htypes : b₁.types = b.types) (hresolutions : b₁.table.resolutions = b.table.resolutions) :
    b.Resolving c b₁ where
  symbols := hsymbols
  kept p r hr := by
    rw [Symbols.resolution?, hresolutions]
    exact hr
  types p _ _ := .inl (by rw [typeOf?, htypes, typeOf?])

theorem refl (b : Binder) : b.Resolving c b := of_eq (fun _ _ hs => hs) rfl rfl

theorem ne_none (h : b.Resolving c b₁) (hne : b.table.resolution? p ≠ none) :
    b₁.table.resolution? p ≠ none := by
  obtain ⟨r, hr⟩ := Option.ne_none_iff_exists'.mp hne
  rw [h.kept p r hr]
  exact Option.some_ne_none r

theorem trans (h : b.Resolving c b₁) (h' : b₁.Resolving c b₂) : b.Resolving c b₂ where
  symbols id s hs := h'.symbols id s (h.symbols id s hs)
  kept p r hr := h'.kept p r (h.kept p r hr)
  types p hp hof := by
    rcases h'.types p hp hof with heq | hne
    · rw [heq]
      exact (h.types p hp hof).imp_right h'.ne_none
    · exact .inr hne

theorem typedResolved (h : b.Resolving c b₁) (hb : b.TypedResolved c) : b₁.TypedResolved c := by
  intro p hp hof hne
  rcases h.types p hp hof with heq | hne'
  · exact h.ne_none (hb p hp hof (heq ▸ hne))
  · exact hne'

theorem resolve (b : Binder) (p : Place) (r : Resolution) : b.Resolving c (b.resolve p r) where
  symbols _ _ hs := hs
  kept _ _ hr := Symbols.resolution?_resolve_of_eq_some hr r
  types _ _ _ := .inl rfl

theorem setType_eq_of_ne (hne : p.number ≠ q.number) (type : Option StaticType) :
    (b.setType p type).typeOf? q = b.typeOf? q := by
  cases type with
  | none => rfl
  | some t =>
    have hcompare : compare p.number q.number ≠ .eq := fun heq =>
      hne (Std.LawfulEqCmp.eq_of_compare heq)
    rw [setType, typeOf?, Std.TreeMap.getElem?_insert, if_neg hcompare, typeOf?]

/-- The type of an expression that is no name. -/
theorem setType (hshaped : c.unit.shapedOK = true) (hp : c.Has p)
    (hof : Construct.of p ≠ .identifier) (type : Option StaticType) :
    b.Resolving c (b.setType p type) where
  symbols id s hs := by rwa [(Trace.setType_eq b p type).1]
  kept q r hr := by rwa [(Trace.setType_eq b p type).1]
  types q hq hof' := by
    refine .inl (setType_eq_of_ne (fun hnumber => hof ?_) type)
    rwa [(parted_of_shapedOK hshaped).eq_of_number_eq hp hq hnumber]

theorem give (b : Binder) (q access : Place) {found : Option Resolution × Option StaticType}
    (htype : found.2 = none ∨ access = q ∧ found.1 ≠ none) :
    b.Resolving c (b.give q access found) := by
  obtain ⟨r, type⟩ := found
  cases r with
  | none =>
    rcases htype with rfl | ⟨-, hne⟩
    · exact .refl b
    · exact absurd rfl hne
  | some r =>
    have hresolved : b.Resolving c (b.resolve q r) := .resolve b q r
    rcases htype with rfl | ⟨rfl, -⟩
    · exact hresolved
    · have htable := (Trace.setType_eq (b.resolve access r) access type).1
      refine ⟨fun id s hs => ?_, fun p r' hr' => ?_, fun p hp hof => ?_⟩
      · rw [Binder.give, Option.elim_some, htable]
        exact hs
      · rw [Binder.give, Option.elim_some, htable]
        exact hresolved.kept p r' hr'
      · by_cases hnumber : access.number = p.number
        · right
          rw [Binder.give, Option.elim_some, htable]
          by_cases hnone : b.table.resolution? access = none
          · rw [Binder.resolve, Symbols.resolution?_resolve, if_pos ⟨hnumber, hnone⟩]
            exact Option.some_ne_none r
          · refine hresolved.ne_none ?_
            rwa [Symbols.resolution?, ← hnumber]
        · exact .inl (setType_eq_of_ne hnumber type)

theorem giveTyped (hshaped : c.unit.shapedOK = true) (haccess : c.Has access)
    (hof : Construct.of access ≠ .identifier) (q : Place)
    (found : Option Resolution × Option StaticType) : b.Resolving c (b.give q access found) := by
  obtain ⟨r, type⟩ := found
  cases r with
  | none => exact .setType hshaped haccess hof type
  | some r => exact (Resolving.resolve b q r).trans (.setType hshaped haccess hof type)

theorem declareVariable (b : Binder) (p : Place) (kind : SymbolKind)
    (declaredType : Option String) (type : Option StaticType) :
    b.Resolving c (b.declareVariable c p kind declaredType type) := by
  have htypes : (b.declareVariable c p kind declaredType type).types = b.types := by
    unfold Binder.declareVariable
    dsimp only
    split
    · rfl
    · split <;> cases type <;> rfl
  rcases declareVariable_cases c p kind declaredType type b with
    ⟨-, heq⟩ | ⟨-, s, -, -, -, -, htable, -⟩
  · rw [heq]
    exact .resolve b p .keep
  · refine ⟨fun id s' hs' => ?_, fun q r hr => ?_,
      fun q _ _ => .inl (by rw [typeOf?, htypes, typeOf?])⟩
    · rw [htable]
      exact Symbols.symbol?_add_of_symbol? s hs'
    · rw [htable]
      refine Symbols.resolution?_resolve_of_eq_some ?_ _
      rw [Symbols.resolution?, Trace.resolutions_declared]
      exact hr

theorem ahead (hs : s.isAhead = true) (visit : Visit) (b : Binder) :
    b.Resolving c (s.run c visit b) := by
  cases s with
  | declareType key name =>
    rw [Step.run]
    rcases declareType_cases b key name with ⟨id, -, heq⟩ | heq
    · rw [heq]
      exact .refl b
    · rw [heq]
      exact of_eq (fun _ _ hs => Symbols.symbol?_add_of_symbol? _ hs) rfl
        (Trace.resolutions_declared ..)
  | declareMember m =>
    rw [Step.run]
    obtain ⟨scopes, htable⟩ := table_declare m b
    refine of_eq (fun _ _ hs => ?_) ?_ ?_
    · rw [htable]
      exact Symbols.symbol?_add_of_symbol? _ hs
    · unfold Binder.declare Binder.declareMember
      cases m.type b <;> cases m.accessor <;> cases m.arity <;> rfl
    · rw [htable]
      exact Trace.resolutions_declared b m.space (Trace.memberSymbol m)
  | bindTypeVariable name =>
    rw [Step.run]
    exact of_eq (fun _ _ hs => hs) rfl rfl
  | _ => cases hs

end Binder.Resolving

/-! ## Runs -/

/-- The state in which a step has been taken that gives a name its meaning, or declares a type or a
member. -/
def Binder.Moment.result (m : Moment) : Binder :=
  match m.step with
  | .name q access meaning => m.state.give q access (meaning m.state)
  | .declareType key simple => (m.state.declareType key simple).1
  | .declareMember member => m.state.declare member
  | _ => m.state

/-- A part of a traversal: on the way nothing that was resolved is lost, and where a place is
visited there are levels left for all that is below it. -/
structure Stretch (c : BindingInput) (b b' : Binder) (ms : List Moment) : Prop where
  resolving : b.Resolving c b'
  before : ∀ m ∈ ms, b.Resolving c m.state
  onward : ∀ m ∈ ms, m.state.Resolving c b'
  after : ∀ m ∈ ms, m.result.Resolving c b'
  visits : ∀ p b, ⟨.visit p, b⟩ ∈ ms →
    ∃ levels, c.Below (levels + 1) p ∧ visitMoments c levels p b ⊆ ms

namespace Stretch

variable {c : BindingInput} {b b₁ b₂ : Binder} {ms ms' : List Moment}

theorem idle (h : b.Resolving c b₁) : Stretch c b b₁ [] where
  resolving := h
  before _ hm := by cases hm
  onward _ hm := by cases hm
  after _ hm := by cases hm
  visits _ _ hm := by cases hm

theorem trans (h : Stretch c b b₁ ms) (h' : Stretch c b₁ b₂ ms') :
    Stretch c b b₂ (ms ++ ms') where
  resolving := h.resolving.trans h'.resolving
  before m hm := by
    rcases List.mem_append.mp hm with hm | hm
    · exact h.before m hm
    · exact h.resolving.trans (h'.before m hm)
  onward m hm := by
    rcases List.mem_append.mp hm with hm | hm
    · exact (h.onward m hm).trans h'.resolving
    · exact h'.onward m hm
  after m hm := by
    rcases List.mem_append.mp hm with hm | hm
    · exact (h.after m hm).trans h'.resolving
    · exact h'.after m hm
  visits p b hm := by
    rcases List.mem_append.mp hm with hm | hm
    · obtain ⟨levels, hle, hsub⟩ := h.visits p b hm
      exact ⟨levels, hle, List.subset_append_of_subset_left _ hsub⟩
    · obtain ⟨levels, hle, hsub⟩ := h'.visits p b hm
      exact ⟨levels, hle, List.subset_append_of_subset_right _ hsub⟩

theorem within (h : Stretch c b₁ b₂ ms) (hfirst : b.Resolving c b₁) {b₃ : Binder}
    (hlast : b₂.Resolving c b₃) : Stretch c b b₃ ms := by
  have hall := ((idle hfirst).trans h).trans (idle hlast)
  rwa [List.nil_append, List.append_nil] at hall

/-- One step that visits nothing. -/
theorem single (hs : ∀ p, s ≠ .visit p) (h : (Moment.mk s b).result.Resolving c b₁)
    (hresult : b.Resolving c (Moment.mk s b).result) : Stretch c b b₁ [⟨s, b⟩] where
  resolving := hresult.trans h
  before m hm := by
    rw [List.mem_singleton.mp hm]
    exact .refl b
  onward m hm := by
    rw [List.mem_singleton.mp hm]
    exact hresult.trans h
  after m hm := by
    rw [List.mem_singleton.mp hm]
    exact h
  visits p b' hm := by
    cases List.mem_singleton.mp hm
    exact absurd rfl (hs p)

theorem ahead (hs : s.isAhead = true) (visit : Visit) (log : Place → Binder → List Moment)
    (b : Binder) : Stretch c b (s.run c visit b) (s.moments c visit log b) := by
  have hrun := Resolving.ahead (c := c) hs visit b
  cases s with
  | declareType key name | declareMember m =>
    rw [Step.run] at hrun ⊢
    rw [Step.moments]
    exact .single nofun (.refl _) hrun
  | bindTypeVariable name =>
    rw [Step.moments]
    exact .single nofun hrun (.refl b)
  | _ => cases hs

end Stretch

section Runs

variable {c : BindingInput} {levels : Nat} {visit : Visit} {log : Place → Binder → List Moment}
  {owner : Option String} {locals : List Place} {p : Place} {b : Binder}

theorem Course.stretch (hshaped : c.unit.shapedOK = true) {b' : Binder} {ms : List Moment}
    (h : Course c owner locals b b' ms) : Stretch c b b' ms := by
  induction h with
  | idle owner b => exact .idle (.refl b)
  | trans _ _ _ ih ih' => exact ih.trans ih'
  | @visit _ p levels b _ _ hp hms _ ih =>
    refine ⟨ih.resolving, List.forall_mem_cons.mpr ⟨.refl b, ih.before⟩,
      List.forall_mem_cons.mpr ⟨ih.resolving, ih.onward⟩,
      List.forall_mem_cons.mpr ⟨ih.resolving, ih.after⟩, fun q b' hm => ?_⟩
    rcases List.mem_cons.mp hm with heq | hm
    · cases heq
      refine ⟨levels + 1, hp, ?_⟩
      rw [visitMoments, hms]
      exact List.Subset.refl _
    · obtain ⟨levels', hle, hsub⟩ := ih.visits q b' hm
      exact ⟨levels', hle, List.subset_cons_of_subset _ hsub⟩
  | @name _ q access meaning h _ b =>
    refine .single (by simp) (.refl _) ?_
    cases h with
    | untyped h => exact .give b q access (.inl (h b))
    | name hsame h =>
      subst hsame h
      by_cases hnone : (nameMeaning c access b).2 = Option.none
      · exact .give b access access (.inl hnone)
      · exact .give b access access (.inr ⟨rfl, nameMeaning_resolves hnone⟩)
    | expression haccess hof _ => exact .giveTyped hshaped haccess hof q (meaning b)
  | @note _ _ hp hof type _ b => exact .single (by simp) (.setType hshaped hp hof (type b)) (.refl b)
  | declare h _ visit log b => exact .ahead h.isAhead visit log b
  | parameter => exact .single (by simp) (.declareVariable ..) (.refl _)
  | localVariable _ _ _ _ _ ih => exact ih.trans (.single (by simp) (.declareVariable ..) (.refl _))
  | @inScope _ _ b _ _ kind _ p steps ih =>
    have hopened : Stretch c b (b.openScope kind) [⟨.inScope p kind steps, b⟩] :=
      .single (by simp) (.of_eq (fun _ _ hs => hs) rfl rfl) (.refl b)
    exact (hopened.trans ih).within (.refl b) (.of_eq (fun _ _ hs => hs) rfl rfl)
  | inMember _ _ ih | inSwitch _ ih =>
    refine Stretch.within ih ?_ ?_ <;> exact .of_eq (fun _ _ hs => hs) rfl rfl
  | @inType _ _ b inside _ _ p key hp _ _ _ _ hinside visit log _ steps ih =>
    have hopened : Stretch c b inside [⟨.inScope p .typeBody steps, b⟩] :=
      .single (by simp) (hinside ▸ .of_eq (fun _ _ hs => hs) rfl rfl) (.refl b)
    have hahead := momentsAll_induction (P := Stretch c) (fun b => .idle (.refl b))
      (fun h h' => h.trans h')
      (fun s hs => Stretch.ahead (ahead_aheadSteps hp key s hs).isAhead visit log) inside
    exact (hopened.trans (hahead.trans ih)).within (.refl b) (.of_eq (fun _ _ hs => hs) rfl rfl)

theorem Introduces.runAll_congr {visit' : Visit} {steps : List Step}
    (h : Introduces c owner levels locals steps)
    (hvisit : ∀ q, c.Below levels q → visit q = visit' q) :
    Step.runAll c visit steps = Step.runAll c visit' steps := by
  funext b
  induction h generalizing b with
  | nil => rw [Step.runAll, Step.runAll]
  | append _ _ ih ih' => rw [Step.runAll_append, Step.runAll_append, ih, ih']
  | visit hq => rw [runAll_singleton, runAll_singleton, Step.run, Step.run, hvisit _ hq]
  | name | note => rw [runAll_singleton, runAll_singleton, Step.run, Step.run]
  | declare h => exact runAll_of_isAhead (by simpa using h.isAhead) visit visit' b
  | parameter =>
    rw [runAll_singleton, runAll_singleton, Step.run, Step.run, Step.runAll, Step.runAll]
  | localVariable _ _ _ ih => rw [runAll_singleton, runAll_singleton, Step.run, Step.run, ih]
  | inScope _ p kind ih | inMember _ key ih | inSwitch _ subject ih =>
    rw [runAll_singleton, runAll_singleton, Step.run, Step.run]
    simp only [ih, Binder.inScope, Binder.inMember, Binder.inSwitch]
  | @inType _ steps _ p key hp _ _ _ _ ih =>
    have hahead : ∀ b, Step.runAll c visit (aheadSteps c key p) b
        = Step.runAll c visit' (aheadSteps c key p) b :=
      runAll_of_isAhead (fun s hs => (ahead_aheadSteps hp key s hs).isAhead) visit visit'
    rw [runAll_singleton, runAll_singleton, Step.run, Step.run]
    simp only [Binder.inScope, runAll_singleton, Step.run, Binder.inFrame, Step.runAll_append, hahead,
      ih]
  | choose test _ _ ih ih' =>
    rw [runAll_singleton, runAll_singleton, Step.run, Step.run, ih, ih']

/-- A place is visited alike with all numbers of levels that are enough for it. -/
theorem visit_eq_of_below {levels' : Nat} (hp : c.Below (levels + 1) p)
    (hp' : c.Below (levels' + 1) p) : Binder.visit c levels p = Binder.visit c levels' p := by
  induction levels generalizing levels' p with
  | zero => exact absurd p.node.height_pos (Nat.not_lt_of_le (Nat.le_of_lt_succ hp.2))
  | succ levels ih =>
    cases levels' with
    | zero => exact absurd p.node.height_pos (Nat.not_lt_of_le (Nat.le_of_lt_succ hp'.2))
    | succ levels' =>
      funext b
      rw [Binder.visit, Binder.visit]
      refine congrFun ((introduces_steps hp.1 b.innermost?).runAll_congr fun q hq => ?_) b
      exact ih ⟨hq.1, Nat.lt_of_lt_of_le hq.2 (Nat.le_of_lt_succ hp.2)⟩
        ⟨hq.1, Nat.lt_of_lt_of_le hq.2 (Nat.le_of_lt_succ hp'.2)⟩

variable (hshaped : c.unit.shapedOK = true)

include hshaped

theorem stretch_moments : Stretch c {} (walked c) (moments c) :=
  (course_moments c).stretch hshaped

/-- Where a place is visited, all moments of that are among those of the traversal. -/
theorem exists_visitMoments (hm : ⟨.visit p, b⟩ ∈ moments c) :
    ∃ levels, c.Below (levels + 2) p
      ∧ Step.momentsAll c (Binder.visit c levels) (visitMoments c levels)
        (steps c b.innermost? p) b ⊆ moments c := by
  obtain ⟨levels, hle, hsub⟩ := (stretch_moments hshaped).visits p b hm
  cases levels with
  | zero => exact absurd hle.2 (Nat.not_lt_of_le p.node.height_pos)
  | succ levels =>
    rw [visitMoments, List.cons_subset] at hsub
    exact ⟨levels, hle, hsub.2⟩

/-- Where a name in an expression has no resolution yet, it has no static type. -/
theorem typeOf?_of_unresolved {m : Moment} (hm : m ∈ moments c) (hp : c.Has p)
    (hof : Construct.of p = .identifier) (hnone : m.state.table.resolution? p = none) :
    m.state.typeOf? p = none := by
  have hempty : ({} : Binder).TypedResolved c := fun p _ _ hne => absurd (by simp [typeOf?]) hne
  by_contra hne
  exact ((stretch_moments hshaped).before m hm).typedResolved hempty p hp hof hne hnone

/-- What a name is given stays, if the name had no resolution before. -/
theorem resolution?_traverse {meaning : Binder → Option Resolution × Option StaticType}
    (hm : ⟨.name q access meaning, b⟩ ∈ moments c) (hnone : b.table.resolution? q = none)
    {r : Resolution} (hr : (meaning b).1 = some r) : (traverse c).table.resolution? q = some r := by
  refine ((stretch_moments hshaped).after _ hm).kept q r ?_
  rw [Moment.result, (Trace.give_eq b q access (meaning b)).1, hr, Option.elim_some,
    Symbols.resolution?_resolve, if_pos ⟨rfl, hnone⟩]

end Runs

end Legible
