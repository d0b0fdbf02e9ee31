import Legible.Proofs.Binding.Chains

/-!
# Scopes are used in good order

A scope that is closed takes no more names, and says nothing about those that it refuses. So it has
to be shown that none is ever refused. `attempts` lists every name that the traversal of a unit sets
out to bind, with the scopes as they are at that moment, and `Orderly` says of a part of a traversal
what becomes of them: each name goes to an open scope and is found there later, scopes that were
there before stay open or closed as they were, and those that were opened on the way lie in earlier
ones and are closed. Every step of a program keeps this (`orderly_run`), so the visits of all places
do (`orderly_visit`), and so does the traversal of a unit (`scope_discipline`).
-/

namespace Legible

open Binder

/-! ## Names about to be bound -/

/-- A name about to be bound in a scope, and the scopes as they are then. -/
structure Attempt where
  scopes : Scopes
  scope : ScopeId
  definition : Definition

def boundIn (scope : ScopeId) (log : List Attempt) : List Definition :=
  (log.filter (·.scope == scope)).map (·.definition)

@[simp] theorem boundIn_append (scope : ScopeId) (log log' : List Attempt) :
    boundIn scope (log ++ log') = boundIn scope log ++ boundIn scope log' := by
  simp [boundIn]

theorem boundIn_singleton (s scope : ScopeId) (g : Scopes) (d : Definition) :
    boundIn s [⟨g, scope, d⟩] = if scope = s then [d] else [] := by
  by_cases h : scope = s <;> simp [boundIn, h]

namespace Binder

/-- A name about to be bound in the innermost scope. -/
def attempt (b : Binder) (space : Namespace) (name : String) (binding : Binding) : Attempt :=
  ⟨b.table.scopes, b.scope, ⟨space, name, binding⟩⟩

/-- What the declaration of a type binds: nothing if its key is declared already. -/
def typeAttempts (key name : String) (b : Binder) : List Attempt :=
  match b.table.idOf? key with
  | some _ => []
  | none =>
    let (b, id) := b.addSymbol { key, kind := .type, declaredName := name }
    [b.attempt .type name (.symbol id)]

/-- What the declaration of a member binds: its name, and that of the accessor if there is one. -/
def memberAttempts (m : Member) (b : Binder) : List Attempt :=
  let (b, id) := b.addSymbol
    { key := m.key, kind := m.kind, declaredName := m.name, declaredType := m.declaredType }
  b.attempt m.space m.name (.symbol id) ::
    if m.accessor then [(b.bind m.space m.name (.symbol id)).attempt .method m.name (.symbol id)]
    else []

/-- What the declaration of a variable binds: nothing if it is called `_`. -/
def variableAttempts (c : BindingInput) (p : Place) (kind : SymbolKind)
    (declaredType : Option String) (b : Binder) : List Attempt :=
  let name := c.unit.text p
  if name == "_" then []
  else
    let (b, id) := b.addSymbol
      { key := b.variableKey kind name, kind, declaredName := name, declaredType }
    [b.attempt .value name (.symbol id)]

mutual

/-- What a step sets out to bind; `log` says it of the visit of a place. -/
def Step.attempts (c : BindingInput) (visit : Visit) (log : Place → Binder → List Attempt) :
    Step → Binder → List Attempt
  | .visit p, b => log p b
  | .name .., _ => []
  | .note .., _ => []
  | .declareType key simple, b => b.typeAttempts key simple
  | .declareMember m, b => b.memberAttempts m
  | .bindTypeVariable simple, b => [b.attempt .type simple .typeVariable]
  | .declareVariable p kind types before, b =>
    Step.attemptsAll c visit log before b
      ++ (Step.runAll c visit before b).variableAttempts c p kind (types b).1
  | .inScope _ kind steps, b => Step.attemptsAll c visit log steps (b.openScope kind)
  | .inMember key steps, b =>
    Step.attemptsAll c visit log steps { b with members := key :: b.members }
  | .inFrame frame steps, b =>
    Step.attemptsAll c visit log steps { b with frames := frame b :: b.frames }
  | .inSwitch subject steps, b =>
    Step.attemptsAll c visit log steps { b with switches := subject b :: b.switches }
  | .choose test yes no, b =>
    if test b then Step.attemptsAll c visit log yes b else Step.attemptsAll c visit log no b

def Step.attemptsAll (c : BindingInput) (visit : Visit) (log : Place → Binder → List Attempt) :
    List Step → Binder → List Attempt
  | [], _ => []
  | s :: steps, b =>
    s.attempts c visit log b ++ Step.attemptsAll c visit log steps (s.run c visit b)

end

/-- What the visit of a place sets out to bind, for trees of at most `levels` levels. -/
def visitAttempts (c : BindingInput) : (levels : Nat) → Place → Binder → List Attempt
  | 0, _, _ => []
  | levels + 1, p, b =>
    Step.attemptsAll c (visit c levels) (visitAttempts c levels) (steps c b.innermost? p) b

/-- What the traversal of a unit sets out to bind, in order. -/
def attempts (c : BindingInput) : List Attempt :=
  Step.attemptsAll c (visit c c.unit.root.height) (visitAttempts c c.unit.root.height)
    (unitSteps c) {}

end Binder

/-! ## Good order -/

/-- A state in which names can be bound: the innermost scope is open, and nothing was closed that
is not there yet. -/
structure Binder.Ready (b : Binder) : Prop where
  lt_size : b.scope < b.table.scopes.size
  isOpen : b.table.scopes.isClosed b.scope = false
  unopened : ∀ s, b.table.scopes.size ≤ s → b.table.scopes.isClosed s = false

/-- The scopes `g'` come from `g` in good order, with the names of the log bound on the way. -/
structure Scopes.Orderly (g g' : Scopes) (log : List Attempt) : Prop where
  size : g.size ≤ g'.size
  parent : ∀ s < g.size, g'.parent? s = g.parent? s
  nested : ∀ s, g.size ≤ s → s < g'.size → ∃ outer < s, g'.parent? s = some outer
  isClosed : ∀ s < g.size, g'.isClosed s = g.isClosed s
  finished : ∀ s, g.size ≤ s → s < g'.size → g'.isClosed s = true
  unopened : ∀ s, g'.size ≤ s → g'.isClosed s = false
  accepted : ∀ a ∈ log, a.scopes.isClosed a.scope = false
  definitionsIn : ∀ s, g'.definitionsIn s = g.definitionsIn s ++ boundIn s log

namespace Scopes

variable {g g₁ g₂ : Scopes} {log log' : List Attempt}

namespace Orderly

theorem refl (hunopened : ∀ s, g.size ≤ s → g.isClosed s = false) : g.Orderly g [] where
  size := Nat.le_refl _
  parent _ _ := rfl
  nested s hle hlt := absurd hlt (Nat.not_lt_of_le hle)
  isClosed _ _ := rfl
  finished s hle hlt := absurd hlt (Nat.not_lt_of_le hle)
  unopened := hunopened
  accepted a ha := by cases ha
  definitionsIn s := by simp [boundIn]

theorem trans (h : g.Orderly g₁ log) (h' : g₁.Orderly g₂ log') : g.Orderly g₂ (log ++ log') where
  size := Nat.le_trans h.size h'.size
  parent s hs := (h'.parent s (Nat.lt_of_lt_of_le hs h.size)).trans (h.parent s hs)
  nested s hle hlt := by
    by_cases hs : s < g₁.size
    · rw [h'.parent s hs]
      exact h.nested s hle hs
    · exact h'.nested s (Nat.le_of_not_lt hs) hlt
  isClosed s hs := (h'.isClosed s (Nat.lt_of_lt_of_le hs h.size)).trans (h.isClosed s hs)
  finished s hle hlt := by
    by_cases hs : s < g₁.size
    · rw [h'.isClosed s hs]
      exact h.finished s hle hs
    · exact h'.finished s (Nat.le_of_not_lt hs) hlt
  unopened := h'.unopened
  accepted a ha := (List.mem_append.mp ha).elim (h.accepted a) (h'.accepted a)
  definitionsIn s := by rw [h'.definitionsIn, h.definitionsIn, boundIn_append, List.append_assoc]

/-- A name is bound in an open scope. -/
theorem define {scope : ScopeId} (hopen : g.isClosed scope = false)
    (hunopened : ∀ s, g.size ≤ s → g.isClosed s = false) (d : Definition) :
    g.Orderly (g.define scope d) [⟨g, scope, d⟩] := by
  have hsize := size_define g scope d
  have hclosed := isClosed_define g scope (d := d)
  refine
    { size := Nat.le_of_eq hsize.symm
      parent := fun s _ => parent?_define ..
      nested := fun s hle hlt => absurd (hsize ▸ hlt) (Nat.not_lt_of_le hle)
      isClosed := fun s _ => hclosed s
      finished := fun s hle hlt => absurd (hsize ▸ hlt) (Nat.not_lt_of_le hle)
      unopened := fun s hle => (hclosed s).trans (hunopened s (hsize ▸ hle))
      accepted := fun a ha => by rwa [List.mem_singleton.mp ha]
      definitionsIn := fun s => ?_ }
  rw [definitionsIn_define, boundIn_singleton]
  by_cases hs : scope = s
  · rw [if_pos ⟨hs, hs ▸ hopen⟩, if_pos hs]
  · rw [if_neg fun h => hs h.1, if_neg hs]

/-- A scope is opened, used in good order and closed. -/
theorem bracket {outer : ScopeId} {kind : ScopeKind} (houter : outer < g.size)
    (h : (g.openIn outer kind).Orderly g₁ log) : g.Orderly (g₁.close g.size) log := by
  have hsize : (g.openIn outer kind).size = g.size + 1 := size_openIn ..
  have hlt : g.size < g₁.size := Nat.lt_of_lt_of_le (by omega) h.size
  have hparent : ∀ s < g.size, (g.openIn outer kind).parent? s = g.parent? s := by
    intro s hs
    rw [parent?_openIn, if_neg (Nat.ne_of_lt hs)]
  refine
    { size := Nat.le_of_lt hlt
      parent := fun s hs => (h.parent s (by omega)).trans (hparent s hs)
      nested := fun s hle hs => ?_
      isClosed := fun s hs => ?_
      finished := fun s hle hs => ?_
      unopened := fun s hle => ?_
      accepted := h.accepted
      definitionsIn := h.definitionsIn }
  · rcases Nat.eq_or_lt_of_le hle with rfl | hle
    · exact ⟨outer, houter, (h.parent g.size (by omega)).trans (parent?_openIn_self g outer kind)⟩
    · exact h.nested s (by omega) hs
  · rw [isClosed_close, h.isClosed s (by omega), beq_eq_false_iff_ne.mpr (Nat.ne_of_gt hs)]
    rfl
  · rw [isClosed_close]
    rcases Nat.eq_or_lt_of_le hle with rfl | hle
    · simp
    · simp [h.finished s (by omega) hs]
  · have hne : g.size ≠ s := by
      have hle : g₁.size ≤ s := hle
      omega
    rw [isClosed_close, h.unopened s hle, beq_eq_false_iff_ne.mpr hne]
    rfl

end Orderly

end Scopes

/-- The state `b'` comes from `b` in good order: what was entered has been left again. -/
structure Binder.Orderly (b b' : Binder) (log : List Attempt) : Prop where
  scopes : b.table.scopes.Orderly b'.table.scopes log
  scope : b'.scope = b.scope
  frames : b'.frames = b.frames
  members : b'.members = b.members
  switches : b'.switches = b.switches

namespace Binder

variable {b b₁ b₂ : Binder} {log log' : List Attempt}

theorem Ready.openScope (h : b.Ready) (kind : ScopeKind) : (b.openScope kind).Ready := by
  have hsize : (b.openScope kind).table.scopes.size = b.table.scopes.size + 1 :=
    Scopes.size_openIn ..
  refine
    { lt_size := ?_
      isOpen := h.unopened b.table.scopes.size (Nat.le_refl _)
      unopened := fun s hle => h.unopened s (by omega) }
  rw [hsize]
  exact Nat.lt_succ_self _

namespace Orderly

theorem ready (h : b.Orderly b₁ log) (hb : b.Ready) : b₁.Ready where
  lt_size := by
    rw [h.scope]
    exact Nat.lt_of_lt_of_le hb.lt_size h.scopes.size
  isOpen := by
    rw [h.scope, h.scopes.isClosed _ hb.lt_size]
    exact hb.isOpen
  unopened := h.scopes.unopened

/-- A change that leaves the scopes and all that is around alone. -/
theorem of_eq (hb : b.Ready) (hscopes : b₁.table.scopes = b.table.scopes)
    (hscope : b₁.scope = b.scope) (hframes : b₁.frames = b.frames)
    (hmembers : b₁.members = b.members) (hswitches : b₁.switches = b.switches) :
    b.Orderly b₁ [] where
  scopes := by
    rw [hscopes]
    exact .refl hb.unopened
  scope := hscope
  frames := hframes
  members := hmembers
  switches := hswitches

theorem trans (h : b.Orderly b₁ log) (h' : b₁.Orderly b₂ log') :
    b.Orderly b₂ (log ++ log') where
  scopes := h.scopes.trans h'.scopes
  scope := h'.scope.trans h.scope
  frames := h'.frames.trans h.frames
  members := h'.members.trans h.members
  switches := h'.switches.trans h.switches

variable (hb : b.Ready)

include hb

theorem bind (space : Namespace) (name : String) (binding : Binding) :
    b.Orderly (b.bind space name binding) [b.attempt space name binding] where
  scopes := .define hb.isOpen hb.unopened _
  scope := rfl
  frames := rfl
  members := rfl
  switches := rfl

theorem resolve (p : Place) (r : Resolution) : b.Orderly (b.resolve p r) [] :=
  of_eq hb rfl rfl rfl rfl rfl

theorem setType (p : Place) (type : Option StaticType) : b.Orderly (b.setType p type) [] := by
  cases type <;> exact of_eq hb rfl rfl rfl rfl rfl

theorem setSymbolType (id : SymbolId) (type : Option StaticType) :
    b.Orderly (b.setSymbolType id type) [] := by
  cases type <;> exact of_eq hb rfl rfl rfl rfl rfl

theorem addSymbol (s : Symbol) : b.Orderly (b.addSymbol s).1 [] :=
  of_eq hb (b.table.scopes_add s) rfl rfl rfl rfl

theorem give (p access : Place) (found : Option Resolution × Option StaticType) :
    b.Orderly (b.give p access found) [] := by
  have hresolved : b.Orderly (found.1.elim b (b.resolve p)) [] := by
    cases found.1 with
    | none => exact of_eq hb rfl rfl rfl rfl rfl
    | some r => exact resolve hb p r
  exact hresolved.trans (setType (hresolved.ready hb) access found.2)

theorem declareType (key name : String) :
    b.Orderly (b.declareType key name).1 (b.typeAttempts key name) := by
  unfold Binder.declareType Binder.typeAttempts
  cases b.table.idOf? key with
  | some id => exact of_eq hb rfl rfl rfl rfl rfl
  | none =>
    have hadded := addSymbol hb { key, kind := .type, declaredName := name }
    exact hadded.trans (bind (hadded.ready hb) ..)

theorem declareMember (space : Namespace) (kind : SymbolKind) (key name : String)
    (type : Option String) {s : Symbol}
    (hs : s = { key, kind, declaredName := name, declaredType := type }) :
    b.Orderly (b.declareMember space kind key name type).1
      [(b.addSymbol s).1.attempt space name (.symbol (b.addSymbol s).2)] := by
  subst hs
  have hadded := addSymbol hb { key, kind, declaredName := name, declaredType := type }
  exact hadded.trans (bind (hadded.ready hb) ..)

theorem declare (m : Member) : b.Orderly (b.declare m) (b.memberAttempts m) := by
  -- what is noted behind the bindings of a member binds nothing
  have hnoted : ∀ {b' : Binder} {log : List Attempt} (id : SymbolId) (arity : Option Arity)
      (type : Option StaticType), b.Orderly b' log →
      b.Orderly ((arity.elim b' (b'.setArity id)).setSymbolType id type) log := by
    intro b' log id arity type h
    have harity : b'.Orderly (arity.elim b' (b'.setArity id)) [] := by
      cases arity <;> exact of_eq (h.ready hb) rfl rfl rfl rfl rfl
    have hboth := harity.trans (setSymbolType (harity.ready (h.ready hb)) id type)
    exact List.append_nil log ▸ h.trans hboth
  have hbound := declareMember hb m.space m.kind m.key m.name m.declaredType rfl
  unfold Binder.declare Binder.memberAttempts
  cases m.accessor with
  | false =>
    cases m.arity with
    | none => exact hnoted _ none _ hbound
    | some arity => exact hnoted _ (some arity) _ hbound
  | true =>
    have hboth := fun id => hbound.trans (bind (hbound.ready hb) .method m.name (.symbol id))
    cases m.arity with
    | none => exact hnoted _ none _ (hboth _)
    | some arity => exact hnoted _ (some arity) _ (hboth _)

theorem declareVariable (c : BindingInput) (p : Place) (kind : SymbolKind)
    (declaredType : Option String) (type : Option StaticType) :
    b.Orderly (b.declareVariable c p kind declaredType type)
      (b.variableAttempts c p kind declaredType) := by
  unfold Binder.declareVariable Binder.variableAttempts
  by_cases hname : (c.unit.text p == "_") = true
  · simp only [hname, if_true]
    exact of_eq hb rfl rfl rfl rfl rfl
  · simp only [hname]
    let s : Symbol :=
      { key := b.variableKey kind (c.unit.text p), kind, declaredName := c.unit.text p,
        declaredType }
    -- counting a local variable is noted outside of the table
    have hdeclared : ∀ counts, b.Orderly
        (((({ b with localCounts := counts }.addSymbol s).1.bind .value (c.unit.text p)
          (.symbol (b.addSymbol s).2)).resolve p (.symbol (b.addSymbol s).2)).setSymbolType
            (b.addSymbol s).2 type)
        [(b.addSymbol s).1.attempt .value (c.unit.text p) (.symbol (b.addSymbol s).2)] := by
      intro counts
      have hadded : b.Orderly ({ b with localCounts := counts }.addSymbol s).1 [] :=
        of_eq hb (b.table.scopes_add s) rfl rfl rfl rfl
      have hbound := hadded.trans
        (bind (hadded.ready hb) .value (c.unit.text p) (.symbol (b.addSymbol s).2))
      have hresolved := hbound.trans (resolve (hbound.ready hb) p (.symbol (b.addSymbol s).2))
      exact hresolved.trans (setSymbolType (hresolved.ready hb) _ type)
    by_cases hkind : kind = .parameter
    · simp only [hkind, if_true]
      subst hkind
      exact hdeclared b.localCounts
    · simp only [hkind, if_false]
      exact hdeclared _

end Orderly

/-! ## Programs keep good order -/

/-- Every visit that starts in a ready state is in good order. -/
def VisitsOrderly (visit : Visit) (log : Place → Binder → List Attempt) : Prop :=
  ∀ p (b : Binder), b.Ready → b.Orderly (visit p b) (log p b)

variable {c : BindingInput} {visit : Visit} {visitLog : Place → Binder → List Attempt}

mutual

theorem orderly_run (hvisit : VisitsOrderly visit visitLog) :
    ∀ (s : Step) (b : Binder), b.Ready → b.Orderly (s.run c visit b) (s.attempts c visit visitLog b)
  | .visit p, b, hb => by
      rw [Step.run, Step.attempts]
      exact hvisit p b hb
  | .name p access meaning, b, hb => by
      rw [Step.run, Step.attempts]
      exact .give hb p access (meaning b)
  | .note p type, b, hb => by
      rw [Step.run, Step.attempts]
      exact .setType hb p (type b)
  | .declareType key simple, b, hb => by
      rw [Step.run, Step.attempts]
      exact .declareType hb key simple
  | .declareMember m, b, hb => by
      rw [Step.run, Step.attempts]
      exact .declare hb m
  | .bindTypeVariable simple, b, hb => by
      rw [Step.run, Step.attempts]
      exact .bind hb .type simple .typeVariable
  | .declareVariable p kind types before, b, hb => by
      rw [Step.run, Step.attempts]
      have hbefore := orderly_runAll hvisit before b hb
      exact hbefore.trans (.declareVariable (hbefore.ready hb) c p kind (types b).1 (types b).2)
  | .inScope p kind steps, b, hb => by
      rw [Step.run, Step.attempts]
      have hinside := orderly_runAll hvisit steps (b.openScope kind) (hb.openScope kind)
      -- the scope that is closed at the end is the one that was opened
      have hclosed : (Step.runAll c visit steps (b.openScope kind)).scope = b.table.scopes.size :=
        hinside.scope
      refine
        { scopes := ?_
          scope := rfl
          __ := hinside
          switches := hinside.switches }
      rw [Binder.inScope, closeScope, hclosed]
      exact .bracket hb.lt_size hinside.scopes
  | .inMember key steps, b, hb => by
      rw [Step.run, Step.attempts]
      have hinside := orderly_runAll hvisit steps { b with members := key :: b.members }
        ⟨hb.lt_size, hb.isOpen, hb.unopened⟩
      exact ⟨hinside.scopes, hinside.scope, hinside.frames, congrArg List.tail hinside.members,
        hinside.switches⟩
  | .inFrame frame steps, b, hb => by
      rw [Step.run, Step.attempts]
      have hinside := orderly_runAll hvisit steps { b with frames := frame b :: b.frames }
        ⟨hb.lt_size, hb.isOpen, hb.unopened⟩
      exact ⟨hinside.scopes, hinside.scope, congrArg List.tail hinside.frames, hinside.members,
        hinside.switches⟩
  | .inSwitch subject steps, b, hb => by
      rw [Step.run, Step.attempts]
      have hinside := orderly_runAll hvisit steps { b with switches := subject b :: b.switches }
        ⟨hb.lt_size, hb.isOpen, hb.unopened⟩
      exact ⟨hinside.scopes, hinside.scope, hinside.frames, hinside.members,
        congrArg List.tail hinside.switches⟩
  | .choose test yes no, b, hb => by
      rw [Step.run, Step.attempts]
      split
      · exact orderly_runAll hvisit yes b hb
      · exact orderly_runAll hvisit no b hb

theorem orderly_runAll (hvisit : VisitsOrderly visit visitLog) :
    ∀ (steps : List Step) (b : Binder), b.Ready →
      b.Orderly (Step.runAll c visit steps b) (Step.attemptsAll c visit visitLog steps b)
  | [], b, hb => by
      rw [Step.runAll, Step.attemptsAll]
      exact .of_eq hb rfl rfl rfl rfl rfl
  | s :: steps, b, hb => by
      rw [Step.runAll, Step.attemptsAll]
      have hstep := orderly_run hvisit s b hb
      exact hstep.trans (orderly_runAll hvisit steps _ (hstep.ready hb))

end

theorem orderly_visit (c : BindingInput) (levels : Nat) :
    VisitsOrderly (Binder.visit c levels) (visitAttempts c levels) := by
  induction levels with
  | zero => exact fun p b hb => .of_eq hb rfl rfl rfl rfl rfl
  | succ levels ih =>
    intro p b hb
    rw [Binder.visit, visitAttempts]
    exact orderly_runAll ih _ b hb

theorem ready_empty : ({} : Binder).Ready where
  lt_size := Nat.zero_lt_one
  isOpen := by simp [Symbols.new, Scopes.new, Scopes.isClosed]
  unopened s _ := by simp [Symbols.new, Scopes.new, Scopes.isClosed]

theorem orderly_walked (c : BindingInput) : ({} : Binder).Orderly (walked c) (attempts c) := by
  rw [walked]
  exact orderly_runAll (orderly_visit c c.unit.root.height) (unitSteps c) {} ready_empty

end Binder

/-! ## The scopes of a unit -/

theorem Symbols.scopes_keepUnresolved (t : Symbols) (names : List Place) :
    (t.keepUnresolved names).scopes = t.scopes := by
  unfold keepUnresolved
  induction names generalizing t with
  | nil => rfl
  | cons q names ih => exact ih _

/-- While a unit is traversed every name goes to a scope that is open, and stays bound there. Every
scope but the root lies in an earlier one. When all is visited the traversal stands at the root
again, outside of all types, members and switches, and in the end every scope is closed. -/
theorem scope_discipline (d : Dictionary) (policy : NamingPolicy) (c : BindingInput) :
    let g := (Symbols.ofUnit d policy c).scopes
    (∀ a ∈ attempts c, a.scopes.isClosed a.scope = false)
      ∧ (∀ s, g.definitionsIn s = boundIn s (attempts c))
      ∧ (∀ s < g.size, s ≠ 0 → ∃ outer < s, g.parent? s = some outer)
      ∧ (∀ s < g.size, g.isClosed s = true)
      ∧ (walked c).scope = 0 ∧ (traverse c).scope = 0
      ∧ (traverse c).frames = [] ∧ (traverse c).members = [] ∧ (traverse c).switches = [] := by
  intro g
  have h := orderly_walked c
  have hg : g = (walked c).table.scopes.close 0 := by
    have hscopes : g = (traverse c).table.scopes := Symbols.scopes_keepUnresolved _ _
    have hroot : (walked c).scope = 0 := h.scope
    rw [hscopes, Binder.traverse, closeScope, hroot]
  have hfirst : ∀ s, s ≠ 0 → ({} : Binder).table.scopes.size ≤ s := fun s => Nat.pos_of_ne_zero
  refine ⟨h.scopes.accepted, fun s => ?_, fun s hs hne => ?_, fun s hs => ?_, h.scope, rfl,
    h.frames, h.members, h.switches⟩
  · rw [hg]
    exact (h.scopes.definitionsIn s).trans (by simp [Symbols.new, Scopes.new, Scopes.definitionsIn])
  · rw [hg] at hs ⊢
    exact h.scopes.nested s (hfirst s hne) hs
  · rw [hg] at hs ⊢
    rw [Scopes.isClosed_close, Bool.or_eq_true, beq_iff_eq]
    exact (eq_or_ne 0 s).imp_right fun hne => h.scopes.finished s (hfirst s hne.symm) hs

end Legible
