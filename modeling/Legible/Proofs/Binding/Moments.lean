import Legible.Proofs.Binding.Discipline

/-!
# The moments of a traversal

`moments` lists the steps that the traversal of a unit takes, each with the state in which it is
taken. What a traversal comes by is read off its moments (`log_of`).
-/

namespace Legible

namespace Binder

/-- A step of a traversal, and the state in which it is taken. -/
structure Moment where
  step : Step
  state : Binder

mutual

/-- The moments of a step; `log` has those of the visit of a place. A variable is declared after the
steps before. -/
def Step.moments (c : BindingInput) (visit : Visit) (log : Place → Binder → List Moment) :
    Step → Binder → List Moment
  | .visit p, b => log p b
  | .name p access meaning, b => [⟨.name p access meaning, b⟩]
  | .note p type, b => [⟨.note p type, b⟩]
  | .declareType key simple, b => [⟨.declareType key simple, b⟩]
  | .declareMember m, b => [⟨.declareMember m, b⟩]
  | .bindTypeVariable simple, b => [⟨.bindTypeVariable simple, b⟩]
  | .declareVariable p kind types before, b =>
    Step.momentsAll c visit log before b
      ++ [⟨.declareVariable p kind types before, Step.runAll c visit before b⟩]
  | .inScope p kind steps, b =>
    ⟨.inScope p kind steps, b⟩ :: Step.momentsAll c visit log steps (b.openScope kind)
  | .inMember key steps, b =>
    Step.momentsAll c visit log steps { b with members := key :: b.members }
  | .inFrame frame steps, b =>
    Step.momentsAll c visit log steps { b with frames := frame b :: b.frames }
  | .inSwitch subject steps, b =>
    Step.momentsAll c visit log steps { b with switches := subject b :: b.switches }
  | .choose test yes no, b =>
    if test b then Step.momentsAll c visit log yes b else Step.momentsAll c visit log no b

def Step.momentsAll (c : BindingInput) (visit : Visit) (log : Place → Binder → List Moment) :
    List Step → Binder → List Moment
  | [], _ => []
  | s :: steps, b =>
    s.moments c visit log b ++ Step.momentsAll c visit log steps (s.run c visit b)

end

/-- The moments of the visit of a place, for trees of at most `levels` levels. -/
def visitMoments (c : BindingInput) : (levels : Nat) → Place → Binder → List Moment
  | 0, _, _ => []
  | levels + 1, p, b =>
    ⟨.visit p, b⟩
      :: Step.momentsAll c (visit c levels) (visitMoments c levels) (steps c b.innermost? p) b

/-- The moments of the traversal of a unit, in order. -/
def moments (c : BindingInput) : List Moment :=
  Step.momentsAll c (visit c c.unit.root.height) (visitMoments c c.unit.root.height)
    (unitSteps c) {}

section Lists

variable {c : BindingInput} {visit : Visit} {log : Place → Binder → List Moment}

@[simp] theorem momentsAll_nil (b : Binder) : Step.momentsAll c visit log [] b = [] := by
  rw [Step.momentsAll]

theorem runAll_singleton (s : Step) (b : Binder) : Step.runAll c visit [s] b = s.run c visit b := by
  rw [Step.runAll, Step.runAll]

theorem momentsAll_singleton (s : Step) (b : Binder) :
    Step.momentsAll c visit log [s] b = s.moments c visit log b := by
  rw [Step.momentsAll, momentsAll_nil, List.append_nil]

theorem momentsAll_append (steps steps' : List Step) (b : Binder) :
    Step.momentsAll c visit log (steps ++ steps') b
      = Step.momentsAll c visit log steps b
        ++ Step.momentsAll c visit log steps' (Step.runAll c visit steps b) := by
  induction steps generalizing b with
  | nil => rw [List.nil_append, momentsAll_nil, Step.runAll, List.nil_append]
  | cons s steps ih =>
    rw [List.cons_append, Step.momentsAll, Step.momentsAll, ih, Step.runAll, List.append_assoc]

/-- What holds of each of the steps holds of the steps in order. -/
theorem momentsAll_induction {P : Binder → Binder → List Moment → Prop} (hnil : ∀ b, P b b [])
    (htrans : ∀ {b b₁ b₂ ms ms'}, P b b₁ ms → P b₁ b₂ ms' → P b b₂ (ms ++ ms')) {steps : List Step}
    (hsteps : ∀ s ∈ steps, ∀ b, P b (s.run c visit b) (s.moments c visit log b)) (b : Binder) :
    P b (Step.runAll c visit steps b) (Step.momentsAll c visit log steps b) := by
  induction steps generalizing b with
  | nil =>
    rw [Step.runAll, momentsAll_nil]
    exact hnil b
  | cons s steps ih =>
    rw [Step.runAll, Step.momentsAll]
    exact htrans (hsteps s List.mem_cons_self b)
      (ih (fun s hs => hsteps s (List.mem_cons_of_mem _ hs)) _)

end Lists

end Binder

/-! ## Moments and the log -/

namespace Trace

open Binder

/-- What a traversal comes by at a moment. -/
def eventAt? (c : BindingInput) (m : Moment) : Option Event :=
  match m.step with
  | .visit p => some (.visited p)
  | .inScope p _ _ => some (.opened m.state.table.scopes.size p)
  | .declareVariable p kind _ _ =>
    if c.unit.text p == "_" then none
    else some (.declared p (variableId kind (c.unit.text p) m.state))
  | _ => none

/-- What a traversal comes by at some moments, the latest first. -/
def eventsAt (c : BindingInput) (log : List Moment) : List Event :=
  (log.filterMap (eventAt? c)).reverse

@[simp] theorem eventsAt_nil (c : BindingInput) : eventsAt c [] = [] := rfl

theorem eventsAt_append (c : BindingInput) (log log' : List Moment) :
    eventsAt c (log ++ log') = eventsAt c log' ++ eventsAt c log := by
  rw [eventsAt, List.filterMap_append, List.reverse_append, ← eventsAt, ← eventsAt]

theorem eventsAt_cons (c : BindingInput) (m : Moment) (log : List Moment) :
    eventsAt c (m :: log) = eventsAt c log ++ (eventAt? c m).toList := by
  rw [eventsAt, List.filterMap_cons]
  cases eventAt? c m <;> simp [eventsAt]

structure Follows (c : BindingInput) (visit : Place → Trace → Trace) (visit' : Visit)
    (log : Place → Binder → List Moment) : Prop where
  binder : ∀ p t, (visit p t).binder = visit' p t.binder
  log : ∀ p t, (visit p t).log = eventsAt c (log p t.binder) ++ t.log

variable {c : BindingInput} {visit : Place → Trace → Trace} {visit' : Visit}
  {visitLog : Place → Binder → List Moment}

theorem log_declareVariable (p : Place) (kind : SymbolKind)
    (types : Binder → Option String × Option StaticType) (before : List Step) (b : Binder)
    (t : Trace) : (declareVariable c p kind (types b) t).log
      = eventsAt c [⟨.declareVariable p kind types before, t.binder⟩] ++ t.log := by
  rw [eventsAt_cons, eventsAt_nil, List.nil_append]
  cases hname : c.unit.text p == "_" <;> simp [declareVariable, eventAt?, hname, note, map]

mutual

theorem log_exec (h : Follows c visit visit' visitLog) :
    ∀ (s : Step) (t : Trace), (exec c visit s t).log
      = eventsAt c (s.moments c visit' visitLog t.binder) ++ t.log
  | .visit p, t => by
      rw [exec, Step.moments]
      exact h.log p t
  | .name .., t | .note .., t | .declareType .., t | .declareMember _, t
  | .bindTypeVariable _, t => by
      rw [exec, Step.moments]
      rfl
  | .declareVariable p kind types before, t => by
      rw [exec, Step.moments, log_declareVariable p kind types before, log_execAll h before,
        eventsAt_append, List.append_assoc, binder_execAll h.binder before]
  | .inScope p kind steps, t => by
      rw [exec, Step.moments, eventsAt_cons, List.append_assoc]
      exact log_execAll h steps _
  | .inMember _ steps, t | .inFrame _ steps, t | .inSwitch _ steps, t => by
      rw [exec, Step.moments]
      exact log_execAll h steps _
  | .choose test yes no, t => by
      rw [exec, Step.moments]
      split
      · exact log_execAll h yes t
      · exact log_execAll h no t

theorem log_execAll (h : Follows c visit visit' visitLog) :
    ∀ (steps : List Step) (t : Trace), (execAll c visit steps t).log
      = eventsAt c (Step.momentsAll c visit' visitLog steps t.binder) ++ t.log
  | [], t => by
      rw [execAll, Step.momentsAll]
      rfl
  | s :: steps, t => by
      rw [execAll, Step.momentsAll, log_execAll h steps, log_exec h s, binder_exec h.binder,
        eventsAt_append, List.append_assoc]

end

theorem follows_visit (c : BindingInput) (levels : Nat) :
    Follows c (Trace.visit c levels) (Binder.visit c levels) (visitMoments c levels) := by
  induction levels with
  | zero => exact ⟨fun _ _ => rfl, fun _ _ => rfl⟩
  | succ levels ih =>
    refine ⟨binder_visit c (levels + 1), fun p t => ?_⟩
    rw [Trace.visit, log_execAll ih, visitMoments, eventsAt_cons, List.append_assoc]
    rfl

/-- What a traversal comes by is read off its moments. -/
theorem log_of (c : BindingInput) : (Trace.of c).log = eventsAt c (moments c) := by
  have hlog := log_execAll (follows_visit c c.unit.root.height) (unitSteps c) {}
  rwa [List.append_nil] at hlog

theorem visited_mem_log {p : Place} :
    .visited p ∈ (Trace.of c).log ↔ ∃ b, ⟨.visit p, b⟩ ∈ moments c := by
  rw [log_of, eventsAt, List.mem_reverse, List.mem_filterMap]
  constructor
  · rintro ⟨⟨step, b⟩, hm, heq⟩
    unfold eventAt? at heq
    split at heq
    · next hstep =>
        cases heq
        cases hstep
        exact ⟨b, hm⟩
    · cases heq
    · split at heq <;> cases heq
    · cases heq
  · rintro ⟨b, hm⟩
    exact ⟨⟨.visit p, b⟩, hm, rfl⟩

end Trace

end Legible
