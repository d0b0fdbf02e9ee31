import Legible.Proofs.Binding.Shares

/-!
# Traversals with a log

`Trace.of` is the traversal of a unit with a log of what it comes by: the places it visits, the
scopes it opens and the variables it declares, the latest first. It runs the programs of the rules,
so what it does to the state is what the traversal does (`binder_of`).
-/

namespace Legible

/-- What a traversal comes by. -/
inductive Event where
  | visited (p : Place)
  | opened (scope : ScopeId) (p : Place)
  | declared (p : Place) (id : SymbolId)

/-- A state of a traversal and what it came by, the latest first. -/
structure Trace where
  binder : Binder := {}
  log : List Event := []

namespace Trace

open Binder

def note (t : Trace) (e : Event) : Trace := { t with log := e :: t.log }

def map (f : Binder → Binder) (t : Trace) : Trace := { t with binder := f t.binder }

/-- The number of the variable of a name that is declared next. -/
def variableId (kind : SymbolKind) (name : String) (b : Binder) : SymbolId :=
  (b.table.idOf? (b.variableKey kind name)).getD b.table.symbols.size

def declareVariable (c : BindingInput) (p : Place) (kind : SymbolKind)
    (types : Option String × Option StaticType) (t : Trace) : Trace :=
  let name := c.unit.text p
  let t' := t.map fun b => b.declareVariable c p kind types.1 types.2
  if name == "_" then t' else t'.note (.declared p (variableId kind name t.binder))

mutual

def exec (c : BindingInput) (visit : Place → Trace → Trace) : Step → Trace → Trace
  | .visit p, t => visit p t
  | .name p access meaning, t => t.map fun b => b.give p access (meaning b)
  | .note p type, t => t.map fun b => b.setType p (type b)
  | .declareType key simple, t => t.map fun b => (b.declareType key simple).1
  | .declareMember m, t => t.map (·.declare m)
  | .bindTypeVariable simple, t => t.map fun b => b.bind .type simple .typeVariable
  | .declareVariable p kind types before, t =>
    declareVariable c p kind (types t.binder) (execAll c visit before t)
  | .inScope p kind steps, t =>
    (execAll c visit steps
        ((t.note (.opened t.binder.table.scopes.size p)).map (·.openScope kind))).map
      (·.closeScope t.binder.scope)
  | .inMember key steps, t =>
    (execAll c visit steps (t.map fun b => { b with members := key :: b.members })).map
      fun b => { b with members := b.members.tail }
  | .inFrame frame steps, t =>
    (execAll c visit steps (t.map fun b => { b with frames := frame b :: b.frames })).map
      fun b => { b with frames := b.frames.tail }
  | .inSwitch subject steps, t =>
    (execAll c visit steps (t.map fun b => { b with switches := subject b :: b.switches })).map
      fun b => { b with switches := b.switches.tail }
  | .choose test yes no, t =>
    if test t.binder then execAll c visit yes t else execAll c visit no t

def execAll (c : BindingInput) (visit : Place → Trace → Trace) : List Step → Trace → Trace
  | [], t => t
  | s :: steps, t => execAll c visit steps (exec c visit s t)

end

/-- Visits a place and what is below it, for trees of at most `levels` levels. -/
def visit (c : BindingInput) : (levels : Nat) → Place → Trace → Trace
  | 0, _, t => t
  | levels + 1, p, t =>
    execAll c (visit c levels) (steps c t.binder.innermost? p) (t.note (.visited p))

def of (c : BindingInput) : Trace :=
  (execAll c (visit c c.unit.root.height) (unitSteps c) {}).map (·.closeScope 0)

/-! ## The log changes nothing -/

section Erase

variable {c : BindingInput} {visit : Place → Trace → Trace} {visit' : Visit}

@[simp] theorem execAll_nil (t : Trace) : execAll c visit [] t = t := by rw [execAll]

@[simp] theorem execAll_cons (s : Step) (steps : List Step) (t : Trace) :
    execAll c visit (s :: steps) t = execAll c visit steps (exec c visit s t) := by rw [execAll]

@[simp] theorem execAll_append (steps steps' : List Step) (t : Trace) :
    execAll c visit (steps ++ steps') t = execAll c visit steps' (execAll c visit steps t) := by
  induction steps generalizing t with
  | nil => simp
  | cons s steps ih => simp [ih]

@[simp] theorem binder_declareVariable (p : Place) (kind : SymbolKind)
    (types : Option String × Option StaticType) (t : Trace) :
    (declareVariable c p kind types t).binder
      = t.binder.declareVariable c p kind types.1 types.2 := by
  simp only [declareVariable]
  split <;> rfl

mutual

theorem binder_exec (hvisit : ∀ p t, (visit p t).binder = visit' p t.binder) :
    ∀ (s : Step) (t : Trace), (exec c visit s t).binder = s.run c visit' t.binder
  | .visit p, t => by simp only [exec, Step.run, hvisit]
  | .name .., _ | .note .., _ | .declareType .., _ | .declareMember _, _
  | .bindTypeVariable _, _ => by simp only [exec, Step.run, map]
  | .declareVariable p kind types before, t => by
      simp only [exec, Step.run, binder_declareVariable, binder_execAll hvisit before]
  | .inScope p kind steps, t => by
      simp only [exec, Step.run, map, note, Binder.inScope, binder_execAll hvisit steps]
  | .inMember _ steps, t | .inFrame _ steps, t | .inSwitch _ steps, t => by
      simp only [exec, Step.run, map, Binder.inMember, Binder.inFrame, Binder.inSwitch,
        binder_execAll hvisit steps]
  | .choose test yes no, t => by
      simp only [exec, Step.run]
      split
      · exact binder_execAll hvisit yes t
      · exact binder_execAll hvisit no t

theorem binder_execAll (hvisit : ∀ p t, (visit p t).binder = visit' p t.binder) :
    ∀ (steps : List Step) (t : Trace),
      (execAll c visit steps t).binder = Step.runAll c visit' steps t.binder
  | [], t => by simp only [execAll, Step.runAll]
  | s :: steps, t => by
      simp only [execAll, Step.runAll, binder_execAll hvisit steps, binder_exec hvisit s]

end

end Erase

theorem binder_visit (c : BindingInput) (levels : Nat) (p : Place) (t : Trace) :
    (visit c levels p t).binder = Binder.visit c levels p t.binder := by
  induction levels generalizing p t with
  | zero => rfl
  | succ levels ih =>
    rw [visit, binder_execAll ih, Binder.visit]
    rfl

/-- What a traversal with a log does to the state is what the traversal does. -/
theorem binder_of (c : BindingInput) : (of c).binder = Binder.traverse c := by
  simp only [of, map, binder_execAll (binder_visit c c.unit.root.height)]
  rfl

end Trace

end Legible
