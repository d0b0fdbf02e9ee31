import Legible.Binding.Binder

/-!
# Steps

What is done at a place is mostly settled by the tree and the index: which places are visited, in
which order, inside of which scopes, and what is declared. The state decides only what a name means,
which static types are noted, and whether the qualifier of a type name is a type itself. So the rule
for a construct is a program of steps, and `Step.run` runs it.
-/

namespace Legible

abbrev Visit := Place → Binder → Binder

namespace Binder

/-- A member of a type as it is declared ahead of the body. -/
structure Member where
  space : Namespace
  kind : SymbolKind
  key : String
  name : String
  declaredType : Option String
  /-- Its static type, in the state in which it is declared. -/
  type : Binder → Option StaticType
  arity : Option Arity
  /-- A record component is bound as a method too, for its accessor. -/
  accessor : Bool

/-- What the rules are made of. -/
inductive Step where
  | visit (p : Place)
  /-- Gives the name at `p` a resolution and the expression at `access` a type, as far as the state
  has them. -/
  | name (p access : Place) (meaning : Binder → Option Resolution × Option StaticType)
  | note (p : Place) (type : Binder → Option StaticType)
  | declareType (key name : String)
  | declareMember (m : Member)
  | bindTypeVariable (name : String)
  /-- Declares the variable named at `p` once the steps before are done, with the types that it has
  ahead of them. -/
  | declareVariable (p : Place) (kind : SymbolKind)
      (types : Binder → Option String × Option StaticType) (before : List Step)
  | inScope (p : Place) (kind : ScopeKind) (steps : List Step)
  | inMember (key : String) (steps : List Step)
  | inFrame (frame : Binder → TypeFrame) (steps : List Step)
  | inSwitch (subject : Binder → Option StaticType) (steps : List Step)
  | choose (test : Binder → Bool) (yes no : List Step)

def declare (m : Member) (b : Binder) : Binder :=
  let type := m.type b
  let (b, id) := b.declareMember m.space m.kind m.key m.name m.declaredType
  let b := if m.accessor then b.bind .method m.name (.symbol id) else b
  let b := match m.arity with
    | some arity => b.setArity id arity
    | none => b
  b.setSymbolType id type

/-- The state with what a name and the expression around it were found to be. -/
def give (p access : Place) (found : Option Resolution × Option StaticType) (b : Binder) : Binder :=
  (found.1.elim b (b.resolve p)).setType access found.2

mutual

/-- Runs a step; `visit` is how places are visited. -/
def Step.run (c : BindingInput) (visit : Visit) : Step → Binder → Binder
  | .visit p, b => visit p b
  | .name p access meaning, b => b.give p access (meaning b)
  | .note p type, b => b.setType p (type b)
  | .declareType key simple, b => (b.declareType key simple).1
  | .declareMember m, b => b.declare m
  | .bindTypeVariable simple, b => b.bind .type simple .typeVariable
  | .declareVariable p kind types before, b =>
    (Step.runAll c visit before b).declareVariable c p kind (types b).1 (types b).2
  | .inScope _ kind steps, b => b.inScope kind (Step.runAll c visit steps)
  | .inMember key steps, b => b.inMember key (Step.runAll c visit steps)
  | .inFrame frame steps, b => b.inFrame (frame b) (Step.runAll c visit steps)
  | .inSwitch subject steps, b => b.inSwitch (subject b) (Step.runAll c visit steps)
  | .choose test yes no, b =>
    if test b then Step.runAll c visit yes b else Step.runAll c visit no b

def Step.runAll (c : BindingInput) (visit : Visit) : List Step → Binder → Binder
  | [], b => b
  | s :: steps, b => Step.runAll c visit steps (s.run c visit b)

end

namespace Step

variable {c : BindingInput} {visit : Visit} {b : Binder}

@[simp] theorem run_visit {p : Place} : (Step.visit p).run c visit b = visit p b := by rw [run]

@[simp] theorem runAll_nil : runAll c visit [] b = b := by rw [runAll]

@[simp] theorem runAll_cons (s : Step) (steps : List Step) :
    runAll c visit (s :: steps) b = runAll c visit steps (s.run c visit b) := by rw [runAll]

@[simp] theorem runAll_append (steps steps' : List Step) :
    runAll c visit (steps ++ steps') b = runAll c visit steps' (runAll c visit steps b) := by
  induction steps generalizing b with
  | nil => simp
  | cons s steps ih => simp [ih]

theorem runAll_flatMap {α : Type} (f : α → List Step) (xs : List α) :
    runAll c visit (xs.flatMap f) b = xs.foldl (fun b x => runAll c visit (f x) b) b := by
  induction xs generalizing b with
  | nil => simp
  | cons x xs ih => simp [ih]

end Step

def Step.link (p : Place) (key : String) (found : Found) : Step :=
  .name p p fun b => (some (b.target key found), none)

def Step.keep (p : Place) : Step := .name p p fun _ => (some .keep, none)

/-- Visits the named children other than those in `skip`. -/
def exceptSteps (p : Place) (skip : List Place) : List Step :=
  (p.namedChildren.filter (!·.isIn skip)).map .visit

def childSteps (p : Place) : List Step := p.namedChildren.map .visit

end Binder

end Legible
