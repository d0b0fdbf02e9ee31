import Legible.Proofs.Binding.Declarations
import Legible.Proofs.Binding.Moments

/-!
# The course of a traversal

`Course c owner locals b b' ms` says how a program of the rules takes the state `b` to `b'`: by
steps at the moments `ms`, inside of the type `owner`, with the local variables at `locals` declared
by the program itself. What is visited on the way belongs to its course. The traversal of a unit is
one course (`course_moments`), so what a traversal keeps is shown by one induction, with a case for
each kind of step.
-/

namespace Legible

open Binder

/-- A program inside of the type `owner` leads from one state to another. -/
inductive Course (c : BindingInput) :
    Option String → List Place → Binder → Binder → List Moment → Prop
  | idle (owner : Option String) (b : Binder) : Course c owner [] b b []
  | trans {owner : Option String} {locals locals' : List Place} {b b₁ b₂ : Binder}
      {ms ms' : List Moment} (h : Course c owner locals b b₁ ms)
      (hdone : b.Ready → ∃ log, b.Orderly b₁ log) (h' : Course c owner locals' b₁ b₂ ms') :
      Course c owner (locals ++ locals') b b₂ (ms ++ ms')
  /-- The program of a place runs inside of the innermost type, with levels left for all below. -/
  | visit {owner : Option String} {p : Place} {levels : Nat} {b b' : Binder} {ms : List Moment}
      (hp : c.Below (levels + 2) p)
      (hms : ms = Step.momentsAll c (Binder.visit c levels) (visitMoments c levels)
        (steps c b.innermost? p) b)
      (h : Course c b.innermost? p.localNames b b' ms) : Course c owner [] b b' (⟨.visit p, b⟩ :: ms)
  | name {owner : Option String} {q access : Place}
      {meaning : Binder → Option Resolution × Option StaticType} (h : Typing c q access meaning)
      (hgrounded : Grounded meaning) (b : Binder) :
      Course c owner [] b (b.give q access (meaning b)) [⟨.name q access meaning, b⟩]
  | note {owner : Option String} {p : Place} (hp : c.Has p) (hof : Construct.of p ≠ .identifier)
      {type : Binder → Option StaticType} (h : NotedType c type) (b : Binder) :
      Course c owner [] b (b.setType p (type b)) [⟨.note p type, b⟩]
  | declare {owner : Option String} {key : String} {s : Step} (h : Ahead c key s)
      (hs : ∀ m, s ≠ .declareMember m) (visit : Visit) (log : Place → Binder → List Moment)
      (b : Binder) : Course c owner [] b (s.run c visit b) (s.moments c visit log b)
  | parameter {owner : Option String} {q : Place} (hq : c.Named q)
      {types : Binder → Option String × Option StaticType} (htypes : VariableTypes c types)
      (b : Binder) : Course c owner [] b (b.declareVariable c q .parameter (types b).1 (types b).2)
        [⟨.declareVariable q .parameter types [], b⟩]
  | localVariable {owner : Option String} {q : Place} (hq : c.Named q)
      {types : Binder → Option String × Option StaticType} (htypes : VariableTypes c types)
      {b b₁ : Binder} {ms : List Moment} (h : Course c owner [] b b₁ ms)
      (hdone : b.Ready → ∃ log, b.Orderly b₁ log) (before : List Step) :
      Course c owner [q] b (b₁.declareVariable c q .localVariable (types b).1 (types b).2)
        (ms ++ [⟨.declareVariable q .localVariable types before, b₁⟩])
  | inScope {owner : Option String} {locals : List Place} {b b' : Binder} {ms : List Moment}
      {kind : ScopeKind} (h : Course c owner locals (b.openScope kind) b' ms) (p : Place)
      (steps : List Step) :
      Course c owner locals b (b'.closeScope b.scope) (⟨.inScope p kind steps, b⟩ :: ms)
  | inMember {owner : Option String} {locals : List Place} {b b' : Binder} {ms : List Moment}
      {key : String} (hkey : InnerKey c owner key)
      (h : Course c owner locals { b with members := key :: b.members } b' ms) :
      Course c owner locals b { b' with members := b'.members.tail } ms
  | inSwitch {owner : Option String} {locals : List Place} {b b' : Binder} {ms : List Moment}
      {subject : Option StaticType}
      (h : Course c owner locals { b with switches := subject :: b.switches } b' ms) :
      Course c owner locals b { b' with switches := b'.switches.tail } ms
  /-- The members of a type are declared ahead of all else in its body. -/
  | inType {owner : Option String} {locals : List Place} {b inside b' : Binder} {ms : List Moment}
      {p : Place} {key : String} (hp : c.Has p) (hkey : c.index.typeAt? c.number p = some key)
      {frame : TypeFrame} (hframe : frame.name = key)
      (hsymbol : ∀ id, frame.symbol = some id → (b.openScope .typeBody).table.idOf? key = some id)
      (hinside : inside = { b.openScope .typeBody with frames := frame :: b.frames })
      (visit : Visit) (log : Place → Binder → List Moment)
      (h : Course c owner locals (Step.runAll c visit (aheadSteps c key p) inside) b' ms)
      (steps : List Step) :
      Course c owner locals b ({ b' with frames := b'.frames.tail }.closeScope b.scope)
        (⟨.inScope p .typeBody steps, b⟩
          :: (Step.momentsAll c visit log (aheadSteps c key p) inside ++ ms))

section Programs

variable {c : BindingInput} {visit : Visit} {log : Place → Binder → List Moment}
  {attempts : Place → Binder → List Attempt} {owner : Option String} {levels : Nat}

/-- A program that the rules make takes its course if the visits of places do. -/
theorem Introduces.course (horderly : VisitsOrderly visit attempts)
    (hvisit : ∀ q b owner, c.Below levels q → Course c owner [] b (visit q b) (log q b))
    {locals : List Place} {steps : List Step} (h : Introduces c owner levels locals steps)
    (b : Binder) :
    Course c owner locals b (Step.runAll c visit steps b) (Step.momentsAll c visit log steps b) := by
  have hdone : ∀ (steps : List Step) (b : Binder), b.Ready →
      ∃ log, b.Orderly (Step.runAll c visit steps b) log :=
    fun steps b hb => ⟨_, orderly_runAll horderly steps b hb⟩
  induction h generalizing b with
  | nil =>
    rw [Step.runAll, momentsAll_nil]
    exact .idle owner b
  | append _ _ ih ih' =>
    rw [Step.runAll_append, momentsAll_append]
    exact (ih b).trans (hdone _ b) (ih' _)
  | visit hq =>
    rw [runAll_singleton, momentsAll_singleton, Step.run, Step.moments]
    exact hvisit _ b owner hq
  | name h hgrounded =>
    rw [runAll_singleton, momentsAll_singleton, Step.run, Step.moments]
    exact .name h hgrounded b
  | note hp hof h =>
    rw [runAll_singleton, momentsAll_singleton, Step.run, Step.moments]
    exact .note hp hof h b
  | declare h hs =>
    rw [runAll_singleton, momentsAll_singleton]
    exact .declare h hs visit log b
  | parameter hq htypes =>
    rw [runAll_singleton, momentsAll_singleton, Step.run, Step.moments, momentsAll_nil,
      Step.runAll]
    exact .parameter hq htypes b
  | localVariable hq htypes _ ih =>
    rw [runAll_singleton, momentsAll_singleton, Step.run, Step.moments]
    exact .localVariable hq htypes (ih b) (hdone _ b) _
  | inScope _ p kind ih =>
    rw [runAll_singleton, momentsAll_singleton, Step.run, Step.moments]
    exact .inScope (ih (b.openScope kind)) p _
  | inMember _ hkey ih =>
    rw [runAll_singleton, momentsAll_singleton, Step.run, Step.moments]
    exact .inMember hkey (ih _)
  | inSwitch _ subject ih =>
    rw [runAll_singleton, momentsAll_singleton, Step.run, Step.moments]
    exact .inSwitch (ih _)
  | inType _ hp hkey hframe hsymbol ih =>
    rw [runAll_singleton, momentsAll_singleton, Step.run, Step.moments, Binder.inScope,
      runAll_singleton, momentsAll_singleton, Step.run, Step.moments, Binder.inFrame,
      Step.runAll_append, momentsAll_append]
    exact .inType hp hkey (hframe _) (hsymbol _) rfl visit log (ih _) _
  | choose test _ _ ih ih' =>
    rw [runAll_singleton, momentsAll_singleton, Step.run, Step.moments]
    split
    · exact ih b
    · exact ih' b

/-- The visit of a place takes its course if there are levels for all that is below it. -/
theorem course_visit {p : Place} (hp : c.Below (levels + 1) p) (b : Binder) (owner : Option String) :
    Course c owner [] b (Binder.visit c levels p b) (visitMoments c levels p b) := by
  induction levels generalizing p b owner with
  | zero => exact absurd p.node.height_pos (Nat.not_lt_of_le (Nat.le_of_lt_succ hp.2))
  | succ levels ih =>
    rw [Binder.visit, visitMoments]
    refine .visit hp rfl ((introduces_steps hp.1 b.innermost?).course (orderly_visit c levels)
      (fun q b owner hq => ih ?_ b owner) b)
    exact ⟨hq.1, Nat.lt_of_lt_of_le hq.2 (Nat.le_of_lt_succ hp.2)⟩

/-- The traversal of a unit is one course. -/
theorem course_moments (c : BindingInput) : Course c none [] {} (walked c) (moments c) := by
  rw [moments, walked]
  exact (introduces_unitSteps c).course (orderly_visit c _)
    (fun q b owner hq => course_visit hq.weaken b owner) {}

end Programs

end Legible
