import Legible.Proofs.Binding.Descent
import Legible.Proofs.Binding.Redrawn

/-!
# Chains of binary expressions

An expression such as `a + b + c` nests to the left, and is visited operand by operand from the
innermost one. That is what comes of visiting every binary expression by itself, its left operand,
then its right one, before it gets its type (`visit_eq_visitNested`): one by one the left operands
turn from what is visited into what they are made of (`runAll_binarySteps`). Where nothing but
comments stands beside the operands, it is also what the rule for other constructs would do
(`binary_chain_eq_nested`).
-/

namespace Legible

open Binder

/-- Visits a place as `visit` does, but a binary expression inside of another by itself. -/
def Binder.visitNested (c : BindingInput) : (levels : Nat) → Visit
  | 0, _, b => b
  | levels + 1, p, b =>
    if p.kind = "binary_expression" then
      let b := (p.child? "left").elim b (visitNested c levels · b)
      let b := (p.child? "right").elim b (visitNested c levels · b)
      b.setType p (b.inferredType? c p)
    else Step.runAll c (visitNested c levels) (steps c b.innermost? p) b

variable {c : BindingInput} {levels : Nat} {p : Place}

theorem steps_of_binary (hkind : p.kind = "binary_expression") (owner : Option String) :
    steps c owner p = binarySteps c p := by
  simp [steps, Construct.of, Construct.of?, hkind]

theorem runAll_operandSteps (visit : Visit) (b : Binder) :
    Step.runAll c visit (operandSteps c p) b =
      let b := (p.child? "left").elim b (visit · b)
      let b := (p.child? "right").elim b (visit · b)
      b.setType p (b.inferredType? c p) := by
  cases hleft : p.child? "left" <;> cases hright : p.child? "right" <;>
    simp [operandSteps, rightSteps, hleft, hright, Step.run]

/-- The operands of the left operand are visited as the left operand is. -/
theorem runAll_binarySteps (hp : c.Below (levels + 2) p) (b : Binder) :
    Step.runAll c (visit c levels) (binarySteps c p) b
      = Step.runAll c (visit c levels) (operandSteps c p) b := by
  by_cases h : ∃ left, p.child? "left" = some left ∧ left.kind = "binary_expression"
  · obtain ⟨left, hleft, hkind⟩ := h
    have hbelow : c.Below (levels + 1) left := hp.role hleft
    cases levels with
    | zero => exact absurd left.node.height_pos (Nat.not_lt_of_le (Nat.le_of_lt_succ hbelow.2))
    | succ levels =>
      have hintroduces : Introduces c none (levels + 1) [] (binarySteps c left) :=
        introduces_binarySteps hbelow hkind
      have hvisit : Step.runAll c (visit c (levels + 1)) (binarySteps c left) b
          = visit c (levels + 1) left b := by
        rw [visit, steps_of_binary hkind]
        exact congrFun (hintroduces.runAll_congr fun q hq => visit_eq_of_below hq.weaken hq) b
      rw [binarySteps_eq_append hleft hkind, Step.runAll_append, hvisit, operandSteps, hleft,
        Step.runAll_append]
      simp
  · rw [binarySteps_eq_operandSteps fun left hleft hkind => h ⟨left, hleft, hkind⟩]

theorem visit_eq_visitNested (hp : c.Below (levels + 1) p) :
    visit c levels p = visitNested c levels p := by
  induction levels generalizing p with
  | zero => rfl
  | succ levels ih =>
    funext b
    rw [visit, visitNested]
    by_cases hkind : p.kind = "binary_expression"
    · have hintroduces : Introduces c none (levels + 1) [] (operandSteps c p) :=
        introduces_operandSteps hp hkind
      rw [steps_of_binary hkind, runAll_binarySteps hp, if_pos hkind,
        hintroduces.runAll_congr fun q hq => ih hq, runAll_operandSteps]
    · rw [if_neg hkind]
      refine congrFun ((introduces_steps hp.1 b.innermost?).runAll_congr fun q hq => ih ?_) b
      exact ⟨hq.1, Nat.lt_of_lt_of_le hq.2 (Nat.le_of_lt_succ hp.2)⟩

theorem runAll_visits_filter {visit : Visit} (hskip : ∀ q b, q.isRemark = true → visit q b = b)
    (qs : List Place) (b : Binder) : Step.runAll c visit (qs.map .visit) b
      = Step.runAll c visit ((qs.filter (!·.isRemark)).map .visit) b := by
  induction qs generalizing b with
  | nil => rfl
  | cons q qs ih => cases hq : q.isRemark <;> simp [hq, ih, hskip]

/-- Visiting a chain of binary expressions from the innermost outward leaves the state that the
plain recursion leaves, in which each visits its left operand, then its right one, and gets its
type; and the one that going through all parts of the expression leaves. -/
theorem binary_chain_eq_nested (hp : c.Has p) (hlevels : p.node.height ≤ levels + 1)
    (hkind : p.kind = "binary_expression")
    (hoperands : p.namedChildren.filter (!·.isRemark)
      = (p.child? "left").toList ++ (p.child? "right").toList) (b : Binder) :
    Step.runAll c (visit c levels) (binarySteps c p) b = visitNested c (levels + 1) p b
      ∧ Step.runAll c (visit c levels) (binarySteps c p) b = Step.runAll c (visit c levels)
        (childSteps p ++ [.note p fun b => b.inferredType? c p]) b := by
  have hbelow : c.Below (levels + 2) p := ⟨hp, Nat.lt_succ_of_le hlevels⟩
  constructor
  · rw [← visit_eq_visitNested hbelow, visit, steps_of_binary hkind]
  · rw [runAll_binarySteps hbelow, operandSteps, rightSteps, ← List.append_assoc,
      ← List.map_append, ← hoperands, Step.runAll_append, Step.runAll_append, childSteps,
      ← runAll_visits_filter fun q b hq => visit_of_isRemark hq levels b]

/-- The class `A` with a field that is a sum of three, and a comment in it. -/
def Sample.sum : SourceUnit where
  path := "A.java"
  source := "class A\x7bint a=1+2/*c*/+3;\x7d"
  root := open Sample in
    node 0 "program" 0 26 none [
     node 1 "class_declaration" 0 26 none [mark 2 "class" 0 5, name 3 6 7 "name",
      node 4 "class_body" 7 26 (some "body") [mark 5 "\x7b" 7 8,
       node 6 "field_declaration" 8 25 none [
        node 7 "integral_type" 8 11 (some "type") [mark 8 "int" 8 11],
        node 9 "variable_declarator" 12 24 (some "declarator") [name 10 12 13 "name",
         mark 11 "=" 13 14,
         node 12 "binary_expression" 14 24 (some "value") [
          node 13 "binary_expression" 14 17 (some "left") [
           node 14 "decimal_integer_literal" 14 15 (some "left") [], mark 15 "+" 15 16,
           node 16 "decimal_integer_literal" 16 17 (some "right") []],
          node 17 "block_comment" 17 22 none [], mark 18 "+" 22 23,
          node 19 "decimal_integer_literal" 23 24 (some "right") []]], mark 20 ";" 24 25],
       mark 21 "\x7d" 25 26]]]

/-- A chain with a comment in it. -/
theorem binary_chain_of_sum :
    let c : BindingInput := ⟨Sample.sum, 0, Index.build [Sample.sum]⟩
    ∃ p, c.Has p ∧ p.node.height ≤ 3 ∧ p.kind = "binary_expression"
      ∧ (leftSpine p.node.height p).length = 2 ∧ p.namedChildren.length = 3
      ∧ ∀ b, visit c 3 p b = visitNested c 3 p b := by
  intro c
  let p := c.unit.root.places.get ⟨12, by decide +kernel⟩
  have hkind : p.kind = "binary_expression" := by decide +kernel
  refine ⟨p, List.get_mem .., by decide +kernel, hkind, by decide +kernel, by decide +kernel,
    fun b => ?_⟩
  rw [visit, steps_of_binary hkind]
  exact (binary_chain_eq_nested (List.get_mem ..) (by decide +kernel) hkind rfl b).1

end Legible
