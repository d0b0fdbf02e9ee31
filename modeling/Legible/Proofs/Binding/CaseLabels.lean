import Legible.Proofs.Binding.Outcomes

/-!
# Case labels

A name that is the label of a case is looked for among the constants of the subject's type first.
-/

namespace Legible

open Binder Place

def Binder.resolveName (c : BindingInput) (p : Place) (name : String) (b : Binder) : Binder :=
  b.give p p (ordinaryMeaning c p name b)

/-- The names that are labels of the groups and rules of a switch. -/
def Place.caseNames (body : Place) : List Place :=
  let groups := body.namedChildren.filter fun q =>
    q.kind == "switch_block_statement_group" || q.kind == "switch_rule"
  let labels := groups.flatMap fun group => group.namedChildren.filter (·.kind == "switch_label")
  labels.flatMap fun label => label.namedChildren.filter (·.kind == "identifier")

/-- The name `p` stands in the label `label` of the group or rule `group` of a switch. -/
structure Place.LabelsCase (body group label p : Place) : Prop where
  groupIn : group ∈ body.namedChildren
  groupKind : group.kind = "switch_block_statement_group" ∨ group.kind = "switch_rule"
  labelIn : label ∈ group.namedChildren
  labelKind : label.kind = "switch_label"
  nameIn : p ∈ label.namedChildren
  kind : p.kind = "identifier"

theorem Place.mem_caseNames {body p : Place} :
    p ∈ body.caseNames ↔ ∃ group label, LabelsCase body group label p := by
  simp only [caseNames, List.mem_flatMap, List.mem_filter, Bool.or_eq_true, beq_iff_eq]
  constructor
  · rintro ⟨label, ⟨group, ⟨hgroup, hkind⟩, hlabel, hkind'⟩, hp, hkind''⟩
    exact ⟨group, label, hgroup, hkind, hlabel, hkind', hp, hkind''⟩
  · rintro ⟨group, label, h⟩
    exact ⟨label, ⟨group, ⟨h.groupIn, h.groupKind⟩, h.labelIn, h.labelKind⟩, h.nameIn, h.kind⟩

/-! ## The way to a label -/

section Labels

variable {c : BindingInput} {b : Binder} {p q : Place}

/-- Of places that are visited in turn, each is visited in the switches that are around all. -/
theorem exists_visit_of_mem {levels : Nat} {qs : List Place} (hb : b.Ready)
    (hsub : Step.momentsAll c (Binder.visit c levels) (visitMoments c levels) (qs.map .visit) b
      ⊆ moments c) (hq : q ∈ qs) (hbelow : c.Below (levels + 1) q) :
    ∃ b', ⟨.visit q, b'⟩ ∈ moments c ∧ b'.switches = b.switches := by
  obtain ⟨before, after, rfl⟩ := List.append_of_mem hq
  rw [List.map_append, momentsAll_append, List.append_subset, List.map_cons, Step.momentsAll,
    List.append_subset, Step.moments] at hsub
  refine ⟨Step.runAll c (Binder.visit c levels) (before.map .visit) b, hsub.2.1 ?_,
    (orderly_runAll (orderly_visit c levels) _ b hb).switches⟩
  obtain ⟨n, rfl⟩ : ∃ n, levels = n + 1 :=
    ⟨levels - 1, by have := q.node.height_pos; have := hbelow.2; omega⟩
  rw [visitMoments]
  exact List.mem_cons_self

/-- What has no rule of its own is gone through. -/
theorem exists_visit_of_other (hshaped : c.unit.shapedOK = true) (hm : ⟨.visit p, b⟩ ∈ moments c)
    (hof : Construct.of p = .other) (hkind : p.kind ≠ "binary_expression")
    (hq : q ∈ p.namedChildren) : ∃ b', ⟨.visit q, b'⟩ ∈ moments c ∧ b'.switches = b.switches := by
  obtain ⟨levels, hbelow, hsub⟩ := exists_visitMoments hshaped hm
  obtain ⟨homes, hsettled⟩ := exists_settled hshaped hm rfl
  have hsteps : steps c b.innermost? p
      = childSteps p ++ [.note p fun b => b.inferredType? c p] := by
    simp [steps, hof, hkind]
  rw [hsteps, momentsAll_append, List.append_subset] at hsub
  exact exists_visit_of_mem hsettled.ready hsub.1 hq (hbelow.named hq)

/-- The labels of a switch are visited in the switch, whose subject has been visited. -/
theorem exists_visit_of_caseName (hshaped : c.unit.shapedOK = true) {s subject body : Place}
    (hm : ⟨.visit s, b⟩ ∈ moments c) (hof : Construct.of s = .switch (some subject) body)
    (hp : p ∈ body.caseNames) : ∃ b', ⟨.visit p, b'⟩ ∈ moments c
      ∧ b'.switches.head? = some ((b.visit c subject.node.height subject).typeOf? subject) := by
  obtain ⟨group, label, hcase⟩ := Place.mem_caseNames.mp hp
  obtain ⟨levels, hbelow, hsub⟩ := exists_visitMoments hshaped hm
  obtain ⟨homes, hsettled⟩ := exists_settled hshaped hm rfl
  obtain ⟨hsubject, hbody⟩ := Construct.partsOf hof
  have hbelow' : c.Below (levels + 1) subject := hbelow.role hsubject.symm
  have hvisit : b.visit c levels subject = b.visit c subject.node.height subject :=
    congrFun (visit_eq_of_below hbelow' ⟨hbelow'.1, Nat.lt_succ_self _⟩) b
  have hsteps : steps c b.innermost? s = switchSteps s (some subject) body := by
    simp only [steps, hof]
  rw [hsteps, switchSteps, momentsAll_append, List.append_subset, momentsAll_singleton,
    Step.moments, momentsAll_singleton, Step.moments, List.cons_subset, Option.toList_some,
    List.map_cons, List.map_nil, runAll_singleton, Step.run, hvisit] at hsub
  let b₁ := b.visit c subject.node.height subject
  let inside : Binder := { b₁ with switches := b₁.typeOf? subject :: b₁.switches }
  have hready : b₁.Ready := (orderly_visit c _ subject b hsettled.ready).ready hsettled.ready
  have hinside : inside.Ready := ⟨hready.lt_size, hready.isOpen, hready.unopened⟩
  obtain ⟨b₂, hm₂, hswitches₂⟩ := exists_visit_of_mem (hinside.openScope .block) hsub.2.2
    hcase.groupIn ((hbelow.role hbody).named hcase.groupIn).weaken
  obtain ⟨b₃, hm₃, hswitches₃⟩ : ∃ b', ⟨.visit label, b'⟩ ∈ moments c ∧ b'.switches = b₂.switches := by
    rcases hcase.groupKind with hkind | hkind
    all_goals
      exact exists_visit_of_other hshaped hm₂ (by simp [Construct.of, Construct.of?, hkind])
        (by simp [hkind]) hcase.labelIn
  have hkind := hcase.labelKind
  obtain ⟨b₄, hm₄, hswitches₄⟩ := exists_visit_of_other hshaped hm₃
    (by simp [Construct.of, Construct.of?, hkind]) (by simp [hkind]) hcase.nameIn
  refine ⟨b₄, hm₄, ?_⟩
  rw [hswitches₄, hswitches₃, hswitches₂]
  rfl

/-! ## What a label means -/

/-- A subject whose type is none of the sources has no constants, so that of the only enum with such
a constant is taken. -/
theorem labelConstant?_of_foreign {t : StaticType} (hswitches : b.switches.head? = some (some t))
    (hforeign : t.base.known? = none) (hparent : p.parentKind? = some "switch_label")
    (name : String) :
    (∀ owner, c.index.enumsWith name = [owner] →
        b.labelConstant? c p name = some (owner ++ "." ++ name))
      ∧ ((∀ owner, c.index.enumsWith name ≠ [owner]) → b.labelConstant? c p name = none) := by
  have hne : b.switches.isEmpty = false := by
    cases hs : b.switches with
    | nil => simp [hs] at hswitches
    | cons => rfl
  have hlabel : b.labelConstant? c p name = b.caseConstant? c name := by
    simp [labelConstant?, hne, hparent]
  rw [hlabel]
  constructor
  · intro owner howner
    simp [caseConstant?, hswitches, hforeign, howner]
  · intro hnone
    simp [caseConstant?, hswitches, hforeign]

theorem nameMeaning_of_unresolved (hnone : b.table.resolution? p = none) :
    nameMeaning c p b = (b.labelConstant? c p (c.unit.text p)).elim
      (ordinaryMeaning c p (c.unit.text p) b) (fun key => (some (b.target key .valid), none)) := by
  have hresolved : b.table.isResolved p = false := by
    rw [Symbols.isResolved, Std.TreeMap.contains_eq_isSome_getElem?]
    exact congrArg Option.isSome hnone
  cases hlabel : b.labelConstant? c p (c.unit.text p) <;> simp [nameMeaning, hresolved, hlabel]

theorem exists_ordinaryMeaning (hreceiver : p.isReceiver = false) (name : String) :
    ∃ r, (ordinaryMeaning c p name b).1 = some r := by
  have houter : ∃ r, (outerMeaning c p name b).1 = some r := by
    simp only [outerMeaning, hreceiver, Bool.false_and, Bool.false_eq_true, if_false]
    split <;> exact ⟨_, rfl⟩
  unfold ordinaryMeaning
  split
  · exact ⟨_, rfl⟩
  · exact ⟨_, rfl⟩
  · split
    · exact ⟨_, rfl⟩
    · exact houter

/-- Where the subject of a switch has a type that is none of the sources, a name that is a label is
what it is in any other expression there, unless it is the name of a constant of just one enum. Then
it is that constant, whatever else has the name. -/
theorem resolution?_caseName (hshaped : c.unit.shapedOK = true) (d : Dictionary) (policy : NamingPolicy)
    {s subject body : Place} (hm : ⟨.visit s, b⟩ ∈ moments c)
    (hof : Construct.of s = .switch (some subject) body) {t : StaticType}
    (htype : (b.visit c subject.node.height subject).typeOf? subject = some t)
    (hforeign : t.base.known? = none) (hp : p ∈ body.caseNames) :
    ∃ b', ⟨.visit p, b'⟩ ∈ moments c
      ∧ (∀ owner, c.index.enumsWith (c.unit.text p) = [owner] →
        (Symbols.ofUnit d policy c).keyOf? p = some (owner ++ "." ++ c.unit.text p, .valid))
      ∧ ((∀ owner, c.index.enumsWith (c.unit.text p) ≠ [owner]) →
        (Symbols.ofUnit d policy c).resolution? p
          = (b'.resolveName c p (c.unit.text p)).table.resolution? p) := by
  obtain ⟨b', hm', hswitches⟩ := exists_visit_of_caseName hshaped hm hof hp
  rw [htype] at hswitches
  refine ⟨b', hm', ?_⟩
  obtain ⟨group, label, hcase⟩ := Place.mem_caseNames.mp hp
  have hlabel := hcase.labelKind
  have hkind := hcase.kind
  have hparent := parent?_of_mem_children (mem_children_of_mem_namedChildren hcase.nameIn)
  have hparentKind : p.parentKind? = some "switch_label" := by
    rw [Place.parentKind?_eq, hparent, Option.map_some, hlabel]
  have hidentifier : Construct.of p = .identifier := by
    simp [Construct.of, Construct.of?, hkind]
  have hnone := (awaits_of_mem hshaped hm').unresolved
  obtain ⟨hlone, hordinary⟩ := labelConstant?_of_foreign (c := c) hswitches hforeign hparentKind
    (c.unit.text p)
  constructor
  · intro owner howner
    refine keyOf?_ofUnit_of_target hshaped hm'
      (resolution?_ofUnit hshaped hm' hidentifier d policy ?_)
    rw [nameMeaning_of_unresolved hnone, hlone owner howner]
    rfl
  · intro hmany
    have hreceiver : p.isReceiver = false := by simp [isReceiver, hparent, hlabel]
    obtain ⟨r, hr⟩ := exists_ordinaryMeaning (c := c) (b := b') hreceiver (c.unit.text p)
    have hresolve : (b'.resolveName c p (c.unit.text p)).table.resolution? p = some r := by
      rw [resolveName, (Trace.give_eq ..).1, hr]
      exact (Symbols.resolution?_resolve ..).trans (if_pos ⟨rfl, hnone⟩)
    rw [hresolve]
    refine resolution?_ofUnit hshaped hm' hidentifier d policy ?_
    rw [nameMeaning_of_unresolved hnone, hordinary hmany]
    exact hr

end Labels

/-- A switch over a number, with constants of the class as labels. An enum has one of the names. -/
def Sample.caseConstants : SourceUnit where
  path := "C.java"
  source := "enum E\x7bA\x7dclass C\x7bstatic final int A=1,B=2;void f(int x)\x7bswitch(x)\x7bcase A:case B:\x7d\x7d\x7d"
  root := open Sample in
    node 0 "program" 0 83 none [
     node 1 "enum_declaration" 0 9 none [mark 2 "enum" 0 4, name 3 5 6 "name",
      node 4 "enum_body" 6 9 (some "body") [mark 5 "\x7b" 6 7,
       node 6 "enum_constant" 7 8 none [name 7 7 8 "name"], mark 8 "\x7d" 8 9]],
     node 9 "class_declaration" 9 83 none [mark 10 "class" 9 14, name 11 15 16 "name",
      node 12 "class_body" 16 83 (some "body") [mark 13 "\x7b" 16 17,
       node 14 "field_declaration" 17 42 none [
        node 15 "modifiers" 17 29 none [mark 16 "static" 17 23, mark 17 "final" 24 29],
        node 18 "integral_type" 30 33 (some "type") [mark 19 "int" 30 33],
        node 20 "variable_declarator" 34 37 (some "declarator") [name 21 34 35 "name",
         mark 22 "=" 35 36, node 23 "decimal_integer_literal" 36 37 (some "value") []],
        mark 24 "," 37 38,
        node 25 "variable_declarator" 38 41 (some "declarator") [name 26 38 39 "name",
         mark 27 "=" 39 40, node 28 "decimal_integer_literal" 40 41 (some "value") []],
        mark 29 ";" 41 42],
       node 30 "method_declaration" 42 82 none [node 31 "void_type" 42 46 (some "type") [],
        name 32 47 48 "name",
        node 33 "formal_parameters" 48 55 (some "parameters") [mark 34 "(" 48 49,
         node 35 "formal_parameter" 49 54 none [
          node 36 "integral_type" 49 52 (some "type") [mark 37 "int" 49 52], name 38 53 54 "name"],
         mark 39 ")" 54 55],
        node 40 "block" 55 82 (some "body") [mark 41 "\x7b" 55 56,
         node 42 "switch_expression" 56 81 none [mark 43 "switch" 56 62,
          node 44 "parenthesized_expression" 62 65 (some "condition") [mark 45 "(" 62 63,
           node 46 "identifier" 63 64 none [], mark 47 ")" 64 65],
          node 48 "switch_block" 65 81 (some "body") [mark 49 "\x7b" 65 66,
           node 50 "switch_block_statement_group" 66 73 none [
            node 51 "switch_label" 66 72 none [mark 52 "case" 66 70,
             node 53 "identifier" 71 72 none []], mark 54 ":" 72 73],
           node 55 "switch_block_statement_group" 73 80 none [
            node 56 "switch_label" 73 79 none [mark 57 "case" 73 77,
             node 58 "identifier" 78 79 none []], mark 59 ":" 79 80], mark 60 "\x7d" 80 81]],
         mark 61 "\x7d" 81 82]], mark 62 "\x7d" 82 83]]]

theorem Sample.shapedOK_caseConstants : Sample.caseConstants.shapedOK = true := by decide +kernel

/-- The label that no enum has a constant for is the constant of the class. -/
theorem resolution?_caseName_constant :
    let c : BindingInput := ⟨Sample.caseConstants, 0, Index.build [Sample.caseConstants]⟩
    c.unit.shapedOK = true ∧ ∃ s subject body p : Place, ∃ b b' : Binder,
      ⟨.visit s, b⟩ ∈ moments c ∧ Construct.of s = .switch (some subject) body
        ∧ (b.visit c subject.node.height subject).typeOf? subject
          = some { base := .primitive "int" }
        ∧ p ∈ body.caseNames ∧ c.unit.text p = "B" ∧ c.index.enumsWith "B" = []
        ∧ ⟨.visit p, b'⟩ ∈ moments c
        ∧ (Symbols.ofUnit .empty .preserve c).resolution? p
          = (b'.resolveName c p "B").table.resolution? p := by
  intro c
  have hshaped : c.unit.shapedOK = true := Sample.shapedOK_caseConstants
  have hnone : c.index.enumsWith "B" = [] := by decide +kernel
  obtain ⟨m, hm, s, hs, hkind, subject, hsubject, body, hbody, htype, p, hp, htext⟩ :
      ∃ m ∈ moments c, ∃ s ∈ m.visited?, s.kind = "switch_expression"
        ∧ ∃ subject ∈ s.child? "condition", ∃ body ∈ s.child? "body",
          (m.state.visit c subject.node.height subject).typeOf? subject
            = some { base := .primitive "int" }
          ∧ ∃ p ∈ body.caseNames, c.unit.text p = "B" := by
    decide +kernel
  have hof : Construct.of s = .switch (some subject) body := by
    simp [Construct.of, Construct.of?, hkind, Option.mem_def.mp hsubject, Option.mem_def.mp hbody]
  rw [Moment.eq_of_visited? hs] at hm
  obtain ⟨b', hm', -, hordinary⟩ := resolution?_caseName hshaped .empty .preserve hm hof htype rfl hp
  rw [htext] at hordinary
  exact ⟨hshaped, s, subject, body, p, m.state, b', hm, hof, htype, hp, htext, hnone, hm',
    hordinary fun owner howner => by rw [hnone] at howner; cases howner⟩

/-- The other label is linked to the constant of the enum, though the name is the class's constant
where the label stands. -/
theorem label_linked_to_unrelated_enum :
    let c : BindingInput := ⟨Sample.caseConstants, 0, Index.build [Sample.caseConstants]⟩
    c.unit.shapedOK = true
      ∧ ∃ m ∈ moments c, ∃ p ∈ m.visited?, p.parentKind? = some "switch_label"
        ∧ c.unit.text p = "A"
        ∧ m.state.switches = [some { base := .primitive "int" }]
        ∧ (m.state.resolveName c p "A").table.keyOf? p = some ("C.A", .valid)
        ∧ (Symbols.ofUnit .empty .preserve c).keyOf? p = some ("E.A", .valid) :=
  ⟨Sample.shapedOK_caseConstants, by decide +kernel⟩

end Legible
