import Legible.Proofs.Binding.Discipline

/-!
# What the rules declare

Which names are declared does not depend on the state. `Introduces c owner levels locals steps` says
of a program that the local variables it declares are those named at `locals`, that the keys of the
types and members which it declares are made as the tree has them, that it visits places of the tree
of fewer than `levels` levels, that it gives names only symbols that the state reaches, and which
static types it gives to what it declares and notes; names in expressions have one only where they
are resolved.

The program of a place introduces the names that its construct declares as local variables
(`introduces_steps`): those of declarations, loops, catch clauses, resources, lambdas, type tests
and type patterns (`Place.localNames`).
-/

namespace Legible

variable {type body : Place}

/-! ## Names of variables -/

namespace Place

def parameterNames (params : Place) : List Place :=
  (SourceUnit.parametersOf params).filterMap declaredName?

def lambdaNames (params : Place) : List Place :=
  if params.kind == "identifier" then [params]
  else if params.kind == "formal_parameters" then params.parameterNames
  else params.namedChildren.filter (·.kind == "identifier")

def localNames (p : Place) : List Place :=
  match Construct.of p with
  | .localVariables type =>
    (p.namedChildren.filter fun q => !q.same type && q.kind == "variable_declarator").filterMap
      (·.child? "name")
  | .enhancedFor _ name _ _ => [name]
  | .catchClause param _ => param.declaredName?.toList
  | .resource => (p.child? "name").toList
  | .lambda params _ => params.lambdaNames
  | .instanceOf _ _ name => [name]
  | .typePattern _ name => [name]
  | _ => []

end Place

open Binder Place

/-! ## Programs -/

/-- The place is one of the unit, and of fewer than `levels` levels. -/
def BindingInput.Below (c : BindingInput) (levels : Nat) (p : Place) : Prop :=
  c.Has p ∧ p.node.height < levels

/-- What the name of a member access or a call is found to be. -/
inductive MemberMeaning (c : BindingInput) :
    (Binder → Option Resolution × Option StaticType) → Prop
  | ofSuper (name : String) : MemberMeaning c (superMeaning c name)
  | access (p object : Place) (name : String) : MemberMeaning c (accessMeaning c p object name)
  | call (object : Option Place) (name arguments : Place) :
      MemberMeaning c (callMeaning c object name arguments)

/-- Where a name is given a static type, it is a name in an expression, or the name by which an
expression has its type that is no name itself. -/
inductive Typing (c : BindingInput) (q access : Place)
    (meaning : Binder → Option Resolution × Option StaticType) : Prop
  | untyped (h : ∀ b, (meaning b).2 = none)
  | name (hsame : access = q) (h : meaning = nameMeaning c q)
  | expression (haccess : c.Has access) (hof : Construct.of access ≠ .identifier)
      (h : MemberMeaning c meaning)

inductive NotedType (c : BindingInput) : (Binder → Option StaticType) → Prop
  | ofPlace (q : Place) : NotedType c fun b => b.typeOf? q
  | written (type : Place) : NotedType c fun b => b.staticType? c (c.unit.typeText type)
  | inferred (p : Place) : NotedType c fun b => b.inferredType? c p

def BindingInput.Writes (c : BindingInput) (text : String) : Prop :=
  (∃ p, c.unit.parameterType? p = some text)
    ∨ ∃ type dims, text = c.unit.typeText type ++ brackets dims

/-- The types with which variables are declared: as written, if they are, or by a value. -/
inductive VariableTypes (c : BindingInput) : (Binder → Option String × Option StaticType) → Prop
  | written {text : Option String} (h : ∀ type ∈ text, c.Writes type) :
      VariableTypes c fun b => (text, text.bind (b.staticType? c))
  | inferred (value : Option Place) : VariableTypes c fun b =>
    ((value.bind b.typeOf?).map StaticType.describe, value.bind b.typeOf?)
  | loop (type value : Place) : VariableTypes c (loopTypes c type value)

/-- The key of a member of the type `owner`, inside of which variables are declared. -/
inductive InnerKey (c : BindingInput) (owner : Option String) : String → Prop
  | initializer (isStatic : Bool) : InnerKey c owner (initializerKey (owner.getD "") isStatic)
  | method {name : String} (hname : owner = some name) (p : Place) :
      InnerKey c owner (c.unit.memberKey name p)

/-- The program of a place inside of the type `owner` declares the local variables of the given
names, in order, and visits places of fewer than `levels` levels. -/
inductive Introduces (c : BindingInput) (owner : Option String) (levels : Nat) :
    List Place → List Step → Prop
  | nil : Introduces c owner levels [] []
  | append {locals locals' : List Place} {steps steps' : List Step}
      (h : Introduces c owner levels locals steps) (h' : Introduces c owner levels locals' steps') :
      Introduces c owner levels (locals ++ locals') (steps ++ steps')
  | visit {q : Place} (hq : c.Below levels q) : Introduces c owner levels [] [.visit q]
  | name {q access : Place} {meaning : Binder → Option Resolution × Option StaticType}
      (h : Typing c q access meaning) (hgrounded : Grounded meaning) :
      Introduces c owner levels [] [.name q access meaning]
  | note {p : Place} (hp : c.Has p) (hof : Construct.of p ≠ .identifier)
      {type : Binder → Option StaticType} (h : NotedType c type) :
      Introduces c owner levels [] [.note p type]
  | declare {key : String} {s : Step} (h : Ahead c key s) (hs : ∀ m, s ≠ .declareMember m) :
      Introduces c owner levels [] [s]
  | parameter {q : Place} (hq : c.Named q)
      {types : Binder → Option String × Option StaticType} (htypes : VariableTypes c types) :
      Introduces c owner levels [] [.declareVariable q .parameter types []]
  | localVariable {q : Place} (hq : c.Named q)
      {types : Binder → Option String × Option StaticType} (htypes : VariableTypes c types)
      {before : List Step} (h : Introduces c owner levels [] before) :
      Introduces c owner levels [q] [.declareVariable q .localVariable types before]
  | inScope {locals : List Place} {steps : List Step} (h : Introduces c owner levels locals steps)
      (p : Place) (kind : ScopeKind) : Introduces c owner levels locals [.inScope p kind steps]
  | inMember {locals : List Place} {steps : List Step} (h : Introduces c owner levels locals steps)
      {key : String} (hkey : InnerKey c owner key) :
      Introduces c owner levels locals [.inMember key steps]
  | inType {locals : List Place} {steps : List Step} (h : Introduces c owner levels locals steps)
      {p : Place} {key : String} (hp : c.Has p) (hkey : c.index.typeAt? c.number p = some key)
      {frame : Binder → TypeFrame} (hframe : ∀ b, (frame b).name = key)
      (hsymbol : ∀ b id, (frame b).symbol = some id → b.table.idOf? key = some id) :
      Introduces c owner levels locals
        [.inScope p .typeBody [.inFrame frame (aheadSteps c key p ++ steps)]]
  | inSwitch {locals : List Place} {steps : List Step} (h : Introduces c owner levels locals steps)
      (subject : Binder → Option StaticType) : Introduces c owner levels locals [.inSwitch subject steps]
  | choose {yes no : List Step} (test : Binder → Bool) (h : Introduces c owner levels [] yes)
      (h' : Introduces c owner levels [] no) : Introduces c owner levels [] [.choose test yes no]

namespace BindingInput.Below

variable {c : BindingInput} {levels : Nat} {p q : Place}

theorem weaken (h : c.Below levels p) : c.Below (levels + 1) p :=
  ⟨h.1, Nat.lt_succ_of_lt h.2⟩

theorem child (h : c.Below (levels + 1) p) (hq : q ∈ p.children) : c.Below levels q :=
  ⟨h.1.child hq, Nat.lt_of_lt_of_le (height_lt_of_mem_children hq) (Nat.le_of_lt_succ h.2)⟩

theorem named (h : c.Below (levels + 1) p) (hq : q ∈ p.namedChildren) : c.Below levels q :=
  h.child (mem_children_of_mem_namedChildren hq)

theorem role (h : c.Below (levels + 1) p) {role : String} (hq : p.child? role = some q) :
    c.Below levels q :=
  h.child (mem_children_of_child? hq)

end BindingInput.Below

namespace Introduces

variable {c : BindingInput} {owner : Option String} {levels : Nat} {locals : List Place}
  {steps steps' : List Step} {p q : Place}

/-- A program after one that declares no local variables. -/
theorem after (h' : Introduces c owner levels locals steps') (h : Introduces c owner levels [] steps) :
    Introduces c owner levels locals (steps ++ steps') :=
  h.append h'

/-- A program before one that declares no local variables. -/
theorem before (h : Introduces c owner levels locals steps) (h' : Introduces c owner levels [] steps') :
    Introduces c owner levels locals (steps ++ steps') := by
  simpa using h.append h'

theorem flatMap {α : Type} {f : α → List Step} (names : α → List Place) {xs : List α}
    (h : ∀ x ∈ xs, Introduces c owner levels (names x) (f x)) :
    Introduces c owner levels (xs.flatMap names) (xs.flatMap f) := by
  induction xs with
  | nil => exact .nil
  | cons x xs ih =>
    exact (h x List.mem_cons_self).append (ih fun y hy => h y (List.mem_cons_of_mem x hy))

/-- Programs in sequence that declare no local variables. -/
theorem none {α : Type} {f : α → List Step} {xs : List α}
    (h : ∀ x ∈ xs, Introduces c owner levels [] (f x)) :
    Introduces c owner levels [] (xs.flatMap f) := by
  have hall := flatMap (fun _ => []) h
  rwa [List.flatMap_eq_nil_iff.mpr fun _ _ => rfl] at hall

theorem map {α : Type} {f : α → Step} {xs : List α} (h : ∀ x ∈ xs, Introduces c owner levels [] [f x]) :
    Introduces c owner levels [] (xs.map f) := by
  have hall := none (f := fun x => [f x]) h
  rwa [← List.map_eq_flatMap] at hall

theorem visits {qs : List Place} (h : ∀ q ∈ qs, c.Below levels q) :
    Introduces c owner levels [] (qs.map .visit) :=
  map fun q hq => .visit (h q hq)

theorem link (q : Place) (key : String) (found : Found) :
    Introduces c owner levels [] [.link q key found] :=
  .name (.untyped fun _ => rfl) fun _ _ hid => reaches_of_target (Option.some.inj hid)

theorem keep (q : Place) : Introduces c owner levels [] [.keep q] :=
  .name (.untyped fun _ => rfl) fun _ _ hid => by cases hid

section

variable (hp : c.Below (levels + 1) p)

include hp

theorem childSteps : Introduces c owner levels [] (childSteps p) :=
  visits fun _ hq => hp.named hq

theorem filterSteps (f : Place → Bool) :
    Introduces c owner levels [] ((p.namedChildren.filter f).map .visit) :=
  visits fun _ hq => hp.named (List.mem_of_mem_filter hq)

theorem exceptSteps (skip : List Place) : Introduces c owner levels [] (exceptSteps p skip) :=
  filterSteps hp _

theorem roleSteps (role : String) :
    Introduces c owner levels [] ((p.child? role).toList.map .visit) :=
  visits fun _ hq => hp.role (by simpa using hq)

end

theorem typeVariableSteps (hp : c.Has p) : Introduces c owner levels [] (typeVariableSteps c p) :=
  map fun _ hname => .declare (ahead_typeVariableSteps "" hp (List.mem_map_of_mem hname)) (by simp)

end Introduces

/-! ## Names -/

section Names

variable {c : BindingInput} {owner : Option String} {levels : Nat} {p q : Place}

theorem introduces_typeNameSteps {before : Place → List Step} (hp : c.Below (levels + 1) p)
    (hbefore : ∀ q, c.Below levels q → Introduces c owner levels [] (before q)) :
    Introduces c owner levels [] (typeNameSteps c before p) := by
  unfold typeNameSteps
  split
  · exact .nil
  · next first last hparts =>
      have hmarks : Introduces c owner levels [] ((typeMarks p).map .visit) := by
        unfold typeMarks
        split
        · exact .filterSteps hp _
        · exact .nil
      have hfirst : Introduces c owner levels [] (first.toList.flatMap fun q =>
          if isTypeName q then before q else [.visit q]) := by
        refine .none fun q hq => ?_
        have hq : c.Below levels q := by
          by_cases hscoped : p.kind = "scoped_type_identifier" ∨ p.kind = "scoped_identifier"
          · exact hp.child ((mem_children_of_typeNameParts? hparts hscoped).2 q hq)
          · simp only [not_or] at hscoped
            rw [typeNameParts?_eq_self hscoped.1 hscoped.2] at hparts
            cases hparts
            simp at hq
        split
        · exact hbefore q hq
        · exact .visit hq
      have hname : Grounded fun b => (typeMeaning c p b, none) := by
        intro b id hid
        dsimp only at hid
        exact (resolves_typeMeaning hp.1 hparts hid).reaches rfl
      exact (Introduces.name (.untyped fun _ => rfl) hname).after (hfirst.after hmarks)

theorem introduces_qualifierSteps (steps : Nat) (hp : c.Below (levels + 1) p) :
    Introduces c owner levels [] (qualifierSteps c steps p) := by
  induction steps generalizing p with
  | zero => exact .nil
  | succ steps ih =>
    refine .choose _ (introduces_typeNameSteps hp fun q hq => ih hq.weaken)
      (.none fun q hq => ih ?_)
    exact (hp.child (qualifier?_mem (by simpa using hq)).2).weaken

theorem introduces_typeName (hp : c.Below (levels + 1) p) :
    Introduces c owner levels [] (typeNameSteps c (qualifierSteps c p.node.height) p) :=
  introduces_typeNameSteps hp fun _ hq => introduces_qualifierSteps _ hq.weaken

theorem introduces_importedSteps (steps : Nat) (reportMissing : Bool) (p : Place) :
    Introduces c owner levels [] (importedSteps c steps reportMissing p).1 := by
  induction steps generalizing reportMissing p with
  | zero => exact .nil
  | succ steps ih =>
    unfold importedSteps
    split
    · exact .nil
    · have hbefore : Introduces c owner levels [] ((p.child? "scope").toList.flatMap fun scope =>
          (importedSteps c steps false scope).1) := .none fun scope _ => ih false scope
      split
      · exact hbefore.before (.link ..)
      · refine hbefore.before ?_
        split
        · exact .link ..
        · exact .nil
      · exact hbefore

theorem introduces_importSteps (p : Place) : Introduces c owner levels [] (importSteps c p) := by
  have hmember : ∀ key member, Introduces c owner levels [] (staticMemberSteps c key member) := by
    intro key member
    simp only [staticMemberSteps]
    split
    · exact .link ..
    · split
      · exact .link ..
      · exact .link ..
      · exact .nil
  unfold importSteps
  split
  · exact .nil
  · split
    · exact .nil
    · next name _ =>
        split
        · split
          · next scope member _ _ =>
              have howner : Introduces c owner levels [] _ :=
                introduces_importedSteps name.node.height false scope
              split
              · next steps ownerName heq =>
                  rw [heq] at howner
                  exact howner.before (hmember ..)
              · next steps heq =>
                  rw [heq] at howner
                  exact howner
          · exact .nil
        · exact introduces_importedSteps ..

end Names

/-! ## Variables -/

namespace VariableTypes

variable {c : BindingInput}

theorem parameter (p : Place) : VariableTypes c fun b =>
    (c.unit.parameterType? p, (c.unit.parameterType? p).bind (b.staticType? c)) :=
  .written fun _ htype => .inl ⟨p, htype⟩

theorem untyped : VariableTypes c fun _ => (none, none) :=
  .written (show ∀ type ∈ (none : Option String), c.Writes type by simp)

end VariableTypes

section Variables

variable {c : BindingInput} {owner : Option String} {levels : Nat} {p q : Place}

theorem flatMap_parts_eq_parameterNames (params : Place) :
    (params.namedChildren.flatMap fun p =>
        if p.kind == "formal_parameter" || p.kind == "spread_parameter" then p.declaredName?.toList
        else []) = params.parameterNames := by
  rw [parameterNames, SourceUnit.parametersOf]
  induction params.namedChildren with
  | nil => rfl
  | cons p ps ih =>
    rw [List.flatMap_cons, ih]
    cases hkind : p.kind == "formal_parameter" || p.kind == "spread_parameter" with
    | false => simp [hkind]
    | true => cases hname : p.declaredName? <;> simp [hkind, hname]

theorem named_of_parameter (hp : c.Has p)
    (hkind : (p.kind == "formal_parameter" || p.kind == "spread_parameter") = true)
    (hq : q ∈ p.declaredName?.toList) : c.Named q := by
  refine named_of_declaredName? hp (.inl ?_) (by simpa using hq)
  simp only [Bool.or_eq_true, beq_iff_eq] at hkind
  rcases hkind with hkind | hkind <;> rw [hkind] <;> decide

theorem introduces_localParameters (hp : c.Below (levels + 1) p) :
    Introduces c owner levels p.parameterNames (parametersSteps c .localVariable p) := by
  rw [← flatMap_parts_eq_parameterNames]
  refine .flatMap _ fun q hq => ?_
  have hq := hp.named hq
  split
  · next hkind =>
      refine Introduces.after ?_ (.filterSteps hq.weaken _)
      cases hname : q.declaredName? with
      | none => exact .nil
      | some name =>
        exact .localVariable (named_of_parameter hq.1 hkind (by simp [hname])) (.parameter q) .nil
  · exact .visit hq

theorem introduces_parameters (hp : c.Below (levels + 1) p) :
    Introduces c owner levels [] (parametersSteps c .parameter p) := by
  refine .none fun q hq => ?_
  have hq := hp.named hq
  split
  · next hkind =>
      exact (Introduces.map fun name hname =>
        .parameter (named_of_parameter hq.1 hkind hname) (.parameter q)).after
          (.filterSteps hq.weaken _)
  · exact .visit hq

theorem introduces_lambdaParameterSteps (hp : c.Below (levels + 1) p) :
    Introduces c owner levels p.lambdaNames (lambdaParameterSteps c p) := by
  unfold lambdaParameterSteps lambdaNames
  split
  · next hkind => exact .localVariable ⟨hp.1, .inl (by simpa using hkind)⟩ .untyped .nil
  · split
    · exact introduces_localParameters hp
    · have hnames : (p.namedChildren.flatMap fun q =>
          if q.kind == "identifier" then [q] else []) =
          p.namedChildren.filter (·.kind == "identifier") := by
        induction p.namedChildren with
        | nil => rfl
        | cons q qs ih =>
          rw [List.flatMap_cons, ih]
          cases hkind : q.kind == "identifier" <;> simp [hkind]
      rw [← hnames, List.map_eq_flatMap]
      refine .flatMap _ fun q hq => ?_
      have hq := hp.named hq
      split
      · next hkind => exact .localVariable ⟨hq.1, .inl (by simpa using hkind)⟩ .untyped .nil
      · exact .visit hq

theorem introduces_variableTypeSteps (hp : c.Below levels p) :
    Introduces c owner levels [] (variableTypeSteps c p) := by
  unfold variableTypeSteps
  split
  · exact .keep p
  · exact .visit hp

theorem introduces_declaratorSteps (hp : c.Below (levels + 1) p) (hq : p.child? "name" = some q)
    (hkind : p.kind ∉ qualifiedNameParents) {type : Option Place}
    (htype : ∀ t ∈ type, c.Below levels t) :
    Introduces c owner levels [q] (declaratorSteps c p q type) := by
  have hname := named_of_child? hp.1 hq hkind
  have hvalue : Introduces c owner levels [] ((p.child? "value").toList.map .visit) := .roleSteps hp _
  simp only [declaratorSteps]
  refine Introduces.after ?_ ?_
  · split
    · exact Introduces.after (.localVariable hname (.inferred _) .nil) hvalue
    · refine (Introduces.localVariable hname (.written fun text htext => ?_) .nil).before hvalue
      obtain ⟨t, -, rfl⟩ := Option.map_eq_some_iff.mp htext
      exact .inr ⟨t, _, rfl⟩
  · split
    · exact (Introduces.none fun t ht => introduces_variableTypeSteps
        (htype t (by simpa using ht))).after (.exceptSteps hp _)
    · exact .nil

/-- The declarators of a declaration of local variables. -/
theorem introduces_variableParts (hp : c.Below (levels + 1) p) (htype : c.Below levels type) :
    Introduces c owner levels ((p.namedChildren.filter fun q =>
        !q.same type && q.kind == "variable_declarator").filterMap (·.child? "name"))
      (p.namedChildren.flatMap (variablePartSteps c type)) := by
  have hnames : (p.namedChildren.flatMap fun q =>
      if !q.same type && q.kind == "variable_declarator" then (q.child? "name").toList else [])
      = (p.namedChildren.filter fun q =>
        !q.same type && q.kind == "variable_declarator").filterMap (·.child? "name") := by
    induction p.namedChildren with
    | nil => rfl
    | cons q qs ih =>
      rw [List.flatMap_cons, ih]
      cases hkind : !q.same type && q.kind == "variable_declarator" with
      | false => simp [hkind]
      | true => cases hname : q.child? "name" <;> simp [hkind, hname]
  rw [← hnames]
  refine .flatMap _ fun q hq => ?_
  have hq := hp.named hq
  unfold variablePartSteps
  cases hsame : q.same type with
  | true => exact introduces_variableTypeSteps htype
  | false =>
    cases hname : q.child? "name" with
    | none => simpa using Introduces.visit hq
    | some name =>
      cases hkind : q.kind == "variable_declarator" with
      | false => exact .visit hq
      | true =>
        refine introduces_declaratorSteps hq.weaken hname ?_ (by simpa using htype)
        rw [show q.kind = "variable_declarator" by simpa using hkind]
        decide

end Variables

/-! ## Types and members -/

section Members

variable {c : BindingInput} {owner : Option String} {levels : Nat} {p name : Place} {key : String}

theorem introduces_typeSteps (hp : c.Has p) : Introduces c owner levels [] (typeSteps c p) := by
  unfold typeSteps
  split
  · next hof hkey => exact .declare (show Ahead c "" _ from .type hp hof hkey) (by simp)
  · exact .nil

theorem below_of_mem_bodyMembers (hbody : c.Below (levels + 1) body) :
    ∀ q ∈ body.bodyMembers, c.Below levels q := by
  intro q hq
  obtain ⟨child, hchild, hq⟩ := List.mem_flatMap.mp hq
  have hchild := hbody.named hchild
  split at hq
  · exact hchild.weaken.named hq
  · rwa [List.mem_singleton.mp hq]

theorem introduces_anonymousSteps (hp : c.Has p) (hbody : c.Below (levels + 1) body)
    (hahead : ∀ key, aheadSteps c key p = memberSteps c key false p body) :
    Introduces c owner levels [] (anonymousSteps c p body) := by
  unfold anonymousSteps
  split
  · exact .childSteps hbody
  · next key hkey =>
      rw [← hahead]
      exact (Introduces.visits (below_of_mem_bodyMembers hbody)).inType hp hkey (fun _ => rfl)
        fun _ _ hid => by cases hid

theorem introduces_headerSteps (hp : c.Below levels p) (kind : TypeKind) :
    Introduces c owner levels [] (headerSteps c kind key p) := by
  unfold headerSteps
  split
  · refine .none fun param hparam => ?_
    have hparam := (hp.weaken.named hparam).weaken
    unfold componentSteps
    split
    · exact (Introduces.link ..).after (.exceptSteps hparam _)
    · exact .childSteps hparam
  · exact .visit hp

theorem introduces_declarationSteps (hp : c.Below (levels + 1) p) {kind : TypeKind}
    (hof : Construct.of p = .typeDecl kind name body) (hbody : c.Below (levels + 1) body) :
    Introduces c owner levels [] (declarationSteps c p kind name body) := by
  unfold declarationSteps
  split
  · exact .childSteps hp
  · next key hkey =>
      have hheader : Introduces c owner levels [] ((p.namedChildren.filter (!·.isIn [name, body])).flatMap
          (headerSteps c kind key)) := by
        exact .none fun q hq => introduces_headerSteps (hp.named (List.mem_of_mem_filter hq)) kind
      have hname : Grounded fun b => ((b.table.idOf? key).map Resolution.symbol, none) := by
        intro b id hid
        obtain ⟨id', hid', heq⟩ := Option.map_eq_some_iff.mp hid
        cases heq
        exact reaches_of_idOf? hid'
      rw [insideSteps_eq hof]
      exact (((Introduces.visits (below_of_mem_bodyMembers hbody)).after hheader).inType hp.1 hkey
        (fun _ => rfl) fun _ _ hid => hid).after ((Introduces.name (.untyped fun _ => rfl) hname).after
          (.declare (show Ahead c key _ from .type hp.1 hof hkey) (by simp)))

theorem introduces_fieldPartSteps (hp : c.Below levels p) :
    Introduces c owner levels [] (fieldPartSteps c key p) := by
  unfold fieldPartSteps
  split
  · exact (Introduces.roleSteps hp.weaken _).after (.map fun _ _ => .link ..)
  · exact .visit hp

theorem introduces_constantSteps (hp : c.Below (levels + 1) p) {body : Option Place}
    (hof : Construct.of p = .enumConstant name body) (hbody : body = p.child? "body") :
    Introduces c owner levels [] (constantSteps c (owner.getD "") p name body) := by
  have hclass : Introduces c owner levels [] (body.toList.flatMap (anonymousSteps c p)) := by
    refine .none fun q hq => ?_
    obtain rfl : body = some q := by simpa using hq
    exact introduces_anonymousSteps hp.1 (hp.role hbody.symm).weaken
      fun key => by simp [aheadSteps, hof]
  have harguments : Introduces c owner levels [] (exceptSteps p (name :: body.toList)) :=
    .exceptSteps hp _
  exact hclass.after ((harguments.inMember (.initializer true)).after (.link ..))

theorem introduces_methodSteps (hp : c.Below (levels + 1) p) (name : Place)
    (params : Option Place) (isConstructor : Bool) :
    Introduces c owner levels [] (methodSteps c owner p name params isConstructor) := by
  unfold methodSteps
  split
  · exact .childSteps hp
  · next key =>
      have hname : Introduces c (some key) levels []
          [methodNameStep name (c.unit.memberKey key p) isConstructor] := by
        unfold methodNameStep
        split
        · refine .name (.untyped fun _ => rfl) fun b id hid => ?_
          cases hsymbol : b.frames.head?.bind (·.symbol) with
          | none => simp [hsymbol] at hid
          | some id' =>
            simp only [hsymbol, Option.elim_some, Option.some.injEq, Resolution.symbol.injEq] at hid
            exact hid ▸ .innermost hsymbol
        · exact .link ..
      have hparts : Introduces c (some key) levels []
          ((p.namedChildren.filter (!·.same name)).flatMap fun q =>
          if q.isIn params.toList then parametersSteps c .parameter q else [.visit q]) := by
        refine .none fun q hq => ?_
        have hq := hp.named (List.mem_of_mem_filter hq)
        split
        · exact introduces_parameters hq.weaken
        · exact .visit hq
      exact (((hparts.after (.typeVariableSteps hp.1)).inScope p .method).inMember
        (.method rfl p)).after hname

end Members

/-! ## The program of a place -/

section Programs

variable {c : BindingInput} {owner : Option String} {levels : Nat} {p q : Place}

theorem introduces_writtenStep (hq : c.Named q) (type : Option Place) :
    Introduces c owner levels [q] [writtenStep c q (type.map c.unit.typeText)] := by
  refine .localVariable hq (.written fun text htext => ?_) .nil
  obtain ⟨t, -, rfl⟩ := Option.map_eq_some_iff.mp htext
  exact .inr ⟨t, 0, by simp [brackets]⟩

theorem introduces_enhancedForSteps (hp : c.Below (levels + 1) p) {value : Place} (hq : c.Named q)
    (htype : c.Below levels type) (hvalue : c.Below levels value) (hbody : c.Below levels body) :
    Introduces c owner levels [q] (enhancedForSteps c p type q value body) := by
  have hvariable : Introduces c owner levels [q]
      [.declareVariable q .localVariable (loopTypes c type value) ((p.namedChildren.filter (·.kind == "modifiers")).map
        .visit)] :=
    .localVariable hq (.loop type value) (.filterSteps hp _)
  exact ((hvariable.before (.visit hbody)).after
    ((introduces_variableTypeSteps htype).after (.visit hvalue))).inScope p .block

theorem introduces_catchSteps {param : Place} (hparam : c.Below (levels + 1) param)
    (hkind : param.kind = "catch_formal_parameter") (hbody : c.Below levels body) :
    Introduces c owner levels param.declaredName?.toList (catchSteps c p param body) := by
  have hvariable : Introduces c owner levels param.declaredName?.toList (param.declaredName?.toList.map
      fun name => writtenStep c name (param.declaredType?.map c.unit.typeText)) := by
    cases hname : param.declaredName? with
    | none => exact .nil
    | some name =>
      exact introduces_writtenStep
        (named_of_declaredName? hparam.1 (.inl (by rw [hkind]; decide)) hname) _
  exact ((hvariable.after (.exceptSteps hparam _)).before (.visit hbody)).inScope p .block

section

variable (hp : c.Below (levels + 1) p)

include hp

theorem introduces_creationSteps {body : Option Place}
    (hof : Construct.of p = .objectCreation type body) (hbody : body = p.firstNamed? "class_body") :
    Introduces c owner levels [] (creationSteps c p type body) := by
  have hclass : Introduces c owner levels [] (body.toList.flatMap (anonymousSteps c p)) := by
    refine .none fun q hq => ?_
    obtain rfl : body = some q := by simpa using hq
    exact introduces_anonymousSteps hp.1
      (hp.named (mem_namedChildren_of_firstNamed? hbody.symm)).weaken
      fun key => by simp [aheadSteps, hof]
  exact hclass.after ((Introduces.note hp.1 (by simp [hof]) (.written type)).after
    (.exceptSteps hp body.toList))

variable (hkind : p.kind = "binary_expression")

include hkind

theorem introduces_rightSteps : Introduces c owner levels [] (rightSteps c p) :=
  (Introduces.note hp.1 (by simp [Construct.of, Construct.of?, hkind]) (.inferred p)).after
    (.roleSteps hp "right")

theorem introduces_operandSteps : Introduces c owner levels [] (operandSteps c p) :=
  (introduces_rightSteps hp hkind).after (.roleSteps hp "left")

theorem introduces_binarySteps : Introduces c owner levels [] (binarySteps c p) := by
  induction p using binary_induction with
  | last p hleft =>
    rw [binarySteps_eq_operandSteps hleft]
    exact introduces_operandSteps hp hkind
  | next p left hleft hleftKind ih =>
    rw [binarySteps_eq_append hleft hleftKind]
    exact (introduces_rightSteps hp hkind).after (ih (hp.role hleft).weaken hleftKind)

end

/-- The program of a place declares the local variables that its construct names. -/
theorem introduces_steps (hhas : c.Has p) (owner : Option String) :
    Introduces c owner p.node.height p.localNames (steps c owner p) := by
  have hparts := Construct.partsOf_of p
  have hp : c.Below (p.node.height + 1) p := ⟨hhas, Nat.lt_succ_self _⟩
  have hchild : ∀ {role q}, p.child? role = some q → c.Below p.node.height q :=
    fun h => hp.role h
  unfold steps localNames
  cases hof : Construct.of p with
  | package => exact .nil
  | importName => exact introduces_importSteps p
  | typeDecl kind name body =>
    rw [hof] at hparts
    exact introduces_declarationSteps hp hof (hchild hparts.2.2).weaken
  | field type =>
    exact .inMember (.none fun q hq => introduces_fieldPartSteps (hp.named hq)) (.initializer _)
  | enumConstant name body =>
    rw [hof] at hparts
    exact introduces_constantSteps hp hof hparts.2.2
  | method name params body isConstructor => exact introduces_methodSteps hp name params _
  | elementDecl name => exact (Introduces.exceptSteps hp _).after (.map fun _ _ => .link ..)
  | initializer block isStatic =>
    rw [hof] at hparts
    have hblock : c.Below (p.node.height + 1) block := by
      rcases hparts with rfl | ⟨-, hblock⟩
      · exact hp
      · exact (hp.named (mem_namedChildren_of_firstNamed? hblock)).weaken
    refine Introduces.inMember (.inScope (Introduces.after (.childSteps hblock) ?_) _ _)
      (.initializer _)
    split
    · exact .nil
    · exact .exceptSteps hp _
  | block => exact (Introduces.childSteps hp).inScope p .block
  | forLoop => exact (Introduces.childSteps hp).inScope p .block
  | localVariables type =>
    rw [hof] at hparts
    exact introduces_variableParts hp (hchild hparts)
  | enhancedFor type name value body =>
    rw [hof] at hparts
    obtain ⟨hkind, htype, hname, hvalue, hbody⟩ := hparts
    exact introduces_enhancedForSteps hp (named_of_child? hhas hname (by rw [hkind]; decide))
      (hchild htype) (hchild hvalue) (hchild hbody)
  | catchClause param body =>
    rw [hof] at hparts
    have hparam := hp.named (mem_namedChildren_of_firstNamed? hparts.1)
    exact introduces_catchSteps hparam.weaken (kind_of_firstNamed? hparts.1) (hchild hparts.2)
  | tryWithResources resources body =>
    rw [hof] at hparts
    have hinside : Introduces c owner p.node.height [] ([resources, body].map .visit) := .visits (by
      simpa using ⟨hchild hparts.1, hchild hparts.2⟩)
    exact (Introduces.exceptSteps hp _).after (hinside.inScope p .block)
  | resource =>
    rw [hof] at hparts
    simp only [resourceSteps]
    cases hname : p.child? "name" with
    | none => exact .childSteps hp
    | some name =>
      exact introduces_declaratorSteps hp hname
        (by rw [show p.kind = "resource" from hparts]; decide) fun t ht => hchild ht
  | lambda params body =>
    rw [hof] at hparts
    exact ((introduces_lambdaParameterSteps (hchild hparts.1).weaken).before
      (.visit (hchild hparts.2))).inScope p .method
  | instanceOf left type name =>
    rw [hof] at hparts
    obtain ⟨hkind, hleft, htype, hname⟩ := hparts
    exact ((introduces_writtenStep (named_of_child? hhas hname (by rw [hkind]; decide))
      (some type)).after (.visit (hchild htype))).after (.visit (hchild hleft))
  | typePattern type name =>
    rw [hof] at hparts
    obtain ⟨rest, hrest, hlast, hkind⟩ := hparts
    have hmem : ∀ q ∈ type :: rest, c.Below p.node.height q := fun q hq => hp.named (hrest ▸ hq)
    have hname := hmem name (List.mem_cons_of_mem _ (List.mem_of_getLast? hlast))
    exact (introduces_writtenStep ⟨hname.1, .inl hkind⟩ (some type)).after
      (.visit (hmem type List.mem_cons_self))
  | switch subject body =>
    rw [hof] at hparts
    obtain ⟨rfl, hbody⟩ := hparts
    exact (((Introduces.childSteps (hchild hbody).weaken).inScope p .block).inSwitch _).after
      (.roleSteps hp _)
  | methodCall object name arguments =>
    exact (Introduces.name (.expression hhas (by simp [hof]) (.call ..))
      (grounded_of_resolves fun _ _ hr => resolves_callMeaning hr)).after (.filterSteps hp _)
  | fieldAccess object member =>
    rw [hof] at hparts
    have hobject : Introduces c owner p.node.height [] [.visit object] :=
      .visit (hchild hparts.2.1)
    have hne : Construct.of p ≠ .identifier := by simp [hof]
    simp only [accessSteps]
    split
    · exact (Introduces.note hhas hne (.ofPlace object)).after hobject
    · split
      · exact .name (.expression hhas hne (.ofSuper _))
          (grounded_of_resolves fun _ _ hr => resolves_superMeaning hr)
      · exact (Introduces.name (.expression hhas hne (.access ..)) (grounded_of_resolves
          fun _ _ hr => resolves_accessMeaning hhas hof hr)).after hobject
  | methodReference =>
    simp only [referenceSteps]
    split
    · exact .nil
    · next object rest hchildren =>
        have hobject := hp.named (hchildren ▸ List.mem_cons_self)
        exact (Introduces.map fun q _ => .name (.untyped fun _ => rfl) (grounded_of_resolves
          fun b _ hr => Option.some.inj hr ▸ resolves_referenceMeaning object)).after (.visit hobject)
  | objectCreation type body =>
    rw [hof] at hparts
    exact introduces_creationSteps hp hof hparts
  | label => exact .filterSteps hp _
  | annotationUse name =>
    rw [hof] at hparts
    exact (Introduces.exceptSteps hp _).after (introduces_typeName (hchild hparts).weaken)
  | elementValuePair value =>
    rw [hof] at hparts
    obtain rfl := hparts
    exact .roleSteps hp _
  | typeParameter =>
    refine .map fun q hq => ?_
    split
    · exact .keep q
    · exact .visit (hp.named hq)
  | scopedType => exact introduces_typeName hp
  | identifier =>
    exact .name (.name rfl rfl) (grounded_of_resolves fun _ _ hr => resolves_nameMeaning hof hr)
  | typeIdentifier => exact introduces_typeName hp
  | other =>
    dsimp only
    split
    · next hkind => exact introduces_binarySteps hp (beq_iff_eq.mp hkind)
    · exact (Introduces.note hhas (by simp [hof]) (.inferred p)).after (.childSteps hp)

theorem introduces_unitSteps (c : BindingInput) :
    Introduces c none c.unit.root.height [] (unitSteps c) := by
  have htop : c.Below (c.unit.root.height + 1) c.unit.top :=
    ⟨mem_below_self c.unit.top, Nat.lt_succ_self _⟩
  refine (Introduces.childSteps htop).after (.none fun p hp => ?_)
  exact introduces_typeSteps (htop.named hp).1

end Programs

end Legible
