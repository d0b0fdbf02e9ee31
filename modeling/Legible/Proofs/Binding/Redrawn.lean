import Legible.Proofs.Binding.Declarations
import Legible.Proofs.Index.Redrawn

/-!
# The traversal of units that are drawn anew

If the texts stay that the rules read (`Rebinding`), what a unit means does not change when it is
drawn anew. The program of a place does then what the program of the place drawn anew does
(`Revisiting.steps`), where visits of comments do nothing, and so do the traversals of the units
(`Rebinding.traverse`).
-/

namespace Legible

open Place Binder

variable {c : BindingInput} {q field name arguments : Place} {object : Option Place}

/-- The same input for a unit that is drawn anew. -/
abbrev BindingInput.withUnit (c : BindingInput) (u : SourceUnit) : BindingInput := { c with unit := u }

namespace BindingInput

theorem Has.namedChild {p : Place} (hp : c.Has p) (hq : q ∈ p.namedChildren) :
    c.Has q := hp.child (mem_children_of_mem_namedChildren hq)

end BindingInput

namespace Binder

variable (c : BindingInput) (u : SourceUnit) (b : Binder)

@[simp] theorem lookupType?_withUnit (text : String) :
    b.lookupType? (c.withUnit u) text = b.lookupType? c text := by
  simp only [lookupType?]

@[simp] theorem staticType?_withUnit : b.staticType? (c.withUnit u) = b.staticType? c := by
  funext text
  simp only [staticType?, lookupType?_withUnit]

@[simp] theorem knowsType_withUnit (text : String) :
    knowsType (c.withUnit u) text = knowsType c text := by
  funext b
  simp only [knowsType, lookupType?_withUnit]

@[simp] theorem superMeaning_withUnit : superMeaning (c.withUnit u) = superMeaning c := rfl

@[simp] theorem callTarget_withUnit (object : Option Place) (method : String)
    (args : List (Option StaticType)) :
    b.callTarget (c.withUnit u) object method args = b.callTarget c object method args := by
  have hframes : ∀ frames, targetInFrames? (c.withUnit u) method args frames
      = targetInFrames? c method args frames := by
    intro frames
    induction frames with
    | nil => rfl
    | cons frame frames ih =>
      simp only [targetInFrames?, ih, foundMethod]
  simp only [callTarget, unqualifiedTarget, superTarget, importedTarget, targetIn?, foundMethod,
    targetOn, supertypes, returnTypeByKey?, hframes]

end Binder

/-- Programs for the unit of `c` and for the unit `u'` do the same; `v` are the visits of places in
the one and in the other. -/
def Redrawn (c : BindingInput) (u' : SourceUnit) (v : Visit × Visit) (l l' : List Step) : Prop :=
  ∀ b, Step.runAll (c.withUnit u') v.2 l' b = Step.runAll c v.1 l b

namespace Redrawn

variable {u' : SourceUnit} {v : Visit × Visit} {l l' m m' : List Step} {σ : Place → Place}
  {f f' : Place → List Step} {ps qs : List Place}

theorem nil : Redrawn c u' v [] [] := fun b => by simp

theorem append (h : Redrawn c u' v l l') (hm : Redrawn c u' v m m') :
    Redrawn c u' v (l ++ m) (l' ++ m') := fun b => by
  rw [Step.runAll_append, Step.runAll_append, h, hm]

/-- Parts that correspond one by one, but for comments, with which nothing is done. -/
theorem flatMap (heq : qs.filter (!·.isRemark) = (ps.filter (!·.isRemark)).map σ)
    (hf : ∀ q ∈ ps, q.isRemark = false → Redrawn c u' v (f q) (f' (σ q)))
    (hskip : ∀ q ∈ ps, q.isRemark = true → Redrawn c u' v (f q) [])
    (hskip' : ∀ q ∈ qs, q.isRemark = true → Redrawn c u' v [] (f' q)) :
    Redrawn c u' v (ps.flatMap f) (qs.flatMap f') := fun b => by
  rw [Step.runAll_flatMap, Step.runAll_flatMap]
  exact Redrawing.foldl heq (fun b q hq hr => hf q hq hr b)
    (fun b q hq hr => (hskip q hq hr b).symm.trans Step.runAll_nil)
    (fun b q hq hr => (hskip' q hq hr b).trans Step.runAll_nil) b

theorem flatMap_map (hf : ∀ q ∈ ps, Redrawn c u' v (f q) (f' (σ q))) :
    Redrawn c u' v (ps.flatMap f) ((ps.map σ).flatMap f') := fun b => by
  rw [Step.runAll_flatMap, Step.runAll_flatMap, List.foldl_map]
  exact List.foldl_ext _ _ _ fun b q hq => hf q hq b

theorem single {s s' : Step} (h : ∀ b, s'.run (c.withUnit u') v.2 b = s.run c v.1 b) :
    Redrawn c u' v [s] [s'] := fun b => by
  rw [Step.runAll_cons, Step.runAll_cons, Step.runAll_nil, Step.runAll_nil, h]

theorem inMember (key : String) (h : Redrawn c u' v l l') :
    Redrawn c u' v [.inMember key l] [.inMember key l'] :=
  single fun b => by rw [Step.run, Step.run, funext h]

theorem inFrame (frame : Binder → TypeFrame) (h : Redrawn c u' v l l') :
    Redrawn c u' v [.inFrame frame l] [.inFrame frame l'] :=
  single fun b => by rw [Step.run, Step.run, funext h]

theorem inScope (p : Place) (kind : ScopeKind) (h : Redrawn c u' v l l') :
    Redrawn c u' v [.inScope p kind l] [.inScope (σ p) kind l'] :=
  single fun b => by rw [Step.run, Step.run, funext h]

theorem inSwitch (subject : Binder → Option StaticType) (h : Redrawn c u' v l l') :
    Redrawn c u' v [.inSwitch subject l] [.inSwitch subject l'] :=
  single fun b => by rw [Step.run, Step.run, funext h]

theorem choose (test : Binder → Bool) (h : Redrawn c u' v l l') (hm : Redrawn c u' v m m') :
    Redrawn c u' v [.choose test l m] [.choose test l' m'] :=
  single fun b => by rw [Step.run, Step.run, h, hm]

/-- Types and members are declared by the same steps. -/
theorem declares (hl : ∀ s ∈ l, s.isAhead = true) : Redrawn c u' v l l :=
  runAll_of_isAhead hl v.2 v.1

end Redrawn

/-! ## Texts that stay -/

/-- The unit of `c` is drawn anew as `u'`, and the texts stay that the rules read. -/
structure Rebinding (c : BindingInput) (u' : SourceUnit) (σ : Place → Place)
    (kept : Place → List Place) : Prop extends Respelling c.unit u' σ kept where
  distinct : ∀ p q, c.Has p → c.Has q → p.number = q.number → p = q
  /-- A type is left to the value of its variable before and after. -/
  leftOut : ∀ p, c.Has p → ∀ type, p.child? "type" = some type →
    (u'.text (σ type) == "var") = (c.unit.text type == "var")

/-- The visits of places that correspond do the same. -/
structure Revisiting (c : BindingInput) (u' : SourceUnit) (σ : Place → Place)
    (kept : Place → List Place) (v : Visit × Visit) : Prop extends Rebinding c u' σ kept where
  visit : ∀ q b, c.Has q → v.2 (σ q) b = v.1 q b
  skip : ∀ q b, q.isRemark = true → v.1 q b = b
  skipAnew : ∀ q b, q.isRemark = true → v.2 q b = b

namespace Respelling

variable {u u' : SourceUnit} {σ : Place → Place} {kept : Place → List Place}
  (h : Respelling u u' σ kept)

include h

theorem isName (q : Place) : (σ q).node.isName = q.node.isName :=
  congrArg (fun kind => kind == "identifier" || kind == "type_identifier") (h.kind q)

theorem namePlaces : Symbols.namePlaces u' = (Symbols.namePlaces u).map σ := by
  have htop : u'.root.places = (σ u.top).below := by
    rw [← h.top]
    rfl
  rw [Symbols.namePlaces, htop]
  exact h.filter_below h.isName (fun q hq =>
    Bool.or_eq_false_iff.mpr ⟨kind_ne_of_isRemark hq rfl, kind_ne_of_isRemark hq rfl⟩) u.top

end Respelling

namespace Rebinding

variable {u' : SourceUnit} {σ : Place → Place} {kept : Place → List Place}
  (h : Rebinding c u' σ kept) {p : Place}

include h

/-! ## Meanings -/

theorem typeOf? (q : Place) (b : Binder) : b.typeOf? (σ q) = b.typeOf? q := by
  rw [Binder.typeOf?, Binder.typeOf?, h.number]

theorem readName (hq : c.Has q) (hkind : q.kind = "identifier") :
    (c.withUnit u').unit.text (σ q) = c.unit.text q :=
  h.read q hq (by simp [isRead, Node.isName, show q.node.kind = "identifier" from hkind])

theorem isReceiver (p : Place) : (σ p).isReceiver = p.isReceiver := by
  unfold Place.isReceiver
  rw [h.parent?]
  cases p.parent? with
  | none => rfl
  | some parent =>
    simp only [Option.map_some, h.kind]
    split
    · rw [h.child?]
      cases parent.child? "object" with
      | none => rfl
      | some object => exact h.same p object
    · split
      · next hkind =>
          rw [h.namedChildren_of_counted (by simp [countsComments, hkind]), List.head?_map]
          cases parent.namedChildren.head? with
          | none => rfl
          | some object => exact h.same p object
      · rfl

theorem isNameChain (levels : Nat) (p : Place) :
    (σ p).node.isNameChain levels = p.node.isNameChain levels := by
  have hchild : ∀ (p : Place) (role : String),
      p.child? role = (p.node.children.find? (·.role == some role)).map
        fun n => ⟨n, p.node :: p.above⟩ := fun p role => List.find?_map ..
  have hpart : ∀ (p : Place) (role : String),
      (σ p).node.children.find? (·.role == some role)
        = (p.child? role).map fun q => (σ q).node := by
    intro p role
    have hσ := h.child? p role
    rw [hchild (σ p)] at hσ
    have hnode := congrArg (Option.map Place.node) hσ
    simpa only [Option.map_map, Function.comp_def, Option.map_id'] using hnode
  induction levels generalizing p with
  | zero => rfl
  | succ levels ih =>
    have hkind : (σ p).node.kind = p.node.kind := h.kind p
    unfold Node.isNameChain
    rw [hkind, hpart, hpart, hchild, hchild]
    split
    · cases p.node.children.find? (·.role == some "field") with
      | none => rfl
      | some field =>
        cases p.node.children.find? (·.role == some "object") with
        | none => rfl
        | some object =>
          have hfield : (σ ⟨field, p.node :: p.above⟩).node.kind = field.kind := h.kind _
          simp only [Option.map_some, hfield, ih ⟨object, p.node :: p.above⟩]
    · rfl

theorem nameMeaning (hq : c.Has q) (hof : Construct.of q = .identifier) :
    Binder.nameMeaning (c.withUnit u') (σ q) = Binder.nameMeaning c q := by
  have hform := Construct.formOf hof
  have hlabel : ∀ (b : Binder) (name : String),
      b.labelConstant? (c.withUnit u') (σ q) name = b.labelConstant? c q name := by
    intro b name
    simp only [labelConstant?, h.parentKind?, caseConstant?]
  have hresolved : ∀ b : Binder, b.table.isResolved (σ q) = b.table.isResolved q := by
    intro b
    rw [Symbols.isResolved, Symbols.isResolved, h.number]
  funext b
  simp only [Binder.nameMeaning, ordinaryMeaning, h.readName hq hform, hlabel, hresolved,
    fieldByName?, fieldMeaning, outerMeaning, h.isReceiver, lookupType?_withUnit]

theorem accessMeaning (hp : c.Has p) {object : Place}
    (hof : Construct.of p = .fieldAccess object field) (name : String) :
    Binder.accessMeaning (c.withUnit u') (σ p) (σ object) name
      = Binder.accessMeaning c p object name := by
  have hparts := Construct.partsOf hof
  have hqualified : qualifiedMeaning (c.withUnit u') (σ p) = qualifiedMeaning c p := by
    funext b
    unfold qualifiedMeaning
    rw [h.height, h.isNameChain]
    cases hchain : p.node.isNameChain p.node.height with
    | false => rfl
    | true =>
      have htext := h.quoted p hp (by simp [startsQuote, hparts.1, hchain])
      simp only [htext, lookupType?_withUnit]
  funext b
  simp only [Binder.accessMeaning, h.typeOf?, hqualified, knownMemberMeaning, fieldMeaning]

theorem callMeaning (hp : c.Has p) (hof : Construct.of p = .methodCall object name arguments) :
    Binder.callMeaning (c.withUnit u') (object.map σ) (σ name) (σ arguments)
      = Binder.callMeaning c object name arguments := by
  have hparts := Construct.partsOf_of p
  have hform := Construct.formOf_of p
  rw [hof] at hparts hform
  have hcounts : arguments.countsComments = true := by
    have hrole : arguments.role = some "arguments" := role_of_child? hparts.2.2
    have hparent : arguments.parentKind? = some "method_invocation" := by
      rw [parentKind?_eq, parent?_of_mem_children (mem_children_of_child? hparts.2.2)]
      exact congrArg some hform
    simp [countsComments, hrole, hparent]
  have htext := h.nameOf hp hof rfl hparts.2.1
  have hargs : ∀ b : Binder, (σ arguments).namedChildren.map b.typeOf?
      = arguments.namedChildren.map b.typeOf? := by
    intro b
    rw [h.namedChildren_of_counted hcounts, List.map_map]
    exact List.map_congr_left fun q _ => h.typeOf? q b
  have htarget : ∀ (b : Binder) (method : String) (args : List (Option StaticType)),
      b.callTarget c (object.map σ) method args = b.callTarget c object method args := by
    intro b method args
    cases object with
    | none => rfl
    | some object => simp only [Option.map_some, callTarget, h.kind, h.typeOf?]
  funext b
  simp only [Binder.callMeaning, hargs, htext, callTarget_withUnit, htarget]

theorem referenceMeaning (hp : c.Has p) {object : Place} (hof : Construct.of p = .methodReference)
    (hobject : p.namedChildren.head? = some object) (hname : name ∈ p.namedChildren)
    (hkind : name.kind = "identifier") :
    Binder.referenceMeaning (c.withUnit u') (σ object) (σ name)
      = Binder.referenceMeaning c object name := by
  have hkindOf : p.kind = "method_reference" := Construct.formOf hof
  have hmem := List.mem_of_mem_head? hobject
  have htext : (c.withUnit u').unit.typeText (σ object) = c.unit.typeText object := by
    refine h.quoted object (hp.namedChild hmem) ?_
    simp [startsQuote, parent?_of_mem_children (mem_children_of_mem_namedChildren hmem), hkindOf,
      hobject, same_self]
  funext b
  simp only [Binder.referenceMeaning, referenceReceiver?, h.kind, h.typeOf?, htext,
    h.readName (hp.namedChild hname) hkind, supertypes, methodKeys, staticType?_withUnit]

theorem createdDims (p : Place) : Binder.createdDims (σ p) = Binder.createdDims p := by
  have hskip : ∀ ps : List Place, ∀ n, ∀ q ∈ ps, q.isRemark = true →
      (if q.kind == "dimensions_expr" then n + 1
        else if q.kind == "dimensions" then n + Legible.dimensionCount (some q) else n) = n := by
    intro ps n q _ hq
    rw [kind_ne_of_isRemark hq rfl, kind_ne_of_isRemark hq rfl]
    rfl
  refine Redrawing.foldl (h.filter_isRemark_namedChildren p) (fun n q _ _ => ?_) (hskip _)
    (hskip _) 0
  have hdims : Legible.dimensionCount (some (σ q)) = Legible.dimensionCount (some q) :=
    h.dimensionCount (some q)
  rw [h.kind, hdims]

theorem inferredType? (hp : c.Has p) (b : Binder) :
    b.inferredType? (c.withUnit u') (σ p) = b.inferredType? c p := by
  have htype : ∀ role, ((σ p).child? role).bind b.typeOf? = (p.child? role).bind b.typeOf? := by
    intro role
    rw [h.child?]
    cases p.child? role with
    | none => rfl
    | some q => exact h.typeOf? q b
  have hwritten : b.writtenType? (c.withUnit u') (σ p) = b.writtenType? c p := by
    simp only [writtenType?, h.child?]
    cases htype : p.child? "type" with
    | none => simp only [Option.map_none, Option.bind_none]
    | some type =>
      have htext := h.spelled (hp.role htype) (isSpelled_of_child? htype)
      simp only [Option.map_some, Option.bind_some, htext, staticType?_withUnit]
  have hfirst : p.kind = "parenthesized_expression" →
      (σ p).namedChildren.head?.bind b.typeOf? = p.namedChildren.head?.bind b.typeOf? := by
    intro hkind
    rw [h.head?_namedChildren (by simp [findsFirst, hkind])]
    cases p.namedChildren.head? with
    | none => rfl
    | some q => exact h.typeOf? q b
  have htext : p.isRead = true → (c.withUnit u').unit.text (σ p) = c.unit.text p := h.read p hp
  simp only [Binder.inferredType?, h.kind, hwritten, htype, h.createdDims]
  split
  case h_7 hkind | h_8 hkind | h_9 hkind | h_10 hkind | h_11 hkind | h_12 hkind =>
    rw [htext (by simp [isRead, isNumber, hkind])]
  case h_13 hkind => exact hfirst hkind
  all_goals rfl

/-! ## Steps -/

theorem setType (b : Binder) (p : Place) (type : Option StaticType) :
    b.setType (σ p) type = b.setType p type := by
  cases type with
  | none => rfl
  | some type => rw [Binder.setType, Binder.setType, h.number]

theorem resolve (t : Symbols) (p : Place) (r : Resolution) : t.resolve (σ p) r = t.resolve p r := by
  rw [Symbols.resolve, Symbols.resolve, h.number]

variable {v : Visit × Visit}

theorem nameStep (q access : Place) (meaning : Binder → Option Resolution × Option StaticType) :
    Redrawn c u' v [.name q access meaning] [.name (σ q) (σ access) meaning] :=
  .single fun b => by
    rw [Step.run, Step.run, give, give, h.setType]
    rcases meaning b with ⟨_ | r, type⟩
    · rfl
    · simp only [Option.elim, Binder.resolve, h.resolve]

theorem noteStep (p : Place) (type : Binder → Option StaticType) :
    Redrawn c u' v [.note p type] [.note (σ p) type] :=
  .single fun b => by rw [Step.run, Step.run, h.setType]

theorem variableStep {before before' : List Step} (htext : u'.text (σ q) = c.unit.text q)
    (kind : SymbolKind) (types : Binder → Option String × Option StaticType)
    (hbefore : Redrawn c u' v before before') :
    Redrawn c u' v [.declareVariable q kind types before]
      [.declareVariable (σ q) kind types before'] :=
  .single fun b => by
    rw [Step.run, Step.run, hbefore]
    simp only [declareVariable, htext, Binder.resolve, h.resolve]

theorem linkStep (q : Place) (key : String) (found : Found) :
    Redrawn c u' v [.link q key found] [.link (σ q) key found] := h.nameStep q q _

theorem keepStep (q : Place) : Redrawn c u' v [.keep q] [.keep (σ q)] := h.nameStep q q _

end Rebinding

namespace Revisiting

variable {c : BindingInput} {u' : SourceUnit} {σ : Place → Place} {kept : Place → List Place}
  {v : Visit × Visit} (h : Revisiting c u' σ kept v) {p q param : Place}

include h

variable {ps parts : List Place} {body type : Place}

/-! ## Visits -/

theorem visitStep (hq : c.Has q) : Redrawn c u' v [.visit q] [.visit (σ q)] :=
  .single fun b => by rw [Step.run_visit, Step.run_visit, h.visit q b hq]

theorem skipStep (hq : q.isRemark = true) : Redrawn c u' v [.visit q] [] := fun b => by
  simp [h.skip q b hq]

theorem skipStepAnew (hq : q.isRemark = true) : Redrawn c u' v [] [.visit q] := fun b => by
  simp [h.skipAnew q b hq]

theorem visits {qs : List Place} (heq : qs.filter (!·.isRemark) = (ps.filter (!·.isRemark)).map σ)
    (hps : ∀ q ∈ ps, c.Has q) : Redrawn c u' v (ps.map .visit) (qs.map .visit) := by
  rw [List.map_eq_flatMap, List.map_eq_flatMap]
  exact .flatMap heq (fun q hq _ => h.visitStep (hps q hq)) (fun _ _ hq => h.skipStep hq)
    (fun _ _ hq => h.skipStepAnew hq)

theorem visits_map (hps : ∀ q ∈ ps, c.Has q) :
    Redrawn c u' v (ps.map .visit) ((ps.map σ).map .visit) := by
  rw [List.map_eq_flatMap, List.map_eq_flatMap]
  exact .flatMap_map fun q hq => h.visitStep (hps q hq)

theorem exceptSteps (hp : c.Has p) (skip : List Place) :
    Redrawn c u' v (Binder.exceptSteps p skip) (Binder.exceptSteps (σ p) (skip.map σ)) :=
  h.visits (Redrawing.filter (h.filter_isRemark_namedChildren p) fun q => by rw [h.isIn])
    fun q hq => hp.namedChild (List.mem_of_mem_filter hq)

theorem childSteps (hp : c.Has p) :
    Redrawn c u' v (Binder.childSteps p) (Binder.childSteps (σ p)) :=
  h.visits (h.filter_isRemark_namedChildren p) fun _ hq => hp.namedChild hq

theorem roleSteps (hp : c.Has p) (role : String) :
    Redrawn c u' v ((p.child? role).toList.map .visit) (((σ p).child? role).toList.map .visit) := by
  rw [h.child?, Option.toList_map]
  refine h.visits_map fun q hq => ?_
  exact hp.child (mem_children_of_child? (Option.mem_toList.mp hq))

/-! ## Names -/

theorem qualifier? (p : Place) : Binder.qualifier? (σ p) = (Binder.qualifier? p).map σ := by
  unfold Binder.qualifier?
  rw [h.kind]
  split
  · exact h.child? p "scope"
  · split
    · next hkind =>
        rw [h.namedChildren_of_counted (by simp [countsComments, hkind]), List.head?_map]
    · rfl

theorem typeNameParts? (p : Place) :
    Binder.typeNameParts? (σ p)
      = (Binder.typeNameParts? p).map fun parts => (parts.1.map σ, σ parts.2) := by
  unfold Binder.typeNameParts?
  rw [h.kind]
  split
  · next hkind =>
      have hcomp : (fun q : Place => q.kind == "type_identifier") ∘ σ
          = fun q => q.kind == "type_identifier" := by
        funext q
        rw [Function.comp_apply, h.kind]
      rw [h.namedChildren_of_counted (by simp [countsComments, hkind]), ← List.map_reverse,
        List.find?_map, hcomp, List.head?_map]
      cases p.namedChildren.reverse.find? (·.kind == "type_identifier") with
      | none => rfl
      | some last =>
        cases hhead : p.namedChildren.head? with
        | none => rfl
        | some first =>
          simp only [Option.map_some, Option.filter, h.same]
          split <;> rfl
  · split
    · rw [h.child?, h.child?]
      cases p.child? "name" <;> rfl
    · rfl

theorem typeMarks (p : Place) : Binder.typeMarks (σ p) = (Binder.typeMarks p).map σ := by
  unfold Binder.typeMarks
  rw [h.kind]
  split
  · exact h.filter_namedChildren (fun q => by rw [h.kind])
      (fun q hq => by rw [kind_ne_of_isRemark hq rfl, kind_ne_of_isRemark hq rfl]; rfl) p
  · rfl

theorem isTypeName (p : Place) : Binder.isTypeName (σ p) = Binder.isTypeName p := by
  rw [Binder.isTypeName, Binder.isTypeName, h.kind]

theorem typeMeaning (hp : c.Has p) (hspelled : p.isSpelled = true) :
    Binder.typeMeaning (c.withUnit u') (σ p) = Binder.typeMeaning c p := by
  have htext := h.spelled hp hspelled
  funext b
  simp only [Binder.typeMeaning, htext, lookupType?_withUnit]

theorem typeNameSteps {before before' : Place → List Step}
    (hbefore : ∀ q, c.Has q → q.isSpelled = true → Redrawn c u' v (before q) (before' (σ q)))
    (hp : c.Has p) (hspelled : p.isSpelled = true) :
    Redrawn c u' v (Binder.typeNameSteps c before p)
      (Binder.typeNameSteps (c.withUnit u') before' (σ p)) := by
  unfold Binder.typeNameSteps
  rw [h.typeNameParts?]
  cases hparts : Binder.typeNameParts? p with
  | none => exact .nil
  | some parts =>
    obtain ⟨first, last⟩ := parts
    have hmarks : Redrawn c u' v ((Binder.typeMarks p).map .visit)
        ((Binder.typeMarks (σ p)).map .visit) := by
      rw [h.typeMarks]
      refine h.visits_map fun q hq => ?_
      unfold Binder.typeMarks at hq
      split at hq
      · exact hp.namedChild (List.mem_of_mem_filter hq)
      · cases hq
    have hqualifier : Redrawn c u' v
        (first.toList.flatMap fun q => if Binder.isTypeName q then before q else [.visit q])
        ((first.map σ).toList.flatMap fun q =>
          if Binder.isTypeName q then before' q else [.visit q]) := by
      rw [Option.toList_map]
      refine .flatMap_map fun q hq => ?_
      by_cases hscoped : p.kind = "scoped_type_identifier" ∨ p.kind = "scoped_identifier"
      · have hmem := (mem_children_of_typeNameParts? hparts hscoped).2 q hq
        have houtside : outsideTypeText p.kind = false := by
          rcases hscoped with hkind | hkind <;> rw [hkind] <;> decide
        rw [h.isTypeName]
        split
        · exact hbefore q (hp.child hmem) (isSpelled_inner hspelled houtside hmem)
        · exact h.visitStep (hp.child hmem)
      · simp only [not_or] at hscoped
        cases hparts.symm.trans (typeNameParts?_eq_self hscoped.1 hscoped.2)
        cases hq
    refine (hmarks.append hqualifier).append ?_
    rw [h.typeMeaning hp hspelled]
    exact h.nameStep last last _

theorem qualifierSteps (levels : Nat) (hp : c.Has p) (hspelled : p.isSpelled = true) :
    Redrawn c u' v (Binder.qualifierSteps c levels p)
      (Binder.qualifierSteps (c.withUnit u') levels (σ p)) := by
  induction levels generalizing p with
  | zero => exact .nil
  | succ levels ih =>
    have htext := h.spelled hp hspelled
    have hbefore : Redrawn c u' v ((Binder.qualifier? p).toList.flatMap (Binder.qualifierSteps c levels))
        ((Binder.qualifier? (σ p)).toList.flatMap
          (Binder.qualifierSteps (c.withUnit u') levels)) := by
      rw [h.qualifier?, Option.toList_map]
      refine .flatMap_map fun q hq => ?_
      obtain ⟨hscoped, hmem⟩ := qualifier?_mem (Option.mem_toList.mp hq)
      have houtside : outsideTypeText p.kind = false := by
        rcases hscoped with hkind | hkind <;> rw [hkind] <;> decide
      exact ih (hp.child hmem) (isSpelled_inner hspelled houtside hmem)
    rw [Binder.qualifierSteps, Binder.qualifierSteps, htext, knowsType_withUnit c u']
    exact .choose _ (h.typeNameSteps (fun q hq hspelled => ih hq hspelled) hp hspelled) hbefore

/-- The names of a type. -/
theorem typeSteps (hp : c.Has p) (hspelled : p.isSpelled = true) :
    Redrawn c u' v (Binder.typeNameSteps c (Binder.qualifierSteps c p.node.height) p)
      (Binder.typeNameSteps (c.withUnit u')
        (Binder.qualifierSteps (c.withUnit u') (σ p).node.height) (σ p)) := by
  rw [h.height]
  exact h.typeNameSteps (fun q hq hspelled => h.qualifierSteps _ hq hspelled) hp hspelled

theorem importedSteps (levels : Nat) (reportMissing : Bool) (hp : c.Has p)
    (hheader : p.isHeaderName = true) :
    Redrawn c u' v (Binder.importedSteps c levels reportMissing p).1
        (Binder.importedSteps (c.withUnit u') levels reportMissing (σ p)).1
      ∧ (Binder.importedSteps (c.withUnit u') levels reportMissing (σ p)).2
        = (Binder.importedSteps c levels reportMissing p).2 := by
  induction levels generalizing reportMissing p with
  | zero => exact ⟨.nil, rfl⟩
  | succ levels ih =>
    have hlast : (if (σ p).kind == "scoped_identifier" then (σ p).child? "name" else some (σ p))
        = (if p.kind == "scoped_identifier" then p.child? "name" else some p).map σ := by
      rw [h.kind, h.child?]
      split <;> rfl
    have htext := h.headerName hp hheader
    have hbefore : Redrawn c u' v
        ((p.child? "scope").toList.flatMap fun scope =>
          (Binder.importedSteps c levels false scope).1)
        (((σ p).child? "scope").toList.flatMap fun scope =>
          (Binder.importedSteps (c.withUnit u') levels false scope).1) := by
      rw [h.child?, Option.toList_map]
      refine .flatMap_map fun q hq => ?_
      have hq := Option.mem_toList.mp hq
      exact (ih false (hp.role hq) (isHeaderName_of_scope hheader hq)).1
    unfold Binder.importedSteps
    rw [hlast, htext]
    cases (if p.kind == "scoped_identifier" then p.child? "name" else some p) with
    | none => exact ⟨.nil, rfl⟩
    | some last =>
      simp only [Option.map_some]
      cases c.index.resolveType c.number none (c.unit.text p) with
      | known name => exact ⟨hbefore.append (h.linkStep last name .valid), rfl⟩
      | external name =>
        cases reportMissing with
        | true => exact ⟨hbefore.append (h.linkStep last name .missing), rfl⟩
        | false => exact ⟨hbefore.append .nil, rfl⟩
      | primitive name => exact ⟨hbefore, rfl⟩

theorem staticMemberSteps (owner : String) (member : Place)
    (htext : u'.text (σ member) = c.unit.text member) :
    Redrawn c u' v (Binder.staticMemberSteps c owner member)
      (Binder.staticMemberSteps (c.withUnit u') owner (σ member)) := by
  have hmethods : methodKeys (c.withUnit u') owner (c.unit.text member)
      = methodKeys c owner (c.unit.text member) := rfl
  unfold Binder.staticMemberSteps
  simp only [htext, hmethods]
  cases c.index.findField? owner (c.unit.text member) with
  | some found => exact h.linkStep member _ .valid
  | none =>
    rcases methodKeys c owner (c.unit.text member) with _ | ⟨key, _ | ⟨key', rest⟩⟩
    · exact h.linkStep member _ .missing
    · exact h.linkStep member key .valid
    · exact .nil

theorem importSteps (hp : c.Has p) (hof : Construct.of p = .importName) :
    Redrawn c u' v (Binder.importSteps c p) (Binder.importSteps (c.withUnit u') (σ p)) := by
  unfold Binder.importSteps
  rw [h.any_kind (rfl : isCommentKind "asterisk" = false),
    h.any_kind (rfl : isCommentKind "static" = false), h.find?_headerName]
  split
  · exact .nil
  · cases hname : p.children.find? fun c => c.kind == "scoped_identifier" || c.kind == "identifier" with
    | none => exact .nil
    | some name =>
      have hform := Construct.formOf hof
      have hmem := List.mem_of_find?_eq_some hname
      have hkind : name.kind = "scoped_identifier" ∨ name.kind = "identifier" := by
        simpa using List.find?_some hname
      have hheader := Respelling.isHeaderName_of_mem (.inr hform) hkind hmem
      simp only [Option.map_some]
      split
      · rw [h.child?, h.child?, h.height]
        cases hscope : name.child? "scope" with
        | none => exact .nil
        | some owner =>
          cases hlast : name.child? "name" with
          | none => exact .nil
          | some member =>
            obtain ⟨hsteps, howner⟩ := h.importedSteps name.node.height false
              ((hp.child hmem).role hscope) (isHeaderName_of_scope hheader hscope)
            simp only [Option.map_some]
            generalize Binder.importedSteps (c.withUnit u') name.node.height false (σ owner)
              = steps' at hsteps howner ⊢
            generalize Binder.importedSteps c name.node.height false owner
              = steps at hsteps howner ⊢
            obtain ⟨steps', ownerName⟩ := steps'
            obtain ⟨steps, _⟩ := steps
            cases howner
            cases ownerName with
            | none => exact hsteps
            | some ownerName =>
              have hplain : name.namesPlainly = true := by
                rcases hkind with hkind | hkind <;> exact namesPlainly_of_kind hkind rfl
              exact hsteps.append
                (h.staticMemberSteps ownerName member (h.name (hp.child hmem) hplain hlast))
      · rw [h.height]
        exact (h.importedSteps name.node.height true (hp.child hmem) hheader).1

/-! ## Member accesses and calls -/

theorem accessSteps (hp : c.Has p) {object : Place}
    (hof : Construct.of p = .fieldAccess object field) :
    Redrawn c u' v (Binder.accessSteps c p object field)
      (Binder.accessSteps (c.withUnit u') (σ p) (σ object) (σ field)) := by
  have hparts := Construct.partsOf hof
  have hobject : c.Has object := hp.role hparts.2.1
  have htext := h.read field (hp.role hparts.2.2) (by simp [isRead, role_of_child? hparts.2.2])
  unfold Binder.accessSteps
  simp only [h.kind, htext, h.typeOf?, superMeaning_withUnit]
  split
  · exact (h.visitStep hobject).append (h.noteStep p _)
  · split
    · exact h.nameStep field p _
    · rw [h.accessMeaning hp hof]
      exact (h.visitStep hobject).append (h.nameStep field p _)

theorem callSteps (hp : c.Has p) (hof : Construct.of p = .methodCall object name arguments) :
    Redrawn c u' v (Binder.callSteps c p object name arguments)
      (Binder.callSteps (c.withUnit u') (σ p) (object.map σ) (σ name) (σ arguments)) := by
  unfold Binder.callSteps
  rw [h.callMeaning hp hof]
  refine Redrawn.append ?_ (h.nameStep name p _)
  exact h.visits (Redrawing.filter (h.filter_isRemark_namedChildren p) fun q => by rw [h.same])
    fun q hq => hp.namedChild (List.mem_of_mem_filter hq)

theorem referenceSteps (hp : c.Has p) (hof : Construct.of p = .methodReference) :
    Redrawn c u' v (Binder.referenceSteps c p) (Binder.referenceSteps (c.withUnit u') (σ p)) := by
  have hform := Construct.formOf hof
  have hcounts : p.countsComments = true := by
    have hkind : p.kind = "method_reference" := hform
    simp [countsComments, hkind]
  unfold Binder.referenceSteps
  rw [h.namedChildren_of_counted hcounts]
  cases hchildren : p.namedChildren with
  | nil => exact .nil
  | cons object rest =>
    have hobject : c.Has object := hp.namedChild (by simp [hchildren])
    simp only [List.map_cons, List.getLast?_map]
    refine (h.visitStep hobject).append ?_
    cases hlast : rest.getLast? with
    | none => exact .nil
    | some name =>
      simp only [Option.map_some, Option.toList_some, List.filter_cons, h.kind, List.filter_nil]
      split
      · next hkind =>
          have hname : name ∈ p.namedChildren := by
            rw [hchildren]
            exact List.mem_cons_of_mem _ (List.mem_of_getLast? hlast)
          rw [List.map_cons, List.map_nil, List.map_cons, List.map_nil,
            h.referenceMeaning hp hof (by simp [hchildren]) hname (by simpa using hkind)]
          exact h.nameStep name name _
      · exact .nil

/-! ## Types and their members -/

theorem typeAt? (p : Place) : c.index.typeAt? c.number (σ p) = c.index.typeAt? c.number p :=
  c.index.typeAt?_congr c.number (h.number p)

theorem componentMembers (owner : String) (hp : c.Has p) :
    Binder.componentMembers (c.withUnit u') owner (σ p) = Binder.componentMembers c owner p := by
  unfold Binder.componentMembers
  rw [h.child?]
  cases hparams : p.child? "parameters" with
  | none => rfl
  | some params =>
    simp only [Option.map_some, Option.toList_some, List.flatMap_cons, List.flatMap_nil,
      List.append_nil]
    refine Redrawing.filterMap (h.filter_isRemark_namedChildren params) (fun param hparam _ => ?_)
      (fun q hq => by rw [declaredName?_of_isRemark hq])
      (fun q hq => by rw [declaredName?_of_isRemark hq])
    have hparamHas := (hp.role hparams).namedChild hparam
    have hdeclares := Respelling.isParameter_of_role (role_of_child? hparams)
      (mem_children_of_mem_namedChildren hparam)
    have htype := h.parameterType? hparamHas hdeclares
    rw [htype, h.declaredName?]
    cases hname : param.declaredName? with
    | none => rfl
    | some q =>
      have htext := h.declaredName hparamHas hdeclares hname
      cases c.unit.parameterType? param with
      | none => rfl
      | some type => simp only [Option.map_some, htext, staticType?_withUnit]

theorem membersAt (owner : String) (hp : c.Has p) :
    Binder.membersAt (c.withUnit u') owner (σ p) = Binder.membersAt c owner p := by
  have hkey := h.memberKey hp owner
  have hname : ∀ {k : Construct} {q : Place}, Construct.of p = k → k.namesPlainly = true →
      p.child? "name" = some q → (c.withUnit u').unit.text (σ q) = c.unit.text q := h.nameOf hp
  have hparts := Construct.partsOf_of p
  unfold Binder.membersAt
  rw [h.construct]
  cases hof : Construct.of p <;> rw [hof] at hparts <;> simp only [Construct.map]
  case field type =>
    have hform := Construct.formOf hof
    have hspelled := h.spelled (hp.role hform) (isSpelled_of_child? hform)
    rw [h.declarators, List.map_map]
    refine List.map_congr_left fun d hd => ?_
    obtain ⟨hmem, hkind, hdeclarator⟩ := declarators_mem hd
    have htext : (c.withUnit u').unit.text (σ d.2) = c.unit.text d.2 :=
      h.declaratorName (hp.child hmem) hkind hdeclarator
    simp only [Function.comp_apply, htext, hspelled, h.child?, h.dimensionCount,
      staticType?_withUnit]
  case enumConstant name body => rw [hname hof rfl hparts.2.1]
  case method name params body isConstructor =>
    cases isConstructor with
    | true => rfl
    | false =>
      obtain ⟨-, -, hmethod, rfl⟩ := hparts
      have htype : ((p.child? "type").map σ).map (c.withUnit u').unit.typeText
          = (p.child? "type").map c.unit.typeText := by
        rw [Option.map_map]
        exact h.typeText_child? hp
      have hparams : ((p.child? "parameters").map σ).map (c.withUnit u').unit.parameterTypes
          = (p.child? "parameters").map c.unit.parameterTypes := by
        rw [Option.map_map]
        exact Option.map_congr fun params hparams =>
          h.parameterTypes (hp.role hparams)
      have hspread : ((p.child? "parameters").map σ).any SourceUnit.hasSpread
          = (p.child? "parameters").any SourceUnit.hasSpread := by
        cases p.child? "parameters" with
        | none => rfl
        | some params => exact h.hasSpread params
      simp only [hkey, hname hof rfl hmethod, h.child?, htype, hparams, hspread]
  case elementDecl name => rw [hkey, hname hof rfl hparts.2]

theorem typeDeclSteps (hp : c.Has p) :
    Binder.typeSteps (c.withUnit u') (σ p) = Binder.typeSteps c p := by
  have hparts := Construct.partsOf_of p
  unfold Binder.typeSteps
  rw [h.construct, h.typeAt?]
  cases hof : Construct.of p <;> rw [hof] at hparts <;> simp only [Construct.map]
  case typeDecl kind name body =>
    have htext := h.nameOf hp hof rfl hparts.2.1
    cases c.index.typeAt? c.number p with
    | none => rfl
    | some key => simp only [htext]

theorem memberSteps (owner : String) (isRecord : Bool) (hp : c.Has p) (hbody : c.Has body) :
    Redrawn c u' v (Binder.memberSteps c owner isRecord p body)
      (Binder.memberSteps (c.withUnit u') owner isRecord (σ p) (σ body)) := by
  have hskip : ∀ (c : BindingInput) (q : Place), q.isRemark = true →
      (Binder.membersAt c owner q).map Step.declareMember ++ Binder.typeSteps c q = [] := by
    intro c q hq
    rw [Binder.membersAt, Binder.typeSteps, construct_of_isRemark hq]
    rfl
  have hmembers : ((σ body).bodyMembers.flatMap fun q =>
        (Binder.membersAt (c.withUnit u') owner q).map Step.declareMember
          ++ Binder.typeSteps (c.withUnit u') q)
      = body.bodyMembers.flatMap fun q =>
        (Binder.membersAt c owner q).map Step.declareMember ++ Binder.typeSteps c q := by
    refine Redrawing.flatMap (h.bodyMembers body) (fun q hq _ => ?_) (hskip c)
      (hskip (c.withUnit u'))
    have hqHas := mem_places_of_mem_bodyMembers hbody hq
    rw [h.membersAt owner hqHas, h.typeDeclSteps hqHas]
  have hsteps : Binder.memberSteps (c.withUnit u') owner isRecord (σ p) (σ body)
      = Binder.memberSteps c owner isRecord p body := by
    rw [Binder.memberSteps, Binder.memberSteps, h.componentMembers owner hp, hmembers]
  rw [hsteps]
  exact .declares fun s hs => (ahead_memberSteps hp hbody isRecord s hs).isAhead

theorem componentSteps (owner : String) (hparam : c.Has param)
    (hdeclares : param.isParameter = true) :
    Redrawn c u' v (Binder.componentSteps c owner param)
      (Binder.componentSteps (c.withUnit u') owner (σ param)) := by
  unfold Binder.componentSteps
  rw [h.declaredName?]
  cases hname : param.declaredName? with
  | none => exact h.childSteps hparam
  | some name =>
    have htext := h.declaredName hparam hdeclares hname
    simp only [Option.map_some, htext]
    exact (h.exceptSteps hparam [name]).append (h.linkStep name _ .valid)

theorem headerSteps (owner : String) (kind : TypeKind) (hq : c.Has q) :
    Redrawn c u' v (Binder.headerSteps c kind owner q)
      (Binder.headerSteps (c.withUnit u') kind owner (σ q)) := by
  have hnone : ∀ (c : BindingInput) (r : Place), r.isRemark = true →
      Binder.componentSteps c owner r = [] := by
    intro c r hr
    rw [Binder.componentSteps, declaredName?_of_isRemark hr]
    simp only [Binder.childSteps, namedChildren_of_isRemark hr, List.map_nil]
  unfold Binder.headerSteps
  rw [h.kind]
  split
  · next hheader =>
      have hkind : q.node.kind = "formal_parameters" := by
        simp only [Bool.and_eq_true, beq_iff_eq] at hheader
        exact hheader.2
      refine .flatMap (h.filter_isRemark_namedChildren q) (fun param hparam _ => ?_)
        (fun r _ hr => ?_) (fun r _ hr => ?_)
      · obtain ⟨n, -, hparam'⟩ := List.mem_map.mp (mem_children_of_mem_namedChildren hparam)
        exact h.componentSteps owner (hq.namedChild hparam)
          (by simp [isParameter, SourceUnit.inParameterList, ← hparam', hkind])
      all_goals
        rw [hnone _ r hr]
        exact .nil
  · exact h.visitStep hq

theorem typeVariableSteps (hp : c.Has p) :
    Redrawn c u' v (Binder.typeVariableSteps c p)
      (Binder.typeVariableSteps (c.withUnit u') (σ p)) := by
  have hnames := h.typeParameters hp
  rw [Binder.typeVariableSteps, Binder.typeVariableSteps, hnames]
  refine .declares fun s hs => ?_
  obtain ⟨name, -, rfl⟩ := List.mem_map.mp hs
  rfl

theorem bodySteps (hbody : c.Has body) :
    Redrawn c u' v (body.bodyMembers.map .visit) ((σ body).bodyMembers.map .visit) :=
  h.visits (h.bodyMembers body) fun _ hq => mem_places_of_mem_bodyMembers hbody hq

theorem declarationSteps (hp : c.Has p) {kind : TypeKind}
    (hof : Construct.of p = .typeDecl kind name body) :
    Redrawn c u' v (Binder.declarationSteps c p kind name body)
      (Binder.declarationSteps (c.withUnit u') (σ p) kind (σ name) (σ body)) := by
  have hparts := Construct.partsOf hof
  unfold Binder.declarationSteps
  rw [h.typeAt?]
  cases hkey : c.index.typeAt? c.number p with
  | none => exact h.childSteps hp
  | some key =>
    have htext := h.nameOf hp hof rfl hparts.2.1
    have hbody := hp.role hparts.2.2
    have hdeclare : Redrawn c u' v [.declareType key (c.unit.text name)]
        [.declareType key (c.unit.text name)] := .declares fun s hs => by
      rw [List.mem_singleton.mp hs]
      rfl
    simp only [htext]
    refine hdeclare.append ((h.nameStep name name _).append (.inScope p .typeBody (.inFrame _ ?_)))
    refine (((h.typeVariableSteps hp).append (h.memberSteps key _ hp hbody)).append ?_).append
      (h.bodySteps hbody)
    · refine .flatMap (Redrawing.filter (h.filter_isRemark_namedChildren p) fun q => ?_)
        (fun q hq _ => ?_) (fun q _ hq => ?_) (fun q _ hq => ?_)
      · exact congrArg (!·) (h.isIn q [name, body])
      · exact h.headerSteps key kind (hp.namedChild (List.mem_of_mem_filter hq))
      · rw [Binder.headerSteps, kind_ne_of_isRemark hq rfl, Bool.and_false]
        exact h.skipStep hq
      · rw [Binder.headerSteps, kind_ne_of_isRemark hq rfl, Bool.and_false]
        exact h.skipStepAnew hq

theorem anonymousSteps (hp : c.Has p) (hbody : p.typeBody? = some body) :
    Redrawn c u' v (Binder.anonymousSteps c p body)
      (Binder.anonymousSteps (c.withUnit u') (σ p) (σ body)) := by
  have hbodyHas : c.Has body := hp.child (mem_children_of_typeBody? hbody)
  unfold Binder.anonymousSteps
  rw [h.typeAt?]
  cases hkey : c.index.typeAt? c.number p with
  | none => exact h.childSteps hbodyHas
  | some key =>
    exact .inScope p .typeBody (.inFrame _
      ((h.memberSteps key false hp hbodyHas).append (h.bodySteps hbodyHas)))

/-! ## Members -/

theorem fieldSteps (owner : String) (hp : c.Has p) :
    Redrawn c u' v (Binder.fieldSteps c owner p)
      (Binder.fieldSteps (c.withUnit u') owner (σ p)) := by
  unfold Binder.fieldSteps
  rw [h.isStaticField]
  refine .inMember _ (.flatMap (h.filter_isRemark_namedChildren p) (fun q hq _ => ?_)
    (fun q _ hq => ?_) (fun q _ hq => ?_))
  · have hqHas := hp.namedChild hq
    unfold Binder.fieldPartSteps
    rw [h.kind]
    split
    · next hkind =>
        refine Redrawn.append ?_ (h.roleSteps hqHas "value")
        rw [h.child?]
        cases hname : q.child? "name" with
        | none => exact .nil
        | some name =>
          have htext := h.declaratorName hqHas (beq_iff_eq.mp hkind) hname
          simp only [Option.map_some, Option.toList_some, List.map_cons, List.map_nil, htext]
          exact h.linkStep name _ .valid
    · exact h.visitStep hqHas
  · rw [Binder.fieldPartSteps, kind_ne_of_isRemark hq rfl]
    exact h.skipStep hq
  · rw [Binder.fieldPartSteps, kind_ne_of_isRemark hq rfl]
    exact h.skipStepAnew hq

theorem constantSteps (owner : String) (hp : c.Has p) {body : Option Place}
    (hof : Construct.of p = .enumConstant name body) :
    Redrawn c u' v (Binder.constantSteps c owner p name body)
      (Binder.constantSteps (c.withUnit u') owner (σ p) (σ name) (body.map σ)) := by
  have hparts := Construct.partsOf hof
  have htext := h.nameOf hp hof rfl hparts.2.1
  have hexcept := h.exceptSteps hp (name :: body.toList)
  rw [List.map_cons, ← Option.toList_map] at hexcept
  unfold Binder.constantSteps
  rw [htext]
  refine ((h.nameStep name name _).append (.inMember _ hexcept)).append ?_
  cases body with
  | none => exact .nil
  | some body =>
    have hbody : p.typeBody? = some body := by simp [typeBody?, hof]
    simpa using h.anonymousSteps hp hbody

theorem parameterSteps (kind : SymbolKind) (hp : c.Has p) (hparam : p.isParameter = true) :
    Redrawn c u' v (Binder.parameterSteps c kind p)
      (Binder.parameterSteps (c.withUnit u') kind (σ p)) := by
  have htype := h.parameterType? hp hparam
  unfold Binder.parameterSteps
  simp only [htype, h.declaredName?, staticType?_withUnit]
  refine Redrawn.append (h.visits (Redrawing.filter (h.filter_isRemark_namedChildren p) fun q => ?_)
    fun q hq => hp.namedChild (List.mem_of_mem_filter hq)) ?_
  · rw [Option.toList_map, h.isIn, h.kind]
  · cases hname : p.declaredName? with
    | none => exact .nil
    | some name =>
      exact h.variableStep (h.declaredName hp hparam hname) kind _ .nil

theorem parametersSteps (kind : SymbolKind) {params : Place} (hparams : c.Has params) :
    Redrawn c u' v (Binder.parametersSteps c kind params)
      (Binder.parametersSteps (c.withUnit u') kind (σ params)) := by
  unfold Binder.parametersSteps
  refine .flatMap (h.filter_isRemark_namedChildren params) (fun q hq _ => ?_)
    (fun q _ hq => ?_) (fun q _ hq => ?_)
  · have hqHas := hparams.namedChild hq
    rw [h.kind]
    split
    · next hkind =>
        refine h.parameterSteps kind hqHas ?_
        rcases (Bool.or_eq_true _ _).mp hkind with hkind | hkind <;> simp [isParameter, hkind]
    · exact h.visitStep hqHas
  · rw [kind_ne_of_isRemark hq rfl, kind_ne_of_isRemark hq rfl]
    exact h.skipStep hq
  · rw [kind_ne_of_isRemark hq rfl, kind_ne_of_isRemark hq rfl]
    exact h.skipStepAnew hq

/-- A comment is none of the parts of a construct. -/
theorem isIn_of_isRemark (hp : c.Has p) (hq : q ∈ p.children) (hremark : q.isRemark = true)
    (hparts : ∀ r ∈ parts, r ∈ p.children ∧ r.isRemark = false) :
    q.isIn parts = false := by
  cases hin : q.isIn parts with
  | false => rfl
  | true =>
    obtain ⟨r, hr, hnumber⟩ := Place.isIn_eq_true_iff.mp hin
    obtain ⟨hmem, hnot⟩ := hparts r hr
    rw [h.distinct q r (hp.child hq) (hp.child hmem) hnumber, hnot] at hremark
    cases hremark

theorem isIn_of_isRemark_anew (hp : c.Has p) (hq : q ∈ (σ p).namedChildren)
    (hremark : q.isRemark = true) (hparts : ∀ r ∈ parts, r ∈ p.children ∧ r.isRemark = false) :
    q.isIn (parts.map σ) = false := by
  have hq := mem_children_of_mem_namedChildren hq
  rw [h.children] at hq
  obtain ⟨r, hr, rfl⟩ := List.mem_map.mp hq
  rw [h.isRemark] at hremark
  rw [h.isIn]
  exact h.isIn_of_isRemark hp (h.kept_subset p hr) hremark hparts

omit h in
theorem not_isRemark_of_child? {role : String} (hq : p.child? role = some q) :
    q ∈ p.children ∧ q.isRemark = false := by
  refine ⟨mem_children_of_child? hq, ?_⟩
  cases hremark : q.isRemark with
  | false => rfl
  | true => cases (role_of_isRemark hremark).symm.trans (role_of_child? hq)

theorem methodSteps (owner : Option String) (hp : c.Has p) {params body : Option Place}
    {isConstructor : Bool} (hof : Construct.of p = .method name params body isConstructor) :
    Redrawn c u' v (Binder.methodSteps c owner p name params isConstructor)
      (Binder.methodSteps (c.withUnit u') owner (σ p) (σ name) (params.map σ) isConstructor) := by
  obtain ⟨-, -, -, hparams⟩ := Construct.partsOf hof
  unfold Binder.methodSteps
  cases owner with
  | none => exact h.childSteps hp
  | some owner =>
    have hkey := h.memberKey hp owner
    have hparamsOf : ∀ r ∈ params.toList, r ∈ p.children ∧ r.isRemark = false := fun r hr =>
      not_isRemark_of_child? (hparams.symm.trans (Option.mem_toList.mp hr))
    have hname : Redrawn c u' v [methodNameStep name (c.unit.memberKey owner p) isConstructor]
        [methodNameStep (σ name) (c.unit.memberKey owner p) isConstructor] := by
      cases isConstructor <;> exact h.nameStep name name _
    simp only [hkey]
    refine hname.append (.inMember _ (.inScope p .method ((h.typeVariableSteps hp).append ?_)))
    refine .flatMap (Redrawing.filter (h.filter_isRemark_namedChildren p) fun q => by rw [h.same])
      (fun q hq _ => ?_) (fun q hq hremark => ?_) (fun q hq hremark => ?_)
    · have hqHas := hp.namedChild (List.mem_of_mem_filter hq)
      rw [Option.toList_map, h.isIn]
      split
      · exact h.parametersSteps .parameter hqHas
      · exact h.visitStep hqHas
    · rw [h.isIn_of_isRemark hp (mem_children_of_mem_namedChildren (List.mem_of_mem_filter hq))
        hremark hparamsOf]
      exact h.skipStep hremark
    · rw [Option.toList_map, h.isIn_of_isRemark_anew hp (List.mem_of_mem_filter hq) hremark
        hparamsOf]
      exact h.skipStepAnew hremark

theorem initializerSteps (owner : String) (hp : c.Has p) {block : Place} {isStatic : Bool}
    (hof : Construct.of p = .initializer block isStatic) :
    Redrawn c u' v (Binder.initializerSteps owner p block isStatic)
      (Binder.initializerSteps owner (σ p) (σ block) isStatic) := by
  have hparts := Construct.partsOf hof
  have hblock : c.Has block := by
    rcases hparts with rfl | ⟨-, hblock⟩
    · exact hp
    · exact hp.namedChild (mem_namedChildren_of_firstNamed? hblock)
  unfold Binder.initializerSteps
  rw [h.same]
  refine .inMember _ (.inScope block .method (Redrawn.append ?_ (h.childSteps hblock)))
  split
  · exact .nil
  · exact h.exceptSteps hp [block]

theorem elementSteps (owner : Option String) (hp : c.Has p) (name : Place) :
    Redrawn c u' v (Binder.elementSteps c owner p name)
      (Binder.elementSteps (c.withUnit u') owner (σ p) (σ name)) := by
  unfold Binder.elementSteps
  refine Redrawn.append ?_ (h.exceptSteps hp [name])
  cases owner with
  | none => exact .nil
  | some owner =>
    have hkey := h.memberKey hp owner
    simp only [Option.toList_some, List.map_cons, List.map_nil, hkey]
    exact h.linkStep name _ .valid

/-! ## Variables and statements -/

theorem isInferred (hp : c.Has p) (htype : p.child? "type" = some type) :
    Binder.isInferred (c.withUnit u') (σ type) = Binder.isInferred c type :=
  h.leftOut p hp type htype

theorem variableTypeSteps (hp : c.Has p) (htype : p.child? "type" = some type) :
    Redrawn c u' v (Binder.variableTypeSteps c type)
      (Binder.variableTypeSteps (c.withUnit u') (σ type)) := by
  unfold Binder.variableTypeSteps
  rw [h.isInferred hp htype]
  split
  · exact h.keepStep type
  · exact h.visitStep (hp.role htype)

theorem writtenStep (hname : u'.text (σ name) = c.unit.text name) (text : Option String) :
    Redrawn c u' v [Binder.writtenStep c name text]
      [Binder.writtenStep (c.withUnit u') (σ name) text] := by
  simp only [Binder.writtenStep, staticType?_withUnit]
  exact h.variableStep hname _ _ .nil

/-- A declarator `p` with the type of the place `around`. -/
theorem declaratorSteps (hp : c.Has p) {around : Place} (haround : c.Has around)
    (hname : u'.text (σ name) = c.unit.text name) :
    Redrawn c u' v (Binder.declaratorSteps c p name (around.child? "type"))
      (Binder.declaratorSteps (c.withUnit u') (σ p) (σ name) ((around.child? "type").map σ)) := by
  have hinferred : ((around.child? "type").map σ).any (Binder.isInferred (c.withUnit u'))
      = (around.child? "type").any (Binder.isInferred c) := by
    cases htype : around.child? "type" with
    | none => rfl
    | some type => exact h.isInferred haround htype
  have htext : ((around.child? "type").map σ).map (fun t => (c.withUnit u').unit.typeText t
        ++ brackets (Legible.dimensionCount ((σ p).child? "dimensions")))
      = (around.child? "type").map fun t =>
        c.unit.typeText t ++ brackets (Legible.dimensionCount (p.child? "dimensions")) := by
    rw [Option.map_map, h.child?, h.dimensionCount]
    refine Option.map_congr fun type htype => ?_
    have hspelled := h.spelled (haround.role htype) (isSpelled_of_child? htype)
    rw [Function.comp_apply, hspelled]
  have hvalue := h.roleSteps hp "value"
  have hhead : Redrawn c u' v
      (Binder.resourceHeadSteps c p name (around.child? "type") (p.child? "value"))
      (Binder.resourceHeadSteps (c.withUnit u') (σ p) (σ name) ((around.child? "type").map σ)
        ((σ p).child? "value")) := by
    have hexcept := h.exceptSteps hp
      (name :: ((p.child? "value").toList ++ (around.child? "type").toList))
    rw [List.map_cons, List.map_append, ← Option.toList_map, ← Option.toList_map,
      ← h.child?] at hexcept
    refine hexcept.append ?_
    rw [Option.toList_map]
    exact .flatMap_map fun type htype => h.variableTypeSteps haround (Option.mem_toList.mp htype)
  have hinferredStep : inferredStep (σ name) ((σ p).child? "value")
      = .declareVariable (σ name) .localVariable
        (fun b => (((p.child? "value").bind b.typeOf?).map StaticType.describe,
          (p.child? "value").bind b.typeOf?)) [] := by
    simp only [inferredStep, h.child?, Option.bind_map, Function.comp_def, h.typeOf?]
  unfold Binder.declaratorSteps
  simp only [h.kind, hinferred, htext, hinferredStep]
  refine Redrawn.append ?_ ?_
  · split
    · exact hhead
    · exact .nil
  · split
    · exact hvalue.append (h.variableStep hname _ _ .nil)
    · exact (h.writtenStep hname _).append hvalue

theorem variableSteps (hp : c.Has p) (htype : p.child? "type" = some type) :
    Redrawn c u' v (p.namedChildren.flatMap (variablePartSteps c type))
      ((σ p).namedChildren.flatMap (variablePartSteps (c.withUnit u') (σ type))) := by
  have hparts : ∀ r ∈ [type], r ∈ p.children ∧ r.isRemark = false := by
    intro r hr
    rw [List.mem_singleton.mp hr]
    exact not_isRemark_of_child? htype
  have hsame : ∀ q : Place, q.same type = q.isIn [type] := fun q => by simp [Place.isIn]
  refine .flatMap (h.filter_isRemark_namedChildren p) (fun q hq _ => ?_)
    (fun q hq hremark => ?_) (fun q hq hremark => ?_)
  · have hqHas := hp.namedChild hq
    unfold variablePartSteps
    rw [h.same, h.child?, h.kind]
    split
    · exact h.variableTypeSteps hp htype
    · cases hname : q.child? "name" with
      | none => exact h.visitStep hqHas
      | some name =>
        simp only [Option.map_some]
        split
        · next hkind =>
            have hsteps := h.declaratorSteps hqHas hp
              (h.declaratorName hqHas (beq_iff_eq.mp hkind) hname)
            rwa [htype] at hsteps
        · exact h.visitStep hqHas
  · rw [variablePartSteps, hsame, h.isIn_of_isRemark hp (mem_children_of_mem_namedChildren hq)
      hremark hparts, child?_of_isRemark hremark]
    exact h.skipStep hremark
  · have hsame' : q.same (σ type) = false := by
      have hin := h.isIn_of_isRemark_anew hp hq hremark hparts
      simpa [Place.isIn] using hin
    rw [variablePartSteps, hsame', child?_of_isRemark hremark]
    exact h.skipStepAnew hremark

theorem resourceSteps (hp : c.Has p) (hof : Construct.of p = .resource) :
    Redrawn c u' v (Binder.resourceSteps c p) (Binder.resourceSteps (c.withUnit u') (σ p)) := by
  unfold Binder.resourceSteps
  rw [h.child?, h.child?]
  cases hname : p.child? "name" with
  | none => exact h.childSteps hp
  | some name => exact h.declaratorSteps hp hp (h.nameOf hp hof rfl hname)

theorem typedSteps (htype : c.Has type) (hspelled : type.isSpelled = true)
    (hname : u'.text (σ name) = c.unit.text name) :
    Redrawn c u' v (Binder.typedSteps c type name)
      (Binder.typedSteps (c.withUnit u') (σ type) (σ name)) := by
  have htext := h.spelled htype hspelled
  unfold Binder.typedSteps
  rw [htext]
  exact (h.visitStep htype).append (h.writtenStep hname _)

theorem enhancedForSteps (hp : c.Has p) {value : Place}
    (hof : Construct.of p = .enhancedFor type name value body) :
    Redrawn c u' v (Binder.enhancedForSteps c p type name value body)
      (Binder.enhancedForSteps (c.withUnit u') (σ p) (σ type) (σ name) (σ value) (σ body)) := by
  obtain ⟨-, htype, hname, hvalue, hbody⟩ := Construct.partsOf hof
  have htext := h.spelled (hp.role htype) (isSpelled_of_child? htype)
  have htypes : loopTypes (c.withUnit u') (σ type) (σ value) = loopTypes c type value := by
    funext b
    simp only [loopTypes, h.isInferred hp htype, h.typeOf?, htext, staticType?_withUnit]
  have hmodifiers : Redrawn c u' v ((p.namedChildren.filter (·.kind == "modifiers")).map .visit)
      (((σ p).namedChildren.filter (·.kind == "modifiers")).map .visit) := by
    rw [h.filter_kind rfl]
    exact h.visits_map fun q hq =>
      hp.namedChild (List.mem_of_mem_filter hq)
  unfold Binder.enhancedForSteps
  rw [htypes]
  exact .inScope p .block (((h.visitStep (hp.role hvalue)).append (h.variableTypeSteps hp htype)).append
    ((h.variableStep (h.nameOf hp hof rfl hname) _ _ hmodifiers).append (h.visitStep (hp.role hbody))))

theorem catchSteps (hp : c.Has p) (hof : Construct.of p = .catchClause param body) :
    Redrawn c u' v (Binder.catchSteps c p param body)
      (Binder.catchSteps (c.withUnit u') (σ p) (σ param) (σ body)) := by
  have hparts := Construct.partsOf hof
  have hparamHas := hp.namedChild (mem_namedChildren_of_firstNamed? hparts.1)
  have hkind : param.kind = "catch_formal_parameter" := by
    simpa using List.find?_some hparts.1
  have hparam : param.isParameter = true := by simp [isParameter, hkind]
  have htype : (σ param).declaredType?.map (c.withUnit u').unit.typeText
      = param.declaredType?.map c.unit.typeText := by
    rw [h.declaredType? hparam, Option.map_map]
    refine Option.map_congr fun type htype => ?_
    obtain ⟨hspelled, hmem⟩ := isSpelled_of_declaredType? hparam htype
    exact h.spelled (hparamHas.child hmem) hspelled
  have hexcept := h.exceptSteps hparamHas param.declaredName?.toList
  rw [← Option.toList_map] at hexcept
  unfold Binder.catchSteps
  rw [htype, h.declaredName?]
  refine .inScope p .block ((hexcept.append ?_).append (h.visitStep (hp.role hparts.2)))
  cases hname : param.declaredName? with
  | none => exact .nil
  | some name => exact h.writtenStep (h.declaredName hparamHas hparam hname) _

theorem lambdaParameterSteps {params : Place} (hparams : c.Has params) :
    Redrawn c u' v (Binder.lambdaParameterSteps c params)
      (Binder.lambdaParameterSteps (c.withUnit u') (σ params)) := by
  unfold Binder.lambdaParameterSteps
  rw [h.kind]
  split
  · next hkind => exact h.variableStep (h.readName hparams (by simpa using hkind)) _ _ .nil
  · split
    · exact h.parametersSteps .localVariable hparams
    · rw [List.map_eq_flatMap, List.map_eq_flatMap]
      refine .flatMap (h.filter_isRemark_namedChildren params) (fun q hq _ => ?_)
        (fun q _ hq => ?_) (fun q _ hq => ?_)
      · have hqHas := hparams.namedChild hq
        rw [h.kind]
        split
        · next hkind => exact h.variableStep (h.readName hqHas (by simpa using hkind)) _ _ .nil
        · exact h.visitStep hqHas
      · rw [kind_ne_of_isRemark hq rfl]
        exact h.skipStep hq
      · rw [kind_ne_of_isRemark hq rfl]
        exact h.skipStepAnew hq

/-! ## Expressions -/

theorem inferredStep (hp : c.Has p) :
    Redrawn c u' v [.note p fun b => b.inferredType? c p]
      [.note (σ p) fun b => b.inferredType? (c.withUnit u') (σ p)] := by
  simp only [h.inferredType? hp]
  exact h.noteStep p _

theorem rightSteps (hp : c.Has p) :
    Redrawn c u' v (Binder.rightSteps c p) (Binder.rightSteps (c.withUnit u') (σ p)) :=
  (h.roleSteps hp "right").append (h.inferredStep hp)

theorem binarySteps (hp : c.Has p) :
    Redrawn c u' v (Binder.binarySteps c p) (Binder.binarySteps (c.withUnit u') (σ p)) := by
  induction p using binary_induction with
  | last p hleft =>
    have hleft' : ∀ left, (σ p).child? "left" = some left →
        left.kind ≠ "binary_expression" := by
      intro left' hleft'
      rw [h.child?] at hleft'
      obtain ⟨left, hchild, rfl⟩ := Option.map_eq_some_iff.mp hleft'
      rw [h.kind]
      exact hleft left hchild
    rw [binarySteps_eq_operandSteps hleft, binarySteps_eq_operandSteps hleft']
    exact (h.roleSteps hp "left").append (h.rightSteps hp)
  | next p left hleft hkind ih =>
    have hleft' : (σ p).child? "left" = some (σ left) := by rw [h.child?, hleft, Option.map_some]
    rw [binarySteps_eq_append hleft hkind,
      binarySteps_eq_append hleft' ((h.kind left).trans hkind)]
    exact (ih (hp.role hleft)).append (h.rightSteps hp)

theorem creationSteps (hp : c.Has p) {body : Option Place}
    (hof : Construct.of p = .objectCreation type body) :
    Redrawn c u' v (Binder.creationSteps c p type body)
      (Binder.creationSteps (c.withUnit u') (σ p) (σ type) (body.map σ)) := by
  have hform := Construct.formOf hof
  have htext := h.spelled (hp.role hform) (isSpelled_of_child? hform)
  have hexcept := h.exceptSteps hp body.toList
  rw [← Option.toList_map] at hexcept
  unfold Binder.creationSteps
  simp only [htext, staticType?_withUnit]
  refine (hexcept.append (h.noteStep p _)).append ?_
  cases body with
  | none => exact .nil
  | some body =>
    have hbody : p.typeBody? = some body := by simp [typeBody?, hof]
    simpa using h.anonymousSteps hp hbody

theorem typeParameterSteps (hp : c.Has p) :
    Redrawn c u' v (Binder.typeParameterSteps p) (Binder.typeParameterSteps (σ p)) := by
  have hnot : ∀ q : Place, q.isRemark = true → q.node.isName = false := fun q hq =>
    Bool.or_eq_false_iff.mpr ⟨kind_ne_of_isRemark hq rfl, kind_ne_of_isRemark hq rfl⟩
  unfold Binder.typeParameterSteps
  rw [List.map_eq_flatMap, List.map_eq_flatMap]
  refine .flatMap (h.filter_isRemark_namedChildren p) (fun q hq _ => ?_)
    (fun q _ hq => ?_) (fun q _ hq => ?_)
  · rw [h.isName]
    split
    · exact h.keepStep q
    · exact h.visitStep (hp.namedChild hq)
  · rw [hnot q hq]
    exact h.skipStep hq
  · rw [hnot q hq]
    exact h.skipStepAnew hq

/-! ## All rules -/

theorem steps (owner : Option String) (hp : c.Has p) :
    Redrawn c u' v (Binder.steps c owner p) (Binder.steps (c.withUnit u') owner (σ p)) := by
  have hparts := Construct.partsOf_of p
  have hform := Construct.formOf_of p
  unfold Binder.steps
  rw [h.construct]
  cases hof : Construct.of p <;> rw [hof] at hparts hform <;> simp only [Construct.map]
  case package => exact .nil
  case importName => exact h.importSteps hp hof
  case typeDecl => exact h.declarationSteps hp hof
  case field => exact h.fieldSteps _ hp
  case enumConstant => exact h.constantSteps _ hp hof
  case method => exact h.methodSteps owner hp hof
  case elementDecl name => exact h.elementSteps owner hp name
  case initializer => exact h.initializerSteps _ hp hof
  case block | forLoop => exact .inScope p .block (h.childSteps hp)
  case localVariables => exact h.variableSteps hp hparts
  case enhancedFor => exact h.enhancedForSteps hp hof
  case catchClause => exact h.catchSteps hp hof
  case tryWithResources resources body =>
    have hinside := (h.visitStep (hp.role hparts.1)).append (h.visitStep (hp.role hparts.2))
    exact Redrawn.append (.inScope p .block hinside) (h.exceptSteps hp [resources, body])
  case resource => exact h.resourceSteps hp hof
  case lambda params body =>
    exact .inScope p .method ((h.lambdaParameterSteps (hp.role hparts.1)).append
      (h.visitStep (hp.role hparts.2)))
  case instanceOf left type name =>
    obtain ⟨hkind, hleft, htype, hname⟩ := hparts
    have hmem := mem_children_of_child? htype
    have hspelled : type.isSpelled = true := isSpelled_of_spellsPart hmem (by
      have hrole : type.node.role = some "right" := role_of_child? htype
      simp [spellsPart, hkind, hrole])
    exact (h.visitStep (hp.role hleft)).append
      (h.typedSteps (hp.child hmem) hspelled (h.nameOf hp hof rfl hname))
  case typePattern type name =>
    obtain ⟨rest, hchildren, hlast, hnameKind⟩ := hparts
    have hkind : p.kind = "type_pattern" := hform
    have htype : type ∈ p.namedChildren := by simp [hchildren]
    have hname : name ∈ p.namedChildren := by
      rw [hchildren]
      exact List.mem_cons_of_mem _ (List.mem_of_getLast? hlast)
    have hspelled : type.isSpelled = true :=
      isSpelled_of_spellsPart (mem_children_of_mem_namedChildren htype) (by
        simp [spellsPart, hkind, hchildren, Place.number])
    exact h.typedSteps (hp.namedChild htype) hspelled (h.readName (hp.namedChild hname) hnameKind)
  case switch subject body =>
    have hsubject : Redrawn c u' v (subject.toList.map .visit) ((subject.map σ).toList.map .visit) := by
      rw [hparts.1, ← h.child?]
      exact h.roleSteps hp "condition"
    have htypes : (fun b : Binder => (subject.map σ).bind b.typeOf?)
        = fun b => subject.bind b.typeOf? := by
      funext b
      cases subject with
      | none => rfl
      | some subject => exact h.typeOf? subject b
    unfold switchSteps
    rw [htypes]
    exact hsubject.append (.inSwitch _ (.inScope p .block (h.childSteps (hp.role hparts.2))))
  case methodCall => exact h.callSteps hp hof
  case fieldAccess => exact h.accessSteps hp hof
  case methodReference => exact h.referenceSteps hp hof
  case objectCreation => exact h.creationSteps hp hof
  case label =>
    exact h.visits (Redrawing.filter (h.filter_isRemark_namedChildren p) fun q => by
        simp only [bne, h.kind])
      fun q hq => hp.namedChild (List.mem_of_mem_filter hq)
  case annotationUse name =>
    have hmem := mem_children_of_child? hparts
    have hspelled : name.isSpelled = true := isSpelled_of_spellsPart hmem (by
      have hrole : name.node.role = some "name" := role_of_child? hparts
      rcases hform with hkind | hkind <;> simp [spellsPart, hkind, hrole])
    exact (h.typeSteps (hp.child hmem) hspelled).append (h.exceptSteps hp [name])
  case elementValuePair value =>
    rw [hparts, ← h.child?]
    exact h.roleSteps hp "value"
  case typeParameter => exact h.typeParameterSteps hp
  case scopedType => exact h.typeSteps hp (isSpelled_of_kind (.inl hform))
  case typeIdentifier => exact h.typeSteps hp (isSpelled_of_kind (.inr hform))
  case identifier =>
    rw [h.nameMeaning hp hof]
    exact h.nameStep p p _
  case other =>
    rw [h.kind]
    split
    · exact h.binarySteps hp
    · exact (h.childSteps hp).append (h.inferredStep hp)

theorem unitSteps : Redrawn c u' v (Binder.unitSteps c) (Binder.unitSteps (c.withUnit u')) := by
  have htop : (c.withUnit u').unit.top = σ c.unit.top := h.top
  have hself : c.Has c.unit.top := mem_below_self c.unit.top
  have hskip : ∀ (c : BindingInput) (q : Place), q.isRemark = true → Binder.typeSteps c q = [] := by
    intro c q hq
    rw [Binder.typeSteps, construct_of_isRemark hq]
  have heq : (σ c.unit.top).namedChildren.flatMap (Binder.typeSteps (c.withUnit u'))
      = c.unit.top.namedChildren.flatMap (Binder.typeSteps c) :=
    Redrawing.flatMap (h.filter_isRemark_namedChildren c.unit.top)
      (fun q hq _ => h.typeDeclSteps (hself.namedChild hq)) (hskip c) (hskip _)
  rw [Binder.unitSteps, Binder.unitSteps, htop, heq]
  refine Redrawn.append (.declares fun s hs => ?_) (h.childSteps hself)
  obtain ⟨q, -, hs⟩ := List.mem_flatMap.mp hs
  unfold Binder.typeSteps at hs
  split at hs
  · rw [List.mem_singleton.mp hs]
    rfl
  · cases hs

end Revisiting

/-! ## Traversals -/

theorem visit_of_isRemark (hq : q.isRemark = true) (levels : Nat) (b : Binder) :
    visit c levels q b = b := by
  cases levels with
  | zero => rfl
  | succ levels =>
    have hbinary : (q.kind == "binary_expression") = false := kind_ne_of_isRemark hq rfl
    have htype : b.inferredType? c q = none := by
      rcases kind_of_isRemark hq with hkind | hkind <;> simp [inferredType?, hkind]
    rw [visit, steps, construct_of_isRemark hq]
    simp [hbinary, childSteps, namedChildren_of_isRemark hq, Step.run, htype, setType]

namespace Rebinding

variable {u' : SourceUnit} {σ : Place → Place} {kept : Place → List Place}
  (h : Rebinding c u' σ kept)

include h

theorem revisiting (levels : Nat) :
    Revisiting c u' σ kept (visit c levels, visit (c.withUnit u') levels) where
  toRebinding := h
  skip q b hq := visit_of_isRemark hq levels b
  skipAnew q b hq := visit_of_isRemark hq levels b
  visit q b hq := by
    induction levels generalizing q b with
    | zero => rfl
    | succ levels ih =>
      have hlower : Revisiting c u' σ kept (visit c levels, visit (c.withUnit u') levels) :=
        ⟨h, ih, fun q b hq => visit_of_isRemark hq levels b,
          fun q b hq => visit_of_isRemark hq levels b⟩
      show visit _ _ _ _ = visit _ _ _ _
      rw [visit, visit]
      exact hlower.steps b.innermost? hq b

theorem traverse : Binder.traverse (c.withUnit u') = Binder.traverse c := by
  have hheight : (c.withUnit u').unit.root.height = c.unit.root.height := by
    have hheight := h.height c.unit.top
    rwa [← h.top] at hheight
  have hrun := (h.revisiting c.unit.root.height).unitSteps {}
  rw [Binder.traverse, Binder.traverse, walked, walked, hheight]
  exact congrArg (·.closeScope 0) hrun

end Rebinding

/-- A table depends on what the traversal does and on the numbers and texts of the names. -/
theorem ofUnit_congr {c' : BindingInput} (htraverse : traverse c' = traverse c)
    (hnames : (Symbols.namePlaces c'.unit).map (fun p => (p.number, c'.unit.text p))
      = (Symbols.namePlaces c.unit).map fun p => (p.number, c.unit.text p)) (d : Dictionary)
    (policy : NamingPolicy) : Symbols.ofUnit d policy c' = Symbols.ofUnit d policy c := by
  have hkeep : ∀ (t : Symbols) (ps : List Place), t.keepUnresolved ps
      = (ps.map Place.number).foldl
          (fun t n => { t with resolutions := t.resolutions.insertIfNew n .keep }) t := by
    intro t ps
    rw [List.foldl_map]
    rfl
  have hnumbers := congrArg (List.map Prod.fst) hnames
  have htexts := congrArg (List.map Prod.snd) hnames
  simp only [List.map_map, Function.comp_def] at hnumbers htexts
  unfold Symbols.ofUnit
  simp only [hkeep, hnumbers, htexts, htraverse]

end Legible
