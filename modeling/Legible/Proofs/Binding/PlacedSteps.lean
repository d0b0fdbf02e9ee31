import Legible.Proofs.Binding.PlacedRules

/-!
# The program of a place is placed

The rules for initializers, statements and expressions, and from all rules together `placed_steps`:
what the visit of a place does is placed in the regions around it and uses up its numbers.
-/

namespace Legible

open Binder Place

variable {c : BindingInput} {R : List Region} {p q type name : Place}

/-- Regions of the parts of a construct that opens a scope for all of them. -/
theorem Holds.of_code (hp : c.At R p) (hcode : (Construct.of p).declaresType = false)
    (h : ∀ q, c.opens R p q = some ⟨p, none⟩) : Holds c (⟨p, none⟩ :: R) p := fun q hq =>
  hp.part hq (fun _ _ hof => by simp [hof, Construct.declaresType] at hcode) (by rw [h q]; rfl)

/-- A construct that opens a scope and visits its parts there. -/
theorem Placed.inCode {steps : List Step} (qs : List Place) (kind : ScopeKind) (hp : c.Has p)
    (hcode : (Construct.of p).declaresType = false)
    (h : Placed c (⟨p, none⟩ :: R) (numbersOf qs) steps)
    (hqs : qs.Subperm p.children) : Placed c R p.numbers [.inScope p kind steps] :=
  .ofPartsIn qs (.inScope hp hcode h) hqs

/-! ## Variables -/

theorem placed_variableTypeSteps (h : c.At R type) :
    Placed c R type.numbers (variableTypeSteps c type) := by
  unfold variableTypeSteps
  split
  · exact Placed.whole (.keep h.has)
  · exact .visit h

abbrev NamesVariable (c : BindingInput) (R : List Region) (q : Place) : Prop :=
  c.At R q ∧ (q.node.isName = true ∨ c.unit.text q = "_")

theorem placed_writtenStep (text : Option String) (h : NamesVariable c R name) :
    Placed c R name.numbers [writtenStep c name text] :=
  Placed.whole (.declareVariable .nil h.1 h.2 rfl)

theorem placed_inferredStep (value : Option Place) (h : NamesVariable c R name) :
    Placed c R name.numbers [inferredStep name value] :=
  Placed.whole (.declareVariable .nil h.1 h.2 rfl)

/-- What a construct calls its name can name a variable. -/
theorem Holds.namesVariable (hparted : c.unit.Parted) (h : Holds c R p) (hp : c.Has p)
    (hname : p.child? "name" = some name) (hkind : p.kind ∉ qualifiedNameParents) :
    NamesVariable c R name :=
  ⟨h.child? hname, hparted.isName_name hp hname hkind⟩

theorem placed_declaratorSteps {type : Option Place} (h : Holds c R p)
    (hname : p.child? "name" = some name) (hnamed : NamesVariable c R name)
    (htype : p.kind = "resource" → type = p.child? "type") :
    Placed c R p.numbers (declaratorSteps c p name type) := by
  -- whether the variable comes before or after its value, the same numbers are used
  have hboth : Placed c R (name.numbers ++ numbersOf (p.child? "value").toList)
      (if type.any (isInferred c) then
        (p.child? "value").toList.map .visit ++ [inferredStep name (p.child? "value")]
      else
        writtenStep c name (type.map fun t =>
            c.unit.typeText t ++ brackets (dimensionCount (p.child? "dimensions")))
          :: (p.child? "value").toList.map .visit) := by
    split
    · exact ((h.role "value").append (placed_inferredStep _ hnamed)).mono
        List.perm_append_comm.subperm
    · exact (placed_writtenStep _ hnamed).cons (h.role "value")
  simp only [declaratorSteps]
  by_cases hresource : p.kind = "resource"
  · have htypes : Placed c R (numbersOf type.toList) (type.toList.flatMap (variableTypeSteps c)) :=
      .flatMap numbers fun q hq => placed_variableTypeSteps
        (h.child? ((htype hresource) ▸ Option.mem_toList.mp hq))
    have hhead := (h.except (name :: ((p.child? "value").toList ++ type.toList))).append htypes
    rw [if_pos (by simpa using hresource)]
    refine (hhead.append hboth).ofCounts _ (except_append_subperm
      (htype hresource ▸ resource_subperm hname)) fun n => ?_
    simp only [numbersOf_append, numbersOf_cons, List.count_append, List.count_cons]
    omega
  · rw [if_neg (by simpa using hresource)]
    exact .ofParts (name :: (p.child? "value").toList) hboth (declarator_subperm hname)

section Statements

variable {body block value param resources params left : Place} {isStatic : Bool}
  {subject : Option Place} (hparted : c.unit.Parted)

include hparted

theorem placed_resourceSteps (hp : c.Has p) (hof : Construct.of p = .resource)
    (h : Holds c R p) : Placed c R p.numbers (resourceSteps c p) := by
  have hparts := Construct.partsOf hof
  unfold resourceSteps
  split
  · next name hname =>
      have hkind : p.kind = "resource" := hparts
      have hnamed := h.namesVariable hparted hp hname (by rw [hkind]; decide)
      exact placed_declaratorSteps h hname hnamed fun _ => rfl
  · exact placed_children h

theorem placed_initializerSteps (owner : String) (hp : c.At R p)
    (hof : Construct.of p = .initializer block isStatic) :
    Placed c R p.numbers (initializerSteps owner p block isStatic) := by
  have hparts := Construct.partsOf hof
  refine .inMember (isMemberKey_initializerKey ..) ?_
  -- what is not the block itself is in its scope
  have hbeside : ∀ q ∈ p.children, q.same block = false → c.At (⟨block, none⟩ :: R) q :=
    fun q hq hne => hp.part hq (by simp [hof]) (by simp [BindingInput.opens, hof, hne])
  rcases hparts with rfl | ⟨hkind, hblock⟩
  · rw [if_pos (same_self block)]
    have hholds : Holds c (⟨block, none⟩ :: R) block := by
      intro q hq
      refine hbeside q hq (Bool.eq_false_iff.mpr fun hsame => ?_)
      have heq := hparted.eq_of_number_eq (hp.has.child hq) hp.has (by simpa [same] using hsame)
      exact notMem_children_self block (heq ▸ hq)
    exact .inCode _ .method hp.has (by simp [Construct.declaresType, hof]) hholds.children
      block.namedChildren_sublist.subperm
  · have hnamed := mem_namedChildren_of_firstNamed? hblock
    have hmem := mem_children_of_mem_namedChildren hnamed
    have hblockAt : c.At R block :=
      hp.part hmem (by simp [hof]) (by simp [BindingInput.opens, hof, same_self])
    have hblockOf : Construct.of block = .block := by
      have hparent : block.parentKind? = some "static_initializer" := by
        obtain ⟨n, _, rfl⟩ := List.mem_map.mp hmem
        exact congrArg some hkind
      simp [Construct.of, Construct.of?, kind_of_firstNamed? hblock, Construct.ofBlock, hparent]
    have hholds : Holds c (⟨block, none⟩ :: R) block :=
      .of_code hblockAt (by simp [Construct.declaresType, hblockOf])
        fun q => by simp [BindingInput.opens, hblockOf]
    have hrest : Placed c (⟨block, none⟩ :: R)
        (numbersOf (p.namedChildren.filter (!·.isIn [block])))
        (if p.same block then [] else exceptSteps p [block]) := by
      split
      · exact .idle
      · refine .visits fun q hq => ?_
        obtain ⟨hq, hnot⟩ := List.mem_filter.mp hq
        exact hbeside q (mem_children_of_mem_namedChildren hq) (by simpa [isIn] using hnot)
    have hscope : Placed c R (block.number :: _) [.inScope block .method _] :=
      .inScope hblockAt.has (by simp [Construct.declaresType, hblockOf])
        (hrest.append hholds.children)
    refine hscope.ofCounts _ (except_append_subperm (List.singleton_subperm_iff.mpr hmem)) fun n => ?_
    have hinside := (numbersOf_subperm_of_subperm block.namedChildren_sublist.subperm).count_le n
    simp only [numbersOf_concat, block.numbers_eq, List.count_append, List.count_cons]
    omega

theorem placed_variablePartSteps (h : Holds c R p) (htype : p.child? "type" = some type)
    (hq : q ∈ p.namedChildren) : Placed c R q.numbers (variablePartSteps c type q) := by
  have hqIn := h.named hq
  unfold variablePartSteps
  split
  · next hsame =>
      have heq := hparted.eq_of_number_eq hqIn.has (h.child? htype).has
        (by simpa [same] using hsame)
      rw [heq]
      exact placed_variableTypeSteps (h.child? htype)
  · split
    · next name hname =>
        split
        · next hkind =>
            have hkind : q.kind = "variable_declarator" := by simpa using hkind
            have hinner : Holds c R q := .of_kind hqIn (by simp [hkind])
            have hnamed := hinner.namesVariable hparted hqIn.has hname (by rw [hkind]; decide)
            exact placed_declaratorSteps hinner hname hnamed (by simp [hkind])
        · exact .visit hqIn
    · exact .visit hqIn

omit hparted in
theorem placed_typedSteps (htype : c.At R type) (hname : NamesVariable c R name) :
    Placed c R (type.numbers ++ name.numbers) (typedSteps c type name) :=
  (Placed.visit htype).cons (placed_writtenStep _ hname)

/-! ## Statements -/

theorem placed_enhancedForSteps (hp : c.At R p)
    (hof : Construct.of p = .enhancedFor type name value body) :
    Placed c R p.numbers (enhancedForSteps c p type name value body) := by
  obtain ⟨hkind, htype, hname, hvalue, hbody⟩ := Construct.partsOf hof
  have hholds : Holds c (⟨p, none⟩ :: R) p :=
    .of_code hp (by simp [Construct.declaresType, hof]) fun q => by simp [BindingInput.opens, hof]
  have hnamed := hholds.namesVariable hparted hp.has hname (by rw [hkind]; decide)
  have hvisit : Placed c (⟨p, none⟩ :: R) value.numbers [.visit value] :=
    .visit (hholds.child? hvalue)
  have hdeclare : Placed c (⟨p, none⟩ :: R) _
      [.declareVariable name .localVariable (loopTypes c type value)
        ((p.namedChildren.filter (·.kind == "modifiers")).map .visit)] :=
    .declareVariable (hholds.filter _) hnamed.1 hnamed.2 rfl
  have hall := (hvisit.cons (placed_variableTypeSteps (hholds.child? htype))).append
    (hdeclare.cons (.visit (hholds.child? hbody)))
  have hscope : Placed c R (p.number :: _) [.inScope p .block _] :=
    .inScope hp.has (by simp [Construct.declaresType, hof]) hall
  refine hscope.ofCounts _ (modifiers_append_subperm
    (fun q hq => hparted.parts _ (hp.has.child hq)) htype hname hvalue hbody) fun n => ?_
  simp only [numbersOf_append, numbersOf_cons, numbersOf_nil, name.numbers_eq, List.count_append,
    List.count_cons, List.count_nil]
  omega

theorem placed_catchSteps (hp : c.At R p) (hof : Construct.of p = .catchClause param body) :
    Placed c R p.numbers (catchSteps c p param body) := by
  obtain ⟨hparam, hbody⟩ := Construct.partsOf hof
  have hholds : Holds c (⟨p, none⟩ :: R) p :=
    .of_code hp (by simp [Construct.declaresType, hof]) fun q => by simp [BindingInput.opens, hof]
  have hkind := kind_of_firstNamed? hparam
  have hparamIn := hholds.named (mem_namedChildren_of_firstNamed? hparam)
  have hinner : Holds c (⟨p, none⟩ :: R) param :=
    .of_kind hparamIn (by simp [hkind])
  have hdeclares : Placed c (⟨p, none⟩ :: R) param.numbers
      (exceptSteps param param.declaredName?.toList ++ param.declaredName?.toList.map
        fun name => writtenStep c name (param.declaredType?.map c.unit.typeText)) := by
    cases hname : param.declaredName? with
    | none =>
      simpa using Placed.ofParts _ (hinner.except [])
        (List.filter_sublist.trans param.namedChildren_sublist).subperm
    | some name =>
      have hmem := catch_declaredName? (hparted.parts _ hparamIn.has) hkind hname
      refine .ofParts (param.namedChildren.filter (!·.isIn [name]) ++ [name]) ?_
        (except_append_subperm (List.singleton_subperm_iff.mpr hmem))
      rw [numbersOf_concat]
      exact (hinner.except [name]).append (placed_writtenStep _ ⟨hinner name hmem,
        hparted.isName_declaredName? hparamIn.has (by rw [hkind]; decide) hname⟩)
  refine .inCode [param, body] .block hp.has (by simp [Construct.declaresType, hof]) ?_
    (catch_subperm (fun q hq => hparted.parts _ (hp.has.child hq)) hparam hbody)
  rw [numbersOf_cons, numbersOf_singleton]
  exact hdeclares.append (.visit (hholds.child? hbody))

omit hparted in
theorem placed_trySteps (hp : c.At R p) (hof : Construct.of p = .tryWithResources resources body) :
    Placed c R p.numbers (trySteps p resources body) := by
  obtain ⟨hresources, hbody⟩ := Construct.partsOf hof
  have hscoped : ∀ q ∈ p.children, q.isIn [resources, body] = true →
      c.At (⟨p, none⟩ :: R) q := fun q hq hin =>
    hp.part hq (by simp [hof]) (by simp [BindingInput.opens, hof, hin])
  have hvisit : ∀ q ∈ [resources, body], Placed c (⟨p, none⟩ :: R) q.numbers [.visit q] := by
    intro q hq
    have hmem : q ∈ p.children := by
      simp only [List.mem_cons, List.not_mem_nil, or_false] at hq
      rcases hq with rfl | rfl
      · exact mem_children_of_child? hresources
      · exact mem_children_of_child? hbody
    exact .visit (hscoped q hmem (isIn_eq_true_iff.mpr ⟨q, hq, rfl⟩))
  have hscope : Placed c R (p.number :: (resources.numbers ++ body.numbers))
      [.inScope p .block [.visit resources, .visit body]] :=
    .inScope hp.has (by simp [Construct.declaresType, hof])
      ((hvisit resources (by simp)).cons (hvisit body (by simp)))
  have hrest : Placed c R (numbersOf (p.namedChildren.filter (!·.isIn [resources, body])))
      (exceptSteps p [resources, body]) :=
    placed_exceptSteps hp (by simp [hof]) fun q hnot => by simp [BindingInput.opens, hof, hnot]
  have hroles := p.filterMap_child?_subperm (show ["resources", "body"].Nodup by decide)
  refine (hscope.cons hrest).ofCounts _ (except_append_subperm
    (show [resources, body].Subperm p.children by simpa [hresources, hbody] using hroles)) fun n => ?_
  simp only [numbersOf_append, numbersOf_cons, numbersOf_nil, List.count_append, List.count_cons]
  omega

theorem placed_switchSteps (hp : c.At R p) (hof : Construct.of p = .switch subject body) :
    Placed c R p.numbers (switchSteps p subject body) := by
  obtain ⟨hsubject, hbody⟩ := Construct.partsOf hof
  have hvisits : Placed c R (numbersOf subject.toList) (subject.toList.map .visit) := by
    refine .visits fun q hq => ?_
    have hq : p.child? "condition" = some q := hsubject ▸ Option.mem_toList.mp hq
    exact hp.part (mem_children_of_child? hq) (by simp [hof])
      (by simp [BindingInput.opens, hof, same_of_roles hparted hp.has hq hbody (by decide)])
  have hbodyAt : c.At (⟨p, none⟩ :: R) body :=
    hp.part (mem_children_of_child? hbody) (by simp [hof])
      (by simp [BindingInput.opens, hof, same_self])
  have hholds : Holds c (⟨p, none⟩ :: R) body :=
    .of_passed hbodyAt (hparted.kind_of_child? hp.has hbody (.inl rfl)) fun hshaped =>
      opensScope_of_passedParts hshaped hp.has (by rw [hof]; exact List.mem_singleton_self _)
  have hscope : Placed c R (p.number :: body.numbers) [.inScope p .block (childSteps body)] :=
    .inScope hp.has (by simp [Construct.declaresType, hof]) (placed_children hholds)
  have hroles := p.filterMap_child?_subperm (show ["condition", "body"].Nodup by decide)
  have hsub : (subject.toList ++ [body]).Subperm p.children := by
    rw [hsubject]
    cases hcondition : p.child? "condition" <;> simpa [hcondition, hbody] using hroles
  refine (hvisits.append (.inSwitch _ hscope)).ofCounts _ hsub fun n => ?_
  simp only [numbersOf_concat, List.count_append, List.count_cons]
  omega

/-! ## Lambdas -/

omit hparted in
theorem placed_untypedStep (h : c.At R p) (hkind : p.kind = "identifier") :
    Placed c R p.numbers [untypedStep p] :=
  Placed.whole (.declareVariable .nil h (.inl (isName_of_identifier hkind)) rfl)

theorem placed_lambdaSteps (hp : c.At R p) (hof : Construct.of p = .lambda params body) :
    Placed c R p.numbers (lambdaSteps c p params body) := by
  obtain ⟨hparams, hbody⟩ := Construct.partsOf hof
  have hholds : Holds c (⟨p, none⟩ :: R) p :=
    .of_code hp (by simp [Construct.declaresType, hof]) fun q => by simp [BindingInput.opens, hof]
  have hparamsIn := hholds.child? hparams
  have hinner : Holds c (⟨p, none⟩ :: R) params :=
    .of_passed hparamsIn (hparted.kind_of_child? hp.has hparams (.inr rfl)) fun hshaped =>
      opensScope_of_passedParts hshaped hp.has (by rw [hof]; exact List.mem_singleton_self _)
  have hdeclares : Placed c (⟨p, none⟩ :: R) params.numbers (lambdaParameterSteps c params) := by
    unfold lambdaParameterSteps
    split
    · next hkind => exact placed_untypedStep hparamsIn (by simpa using hkind)
    · split
      · exact placed_parametersSteps hparted rfl hinner
      · refine .ofParts _ (.map numbers fun q hq => ?_) params.namedChildren_sublist.subperm
        have hqIn := hinner.named hq
        split
        · next hkind => exact placed_untypedStep hqIn (by simpa using hkind)
        · exact .visit hqIn
  have hroles := p.filterMap_child?_subperm (show ["parameters", "body"].Nodup by decide)
  refine .inCode [params, body] .method hp.has (by simp [Construct.declaresType, hof]) ?_
    (by simpa [hparams, hbody] using hroles)
  rw [numbersOf_cons, numbersOf_singleton]
  exact hdeclares.append (.visit (hholds.child? hbody))

/-! ## Expressions -/

theorem placed_creationSteps {body : Option Place} (hp : c.At R p)
    (hof : Construct.of p = .objectCreation type body) :
    Placed c R p.numbers (creationSteps c p type body) := by
  have hbody : body = p.firstNamed? "class_body" := Construct.partsOf hof
  have hrest : Placed c R (numbersOf (p.namedChildren.filter (!·.isIn body.toList)))
      (exceptSteps p body.toList) :=
    placed_exceptSteps hp (by simp [hof]) fun q hnot => by simp [BindingInput.opens, hof, hnot]
  have hnoted := hrest.andThen (.note p fun b => b.staticType? c (c.unit.typeText type))
  cases body with
  | none =>
    simpa [creationSteps] using Placed.ofParts _ hnoted
      (List.filter_sublist.trans p.namedChildren_sublist).subperm
  | some body =>
    have hmem := mem_children_of_mem_namedChildren (mem_namedChildren_of_firstNamed? hbody.symm)
    have hanonymous : Placed c R (p.number :: body.numbers) (anonymousSteps c p body) :=
      placed_anonymousSteps hparted hp (by simp [typeBody?, hof]) (by simp [hof])
        fun key => by simp [aheadSteps, hof]
    have hall := hnoted.append hanonymous
    simp only [creationSteps, Option.toList_some, List.flatMap_singleton]
    refine hall.ofCounts _ (except_append_subperm (List.singleton_subperm_iff.mpr hmem)) fun n => ?_
    simp only [Option.toList_some, numbersOf_concat, List.count_append, List.count_cons]
    omega

omit hparted in
theorem placed_rightSteps (h : Holds c R p) :
    Placed c R (numbersOf (p.child? "right").toList) (rightSteps c p) :=
  (h.role "right").andThen (.note p _)

omit hparted in
/-- A binary expression is visited from the innermost left operand outward. -/
theorem placed_binarySteps (h : Holds c R p) : Placed c R p.numbers (binarySteps c p) := by
  induction p using binary_induction with
  | last p hleft =>
    rw [binarySteps_eq_operandSteps hleft]
    refine .ofParts _ ?_ (operands_subperm p)
    rw [numbersOf_append]
    exact (h.role "left").append (placed_rightSteps h)
  | next p left hleft hkind ih =>
    rw [binarySteps_eq_append hleft hkind]
    refine .ofParts _ ?_ (operands_subperm p)
    rw [hleft, numbersOf_append, Option.toList_some, numbersOf_singleton]
    exact (ih (.of_kind (h.child? hleft) (by simp [hkind]))).append (placed_rightSteps h)

omit hparted in
theorem placed_typeParameterSteps (h : Holds c R p) :
    Placed c R p.numbers (typeParameterSteps p) := by
  refine .ofParts _ (.map numbers fun q hq => ?_) p.namedChildren_sublist.subperm
  have hqIn := h.named hq
  split
  · exact Placed.whole (.keep hqIn.has)
  · exact .visit hqIn

theorem placed_annotationSteps (h : Holds c R p) (hof : Construct.of p = .annotationUse name) :
    Placed c R p.numbers
      (typeNameSteps c (qualifierSteps c name.node.height) name ++ exceptSteps p [name]) := by
  have hname : p.child? "name" = some name := Construct.partsOf hof
  refine ((placed_typeName hparted (h.child? hname) _).append (h.except [name])).ofCounts _
    (except_append_subperm (List.singleton_subperm_iff.mpr (mem_children_of_child? hname))) fun n => ?_
  simp only [numbersOf_concat, List.count_append, List.count_cons]
  omega

theorem placed_instanceOfSteps (hp : c.Has p) (h : Holds c R p)
    (hof : Construct.of p = .instanceOf left type name) :
    Placed c R p.numbers (.visit left :: typedSteps c type name) := by
  obtain ⟨hkind, hleft, hright, hname⟩ := Construct.partsOf hof
  have hroles := p.filterMap_child?_subperm (show ["left", "right", "name"].Nodup by decide)
  refine .ofParts [left, type, name] ?_ (by simpa [hleft, hright, hname] using hroles)
  rw [numbersOf_cons, numbersOf_cons, numbersOf_singleton]
  exact (Placed.visit (h.child? hleft)).cons
    (placed_typedSteps (h.child? hright) (h.namesVariable hparted hp hname (by rw [hkind]; decide)))

omit hparted in
theorem placed_typePatternSteps (h : Holds c R p) (hof : Construct.of p = .typePattern type name) :
    Placed c R p.numbers (typedSteps c type name) := by
  obtain ⟨rest, hchildren, hlast, hkind⟩ := Construct.partsOf hof
  have hmem : name ∈ rest := List.mem_of_getLast? hlast
  have hnameIn := h.named (q := name) (by simp [hchildren, hmem])
  refine .ofParts [type, name] ?_ (subperm_of_cons_mem hchildren hmem)
  rw [numbersOf_cons, numbersOf_singleton]
  exact placed_typedSteps (h.named (by simp [hchildren]))
    ⟨hnameIn, .inl (isName_of_identifier hkind)⟩

/-! ## All rules -/

/-- What the visit of a place does is placed in the regions where the visit stands. -/
theorem placed_steps (hp : c.At R p) (hne : Construct.of p ≠ .identifier) :
    Placed c R p.numbers (steps c (innermostType? R) p) := by
  have hquiet (h : (Construct.of p).opensScope = false) : Holds c R p :=
    .of_opensScope hp h
  have hfilter (h : Holds c R p) (f : Place → Bool) :
      Placed c R p.numbers ((p.namedChildren.filter f).map .visit) :=
    .ofParts _ (h.filter f) (List.filter_sublist.trans p.namedChildren_sublist).subperm
  have hblock (hopens : ∀ q, c.opens R p q = some ⟨p, none⟩)
      (hcode : (Construct.of p).declaresType = false) :
      Placed c R p.numbers [.inScope p .block (childSteps p)] :=
    .inCode _ .block hp.has hcode (Holds.of_code hp hcode hopens).children
      p.namedChildren_sublist.subperm
  unfold steps
  cases hof : Construct.of p with
  | package => exact .idle
  | importName => exact placed_importSteps hp.has
  | typeDecl => exact placed_declarationSteps hparted hp hof
  | field => exact placed_fieldSteps hp hof
  | enumConstant => exact placed_constantSteps hparted hp hof
  | method => exact placed_methodSteps hparted hp hof
  | elementDecl => exact placed_elementSteps hp hof
  | initializer => exact placed_initializerSteps hparted _ hp hof
  | block | forLoop =>
    exact hblock (fun q => by simp [BindingInput.opens, hof])
      (by simp [Construct.declaresType, hof])
  | localVariables type =>
    have hparts := Construct.partsOf hof
    exact .ofParts _ (.flatMap numbers fun q hq => placed_variablePartSteps hparted
      (hquiet (by rw [hof]; rfl)) hparts hq) p.namedChildren_sublist.subperm
  | enhancedFor => exact placed_enhancedForSteps hparted hp hof
  | catchClause => exact placed_catchSteps hparted hp hof
  | tryWithResources => exact placed_trySteps hp hof
  | resource => exact placed_resourceSteps hparted hp.has hof (hquiet (by rw [hof]; rfl))
  | lambda => exact placed_lambdaSteps hparted hp hof
  | instanceOf => exact placed_instanceOfSteps hparted hp.has (hquiet (by rw [hof]; rfl)) hof
  | typePattern => exact placed_typePatternSteps (hquiet (by rw [hof]; rfl)) hof
  | switch => exact placed_switchSteps hparted hp hof
  | methodCall => exact placed_callSteps (hquiet (by rw [hof]; rfl)) hp.has hof
  | fieldAccess => exact placed_accessSteps (hquiet (by rw [hof]; rfl)) hp.has hof
  | methodReference => exact placed_referenceSteps (hquiet (by rw [hof]; rfl)) hp.has
  | objectCreation => exact placed_creationSteps hparted hp hof
  | label => exact hfilter (hquiet (by rw [hof]; rfl)) _
  | annotationUse => exact placed_annotationSteps hparted (hquiet (by rw [hof]; rfl)) hof
  | elementValuePair value =>
    have hvalue : value = p.child? "value" := Construct.partsOf hof
    rw [hvalue]
    refine .ofParts _ ((hquiet (by rw [hof]; rfl)).role "value") ?_
    have hroles := p.filterMap_child?_subperm (show ["value"].Nodup by decide)
    cases hchild : p.child? "value" <;> simp_all
  | typeParameter => exact placed_typeParameterSteps (hquiet (by rw [hof]; rfl))
  | scopedType => exact placed_typeName hparted hp _
  | identifier => exact absurd hof hne
  | typeIdentifier => exact placed_typeName hparted hp _
  | other =>
    have hholds := hquiet (by rw [hof]; rfl)
    simp only
    split
    · exact placed_binarySteps hholds
    · exact (placed_children hholds).andThen (.note p _)

/-! ## The program of a unit -/

theorem placed_top : Placed c [] (numbersOf c.unit.top.namedChildren) (childSteps c.unit.top) := by
  have hkind := kind_notMem_of_partsOK (hparted.parts _ (mem_below_self c.unit.top)) (.inl rfl)
  exact (Holds.of_passed (BindingInput.at_top c) hkind opensScope_top).children

theorem placed_unitSteps : Placed c [] (numbersOf c.unit.top.namedChildren) (unitSteps c) := by
  have htypes : ∀ s ∈ c.unit.top.namedChildren.flatMap (typeSteps c), Ahead c "" s := by
    intro s hs
    obtain ⟨q, hq, hs⟩ := List.mem_flatMap.mp hs
    exact ahead_typeSteps ""
      (BindingInput.Has.child (mem_below_self c.unit.top) (mem_children_of_mem_namedChildren hq)) hs
  exact (Placed.declareAll htypes).append (placed_top hparted)

end Statements

end Legible
