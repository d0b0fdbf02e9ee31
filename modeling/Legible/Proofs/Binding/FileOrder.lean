import Legible.Proofs.Binding.ValidKeys
import Legible.Proofs.Index.Alike
import Legible.Proofs.Layout.Renaming

/-!
# The order of the units

The rules ask the index only what indexes that are alike answer alike, so with such an index a unit
has the same programs, and with the same programs the same table (`traverse_alike`). Indexes of
the same units in different order are alike if no two of the units declare a type of the same name
(`alike_foldl`): a type is then what its unit makes it, wherever the unit stands.
-/

namespace Legible

variable {u : SourceUnit} {units : List SourceUnit}

/-- The same unit, bound with indexes that are alike. -/
structure BindingInput.Alike (c c' : BindingInput) : Prop where
  unit : c.unit = c'.unit
  index : c.index.Alike c'.index
  imports : c.index.imports? c.number = c'.index.imports? c'.number
  typeAt : c.index.typeAt? c.number = c'.index.typeAt? c'.number

namespace Binder

open Index

variable {c c' : BindingInput} (h : c.Alike c')

include h

/-! ## Names and types -/

theorem lookupType?_alike : lookupType? c = lookupType? c' := by
  funext b text
  simp only [lookupType?, h.index.descend?, h.index.resolveType h.imports]

theorem staticType?_alike : staticType? c = staticType? c' := by
  funext b text
  simp only [staticType?, lookupType?_alike h]

theorem typeMeaning_alike : typeMeaning c = typeMeaning c' := by
  funext p b
  simp only [typeMeaning, h.unit, lookupType?_alike h]

theorem knowsType_alike : knowsType c = knowsType c' := by
  funext text b
  simp only [knowsType, lookupType?_alike h]

theorem methodKeys_alike : methodKeys c = methodKeys c' := by
  funext owner name
  rw [methodKeys, methodKeys, h.index.methodKeys]

theorem fieldMeaning_alike {found found' : TypeInfo × FieldInfo}
    (hsame : SameType c.index c'.index found.1 found'.1 ∧ found.2 = found'.2) (b : Binder) :
    fieldMeaning c found b = fieldMeaning c' found' b := by
  rw [fieldMeaning, fieldMeaning, fieldType?, fieldType?, hsame.2, h.index.memberType? hsame.1]

theorem outerMeaning_alike : outerMeaning c = outerMeaning c' := by
  funext p name b
  simp only [outerMeaning, lookupType?_alike h]

/-- What is found in the first of some types that has it. -/
theorem rel_bind_findField? (owner : Option String) (name : String) :
    Option.Rel (fun found found' =>
        SameType c.index c'.index found.1 found'.1 ∧ found.2 = found'.2)
      (owner.bind fun owner => c.index.findField? owner name)
      (owner.bind fun owner => c'.index.findField? owner name) := by
  cases owner with
  | none => exact .none
  | some owner => exact h.index.findField? owner name

theorem caseConstant?_alike : caseConstant? c = caseConstant? c' := by
  funext b name
  have hrel := rel_bind_findField? h (b.switches.head?.join.bind (·.base.known?)) name
  simp only [caseConstant?, h.index.enumsWith]
  generalize (b.switches.head?.join.bind (·.base.known?)).bind
      (fun owner => c.index.findField? owner name) = found,
    (b.switches.head?.join.bind (·.base.known?)).bind
      (fun owner => c'.index.findField? owner name) = found' at hrel ⊢
  cases hrel with
  | none => rfl
  | some hsame => exact congrArg (fun field : FieldInfo => some field.key) hsame.2

theorem labelConstant?_alike : labelConstant? c = labelConstant? c' := by
  funext p name b
  simp only [labelConstant?, caseConstant?_alike h]

theorem rel_findSome?_findField? (owners : List TypeRef) (name : String) :
    Option.Rel (fun found found' =>
        SameType c.index c'.index found.1 found'.1 ∧ found.2 = found'.2)
      (owners.findSome? fun owner => owner.known?.bind fun owner => c.index.findField? owner name)
      (owners.findSome? fun owner =>
        owner.known?.bind fun owner => c'.index.findField? owner name) :=
  rel_findSome? (R := Eq) (fun owner _ heq => heq ▸ rel_bind_findField? h owner.known? name)
    (List.forall₂_eq_eq_eq ▸ rfl)

theorem rel_fieldByName? (b : Binder) (name : String) :
    Option.Rel (fun found found' =>
        SameType c.index c'.index found.1 found'.1 ∧ found.2 = found'.2)
      (b.fieldByName? c name) (b.fieldByName? c' name) := by
  have hframes : Option.Rel (fun found found' =>
        SameType c.index c'.index found.1 found'.1 ∧ found.2 = found'.2)
      (b.frames.findSome? fun frame => c.index.findField? frame.name name)
      (b.frames.findSome? fun frame => c'.index.findField? frame.name name) :=
    rel_findSome? (R := Eq) (fun frame _ heq => heq ▸ h.index.findField? frame.name name)
      (List.forall₂_eq_eq_eq ▸ rfl)
  have hstatic := rel_findSome?_findField? h (c'.index.staticOwners c'.number name) name
  rw [fieldByName?, fieldByName?, h.index.staticOwners h.imports]
  generalize b.frames.findSome? (fun frame => c.index.findField? frame.name name) = found,
    b.frames.findSome? (fun frame => c'.index.findField? frame.name name) = found' at hframes ⊢
  cases hframes with
  | none => exact hstatic
  | some hsame => exact .some hsame

theorem nameMeaning_alike : nameMeaning c = nameMeaning c' := by
  funext p b
  have hrel := rel_fieldByName? h b (c'.unit.text p)
  simp only [nameMeaning, ordinaryMeaning, h.unit, labelConstant?_alike h, outerMeaning_alike h]
  generalize b.fieldByName? c (c'.unit.text p) = found,
    b.fieldByName? c' (c'.unit.text p) = found' at hrel ⊢
  cases hrel with
  | none => rfl
  | some hsame => simp only [fieldMeaning_alike h hsame]

/-! ## Member accesses and calls -/

theorem knownMemberMeaning_alike : knownMemberMeaning c = knownMemberMeaning c' := by
  funext owner name b
  have hrel := h.index.findField? owner name
  simp only [knownMemberMeaning, h.index.findMemberType?]
  generalize c.index.findField? owner name = found, c'.index.findField? owner name = found'
    at hrel ⊢
  cases hrel with
  | none => rfl
  | some hsame => exact fieldMeaning_alike h hsame b

theorem supertypes_alike : supertypes c = supertypes c' := by
  funext b
  rw [supertypes, supertypes]
  cases b.innermost? with
  | none => rfl
  | some name =>
    rw [Option.bind_some, Option.bind_some]
    rcases h.index.type? name with ⟨hnone, hnone'⟩ | ⟨info, info', hinfo, hinfo', hsame⟩
    · rw [hnone, hnone']
    · obtain ⟨unit, rfl, -⟩ := hsame.exists_eq
      rw [hinfo, hinfo']
      rfl

theorem superMeaning_alike : superMeaning c = superMeaning c' := by
  funext name b
  have hrel := rel_findSome?_findField? h (b.supertypes c') name
  simp only [superMeaning, supertypes_alike h]
  generalize (b.supertypes c').findSome? (fun type =>
      type.known?.bind fun owner => c.index.findField? owner name) = found,
    (b.supertypes c').findSome? (fun type =>
      type.known?.bind fun owner => c'.index.findField? owner name) = found' at hrel ⊢
  cases hrel with
  | none => rfl
  | some hsame => exact fieldMeaning_alike h hsame b

theorem accessMeaning_alike : accessMeaning c = accessMeaning c' := by
  funext p object name b
  simp only [accessMeaning, qualifiedMeaning, h.unit, lookupType?_alike h,
    knownMemberMeaning_alike h]

theorem foundMethod_alike {owner owner' : TypeInfo} (hsame : SameType c.index c'.index owner owner')
    (method : MethodInfo) : foundMethod c owner method = foundMethod c' owner' method := by
  rw [foundMethod, foundMethod, h.index.returnType? hsame]

theorem returnTypeByKey?_alike : returnTypeByKey? c = returnTypeByKey? c' := by
  funext b key
  rw [returnTypeByKey?, returnTypeByKey?]
  congr 1
  funext frame
  refine findSome?_eq_of_forall₂ (fun info info' hsame => ?_) (h.index.hierarchy frame.name)
  have hreturns : c.index.returnType? info = c'.index.returnType? info' := by
    funext method
    exact h.index.returnType? hsame method
  obtain ⟨unit, rfl, -⟩ := hsame.exists_eq
  rw [hreturns]
  rfl

theorem targetInFrames?_alike : targetInFrames? c = targetInFrames? c' := by
  funext method args frames
  induction frames with
  | nil => rfl
  | cons frame frames ih =>
    have hrel := h.index.findMethod frame.name method args
    rw [targetInFrames?, targetInFrames?]
    generalize c.index.findMethod frame.name method args = found,
      c'.index.findMethod frame.name method args = found' at hrel ⊢
    cases hrel with
    | found m hsame => exact congrArg some (foundMethod_alike h hsame m)
    | ambiguous count => rfl
    | absent => exact ih

theorem targetIn?_alike : targetIn? c = targetIn? c' := by
  funext method args owners
  rw [targetIn?, targetIn?]
  congr 1
  funext owner
  cases owner.known? with
  | none => rfl
  | some name =>
    have hrel := h.index.findMethod name method args
    rw [Option.bind_some, Option.bind_some]
    generalize c.index.findMethod name method args = found,
      c'.index.findMethod name method args = found' at hrel ⊢
    cases hrel with
    | found m hsame => exact congrArg some (foundMethod_alike h hsame m)
    | ambiguous count => rfl
    | absent => rfl

theorem targetOn_alike : targetOn c = targetOn c' := by
  funext receiver method args
  have hrel := fun owner => h.index.findMethod owner method args
  rw [targetOn, targetOn]
  split
  · next owner _ =>
      have hrel := hrel owner
      generalize c.index.findMethod owner method args = found,
        c'.index.findMethod owner method args = found' at hrel ⊢
      cases hrel with
      | found m hsame => exact foundMethod_alike h hsame m
      | ambiguous count => rfl
      | absent => rfl
  · rfl
  · rfl

theorem callTarget_alike : callTarget c = callTarget c' := by
  funext b object method args
  simp only [callTarget, unqualifiedTarget, importedTarget, superTarget,
    returnTypeByKey?_alike h, targetInFrames?_alike h, targetIn?_alike h, targetOn_alike h,
    supertypes_alike h, h.index.staticOwners h.imports]

theorem callMeaning_alike : callMeaning c = callMeaning c' := by
  funext object name arguments b
  simp only [callMeaning, h.unit, callTarget_alike h]

theorem referenceMeaning_alike : referenceMeaning c = referenceMeaning c' := by
  funext object name b
  simp only [referenceMeaning, referenceReceiver?, h.unit, supertypes_alike h,
    staticType?_alike h, methodKeys_alike h]

/-! ## Programs -/

theorem importedSteps_alike : importedSteps c = importedSteps c' := by
  funext levels
  induction levels with
  | zero => rfl
  | succ levels ih =>
    funext reportMissing p
    simp only [importedSteps, ih, h.unit, h.index.resolveType h.imports]

theorem staticMemberSteps_alike : staticMemberSteps c = staticMemberSteps c' := by
  funext owner member
  have hrel := h.index.findField? owner (c'.unit.text member)
  simp only [staticMemberSteps, h.unit, methodKeys_alike h]
  generalize c.index.findField? owner (c'.unit.text member) = found,
    c'.index.findField? owner (c'.unit.text member) = found' at hrel ⊢
  cases hrel with
  | none => rfl
  | some hsame => simp only [hsame.2]

theorem qualifierSteps_alike : qualifierSteps c = qualifierSteps c' := by
  funext levels
  induction levels with
  | zero => rfl
  | succ levels ih =>
    funext p
    simp only [qualifierSteps, typeNameSteps, ih, h.unit, knowsType_alike h, typeMeaning_alike h]

theorem inferredType?_alike : inferredType? c = inferredType? c' := by
  funext b p
  simp only [inferredType?, writtenType?, h.unit, staticType?_alike h]

theorem memberSteps_alike : memberSteps c = memberSteps c' := by
  funext owner isRecord decl body
  simp only [memberSteps, componentMembers, membersAt, typeSteps, h.unit, h.typeAt,
    staticType?_alike h]

theorem headerSteps_alike : headerSteps c = headerSteps c' := by
  have hcomponent : componentSteps c = componentSteps c' := by
    funext owner param
    simp only [componentSteps, h.unit]
  funext kind owner p
  simp only [headerSteps, hcomponent]

theorem anonymousSteps_alike : anonymousSteps c = anonymousSteps c' := by
  funext p body
  simp only [anonymousSteps, h.typeAt, memberSteps_alike h]

theorem declarationSteps_alike : declarationSteps c = declarationSteps c' := by
  funext p kind name body
  simp only [declarationSteps, insideSteps, typeVariableSteps, h.unit, h.typeAt,
    memberSteps_alike h, headerSteps_alike h]

theorem fieldPartSteps_alike : fieldPartSteps c = fieldPartSteps c' := by
  funext owner p
  simp only [fieldPartSteps, h.unit]

theorem parametersSteps_alike : parametersSteps c = parametersSteps c' := by
  funext kind params
  simp only [parametersSteps, parameterSteps, h.unit, staticType?_alike h]

theorem isInferred_alike : isInferred c = isInferred c' := by
  funext type
  rw [isInferred, isInferred, h.unit]

theorem variableTypeSteps_alike : variableTypeSteps c = variableTypeSteps c' := by
  funext type
  rw [variableTypeSteps, variableTypeSteps, isInferred_alike h]

theorem declaratorSteps_alike : declaratorSteps c = declaratorSteps c' := by
  funext p name type
  simp only [declaratorSteps, resourceHeadSteps, writtenStep, h.unit, isInferred_alike h,
    variableTypeSteps_alike h, staticType?_alike h]

theorem variablePartSteps_alike : variablePartSteps c = variablePartSteps c' := by
  funext type p
  simp only [variablePartSteps, variableTypeSteps_alike h, declaratorSteps_alike h]

theorem loopTypes_alike : loopTypes c = loopTypes c' := by
  funext type value b
  rw [loopTypes, loopTypes, isInferred_alike h, h.unit, staticType?_alike h]

theorem rightSteps_alike : rightSteps c = rightSteps c' := by
  funext p
  simp only [rightSteps, inferredType?_alike h]

theorem steps_alike : steps c = steps c' := by
  funext owner p
  simp only [steps, importSteps, fieldSteps, constantSteps, methodSteps, typeVariableSteps,
    elementSteps, writtenStep, resourceSteps, typedSteps, enhancedForSteps, catchSteps,
    lambdaSteps, lambdaParameterSteps, callSteps, accessSteps, referenceSteps, creationSteps,
    binarySteps, typeNameSteps, h.unit, importedSteps_alike h, staticMemberSteps_alike h,
    declarationSteps_alike h, anonymousSteps_alike h, fieldPartSteps_alike h,
    parametersSteps_alike h, variableTypeSteps_alike h, declaratorSteps_alike h,
    variablePartSteps_alike h, loopTypes_alike h, rightSteps_alike h, qualifierSteps_alike h,
    typeMeaning_alike h, staticType?_alike h, callMeaning_alike h, accessMeaning_alike h,
    superMeaning_alike h, referenceMeaning_alike h, nameMeaning_alike h, inferredType?_alike h]

omit h in
mutual

/-- A program reads of the input only the texts of its unit. -/
theorem Step.run_unit (visit : Visit) (hunit : c.unit = c'.unit) :
    ∀ s : Step, s.run c visit = s.run c' visit
  | .visit _ | .name .. | .note .. | .declareType .. | .declareMember _ | .bindTypeVariable _ => by
      funext b
      simp only [Step.run]
  | .declareVariable _ _ _ steps => by
      funext b
      simp only [Step.run, Binder.declareVariable, hunit, Step.runAll_unit visit hunit steps]
  | .inScope _ _ steps | .inMember _ steps | .inFrame _ steps | .inSwitch _ steps => by
      funext b
      simp only [Step.run, Step.runAll_unit visit hunit steps]
  | .choose _ yes no => by
      funext b
      simp only [Step.run, Step.runAll_unit visit hunit yes, Step.runAll_unit visit hunit no]

theorem Step.runAll_unit (visit : Visit) (hunit : c.unit = c'.unit) :
    ∀ steps : List Step, Step.runAll c visit steps = Step.runAll c' visit steps
  | [] => by
      funext b
      simp only [Step.runAll]
  | s :: steps => by
      funext b
      simp only [Step.runAll, Step.run_unit visit hunit s, Step.runAll_unit visit hunit steps]

end

theorem visit_alike (levels : Nat) : Binder.visit c levels = Binder.visit c' levels := by
  induction levels with
  | zero => rfl
  | succ levels ih =>
    funext p b
    rw [Binder.visit, Binder.visit, ih, steps_alike h,
      Step.runAll_unit _ h.unit]

theorem traverse_alike : traverse c = traverse c' := by
  have hunit : unitSteps c = unitSteps c' := by
    have htypes : typeSteps c = typeSteps c' := by
      funext p
      simp only [typeSteps, h.unit, h.typeAt]
    rw [unitSteps, unitSteps, h.unit, htypes]
  rw [traverse, traverse, walked, walked, visit_alike h, hunit, h.unit, Step.runAll_unit _ h.unit]

end Binder

/-! ## Indexes of the same units -/

/-- The qualified names of the types that a unit declares, local and anonymous ones too. -/
def SourceUnit.typeNames (u : SourceUnit) : List String := (Index.ofUnit u).types.keys

namespace Index

theorem mem_typeNames {name : String} {seen : SeenType} (h : (ofUnit u).seen name = some seen) :
    name ∈ u.typeNames := by
  obtain ⟨info, hinfo, -⟩ := Option.map_eq_some_iff.mp h
  rw [SourceUnit.typeNames, Std.TreeMap.mem_keys, Std.TreeMap.mem_iff_isSome_getElem?]
  exact Option.isSome_iff_exists.mpr ⟨info, hinfo⟩

/-- A search does not depend on the order if at most one element has an answer. -/
theorem findSome?_perm {α β : Type} {f : α → Option β} {as bs : List α} (hperm : as.Perm bs)
    (h : as.Pairwise fun a b => f a = none ∨ f b = none) : as.findSome? f = bs.findSome? f := by
  induction hperm with
  | nil => rfl
  | cons a _ ih => rw [List.findSome?_cons, List.findSome?_cons, ih (List.pairwise_cons.mp h).2]
  | swap a b as =>
    have hor := (List.pairwise_cons.mp h).1 a (List.mem_cons_self ..)
    simp only [List.findSome?_cons]
    rcases hor with hnone | hnone <;> simp only [hnone]
  | trans hperm _ ih ih' =>
    exact (ih h).trans (ih' ((hperm.pairwise_iff fun hor => hor.symm).mp h))

theorem alike_foldl {units' : List SourceUnit} (hperm : units.Perm units')
    (hdistinct : units.Pairwise fun u v => ∀ name ∈ u.typeNames, name ∉ v.typeNames) :
    (units.foldl addUnit {}).Alike (units'.foldl addUnit {}) where
  seen name := by
    rw [seen_foldl units sized_empty, seen_foldl units' sized_empty]
    congr 1
    refine findSome?_perm (units.reverse_perm.trans (hperm.trans units'.reverse_perm.symm)) ?_
    rw [List.pairwise_reverse]
    refine hdistinct.imp fun {u v} huv => ?_
    cases hu : (ofUnit u).seen name with
    | none => exact .inr rfl
    | some seen =>
      refine .inl (Option.eq_none_iff_forall_ne_some.mpr fun seen' hv => ?_)
      exact huv name (mem_typeNames hu) (mem_typeNames hv)
  bySimple name := by
    rw [bySimple_foldl, bySimple_foldl]
    exact (hperm.flatMap_right _).append_left _

end Index

theorem getElem?_analyze_of {number : Nat} (hu : units[number]? = some u) (d : Dictionary)
    (policy : NamingPolicy) :
    (analyze d policy units)[number]?
      = some ⟨u, Symbols.ofUnit d policy ⟨u, number, Index.build units⟩⟩ := by
  rw [getElem?_analyze, hu, Option.map_some]

/-- The order of the units does not matter. If no two units declare a type of the same name, the
table of a unit is the same wherever it stands in the list. -/
theorem analyze_perm {units units' : List SourceUnit} (hperm : units.Perm units')
    (hdistinct : units.Pairwise fun u v => ∀ name ∈ u.typeNames, name ∉ v.typeNames)
    (d : Dictionary) (policy : NamingPolicy) {number number' : Nat} {u : SourceUnit}
    (hu : units[number]? = some u) (hu' : units'[number']? = some u) :
    ∃ a, a.unit = u ∧ (analyze d policy units)[number]? = some a
      ∧ (analyze d policy units')[number']? = some a := by
  obtain ⟨himports, htypeAt⟩ := Index.held_build hu
  obtain ⟨himports', htypeAt'⟩ := Index.held_build hu'
  have halike : BindingInput.Alike ⟨u, number, Index.build units⟩ ⟨u, number', Index.build units'⟩ :=
    { unit := rfl
      index := (Index.alike_foldl hperm hdistinct).link
      imports := himports.trans himports'.symm
      typeAt := htypeAt.trans htypeAt'.symm }
  have hsymbols : Symbols.ofUnit d policy ⟨u, number, Index.build units⟩
      = Symbols.ofUnit d policy ⟨u, number', Index.build units'⟩ := by
    rw [Symbols.ofUnit, Symbols.ofUnit, Binder.traverse_alike halike]
  refine ⟨_, rfl, getElem?_analyze_of hu d policy, ?_⟩
  rw [getElem?_analyze_of hu', hsymbols]

/-- A class that reads the field of another one, before and behind it. -/
theorem analyze_perm_reader :
    let units := [Sample.holder, Sample.reader]
    let units' := [Sample.reader, Sample.holder]
    (units.Pairwise fun u v => ∀ name ∈ u.typeNames, name ∉ v.typeNames)
      ∧ ∃ a, a.unit = Sample.reader
        ∧ (analyze .empty .preserve units)[1]? = some a
        ∧ (analyze .empty .preserve units')[0]? = some a
        ∧ ∃ p ∈ Symbols.namePlaces a.unit, a.symbols.keyOf? p = some ("A.x", .valid) := by
  intro units units'
  have hdistinct : units.Pairwise fun u v => ∀ name ∈ u.typeNames, name ∉ v.typeNames := by
    decide +kernel
  have hkey : ∃ p ∈ Symbols.namePlaces Sample.reader,
      (Symbols.ofUnit .empty .preserve ⟨Sample.reader, 1, Index.build units⟩).keyOf? p
        = some ("A.x", .valid) := by
    decide +kernel
  have hu : units[1]? = some Sample.reader := rfl
  obtain ⟨a, hunit, ha, ha'⟩ := analyze_perm (List.Perm.swap Sample.reader Sample.holder [])
    hdistinct .empty .preserve hu (show units'[0]? = some Sample.reader from rfl)
  have heq := Option.some.inj ((getElem?_analyze_of hu .empty .preserve).symm.trans ha)
  exact ⟨hdistinct, a, hunit, ha, ha', heq ▸ hkey⟩

end Legible
