import Legible.Proofs.Binding.Run

/-!
# What constructs use up

The parts that the rules go through are parts of the construct, none of them twice, so their
numbers are in the numbers of the construct.
-/

namespace Legible

open Binder

variable {c : BindingInput} {p last q name body param field r type value left : Place}
  {first : Option Place} {levels levels' : Nat} {rest : List Place}

/-! ## Names -/

theorem typeNameParts?_scopedName (hkind : p.kind = "scoped_identifier")
    (hparts : typeNameParts? p = some (first, last)) :
    first = p.child? "scope" ∧ p.child? "name" = some last := by
  rw [typeNameParts?, hkind, if_neg (by decide), if_pos (by decide)] at hparts
  obtain ⟨name, hname, heq⟩ := Option.map_eq_some_iff.mp hparts
  cases heq
  exact ⟨rfl, hname⟩

/-- Qualifier and last name of a qualified type are children of it. -/
theorem mem_children_of_typeNameParts? (hparts : typeNameParts? p = some (first, last))
    (hscoped : p.kind = "scoped_type_identifier" ∨ p.kind = "scoped_identifier") :
    last ∈ p.children ∧ ∀ q ∈ first.toList, q ∈ p.children := by
  rcases hscoped with hkind | hkind
  · simp only [typeNameParts?, hkind, beq_self_eq_true, if_true, Option.map_eq_some_iff,
      Prod.mk.injEq] at hparts
    obtain ⟨last, hlast, rfl, rfl⟩ := hparts
    refine ⟨Place.mem_children_of_mem_namedChildren
      (by simpa using List.mem_of_find?_eq_some hlast), fun q hq => ?_⟩
    have := (Option.filter_eq_some_iff.mp (Option.mem_toList.mp hq)).1
    exact Place.mem_children_of_mem_namedChildren (List.mem_of_mem_head? this)
  · obtain ⟨rfl, hlast⟩ := typeNameParts?_scopedName hkind hparts
    exact ⟨Place.mem_children_of_child? hlast,
      fun q hq => Place.mem_children_of_child? (Option.mem_toList.mp hq)⟩

/-- Annotations, qualifier and last name of a qualified type are children of it, all different. -/
theorem typeMarks_append_subperm
    (hhead : p.kind = "scoped_type_identifier" → ∀ q, p.namedChildren.head? = some q →
      q.kind ≠ "annotation" ∧ q.kind ≠ "marker_annotation")
    (hparts : typeNameParts? p = some (first, last))
    (hscoped : p.kind = "scoped_type_identifier" ∨ p.kind = "scoped_identifier") :
    (typeMarks p ++ (first.toList ++ [last])).Subperm p.children := by
  obtain ⟨hlastMem, hfirstMem⟩ := mem_children_of_typeNameParts? hparts hscoped
  rcases hscoped with hkind | hkind
  · simp only [typeNameParts?, hkind, beq_self_eq_true, if_true, Option.map_eq_some_iff,
      Prod.mk.injEq] at hparts
    obtain ⟨last, hlast, rfl, rfl⟩ := hparts
    have hlastKind : last.kind = "type_identifier" := by simpa using List.find?_some hlast
    simp only [typeMarks, hkind, beq_self_eq_true, if_true]
    refine Place.filter_append_subperm (List.subperm_of_subset ?_ ?_) ?_
    · cases hfirst : p.namedChildren.head?.filter (!·.same last) with
      | none => simp
      | some q =>
        have hdiffers : (!q.same last) = true := (Option.filter_eq_some_iff.mp hfirst).2
        have hne : q ≠ last := by
          rintro rfl
          simp [Place.same_self] at hdiffers
        simpa using hne
    · intro q hq
      rcases List.mem_append.mp hq with hq | hq
      · exact hfirstMem q hq
      · exact List.mem_singleton.mp hq ▸ hlastMem
    · intro q hq
      rcases List.mem_append.mp hq with hq | hq
      · have := (Option.filter_eq_some_iff.mp (Option.mem_toList.mp hq)).1
        simpa using hhead hkind q this
      · rw [List.mem_singleton.mp hq, hlastKind]
        decide
  · obtain ⟨hfirst, hlast⟩ := typeNameParts?_scopedName hkind hparts
    have hroles := p.filterMap_child?_subperm (show ["scope", "name"].Nodup by decide)
    subst hfirst
    cases hscope : p.child? "scope" <;> simpa [typeMarks, hkind, hscope, hlast] using hroles

theorem typeNameParts?_eq_self (h₁ : p.kind ≠ "scoped_type_identifier")
    (h₂ : p.kind ≠ "scoped_identifier") : typeNameParts? p = some (none, p) := by
  simp [typeNameParts?, h₁, h₂]

theorem qualifier?_mem (h : qualifier? p = some q) :
    (p.kind = "scoped_type_identifier" ∨ p.kind = "scoped_identifier") ∧ q ∈ p.children := by
  unfold qualifier? at h
  split at h
  · next hkind => exact ⟨.inr (by simpa using hkind), Place.mem_children_of_child? h⟩
  · split at h
    · next hkind =>
        exact ⟨.inl (by simpa using hkind),
          Place.mem_children_of_mem_namedChildren (List.mem_of_mem_head? h)⟩
    · cases h

/-- The last name of an imported name and what stands before it. -/
theorem scope_append_subperm
    (hlast : (if p.kind == "scoped_identifier" then p.child? "name" else some p) = some last) :
    (Place.numbersOf (p.child? "scope").toList ++ [last.number]).Subperm p.numbers := by
  split at hlast
  · have hroles := p.filterMap_child?_subperm (show ["scope", "name"].Nodup by decide)
    have hparts : ((p.child? "scope").toList ++ [last]).Subperm p.children := by
      cases hscope : p.child? "scope" <;> simpa [hscope, hlast] using hroles
    have hnumbers := Place.numbersOf_subperm hparts
    rw [Place.numbersOf_append] at hnumbers
    refine List.Subperm.trans ?_ hnumbers
    exact (List.subperm_append_left _).mpr (by simpa using last.singleton_subperm)
  · cases hlast
    have hscope : (p.child? "scope").toList.Subperm p.children := by
      cases hscope : p.child? "scope" with
      | none => exact List.nil_subperm
      | some q => exact List.singleton_subperm_iff.mpr (Place.mem_children_of_child? hscope)
    rw [Place.numbers_eq]
    refine (List.perm_append_comm.subperm).trans ?_
    exact (List.subperm_cons _).mpr (Place.numbersOf_subperm_of_subperm hscope)

theorem isNameChain_field (h : p.node.isNameChain levels = true) (hkind : p.kind = "field_access")
    (hfield : p.child? "field" = some field) : field.kind = "identifier" := by
  cases levels with
  | zero => cases h
  | succ levels =>
    have hfind : (p.node.children.find? (·.role == some "field")).map
        (fun n => (⟨n, p.node :: p.above⟩ : Place)) = some field := by
      rw [← hfield, Place.child?, Place.children, List.find?_map]
      rfl
    obtain ⟨n, hn, rfl⟩ := Option.map_eq_some_iff.mp hfind
    have hkind : p.node.kind = "field_access" := hkind
    simp only [Node.isNameChain, hkind, beq_self_eq_true, if_true, hn] at h
    split at h
    · next heq _ =>
        cases heq
        exact beq_iff_eq.mp (Bool.and_eq_true_iff.mp h).1
    · cases h

theorem filter_same_append_subperm (hq : q ∈ p.children) :
    (p.namedChildren.filter (!·.same q) ++ [q]).Subperm p.children := by
  refine Place.filter_append_subperm (List.singleton_subperm_iff.mpr hq) ?_
  intro r hr
  rw [List.mem_singleton.mp hr, Place.same_self]
  rfl

theorem subperm_of_cons_mem (hchildren : p.namedChildren = q :: rest) (hr : r ∈ rest) :
    [q, r].Subperm p.children := by
  have hsub : [q, r].Sublist p.namedChildren := by
    rw [hchildren]
    exact (List.singleton_sublist.mpr hr).cons_cons q
  exact (hsub.trans p.namedChildren_sublist).subperm

theorem isName_of_identifier (h : p.kind = "identifier") : p.node.isName = true := by
  have h : p.node.kind = "identifier" := h
  simp [Node.isName, h]

/-! ## Variables and statements -/

/-- A parameter uses up its name and what is visited of it; a declarator, in which the name may
stand, is not visited. -/
theorem parameter_append_subperm (hname : p.declaredName? = some name) :
    (Place.numbersOf (p.namedChildren.filter fun q =>
        !q.isIn p.declaredName?.toList && q.kind != "variable_declarator")
      ++ [name.number]).Subperm p.numbers := by
  -- the child that holds the name is not among what is visited
  have hheld : ∀ d ∈ p.children, [name.number].Subperm d.numbers →
      (!d.isIn p.declaredName?.toList && d.kind != "variable_declarator") = false →
      (Place.numbersOf (p.namedChildren.filter fun q =>
          !q.isIn p.declaredName?.toList && q.kind != "variable_declarator")
        ++ [name.number]).Subperm p.numbers := by
    intro d hd hin hskipped
    have hall := Place.numbersOf_subperm (Place.filter_append_subperm
      (List.singleton_subperm_iff.mpr hd)
      (f := fun q => !q.isIn p.declaredName?.toList && q.kind != "variable_declarator") (by
        intro q hq
        rw [List.mem_singleton.mp hq]
        exact hskipped))
    rw [Place.numbersOf_append, Place.numbersOf_singleton] at hall
    exact List.Subperm.trans ((List.subperm_append_left _).mpr hin) hall
  rcases child?_of_declaredName? hname with h | ⟨d, hd, h⟩
  · refine hheld name (Place.mem_children_of_child? h) name.singleton_subperm ?_
    simp [hname, Place.isIn, Place.same_self]
  · have hdKind := Place.kind_of_firstNamed? hd
    have hd := Place.mem_children_of_mem_namedChildren (Place.mem_namedChildren_of_firstNamed? hd)
    refine hheld d hd (name.singleton_subperm.trans
      (Place.numbers_subperm_of_mem (Place.mem_children_of_child? h))) ?_
    simp [hdKind]

theorem declarator_subperm (hname : p.child? "name" = some name) :
    (name :: (p.child? "value").toList).Subperm p.children := by
  have hroles := p.filterMap_child?_subperm (show ["name", "value"].Nodup by decide)
  cases hv : p.child? "value" <;> simpa [hname, hv] using hroles

theorem resource_subperm (hname : p.child? "name" = some name) :
    (name :: ((p.child? "value").toList ++ (p.child? "type").toList)).Subperm p.children := by
  have hroles := p.filterMap_child?_subperm (show ["name", "value", "type"].Nodup by decide)
  cases hv : p.child? "value" <;> cases ht : p.child? "type" <;> simpa [hname, hv, ht] using hroles

/-- Modifiers play none of the roles of an enhanced for statement. -/
theorem modifiers_append_subperm (hok : ∀ q ∈ p.children, SourceUnit.partsOK q = true)
    (htype : p.child? "type" = some type) (hname : p.child? "name" = some name)
    (hvalue : p.child? "value" = some value) (hbody : p.child? "body" = some body) :
    (p.namedChildren.filter (·.kind == "modifiers") ++ [value, type, name, body]).Subperm
      p.children := by
  have hroles := p.filterMap_child?_subperm (show ["value", "type", "name", "body"].Nodup by decide)
  refine Place.filter_append_subperm
    (by simpa [htype, hname, hvalue, hbody] using hroles) fun q hq => ?_
  have hrole : q ∈ p.children ∧ q.role ∈ ["type", "name", "value", "body"].map some := by
    simp only [List.mem_cons, List.not_mem_nil, or_false] at hq
    rcases hq with rfl | rfl | rfl | rfl
    · exact ⟨Place.mem_children_of_child? hvalue, by simp [Place.role_of_child? hvalue]⟩
    · exact ⟨Place.mem_children_of_child? htype, by simp [Place.role_of_child? htype]⟩
    · exact ⟨Place.mem_children_of_child? hname, by simp [Place.role_of_child? hname]⟩
    · exact ⟨Place.mem_children_of_child? hbody, by simp [Place.role_of_child? hbody]⟩
  have hparts := hok q hrole.1
  simp only [SourceUnit.partsOK, Bool.and_eq_true] at hparts
  have hnot := hparts.1.1.2
  rw [List.contains_iff_mem.mpr hrole.2] at hnot
  simpa using hnot

/-- The parameter of a catch clause is not its body. -/
theorem catch_subperm (hok : ∀ q ∈ p.children, SourceUnit.partsOK q = true)
    (hparam : p.firstNamed? "catch_formal_parameter" = some param)
    (hbody : p.child? "body" = some body) : [param, body].Subperm p.children := by
  have hkind := Place.kind_of_firstNamed? hparam
  have hparam := Place.mem_children_of_mem_namedChildren
    (Place.mem_namedChildren_of_firstNamed? hparam)
  have hbodyMem := Place.mem_children_of_child? hbody
  have hne : param ≠ body := by
    rintro rfl
    have hparts := hok _ hbodyMem
    simp only [SourceUnit.partsOK, Bool.and_eq_true] at hparts
    have hnot := hparts.1.1.1.2
    rw [Place.role_of_child? hbody, hkind] at hnot
    cases hnot
  refine List.subperm_of_subset (by simpa using hne) ?_
  simp [hparam, hbodyMem]

/-- The name of a catch parameter is a child of it. -/
theorem catch_declaredName? (hparts : SourceUnit.partsOK param = true)
    (hkind : param.kind = "catch_formal_parameter") (hname : param.declaredName? = some name) :
    name ∈ param.children := by
  simp only [SourceUnit.partsOK, Bool.and_eq_true] at hparts
  have hsome : (param.child? "name").isSome := by simpa [hkind] using hparts.1.2
  obtain ⟨name', hname'⟩ := Option.isSome_iff_exists.mp hsome
  have heq : param.declaredName? = some name' := by simp [Place.declaredName?, hname']
  cases hname.symm.trans heq
  exact Place.mem_children_of_child? hname'

/-! ## Expressions -/

theorem leftSpine_ne_nil (levels : Nat) (p : Place) : leftSpine levels p ≠ [] := by
  fun_cases leftSpine levels p <;> simp

theorem leftSpine_eq (h : p.node.height ≤ levels) (h' : p.node.height ≤ levels') :
    leftSpine levels p = leftSpine levels' p := by
  have hpos := p.node.height_pos
  induction levels generalizing p levels' with
  | zero => omega
  | succ levels ih =>
    cases levels' with
    | zero => omega
    | succ levels' =>
      rw [leftSpine, leftSpine]
      cases hleft : p.child? "left" with
      | none => rfl
      | some left =>
        have hlt := Place.height_lt_of_mem_children (Place.mem_children_of_child? hleft)
        have hrest : leftSpine levels left = leftSpine levels' left :=
          ih (by omega) (by omega) left.node.height_pos
        simp only [hrest]

/-- Visits the operands of a binary expression, the left one first. -/
def operandSteps (c : BindingInput) (p : Place) : List Step :=
  (p.child? "left").toList.map .visit ++ rightSteps c p

theorem binarySteps_eq_operandSteps
    (h : ∀ left, p.child? "left" = some left → left.kind ≠ "binary_expression") :
    binarySteps c p = operandSteps c p := by
  have hspine : leftSpine p.node.height p = [p] := by
    obtain ⟨levels, hlevels⟩ := Nat.exists_eq_succ_of_ne_zero (Nat.ne_zero_of_lt p.node.height_pos)
    rw [hlevels, leftSpine]
    cases hleft : p.child? "left" with
    | none => rfl
    | some left => simp [h left hleft]
  simp [binarySteps, operandSteps, hspine]

/-- Where the left operand is binary too, it is visited as it would be by itself. -/
theorem binarySteps_eq_append (hleft : p.child? "left" = some left)
    (hkind : left.kind = "binary_expression") :
    binarySteps c p = binarySteps c left ++ rightSteps c p := by
  have hlt := Place.height_lt_of_mem_children (Place.mem_children_of_child? hleft)
  have hspine : leftSpine p.node.height p = p :: leftSpine left.node.height left := by
    obtain ⟨levels, hlevels⟩ := Nat.exists_eq_succ_of_ne_zero (Nat.ne_zero_of_lt hlt)
    rw [hlevels, leftSpine, hleft]
    simp only [hkind, beq_self_eq_true, if_true]
    rw [leftSpine_eq (by omega) (Nat.le_refl _)]
  rw [binarySteps, hspine, List.getLast?_cons_of_ne_nil (leftSpine_ne_nil _ _), List.reverse_cons,
    List.flatMap_append, List.flatMap_singleton, ← List.append_assoc, binarySteps]

/-- Induction along the left operands for as long as they are binary. -/
theorem binary_induction {motive : Place → Prop}
    (last : ∀ p, (∀ left, p.child? "left" = some left → left.kind ≠ "binary_expression") → motive p)
    (next : ∀ p left, p.child? "left" = some left → left.kind = "binary_expression" →
      motive left → motive p) (p : Place) : motive p := by
  induction hheight : p.node.height using Nat.strongRecOn generalizing p with
  | _ height ih =>
    by_cases h : ∃ left, p.child? "left" = some left ∧ left.kind = "binary_expression"
    · obtain ⟨left, hleft, hkind⟩ := h
      have hlt := Place.height_lt_of_mem_children (Place.mem_children_of_child? hleft)
      exact next p left hleft hkind (ih _ (hheight ▸ hlt) left rfl)
    · exact last p fun left hleft hkind => h ⟨left, hleft, hkind⟩

theorem operands_subperm (p : Place) :
    ((p.child? "left").toList ++ (p.child? "right").toList).Subperm p.children := by
  have hroles := p.filterMap_child?_subperm (show ["left", "right"].Nodup by decide)
  rw [List.filterMap_eq_flatMap_toList] at hroles
  simpa using hroles

end Legible
