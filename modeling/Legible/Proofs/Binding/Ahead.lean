import Legible.Proofs.Binding.Shares
import Legible.Proofs.Binding.VariableKeys

/-!
# What is declared ahead of a body

The type variables, members and member types of a type are declared before its body is visited
(`aheadSteps`), so all of them are visible throughout the body. `Ahead` says what each of these
steps declares, and `Member.Made` how a member comes from the tree: from a name that a declaration
has, or from a method or an element of an annotation type.
-/

namespace Legible

open Binder Place

variable {c : BindingInput} {s : Step}

/-! ## Names -/

/-- The place is a name, or what a declaration calls its name. -/
def BindingInput.Named (c : BindingInput) (q : Place) : Prop :=
  c.Has q ∧ (q.kind = "identifier" ∨ ∃ p, c.Has p ∧ p.child? "name" = some q
    ∧ (p.kind ∉ qualifiedNameParents ∨ SourceUnit.inParameterList p = true))

/-- The place can name what is declared: it is a name, or the underscore stands there. -/
def BindingInput.Declares (c : BindingInput) (q : Place) : Prop :=
  c.Has q ∧ (q.node.isName = true ∨ c.unit.text q = "_")

/-- What the unit declares as types: the name of each, with the key of a type and none for a type
variable. -/
def BindingInput.typeDeclarations (c : BindingInput) : List (String × Option String) :=
  c.unit.root.places.flatMap fun p =>
    (c.unit.typeParameters p).map (·, none) ++
      match Construct.of p with
      | .typeDecl _ name _ =>
        (c.index.typeAt? c.number p).toList.map fun key => (c.unit.text name, some key)
      | _ => []

def BindingInput.typeVariablesOf (c : BindingInput) (p : Place) : List String :=
  match Construct.of p with
  | .typeDecl .. => c.unit.typeParameters p
  | _ => []

inductive Binder.Member.Made (c : BindingInput) (owner : String) (m : Member) : Prop
  | value {q : Place} (hq : c.Named q) (hspace : m.space = .value) (hkind : m.kind = .field)
      (hname : m.name = c.unit.text q) (hkey : m.key = owner ++ "." ++ c.unit.text q)
      (harity : m.accessor = true → m.arity ≠ none)
  | method {p name : Place} (hp : c.Has p) (hof : p.DeclaresMethod name)
      (hspace : m.space = .method) (hkind : m.kind = .method) (hname : m.name = c.unit.text name)
      (hkey : m.key = c.unit.memberKey owner p) (haccessor : m.accessor = false)
      (harity : m.arity ≠ none)

/-! ## Steps -/

def BindingInput.membersOf (c : BindingInput) (key : String) (p : Place) : List Member :=
  match Construct.of p with
  | .typeDecl kind _ body =>
    (if kind = .recordType then componentMembers c key p else [])
      ++ body.bodyMembers.flatMap (membersAt c key)
  | .enumConstant _ (some body) => body.bodyMembers.flatMap (membersAt c key)
  | .objectCreation _ (some body) => body.bodyMembers.flatMap (membersAt c key)
  | _ => []

/-- What is declared ahead of the body of the type at `p`. -/
def aheadSteps (c : BindingInput) (key : String) (p : Place) : List Step :=
  match Construct.of p with
  | .typeDecl kind _ body => typeVariableSteps c p ++ memberSteps c key (kind = .recordType) p body
  | .enumConstant _ (some body) => memberSteps c key false p body
  | .objectCreation _ (some body) => memberSteps c key false p body
  | _ => []

/-- A step that is done ahead of the body of the type with the key. -/
inductive Ahead (c : BindingInput) (owner : String) : Step → Prop
  | typeVariable {name : String} (hname : (name, none) ∈ c.typeDeclarations) :
      Ahead c owner (.bindTypeVariable name)
  | type {p name body : Place} {kind : TypeKind} {key : String} (hp : c.Has p)
      (hof : Construct.of p = .typeDecl kind name body)
      (hkey : c.index.typeAt? c.number p = some key) :
      Ahead c owner (.declareType key (c.unit.text name))
  | member {m : Member} (hmade : m.Made c owner)
      (hm : ∃ p, m ∈ membersAt c owner p ∨ m ∈ componentMembers c owner p) :
      Ahead c owner (.declareMember m)

/-- The step declares something that is visible throughout a body. -/
def Binder.Step.isAhead : Step → Bool
  | .declareType .. | .declareMember _ | .bindTypeVariable _ => true
  | _ => false

theorem Ahead.isAhead {owner : String} (h : Ahead c owner s) : s.isAhead = true := by
  cases h <;> rfl

/-- What is declared ahead depends neither on the unit nor on how places are visited. -/
theorem runAll_of_isAhead {c' : BindingInput} {steps : List Step}
    (h : ∀ s ∈ steps, s.isAhead = true) (visit visit' : Visit) (b : Binder) :
    Step.runAll c visit steps b = Step.runAll c' visit' steps b := by
  induction steps generalizing b with
  | nil => rw [Step.runAll, Step.runAll]
  | cons s steps ih =>
    have hs := h s List.mem_cons_self
    rw [Step.runAll, Step.runAll, ih fun s hs => h s (List.mem_cons_of_mem _ hs)]
    cases s <;> first | (cases hs; done) | rw [Step.run, Step.run]

section Ahead

variable {c : BindingInput} {p q name body : Place} {key : String} {m : Member} {kind : TypeKind}

theorem mem_typeDeclarations_of_typeParameters (hp : c.Has p) {name : String}
    (hname : name ∈ c.unit.typeParameters p) : (name, none) ∈ c.typeDeclarations :=
  List.mem_flatMap.mpr ⟨p, hp, List.mem_append_left _ (List.mem_map.mpr ⟨name, hname, rfl⟩)⟩

theorem mem_typeDeclarations_of_typeDecl (hp : c.Has p)
    (hof : Construct.of p = .typeDecl kind name body)
    (hkey : c.index.typeAt? c.number p = some key) :
    (c.unit.text name, some key) ∈ c.typeDeclarations :=
  List.mem_flatMap.mpr ⟨p, hp, List.mem_append_right _ (by simp [hof, hkey])⟩

theorem named_of_child? (hp : c.Has p) (hq : p.child? "name" = some q)
    (hkind : p.kind ∉ qualifiedNameParents) : c.Named q :=
  ⟨hp.role hq, .inr ⟨p, hp, hq, .inl hkind⟩⟩

theorem named_of_declaredName? (hp : c.Has p)
    (hkind : p.kind ∉ qualifiedNameParents ∨ SourceUnit.inParameterList p = true)
    (hq : p.declaredName? = some q) : c.Named q := by
  rcases child?_of_declaredName? hq with hname | ⟨d, hd, hname⟩
  · exact ⟨hp.role hname, .inr ⟨p, hp, hname, hkind⟩⟩
  · have hmem := mem_children_of_mem_namedChildren (mem_namedChildren_of_firstNamed? hd)
    exact named_of_child? (hp.child hmem) hname (by rw [kind_of_firstNamed? hd]; decide)

theorem BindingInput.Named.declares (hparted : c.unit.Parted) (h : c.Named q) : c.Declares q := by
  obtain ⟨hq, hkind | ⟨p, hp, hname, hkind⟩⟩ := h
  · exact ⟨hq, .inl (isName_of_identifier hkind)⟩
  · refine ⟨hq, hparted.isName_name hp hname (hkind.elim id fun hin => ?_)⟩
    exact (hparted.kind_of_inParameterList hp hin).2

theorem BindingInput.Named.isPlainName (hparted : c.unit.Parted) (h : c.Named q) :
    isPlainName (c.unit.text q) = true :=
  hparted.isPlainName_of_isName h.1 (h.declares hparted).2

theorem getLast?_memberKey (h : p.DeclaresMethod name) (u : SourceUnit) (owner : String) :
    (u.memberKey owner p).toList.getLast? = some ')' := by
  rcases h with ⟨params, body, hof⟩ | hof <;> simp only [SourceUnit.memberKey, hof] <;>
    exact getLast?_callKey ..

theorem made_of_mem_membersAt (hp : c.Has p) (hm : m ∈ membersAt c key p) : m.Made c key := by
  unfold membersAt at hm
  split at hm
  · obtain ⟨⟨d, name⟩, hd, rfl⟩ := List.mem_map.mp hm
    obtain ⟨hmem, hkind, hname⟩ := declarators_mem hd
    exact .value (named_of_child? (hp.child hmem) hname (by rw [hkind]; decide)) rfl rfl rfl rfl
      (by simp)
  · next hof =>
      have hparts := Construct.partsOf hof
      rw [List.mem_singleton.mp hm]
      exact .value (named_of_child? hp hparts.2.1 (by rw [hparts.1]; decide)) rfl rfl rfl rfl
        (by simp)
  · next hof =>
      rw [List.mem_singleton.mp hm]
      exact .method hp (.inl ⟨_, _, hof⟩) rfl rfl rfl rfl rfl (by simp)
  · next hof =>
      rw [List.mem_singleton.mp hm]
      exact .method hp (.inr hof) rfl rfl rfl rfl rfl (by simp)
  · cases hm

theorem made_of_mem_componentMembers (hp : c.Has p) (hm : m ∈ componentMembers c key p) :
    m.Made c key := by
  obtain ⟨params, hparams, hm⟩ := List.mem_flatMap.mp hm
  have hparams := Option.mem_toList.mp hparams
  obtain ⟨param, hparam, hm⟩ := List.mem_filterMap.mp hm
  have hmem := mem_children_of_mem_namedChildren hparam
  split at hm
  · next hname _ =>
      cases hm
      refine .value (named_of_declaredName? ((hp.role hparams).child hmem) (.inr ?_) hname) rfl rfl
        rfl rfl (by simp)
      exact inParameterList_of_mem hmem (.inl (role_of_child? hparams))
  · cases hm

theorem ahead_typeSteps (key : String) (hp : c.Has p) (hs : s ∈ typeSteps c p) : Ahead c key s := by
  unfold typeSteps at hs
  split at hs
  · next hof hkey =>
      rw [List.mem_singleton.mp hs]
      exact .type hp hof hkey
  · cases hs

theorem ahead_typeVariableSteps (key : String) (hp : c.Has p) (hs : s ∈ typeVariableSteps c p) :
    Ahead c key s := by
  obtain ⟨name, hname, rfl⟩ := List.mem_map.mp hs
  exact .typeVariable (mem_typeDeclarations_of_typeParameters hp hname)

theorem ahead_memberSteps (hp : c.Has p) (hbody : c.Has body) (isRecord : Bool) :
    ∀ s ∈ memberSteps c key isRecord p body, Ahead c key s := by
  intro s hs
  rcases List.mem_append.mp hs with hs | hs
  · obtain ⟨m, hm, rfl⟩ := List.mem_map.mp hs
    split at hm
    · exact .member (made_of_mem_componentMembers hp hm) ⟨p, .inr hm⟩
    · cases hm
  · obtain ⟨q, hq, hs⟩ := List.mem_flatMap.mp hs
    have hq : c.Has q := mem_places_of_mem_bodyMembers hbody hq
    rcases List.mem_append.mp hs with hs | hs
    · obtain ⟨m, hm, rfl⟩ := List.mem_map.mp hs
      exact .member (made_of_mem_membersAt hq hm) ⟨q, .inl hm⟩
    · exact ahead_typeSteps key hq hs

/-- What is done ahead of the body of a type declares its type parameters, its members and its
member types. -/
theorem ahead_aheadSteps (hp : c.Has p) (key : String) :
    ∀ s ∈ aheadSteps c key p, Ahead c key s := by
  intro s hs
  unfold aheadSteps at hs
  split at hs
  · next hof =>
      rcases List.mem_append.mp hs with hs | hs
      · exact ahead_typeVariableSteps key hp hs
      · exact ahead_memberSteps hp (hp.role (Construct.partsOf hof).2.2) _ s hs
  · next hof => exact ahead_memberSteps hp (hp.role (Construct.partsOf hof).2.2.symm) _ s hs
  · next hof =>
      exact ahead_memberSteps hp (hp.child (mem_children_of_mem_namedChildren
        (mem_namedChildren_of_firstNamed? (Construct.partsOf hof).symm))) _ s hs
  · cases hs

/-- The steps inside of a type declaration begin with those ahead of its body. -/
theorem insideSteps_eq (hof : Construct.of p = .typeDecl kind name body) :
    insideSteps c p kind name body key = aheadSteps c key p
      ++ ((p.namedChildren.filter (!·.isIn [name, body])).flatMap (headerSteps c kind key)
        ++ body.bodyMembers.map .visit) := by
  simp [insideSteps, aheadSteps, hof]

end Ahead

end Legible
