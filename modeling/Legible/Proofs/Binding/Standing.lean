import Legible.Proofs.Binding.Regions

/-!
# Where a traversal stands

Rules of a traversal are composed of smaller ones. This module has the two sides of that:

- **numbers**: what the parts of a construct use up is in the numbers of the construct, as long as
  no part is used twice (`numbersOf_subperm`);
- **places**: `At c R p` is what the visit of `p` inside of the regions `R` may rely on. In a shaped
  tree these are the regions around `p`. In every tree the rule for a type declaration, and no
  other, visits what stands directly in the body of an indexed type, and does so with that type as
  the innermost one.
-/

namespace Legible

variable {p : Place}

/-! ## Numbers used up -/

namespace Place

variable {qs : List Place}

def numbersOf (ps : List Place) : List Nat := ps.flatMap numbers

@[simp] theorem numbersOf_nil : numbersOf [] = [] := rfl

@[simp] theorem numbersOf_cons (p : Place) (ps : List Place) :
    numbersOf (p :: ps) = p.numbers ++ numbersOf ps := rfl

@[simp] theorem numbersOf_append (ps qs : List Place) :
    numbersOf (ps ++ qs) = numbersOf ps ++ numbersOf qs := List.flatMap_append

theorem numbersOf_singleton (p : Place) : numbersOf [p] = p.numbers := by simp

theorem numbersOf_concat (ps : List Place) (p : Place) :
    numbersOf (ps ++ [p]) = numbersOf ps ++ p.numbers := by simp

theorem numbers_eq (p : Place) : p.numbers = p.number :: numbersOf p.children := p.numbers_eq_cons

theorem singleton_subperm (p : Place) : [p.number].Subperm p.numbers := by
  rw [numbers_eq]
  exact ((List.nil_sublist _).cons_cons _).subperm

theorem numbersOf_subperm_of_subperm {ps : List Place} (h : ps.Subperm qs) :
    (numbersOf ps).Subperm (numbersOf qs) := by
  obtain ⟨rs, hperm, hsub⟩ := h
  exact (hperm.symm.flatMap_right numbers).subperm.trans (hsub.flatMap numbers).subperm

theorem numbersOf_subperm (h : qs.Subperm p.children) : (numbersOf qs).Subperm p.numbers := by
  rw [numbers_eq]
  exact (numbersOf_subperm_of_subperm h).cons_right p.number

theorem numbers_subperm_of_mem {q : Place} (h : q ∈ p.children) : q.numbers.Subperm p.numbers :=
  (numbers_sublist (mem_below_of_mem_children h)).subperm

theorem map_role_filterMap_child? (p : Place) (roles : List String) :
    ((roles.filterMap p.child?).map role).Sublist (roles.map some) := by
  induction roles with
  | nil => simp
  | cons r roles ih =>
    cases hr : p.child? r with
    | none => simpa [hr] using ih.cons (some r)
    | some q => simpa [hr, role_of_child? hr] using ih.cons_cons (some r)

theorem filterMap_child?_subperm (p : Place) {roles : List String} (h : roles.Nodup) :
    (roles.filterMap p.child?).Subperm p.children := by
  have hnodup : ((roles.filterMap p.child?).map role).Nodup :=
    (h.map fun _ _ => Option.some.inj).sublist (p.map_role_filterMap_child? roles)
  refine List.subperm_of_subset hnodup.of_map fun q hq => ?_
  obtain ⟨r, _, hr⟩ := List.mem_filterMap.mp hq
  exact mem_children_of_child? hr

/-- The named children apart from some children, and these. -/
theorem except_append_subperm (hqs : qs.Subperm p.children) :
    (p.namedChildren.filter (!·.isIn qs) ++ qs).Subperm p.children := by
  refine filter_append_subperm hqs fun q hq => ?_
  rw [isIn_eq_true_iff.mpr ⟨q, hq, rfl⟩]
  rfl

theorem numbersOf_bodyMembers_subperm (body : Place) :
    (numbersOf body.bodyMembers).Subperm body.numbers := by
  have hmembers : (numbersOf body.bodyMembers).Subperm (numbersOf body.namedChildren) := by
    unfold bodyMembers
    induction body.namedChildren with
    | nil => simp
    | cons q qs ih =>
      rw [List.flatMap_cons, numbersOf_append, numbersOf_cons]
      refine List.Subperm.append ?_ ih
      split
      · exact numbersOf_subperm q.namedChildren_sublist.subperm
      · simpa using List.Subperm.refl q.numbers
  exact hmembers.trans (numbersOf_subperm body.namedChildren_sublist.subperm)

end Place

theorem numbers_nodup_of_shapedOK {u : SourceUnit} (hshaped : u.shapedOK = true)
    (hp : p ∈ u.root.places) : p.numbers.Nodup :=
  (parted_of_shapedOK hshaped).numbers.sublist (Place.numbers_sublist (p := u.top) hp)

/-! ## Places -/

def BindingInput.Has (c : BindingInput) (p : Place) : Prop := p ∈ c.unit.root.places

def BindingInput.Tidy (c : BindingInput) : Prop := c.unit.tidyOK = true

/-- At `p` stands the body of a type declaration, which the index knows by `key`. -/
def BindingInput.IsBodyOf (c : BindingInput) (p : Place) (key : String) : Prop :=
  ∃ decl kind name, p.parent? = some decl ∧ Construct.of decl = .typeDecl kind name p
    ∧ c.index.typeAt? c.number decl = some key

/-- The place stands directly in the body of the type of the given key, or after the constants of
an enum in it. -/
inductive BindingInput.InBody (c : BindingInput) (p : Place) (key : String) : Prop
  | direct {body : Place} (hparent : p.parent? = some body) (hbody : c.IsBodyOf body key)
  | nested {holder body : Place} (hparent : p.parent? = some holder)
      (hkind : holder.kind = "enum_body_declarations") (hholder : holder.parent? = some body)
      (hbody : c.IsBodyOf body key)

namespace BindingInput

/-- What the visit of a place inside of the regions `R` relies on: a member of the body of an
indexed type is visited with that type as the innermost one, and the body itself is not visited. -/
structure At (c : BindingInput) (R : List Region) (p : Place) : Prop where
  has : c.Has p
  regions : c.unit.shapedOK = true → c.regions p = R
  notBody : ∀ key, ¬c.IsBodyOf p key
  notHolder : p.kind = "enum_body_declarations" →
    ∀ body key, p.parent? = some body → ¬c.IsBodyOf body key
  member : ∀ key, c.InBody p key → innermostType? R = some key

variable {c : BindingInput} {R R' : List Region} {p q : Place}

theorem Has.child (hp : c.Has p) (hq : q ∈ p.children) : c.Has q :=
  Place.mem_places_of_mem_children hp hq

theorem Has.role (hp : c.Has p) {role : String} (hq : p.child? role = some q) : c.Has q :=
  hp.child (Place.mem_children_of_child? hq)

theorem of_ne_typeDecl (h : p.kind ∉ typeDeclarationKinds) (kind : TypeKind) (name body : Place) :
    Construct.of p ≠ .typeDecl kind name body := by
  intro hof
  have hparts := Construct.partsOf hof
  exact h hparts.1

theorem not_isBodyOf (hq : q ∈ p.children)
    (h : ∀ kind name, Construct.of p = .typeDecl kind name q → c.index.typeAt? c.number p = none)
    (key : String) : ¬c.IsBodyOf q key := by
  rintro ⟨decl, kind, name, hparent, hof, hkey⟩
  cases (Place.parent?_of_mem_children hq).symm.trans hparent
  rw [h kind name hof] at hkey
  cases hkey

section

variable (h : c.At R p) (hq : q ∈ p.children)
  (hbody : ∀ kind name, Construct.of p = .typeDecl kind name q → c.index.typeAt? c.number p = none)

include h hq hbody

/-- The parts of a place other than the body of an indexed type. -/
theorem At.child (hregions : c.unit.shapedOK = true → c.regions q = R') : c.At R' q := by
  have hself := Place.parent?_of_mem_children hq
  refine ⟨h.has.child hq, hregions, not_isBodyOf hq hbody, fun _ body key hparent => ?_,
    fun key hin => ?_⟩
  · cases hself.symm.trans hparent
    exact h.notBody key
  · cases hin with
    | direct hparent hbody =>
      cases hself.symm.trans hparent
      exact absurd hbody (h.notBody key)
    | nested hparent hkind hholder hbody =>
      cases hself.symm.trans hparent
      exact absurd hbody (h.notHolder hkind _ key hholder)

/-- A part of a place stands in what the place opens for it. -/
theorem At.part (hopens : (c.opens R p q).toList ++ R = R') : c.At R' q :=
  h.child hq hbody fun hshaped => by rw [regions_child hq, h.regions hshaped, hopens]

end

theorem at_top (c : BindingInput) : c.At [] c.unit.top where
  has := Place.mem_below_self c.unit.top
  regions _ := rfl
  notBody := by
    rintro key ⟨decl, _, _, hparent, _⟩
    cases hparent
  notHolder := by
    rintro _ body key hparent
    cases hparent
  member := by
    rintro key (hparent | hparent) <;> cases hparent

/-- The members of the body of an indexed type, with that type as the innermost one. -/
theorem At.of_mem_bodyMembers (hparted : c.unit.Parted) {decl name body : Place} {kind : TypeKind}
    {key : String} (hdecl : c.Has decl) (hof : Construct.of decl = .typeDecl kind name body)
    (hkey : c.index.typeAt? c.number decl = some key) (hp : p ∈ body.bodyMembers)
    (hregions : c.unit.shapedOK = true → c.regions p = R)
    (hinnermost : innermostType? R = some key) : c.At R p := by
  obtain ⟨hdeclKind, -, hbody⟩ := Construct.partsOf hof
  have hmem := Place.mem_children_of_child? hbody
  have hparent := Place.parent?_of_mem_children hmem
  have hbodyKind := hparted.kind_of_child? hdecl hbody (.inl rfl)
  have hmember : ∀ key', c.IsBodyOf body key' → innermostType? R = some key' := by
    rintro key' ⟨decl', _, _, hparent', _, hkey'⟩
    cases hparent.symm.trans hparent'
    rw [hinnermost, ← hkey, hkey']
  obtain ⟨child, hchild, hp⟩ := List.mem_flatMap.mp hp
  have hchild := Place.mem_children_of_mem_namedChildren hchild
  have hchildParent := Place.parent?_of_mem_children hchild
  have hchildBody : ∀ key', ¬c.IsBodyOf child key' :=
    not_isBodyOf hchild fun kind name h => absurd h (of_ne_typeDecl hbodyKind kind name child)
  by_cases hholder : child.kind = "enum_body_declarations"
  · -- a declaration after the constants of an enum
    rw [if_pos (by simpa using hholder)] at hp
    have hp := Place.mem_children_of_mem_namedChildren hp
    have hpParent := Place.parent?_of_mem_children hp
    have hchildKind : child.kind ∉ typeDeclarationKinds := by simp [hholder, typeDeclarationKinds]
    refine ⟨((hdecl.child hmem).child hchild).child hp, hregions, not_isBodyOf hp
      fun kind name h => absurd h (of_ne_typeDecl hchildKind kind name p), ?_, ?_⟩
    · intro _ body' key' hbody'
      cases hpParent.symm.trans hbody'
      exact hchildBody key'
    · intro key' hin
      cases hin with
      | direct hparent' hbody' =>
        cases hpParent.symm.trans hparent'
        exact absurd hbody' (hchildBody key')
      | nested hparent' _ hholder' hbody' =>
        cases hpParent.symm.trans hparent'
        cases hchildParent.symm.trans hholder'
        exact hmember key' hbody'
  · rw [if_neg (by simpa using hholder), List.mem_singleton] at hp
    subst hp
    refine ⟨(hdecl.child hmem).child hchild, hregions, hchildBody, fun h => absurd h hholder, ?_⟩
    intro key' hin
    cases hin with
    | direct hparent' hbody' =>
      cases hchildParent.symm.trans hparent'
      exact hmember key' hbody'
    | nested hparent' _ hholder' hbody' =>
      cases hchildParent.symm.trans hparent'
      cases hparent.symm.trans hholder'
      -- a type declaration is no body
      obtain ⟨outer, _, _, -, hofOuter, -⟩ := hbody'
      have hparts := Construct.partsOf hofOuter
      exact absurd hdeclKind (kind_notMem_of_partsOK (hparted.parts _ hdecl)
        (.inr (.inl (Place.role_of_child? hparts.2.2))))

end BindingInput

end Legible
