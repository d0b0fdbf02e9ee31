import Legible.Proofs.Binding.ValidKeys
import Legible.Proofs.Dictionary.Histories

/-!
# Keys of declarations

Types, fields and methods share one space of keys: a declaration has the key of the type in whose
body it stands, and behind it a part of its own (`Declaration.tail`). A key can be taken apart again
(`append_tail_inj`), so two declarations have one key only if some two stand in the body of one type
with the same part of their own (`declaration_keys_distinct`).
-/

namespace Legible

variable {p body : Place} {tail : String} {kind : TypeKind}

/-! ## Tails -/

/-- What the key of a type has behind that of the type around it, up to its name. -/
inductive IsLabel (u : SourceUnit) : String → Prop
  | none : IsLabel u ""
  | member (p : Place) (hp : p ∈ u.root.places) : IsLabel u (u.memberKey "" p)

/-- What the key of a declaration has behind that of the type around it. -/
inductive IsTail (u : SourceUnit) : String → Prop
  | dotted {label name : String} (hlabel : IsLabel u label) (hname : isPlainName name = true) :
      IsTail u (label ++ "." ++ name)
  | call {name types : String} (hname : '.' ∉ name.toList) (htypes : '(' ∉ types.toList) :
      IsTail u (callKey "" name types)

section Tails

variable {u : SourceUnit} {owner owner' label label' tail' : String}

theorem callKey_append (owner name types : String) :
    callKey owner name types = owner ++ callKey "" name types := by
  rw [← String.toList_inj]
  simp [callKey]

theorem initializerKey_append (owner : String) (isStatic : Bool) :
    initializerKey owner isStatic = owner ++ initializerKey "" isStatic := by
  rw [← String.toList_inj]
  simp [initializerKey]

theorem memberKey_append (u : SourceUnit) (owner : String) (p : Place) :
    u.memberKey owner p = owner ++ u.memberKey "" p := by
  unfold SourceUnit.memberKey
  split
  case h_1 | h_2 => rw [methodKey_eq, methodKey_eq, ← callKey_append]
  all_goals exact initializerKey_append ..

/-- A member is a method with its parameter types, or the code outside of methods. -/
theorem memberKey_cases (hshaped : u.shapedOK = true)
    (hparams : ∀ p ∈ u.root.places, u.parameterOK p = true) (hp : p ∈ u.root.places) :
    (∃ name types, '.' ∉ name.toList ∧ '(' ∉ types.toList
        ∧ ∀ owner, u.memberKey owner p = callKey owner name types)
      ∨ ∃ isStatic, ∀ owner, u.memberKey owner p = initializerKey owner isStatic := by
  have hparts := Construct.partsOf_of p
  have hnot : ∀ k ∈ ["method_declaration", "constructor_declaration",
      "compact_constructor_declaration"], k ∉ qualifiedNameParents := by decide
  unfold SourceUnit.memberKey
  cases hof : Construct.of p with
  | method name params body isConstructor =>
    rw [hof] at hparts
    obtain ⟨hkind, -, hname, hchild⟩ := hparts
    refine .inl ⟨if isConstructor then "<init>" else u.text name,
      ",".intercalate (u.methodParameters p params), ?_, ?_, fun owner => methodKey_eq ..⟩
    · split
      · decide
      · exact notMem_of_isPlainName
          ((parted_of_shapedOK hshaped).isPlainName_name hp hname (hnot _ hkind)) rfl
    · exact Text.notMem_intercalate (by decide) fun type htype =>
        (notMem_methodParameters hparams hp hchild htype).1
  | elementDecl name =>
    rw [hof] at hparts
    have hplain := (parted_of_shapedOK hshaped).isPlainName_name hp hparts.2
      (by rw [hparts.1]; decide)
    exact .inl ⟨u.text name, "", notMem_of_isPlainName hplain rfl, by simp,
      fun owner => methodKey_eq ..⟩
  | initializer block isStatic => exact .inr ⟨isStatic, fun owner => rfl⟩
  | field type => exact .inr ⟨isStaticField p, fun owner => rfl⟩
  | _ => exact .inr ⟨false, fun owner => rfl⟩

theorem getLast?_initializerKey (owner : String) (isStatic : Bool) :
    (initializerKey owner isStatic).toList.getLast? = some '>' := by
  cases isStatic <;> simp [initializerKey]

theorem initializerKey_inj {isStatic isStatic' : Bool}
    (h : initializerKey owner isStatic = initializerKey owner' isStatic') :
    owner = owner' ∧ isStatic = isStatic' := by
  have hname : ∀ isStatic : Bool, '.' ∉ (if isStatic then "<clinit>" else "<init>").toList := by
    decide
  obtain ⟨howner, hkind⟩ := dotted_inj h (hname isStatic) (hname isStatic')
  refine ⟨howner, ?_⟩
  cases isStatic <;> cases isStatic' <;> first | rfl | exact absurd hkind (by decide)

/-- The key of a type and what follows it up to a name are determined. -/
theorem append_label_inj (hshaped : u.shapedOK = true)
    (hparams : ∀ p ∈ u.root.places, u.parameterOK p = true) (h : owner ++ label = owner' ++ label')
    (howner : ¬ IsMemberKey owner) (howner' : ¬ IsMemberKey owner') (hlabel : IsLabel u label)
    (hlabel' : IsLabel u label') : owner = owner' ∧ label = label' := by
  have hmember : ∀ owner p, IsMemberKey (owner ++ u.memberKey "" p) := fun owner p => by
    rw [← memberKey_append]
    exact isMemberKey_memberKey u owner p
  cases hlabel with
  | none =>
    cases hlabel' with
    | none => exact ⟨by simpa using h, rfl⟩
    | member p => exact absurd (by simpa [← h] using hmember owner' p) howner
  | member p hp =>
    cases hlabel' with
    | none => exact absurd (by simpa [h] using hmember owner p) howner'
    | member p' hp' =>
      rw [← memberKey_append, ← memberKey_append] at h
      rcases memberKey_cases hshaped hparams hp with
        ⟨name, types, hname, htypes, hkey⟩ | ⟨isStatic, hkey⟩ <;>
      rcases memberKey_cases hshaped hparams hp' with
        ⟨name', types', hname', htypes', hkey'⟩ | ⟨isStatic', hkey'⟩ <;>
      rw [hkey, hkey'] at h
      · obtain ⟨rfl, rfl, rfl⟩ := callKey_inj h hname hname' htypes htypes'
        exact ⟨rfl, by rw [hkey, hkey']⟩
      · have hlast := getLast?_callKey owner name types
        rw [h, getLast?_initializerKey] at hlast
        cases hlast
      · have hlast := getLast?_callKey owner' name' types'
        rw [← h, getLast?_initializerKey] at hlast
        cases hlast
      · obtain ⟨rfl, rfl⟩ := initializerKey_inj h
        exact ⟨rfl, by rw [hkey, hkey']⟩

theorem append_dotted (owner label name : String) :
    owner ++ (label ++ "." ++ name) = (owner ++ label) ++ "." ++ name := by
  rw [← String.toList_inj]
  simp

/-- The key of a declaration tells that of the type around it. -/
theorem append_tail_inj (hshaped : u.shapedOK = true)
    (hparams : ∀ p ∈ u.root.places, u.parameterOK p = true) (h : owner ++ tail = owner' ++ tail')
    (howner : ¬ IsMemberKey owner) (howner' : ¬ IsMemberKey owner') (htail : IsTail u tail)
    (htail' : IsTail u tail') : owner = owner' ∧ tail = tail' := by
  cases htail with
  | @dotted label name hlabel hname =>
    cases htail' with
    | @dotted label' name' hlabel' hname' =>
      rw [append_dotted, append_dotted] at h
      obtain ⟨hfront, rfl⟩ := dotted_inj h (notMem_of_isPlainName hname rfl)
        (notMem_of_isPlainName hname' rfl)
      obtain ⟨rfl, rfl⟩ :=
        append_label_inj hshaped hparams hfront howner howner' hlabel hlabel'
      exact ⟨rfl, rfl⟩
    | @call name' types' =>
      rw [append_dotted, ← callKey_append] at h
      exact absurd (h ▸ getLast?_callKey owner' name' types') (getLast?_append_ne _ hname)
  | @call name types hname htypes =>
    cases htail' with
    | @dotted label' name' hlabel' hname' =>
      rw [append_dotted, ← callKey_append] at h
      exact absurd (h ▸ getLast?_callKey owner name types) (getLast?_append_ne _ hname')
    | @call name' types' hname' htypes' =>
      rw [← callKey_append, ← callKey_append] at h
      obtain ⟨rfl, rfl, rfl⟩ := callKey_inj h hname hname' htypes htypes'
      exact ⟨rfl, rfl⟩

end Tails

/-! ## Keys of types -/

/-- What the key of the type named at `name`, which is declared at `p`, has of its own. -/
def SourceUnit.typeTail (u : SourceUnit) (p name : Place) : String :=
  match p.seat.owner with
  | none => u.text name
  | some _ => (p.seat.member.map (u.memberKey "")).getD "" ++ "." ++ u.text name

theorem mem_places_of_seat {root : Node} {q : Place} (hp : p ∈ root.places)
    (hq : p.seat.member = some q) : q ∈ root.places := by
  have hbelow : ∀ (above : List Node) (n : Node), (⟨n, above⟩ : Place) ∈ root.places →
      (Place.seatBelow above n).member = some q → q ∈ root.places := by
    intro above
    induction above with
    | nil =>
      intro n hn hmember
      unfold Place.seatBelow at hmember
      split at hmember <;> cases hmember
      exact hn
    | cons m above ih =>
      intro n hn hmember
      unfold Place.seatBelow at hmember
      split at hmember
      · cases hmember
      · split at hmember
        · cases hmember
          exact hn
        · exact ih m (Place.mem_places_of_parent? hn rfl).1 hmember
  obtain ⟨n, above⟩ := p
  cases above with
  | nil => cases hq
  | cons m above => exact hbelow above m (Place.mem_places_of_parent? hp rfl).1 hq

section Types

variable {units : List SourceUnit} {number : Nat} {u : SourceUnit} {p q : Place}
  {key owner : String}

section

variable (hu : units[number]? = some u) (hshaped : u.shapedOK = true) (hp : p ∈ u.root.places)
  (hkey : (Index.build units).typeAt? number p = some key)

include hu hshaped hp hkey

theorem not_isMemberKey_of_typeAt? : ¬ IsMemberKey key := by
  by_cases hnamed : ∃ kind name body, Construct.of p = .typeDecl kind name body
  · obtain ⟨kind, name, body, hof⟩ := hnamed
    have hplain := (parted_of_shapedOK hshaped).isPlainName_typeDecl hp hof
    have hparts := Construct.partsOf hof
    have hangle : '<' ∉ (u.text name).toList := by
      have hisName := (parted_of_shapedOK hshaped).isName_name hp hparts.2.1 (notMem_of_typeDecl hof)
      rcases hisName with hname | hname
      · have hid := (identifier_of_shapedOK hshaped (Place.mem_places_of_mem_children hp
          (Place.mem_children_of_child? hparts.2.1)) hname).2
        simp only [isIdentifierText, Bool.and_eq_true] at hid
        simpa using hid.1.2
      · rw [hname]
        decide
    rw [typeAt?_seat hu hshaped hp hof hkey]
    have hsimple := simpleName_declaredName u.imports
      (u.aroundAt ((Index.build units).typeAt? number) p.seat) (simpleName_of_isPlainName hplain)
    exact not_isMemberKey (hsimple.symm ▸ hplain) (hsimple.symm ▸ hangle)
  · obtain ⟨owner, n, -, rfl⟩ := typeAt?_unnamed hu hshaped hp
      (fun kind name body hof => hnamed ⟨kind, name, body, hof⟩) hkey
    have hplain := isPlainName_anonymous n
    have hsimple := simpleName_dotted owner hplain
    exact not_isMemberKey (hsimple.symm ▸ hplain)
      (hsimple.symm ▸ Text.notMem_append_number (by decide) rfl n)

/-- A type has the name of its package before its own, or the key of the type around it. -/
theorem typeAt?_cases :
    (∃ kind name body, Construct.of p = .typeDecl kind name body ∧ p.seat.owner = none
        ∧ key = u.imports.qualify (u.text name))
      ∨ ∃ q owner tail, p.seat.owner = some q ∧ q ∈ u.root.places
        ∧ (Index.build units).typeAt? number q = some owner ∧ key = owner ++ tail ∧ IsTail u tail
        ∧ (∀ kind name body, Construct.of p = .typeDecl kind name body → tail = u.typeTail p name)
        ∧ ((∀ kind name body, Construct.of p ≠ .typeDecl kind name body) →
          ∃ n : Nat, tail = "" ++ "." ++ ("$" ++ toString n)) := by
  by_cases hnamed : ∃ kind name body, Construct.of p = .typeDecl kind name body
  · obtain ⟨kind, name, body, hof⟩ := hnamed
    have hplain := (parted_of_shapedOK hshaped).isPlainName_typeDecl hp hof
    have heq := typeAt?_seat hu hshaped hp hof hkey
    cases howner : p.seat.owner with
    | none =>
      refine .inl ⟨kind, name, body, hof, rfl, ?_⟩
      simpa [SourceUnit.aroundAt, howner, Indexing.declaredName] using heq
    | some q =>
      obtain ⟨hq, owner, hq'⟩ := typeAt?_owner hu hshaped hp hkey howner
      refine .inr ⟨q, owner, u.typeTail p name, rfl, hq, hq', ?_, ?_, fun kind' name' body' hof' => ?_,
        fun hnone => absurd hof (hnone _ _ _)⟩
      · rw [heq]
        cases hmember : p.seat.member with
        | none =>
          simp [SourceUnit.aroundAt, howner, hq', hmember, Indexing.declaredName,
            SourceUnit.typeTail, String.append_assoc]
        | some m =>
          simp [SourceUnit.aroundAt, howner, hq', hmember, Indexing.declaredName,
            SourceUnit.typeTail, String.append_assoc, memberKey_append u owner]
      · simp only [SourceUnit.typeTail, howner]
        refine .dotted ?_ hplain
        cases hmember : p.seat.member with
        | none => exact .none
        | some m => exact .member m (mem_places_of_seat hp hmember)
      · cases hof.symm.trans hof'
        rfl
  · have hnone : ∀ kind name body, Construct.of p ≠ .typeDecl kind name body :=
      fun kind name body hof => hnamed ⟨kind, name, body, hof⟩
    obtain ⟨owner, n, howner, rfl⟩ := typeAt?_unnamed hu hshaped hp hnone hkey
    obtain ⟨q, hq, hq'⟩ := Option.bind_eq_some_iff.mp howner
    refine .inr ⟨q, owner, "" ++ "." ++ ("$" ++ toString n), hq,
      (typeAt?_owner hu hshaped hp hkey hq).1, hq', ?_, .dotted .none (isPlainName_anonymous n),
      fun kind name body hof => absurd hof (hnone _ _ _), fun _ => ⟨n, rfl⟩⟩
    simp [String.append_assoc]

end

theorem length_lt_append (htail : IsTail u tail) : owner.length < (owner ++ tail).length := by
  have hdot : ".".length = 1 := rfl
  rw [String.length_append]
  cases htail with
  | dotted =>
    simp only [String.length_append]
    omega
  | call =>
    simp only [callKey, String.length_append]
    omega

/-- The key of a type is longer than the name of its package. -/
theorem package_lt_length (hu : units[number]? = some u) (hshaped : u.shapedOK = true)
    (hp : p ∈ u.root.places) (hkey : (Index.build units).typeAt? number p = some key)
    (hpackage : u.imports.package ≠ "") : u.imports.package.length < key.length := by
  induction hlength : key.length using Nat.strongRecOn generalizing p key with
  | ind n ih =>
    subst hlength
    rcases typeAt?_cases hu hshaped hp hkey with
      ⟨kind, name, body, hof, -, rfl⟩ | ⟨q, owner, tail, -, hq, hq', rfl, htail, -⟩
    · have hempty : u.imports.package.isEmpty = false := by simpa using hpackage
      have hdot : ".".length = 1 := rfl
      simp only [Imports.qualify, hempty, Bool.false_eq_true, if_false, String.length_append]
      omega
    · have hlt : owner.length < (owner ++ tail).length := length_lt_append htail
      exact Nat.lt_trans (ih _ hlt hq hq' rfl) hlt

/-- What stands in a type has another key than a type of the package. -/
theorem qualify_ne_append (hu : units[number]? = some u) (hshaped : u.shapedOK = true)
    (hq : q ∈ u.root.places) {name : String}
    (hq' : (Index.build units).typeAt? number q = some owner) (hname : isPlainName name = true)
    (htail : IsTail u tail) : u.imports.qualify name ≠ owner ++ tail := by
  intro heq
  unfold Imports.qualify at heq
  split at heq
  · -- a type outside of all packages has a key without dots
    refine notMem_of_isPlainName hname (d := '.') rfl ?_
    rw [heq]
    cases htail with
    | dotted => simp
    | call => simp [callKey]
  · next hpackage =>
      have hlt := package_lt_length hu hshaped hq hq' (by simpa using hpackage)
      cases htail with
      | dotted hlabel hname' =>
        rw [append_dotted] at heq
        obtain ⟨hfront, -⟩ := dotted_inj heq (notMem_of_isPlainName hname rfl)
          (notMem_of_isPlainName hname' rfl)
        rw [hfront, String.length_append] at hlt
        omega
      | @call name' types' =>
        rw [← callKey_append] at heq
        exact absurd (heq ▸ getLast?_callKey owner name' types') (getLast?_append_ne _ hname)

end Types

/-! ## Declarations -/

/-- A type, field or method that is declared. -/
structure Declaration where
  key : String
  owner : Option Place
  tail : String

/-- Where a declaration stands, and what its key has of its own. -/
def Declaration.site (d : Declaration) : Option Nat × String := (d.owner.map Place.number, d.tail)

namespace BindingInput

/-- The type that is declared at `p` under the key, if it has a name, and its members. -/
def declarationsOf (c : BindingInput) (p : Place) (key : String) : List Declaration :=
  (match Construct.of p with
    | .typeDecl _ name _ => [⟨key, p.seat.owner, c.unit.typeTail p name⟩]
    | _ => [])
    ++ (c.unit.memberKeys "" p).map fun tail => ⟨key ++ tail, some p, tail⟩

/-- The types that a unit declares by name, and the fields, enum constants, record components and
methods of its types. -/
def declarations (c : BindingInput) : List Declaration :=
  c.unit.root.places.flatMap fun p =>
    (c.index.typeAt? c.number p).toList.flatMap (c.declarationsOf p)

end BindingInput

/-- Types are not named like those without a name, and the types of parameters hold no comment and
no parenthesis. -/
def SourceUnit.keysOK (u : SourceUnit) : Bool :=
  u.root.places.all fun p => u.parameterOK p &&
    match Construct.of p with
    | .typeDecl _ name _ => !isTypeNumber (u.text name)
    | _ => true

section Declarations

variable {u : SourceUnit}

theorem parameterOK_of_keysOK (h : u.keysOK = true) : ∀ p ∈ u.root.places, u.parameterOK p = true :=
  fun p hp => (Bool.and_eq_true_iff.mp (List.all_eq_true.mp h p hp)).1

theorem isTypeNumber_of_keysOK (h : u.keysOK = true) (hp : p ∈ u.root.places) {name : Place}
    (hof : Construct.of p = .typeDecl kind name body) : isTypeNumber (u.text name) = false := by
  have hok := (Bool.and_eq_true_iff.mp (List.all_eq_true.mp h p hp)).2
  rw [hof] at hok
  simpa using hok

theorem isTypeNumber_number (n : Nat) : isTypeNumber ("$" ++ toString n) = true := by
  have hdigits : ∀ d ∈ Nat.toDigits 10 n, d.isDigit = true := fun d hd =>
    Nat.isDigit_of_mem_toDigits (by decide) (by decide) hd
  simpa [isTypeNumber, toList_anonymous, Nat.toDigits_ne_nil] using hdigits

theorem memberKeys_eq_map (u : SourceUnit) (owner : String) (p : Place) :
    u.memberKeys owner p = (u.memberKeys "" p).map (owner ++ ·) := by
  have hat : ∀ q, u.memberKeysAt owner q = (u.memberKeysAt "" q).map (owner ++ ·) := by
    intro q
    unfold SourceUnit.memberKeysAt
    split <;> simp [String.append_assoc, Function.comp_def, ← memberKey_append u owner]
  have hcomponents : u.componentKeys owner p = (u.componentKeys "" p).map (owner ++ ·) := by
    unfold SourceUnit.componentKeys
    split <;> simp [String.append_assoc, Function.comp_def]
  rw [SourceUnit.memberKeys, SourceUnit.memberKeys, hcomponents, List.map_append, List.map_flatMap,
    funext hat]

variable (hshaped : u.shapedOK = true) (hparams : ∀ p ∈ u.root.places, u.parameterOK p = true)
  (hp : p ∈ u.root.places)

include hshaped hparams hp

theorem isTail_memberKey {name : Place} (hmethod : p.DeclaresMethod name) :
    IsTail u (u.memberKey "" p) := by
  rcases memberKey_cases hshaped hparams hp with ⟨name, types, hname, htypes, hkey⟩ | ⟨_, hkey⟩
  · rw [hkey]
    exact .call hname htypes
  · have hlast := getLast?_memberKey hmethod u ""
    rw [hkey, getLast?_initializerKey] at hlast
    cases hlast

theorem isTail_of_mem_memberKeysAt (htail : tail ∈ u.memberKeysAt "" p) : IsTail u tail := by
  have hparts := Construct.partsOf_of p
  unfold SourceUnit.memberKeysAt at htail
  split at htail
  · obtain ⟨⟨d, name⟩, hd, rfl⟩ := List.mem_map.mp htail
    obtain ⟨hmem, hkind, hname⟩ := declarators_mem hd
    exact .dotted .none ((parted_of_shapedOK hshaped).isPlainName_name
      (Place.mem_places_of_mem_children hp hmem) hname (by rw [hkind]; decide))
  · next hof =>
      rw [hof] at hparts
      rw [List.mem_singleton.mp htail]
      exact .dotted .none
        ((parted_of_shapedOK hshaped).isPlainName_name hp hparts.2.1 (by rw [hparts.1]; decide))
  · next hof =>
      rw [List.mem_singleton.mp htail]
      exact isTail_memberKey hshaped hparams hp (.inl ⟨_, _, hof⟩)
  · next hof =>
      rw [List.mem_singleton.mp htail]
      exact isTail_memberKey hshaped hparams hp (.inr hof)
  · cases htail

theorem isTail_of_mem_memberKeys (htail : tail ∈ u.memberKeys "" p) : IsTail u tail := by
  rcases List.mem_append.mp htail with htail | htail
  · unfold SourceUnit.componentKeys at htail
    split at htail
    · obtain ⟨name, hname, rfl⟩ := List.mem_map.mp htail
      obtain ⟨params, hchild, hname⟩ := List.mem_flatMap.mp hname
      obtain ⟨q, hq, rfl⟩ := List.mem_map.mp hname
      obtain ⟨param, hparam, hq⟩ := List.mem_filterMap.mp hq
      have hchild : p.child? "parameters" = some params := by simpa using hchild
      have hmem := Place.mem_children_of_mem_namedChildren hparam
      refine .dotted .none ((parted_of_shapedOK hshaped).isPlainName_parameter
        (Place.mem_places_of_mem_children (Place.mem_places_of_mem_children hp
          (Place.mem_children_of_child? hchild)) hmem) ?_ hq)
      exact inParameterList_of_mem hmem (.inl (Place.role_of_child? hchild))
    · cases htail
  · obtain ⟨q, hq, htail⟩ := List.mem_flatMap.mp htail
    exact isTail_of_mem_memberKeysAt hshaped hparams
      (Place.mem_places_of_mem_typeMembers hp hq) htail

end Declarations

/-! ## Declarations and their keys -/

/-- A declaration has the name of the package before its own part, or the key of its owner. -/
inductive Declaration.Stands (c : BindingInput) : Declaration → Prop
  | root {name : String} (hname : isPlainName name = true) :
      Stands c ⟨c.unit.imports.qualify name, none, name⟩
  | inside {q : Place} {owner tail : String} (hq : c.Has q)
      (howner : c.index.typeAt? c.number q = some owner) (htail : IsTail c.unit tail) :
      Stands c ⟨owner ++ tail, some q, tail⟩

section Sites

variable {units : List SourceUnit} {c : BindingInput} {q : Place} {key : String}
  {d d' : Declaration}

theorem stands_of_mem_declarations (hunits : ∀ u ∈ units, u.shapedOK = true)
    (hc : c ∈ inputs units) (hkeys : c.unit.keysOK = true) (hd : d ∈ c.declarations) :
    d.Stands c := by
  obtain ⟨hu, hindex⟩ := mem_inputs hc
  have hshaped := hunits _ (List.mem_of_getElem? hu)
  obtain ⟨p, hp, hd⟩ := List.mem_flatMap.mp hd
  obtain ⟨key, hkey, hd⟩ := List.mem_flatMap.mp hd
  have hkey : c.index.typeAt? c.number p = some key := by simpa using hkey
  rcases List.mem_append.mp hd with hd | hd
  · split at hd
    · next kind name body hof =>
        rw [List.mem_singleton.mp hd]
        have hcases := typeAt?_cases hu hshaped hp (hindex ▸ hkey)
        rw [← hindex] at hcases
        rcases hcases with ⟨kind', name', body', hof', hnone, rfl⟩
          | ⟨q, owner, tail, hsome, hq, hq', rfl, htail, hnamed, -⟩
        · cases hof.symm.trans hof'
          have htail : c.unit.typeTail p name = c.unit.text name := by
            simp [SourceUnit.typeTail, hnone]
          rw [hnone, htail]
          exact .root ((parted_of_shapedOK hshaped).isPlainName_typeDecl hp hof)
        · rw [hsome, ← hnamed kind name body hof]
          exact .inside hq hq' htail
    · cases hd
  · obtain ⟨tail, htail, rfl⟩ := List.mem_map.mp hd
    exact .inside hp hkey (isTail_of_mem_memberKeys hshaped (parameterOK_of_keysOK hkeys) hp htail)

/-- A type declared by name is a declaration. -/
theorem mem_declarations_of_typeDecl {name : Place}
    (hof : Construct.of p = .typeDecl kind name body)
    (hkey : c.index.typeAt? c.number p = some key) :
    ⟨key, p.seat.owner, c.unit.typeTail p name⟩ ∈ (c.index.typeAt? c.number p).toList.flatMap
      (c.declarationsOf p) := by
  simp [hkey, BindingInput.declarationsOf, hof]

/-- If no two declarations have one site, declarations of one site are at one place. -/
theorem place_eq_of_site_eq (hsites : (c.declarations.map (·.site)).Nodup) (hp : c.Has p)
    (hq : c.Has q) (hd : d ∈ (c.index.typeAt? c.number p).toList.flatMap (c.declarationsOf p))
    (hd' : d' ∈ (c.index.typeAt? c.number q).toList.flatMap (c.declarationsOf q))
    (hsite : d.site = d'.site) : p = q := by
  rw [BindingInput.declarations, List.map_flatMap] at hsites
  exact eq_of_nodup_flatMap hsites hp hq (List.mem_map_of_mem hd) (hsite ▸ List.mem_map_of_mem hd')

theorem qualify_inj {imports : Imports} {name name' : String}
    (h : imports.qualify name = imports.qualify name') (hname : isPlainName name = true)
    (hname' : isPlainName name' = true) : name = name' := by
  unfold Imports.qualify at h
  split at h
  · exact h
  · exact (dotted_inj h (notMem_of_isPlainName hname rfl) (notMem_of_isPlainName hname' rfl)).2

/-- A type that has a name does not have a number for it. -/
theorem typeTail_ne_number (hshaped : c.unit.shapedOK = true) (hkeys : c.unit.keysOK = true)
    (hp : c.Has p) {name : Place} (hof : Construct.of p = .typeDecl kind name body)
    (howner : p.seat.owner = some q) (n : Nat) :
    c.unit.typeTail p name ≠ "" ++ "." ++ ("$" ++ toString n) := by
  intro heq
  simp only [SourceUnit.typeTail, howner] at heq
  have hplain := (parted_of_shapedOK hshaped).isPlainName_typeDecl hp hof
  have hname := (dotted_inj heq (notMem_of_isPlainName hplain rfl)
    (notMem_of_isPlainName (isPlainName_anonymous n) rfl)).2
  have hnumber := isTypeNumber_of_keysOK hkeys hp hof
  rw [hname, isTypeNumber_number] at hnumber
  cases hnumber

section

variable (hunits : ∀ u ∈ units, u.shapedOK = true) (hc : c ∈ inputs units)
  (hkeys : c.unit.keysOK = true) (hsites : (c.declarations.map (·.site)).Nodup)

include hunits hc hkeys hsites

/-- If no two declarations have one site, a key belongs to one type. -/
theorem place_eq_of_typeAt?_eq (hp : c.Has p) (hq : c.Has q)
    (hp' : c.index.typeAt? c.number p = some key) (hq' : c.index.typeAt? c.number q = some key) :
    p = q := by
  obtain ⟨hu, hindex⟩ := mem_inputs hc
  have hshaped := hunits _ (List.mem_of_getElem? hu)
  induction hlength : key.length using Nat.strongRecOn generalizing p q key with
  | ind n ih =>
    subst hlength
    have hcases := typeAt?_cases hu hshaped hp (hindex ▸ hp')
    have hcases' := typeAt?_cases hu hshaped hq (hindex ▸ hq')
    rw [← hindex] at hcases hcases'
    rcases hcases with ⟨kind, name, body, hof, hnone, rfl⟩
      | ⟨a, owner, tail, hsome, ha, ha', rfl, htail, hnamed, hunnamed⟩
    · rcases hcases' with ⟨kind', name', body', hof', hnone', heq⟩
        | ⟨a, owner, tail, hsome, ha, ha', heq, htail, -⟩
      · have hname := qualify_inj heq ((parted_of_shapedOK hshaped).isPlainName_typeDecl hp hof)
          ((parted_of_shapedOK hshaped).isPlainName_typeDecl hq hof')
        refine place_eq_of_site_eq hsites hp hq (mem_declarations_of_typeDecl hof hp')
          (mem_declarations_of_typeDecl hof' hq') ?_
        simp [Declaration.site, SourceUnit.typeTail, hnone, hnone', hname]
      · exact absurd heq (qualify_ne_append hu hshaped ha (hindex ▸ ha')
          ((parted_of_shapedOK hshaped).isPlainName_typeDecl hp hof) htail)
    · rcases hcases' with ⟨kind', name', body', hof', -, heq⟩
        | ⟨a', owner', tail', hsome', ha₁, ha₁', heq, htail', hnamed', hunnamed'⟩
      · exact absurd heq.symm (qualify_ne_append hu hshaped ha (hindex ▸ ha')
          ((parted_of_shapedOK hshaped).isPlainName_typeDecl hq hof') htail)
      · have hmember := not_isMemberKey_of_typeAt? hu hshaped ha (hindex ▸ ha')
        have hmember' := not_isMemberKey_of_typeAt? hu hshaped ha₁ (hindex ▸ ha₁')
        obtain ⟨rfl, rfl⟩ := append_tail_inj hshaped (parameterOK_of_keysOK hkeys) heq hmember
          hmember' htail htail'
        -- the types around have a shorter key, so they are one type
        obtain rfl : a = a' := ih _ (length_lt_append htail) ha ha₁ ha' ha₁' rfl
        by_cases hpNamed : ∃ kind name body, Construct.of p = .typeDecl kind name body <;>
        by_cases hqNamed : ∃ kind name body, Construct.of q = .typeDecl kind name body
        · obtain ⟨kind, name, body, hof⟩ := hpNamed
          obtain ⟨kind', name', body', hof'⟩ := hqNamed
          refine place_eq_of_site_eq hsites hp hq (mem_declarations_of_typeDecl hof hp')
            (mem_declarations_of_typeDecl hof' hq') ?_
          simp [Declaration.site, ← hnamed _ _ _ hof, ← hnamed' _ _ _ hof', hsome, hsome']
        · obtain ⟨kind, name, body, hof⟩ := hpNamed
          obtain ⟨n, hn⟩ := hunnamed' fun kind name body h => hqNamed ⟨kind, name, body, h⟩
          exact absurd ((hnamed _ _ _ hof).symm.trans hn)
            (typeTail_ne_number hshaped hkeys hp hof hsome n)
        · obtain ⟨kind, name, body, hof⟩ := hqNamed
          obtain ⟨n, hn⟩ := hunnamed fun kind name body h => hpNamed ⟨kind, name, body, h⟩
          exact absurd ((hnamed' _ _ _ hof).symm.trans hn)
            (typeTail_ne_number hshaped hkeys hq hof hsome' n)
        · exact eq_of_typeAt?_unnamed hu hshaped hp hq
            (fun kind name body h => hpNamed ⟨kind, name, body, h⟩)
            (fun kind name body h => hqNamed ⟨kind, name, body, h⟩) (hindex ▸ hp') (hindex ▸ hq')

theorem site_eq_of_key_eq (hd : d.Stands c) (hd' : d'.Stands c) (heq : d.key = d'.key) :
    d.site = d'.site := by
  obtain ⟨hu, hindex⟩ := mem_inputs hc
  have hshaped := hunits _ (List.mem_of_getElem? hu)
  cases hd with
  | root hname =>
    cases hd' with
    | root hname' => rw [qualify_inj heq hname hname']
    | inside hq hq' htail =>
      exact absurd heq (qualify_ne_append hu hshaped hq (hindex ▸ hq') hname htail)
  | inside hp hp' htail =>
    cases hd' with
    | root hname' =>
      exact absurd heq.symm (qualify_ne_append hu hshaped hp (hindex ▸ hp') hname' htail)
    | inside hq hq' htail' =>
      obtain ⟨rfl, rfl⟩ := append_tail_inj hshaped (parameterOK_of_keysOK hkeys) heq
        (not_isMemberKey_of_typeAt? hu hshaped hp (hindex ▸ hp'))
        (not_isMemberKey_of_typeAt? hu hshaped hq (hindex ▸ hq')) htail htail'
      rw [place_eq_of_typeAt?_eq hunits hc hkeys hsites hp hq hp' hq']

end

theorem key_eq_of_site_eq (hshaped : c.unit.shapedOK = true) (hd : d.Stands c) (hd' : d'.Stands c)
    (heq : d.site = d'.site) : d.key = d'.key := by
  cases hd with
  | root =>
    cases hd' with
    | root => exact congrArg c.unit.imports.qualify (Prod.mk.inj heq).2
    | inside => cases (Prod.mk.inj heq).1
  | inside hp hp' =>
    cases hd' with
    | root => cases (Prod.mk.inj heq).1
    | inside hq hq' =>
      obtain ⟨howner, rfl⟩ := Prod.mk.inj heq
      cases (parted_of_shapedOK hshaped).eq_of_number_eq hp hq (by simpa using howner)
      cases hp'.symm.trans hq'
      rfl

/-- The symbols of declarations. -/
theorem hasKey_of_mem_declarations (hunits : ∀ u ∈ units, u.shapedOK = true)
    (hc : c ∈ inputs units) (hreaches : c.reachesTypes = true) (hd : d ∈ c.declarations) :
    (Binder.traverse c).table.HasKey d.key := by
  obtain ⟨hu, hindex⟩ := mem_inputs hc
  obtain ⟨hrooted, hnests⟩ := rooted_build hunits
  rw [← hindex] at hrooted hnests
  obtain ⟨p, hp, hd⟩ := List.mem_flatMap.mp hd
  obtain ⟨key, hkey, hd⟩ := List.mem_flatMap.mp hd
  have hkey : c.index.typeAt? c.number p = some key := by simpa using hkey
  obtain ⟨hself, hmembers⟩ := registers_of_reachesTypes (hunits _ (List.mem_of_getElem? hu)) hrooted
    hnests hreaches hp hkey hp key hkey
  rcases List.mem_append.mp hd with hd | hd
  · split at hd
    · next hof =>
        rw [List.mem_singleton.mp hd]
        exact hself _ _ _ hof
    · cases hd
  · obtain ⟨tail, htail, rfl⟩ := List.mem_map.mp hd
    refine hmembers _ ?_
    rw [memberKeys_eq_map]
    exact List.mem_map_of_mem htail

end Sites

/-- No two declarations of a unit have one key just if no two stand in the body of one type with the
same part of their own: the name of a field or of a member type, the name and parameter types of a
method, or the member that a local type stands in with the name of the type. Then each declaration
that the traversal reaches has a symbol, and a name that the dictionary gives to one declaration
changes no other. -/
theorem declaration_keys_distinct {units : List SourceUnit} (hunits : ∀ u ∈ units, u.shapedOK = true)
    {c : BindingInput} (hc : c ∈ inputs units) (hkeys : c.unit.keysOK = true) (e : Dictionary) :
    let t := Symbols.ofUnit e .preserve c
    ((c.declarations.map (·.key)).Nodup ↔ (c.declarations.map (·.site)).Nodup)
      ∧ (c.reachesTypes = true → ∀ d ∈ c.declarations, t.HasKey d.key)
      ∧ ((c.declarations.map (·.site)).Nodup → ∀ d ∈ c.declarations, ∀ d' ∈ c.declarations,
        d.site ≠ d'.site → ∀ id s, t.symbol? id = some s → s.key = d'.key →
          s.key ≠ d.key ∧ ∀ name,
            (Symbols.ofUnit (e.record d.key name) .preserve c).symbol? id = some s) := by
  intro t
  have hshaped := hunits _ (List.mem_of_getElem? (mem_inputs hc).1)
  have hstands : ∀ d ∈ c.declarations, d.Stands c :=
    fun d hd => stands_of_mem_declarations hunits hc hkeys hd
  refine ⟨⟨fun hnodup => ?_, fun hsites => ?_⟩, fun hreaches d hd => ?_,
    fun hsites d hd d' hd' hne id s hs hkey => ?_⟩
  · refine List.Nodup.map_on (fun d hd d' hd' heq => ?_) (List.Nodup.of_map _ hnodup)
    exact List.inj_on_of_nodup_map hnodup hd hd'
      (key_eq_of_site_eq hshaped (hstands d hd) (hstands d' hd') heq)
  · refine List.Nodup.map_on (fun d hd d' hd' heq => ?_) (List.Nodup.of_map _ hsites)
    exact List.inj_on_of_nodup_map hsites hd hd'
      (site_eq_of_key_eq hunits hc hkeys hsites (hstands d hd) (hstands d' hd') heq)
  · exact Symbols.hasKey_ofUnit e .preserve (hasKey_of_mem_declarations hunits hc hreaches hd)
  · have hother : s.key ≠ d.key := fun heq => hne
      (site_eq_of_key_eq hunits hc hkeys hsites (hstands d hd) (hstands d' hd') (heq.symm.trans hkey))
    refine ⟨hother, fun name => ?_⟩
    rw [Symbols.symbol?_ofUnit_preserve] at hs ⊢
    obtain ⟨s₀, hs₀, rfl⟩ := Option.map_eq_some_iff.mp hs
    rw [Symbols.key_nameByDictionary] at hother
    rw [hs₀, Option.map_some, Symbols.nameByDictionary, Dictionary.lookup?_record,
      if_neg hother.symm, ← Symbols.nameByDictionary]

/-- A class, a class in it and a class in its method, each with a field of one name. -/
def Sample.namesakes : SourceUnit where
  path := "A.java"
  source := "class A\x7bint x;void f()\x7bclass L\x7bint x;\x7d\x7dclass B\x7bint x;\x7d\x7d"
  root := open Sample in
    node 0 "program" 0 55 none [
     node 1 "class_declaration" 0 55 none [mark 2 "class" 0 5, name 3 6 7 "name",
      node 4 "class_body" 7 55 (some "body") [mark 5 "\x7b" 7 8,
       node 6 "field_declaration" 8 14 none [
        node 7 "integral_type" 8 11 (some "type") [mark 8 "int" 8 11],
        node 9 "variable_declarator" 12 13 (some "declarator") [name 10 12 13 "name"],
        mark 11 ";" 13 14],
       node 12 "method_declaration" 14 39 none [node 13 "void_type" 14 18 (some "type") [],
        name 14 19 20 "name",
        node 15 "formal_parameters" 20 22 (some "parameters") [mark 16 "(" 20 21,
         mark 17 ")" 21 22],
        node 18 "block" 22 39 (some "body") [mark 19 "\x7b" 22 23,
         node 20 "class_declaration" 23 38 none [mark 21 "class" 23 28, name 22 29 30 "name",
          node 23 "class_body" 30 38 (some "body") [mark 24 "\x7b" 30 31,
           node 25 "field_declaration" 31 37 none [
            node 26 "integral_type" 31 34 (some "type") [mark 27 "int" 31 34],
            node 28 "variable_declarator" 35 36 (some "declarator") [name 29 35 36 "name"],
            mark 30 ";" 36 37], mark 31 "\x7d" 37 38]], mark 32 "\x7d" 38 39]],
       node 33 "class_declaration" 39 54 none [mark 34 "class" 39 44, name 35 45 46 "name",
        node 36 "class_body" 46 54 (some "body") [mark 37 "\x7b" 46 47,
         node 38 "field_declaration" 47 53 none [
          node 39 "integral_type" 47 50 (some "type") [mark 40 "int" 47 50],
          node 41 "variable_declarator" 51 52 (some "declarator") [name 42 51 52 "name"],
          mark 43 ";" 52 53], mark 44 "\x7d" 53 54]], mark 45 "\x7d" 54 55]]]

/-- The fields have different keys. -/
theorem declaration_keys_distinct_namesakes :
    let c : BindingInput := ⟨Sample.namesakes, 0, Index.build [Sample.namesakes]⟩
    (∀ u ∈ [Sample.namesakes], u.shapedOK = true) ∧ c ∈ inputs [Sample.namesakes]
      ∧ c.unit.keysOK = true ∧ c.reachesTypes = true
      ∧ c.declarations.map (·.key) = ["A", "A.x", "A.f()", "A.f().L", "A.f().L.x", "A.B", "A.B.x"]
      ∧ (c.declarations.map (·.key)).Nodup
      ∧ ∀ d ∈ c.declarations, (Symbols.ofUnit .empty .preserve c).HasKey d.key := by
  intro c
  have hunits : ∀ u ∈ [Sample.namesakes], u.shapedOK = true := by decide +kernel
  have hc : c ∈ inputs [Sample.namesakes] := mem_inputs_of_getElem? rfl
  have hkeys : c.unit.keysOK = true := by decide +kernel
  have hreaches : c.reachesTypes = true := by decide +kernel
  have hsites : (c.declarations.map (·.site)).Nodup := by decide +kernel
  obtain ⟨hnodup, hsymbols, -⟩ := declaration_keys_distinct hunits hc hkeys .empty
  exact ⟨hunits, hc, hkeys, hreaches, by decide +kernel, hnodup.mpr hsites, hsymbols hreaches⟩

/-- A class with a field and a class of one name. -/
def Sample.homonyms : SourceUnit where
  path := "A.java"
  source := "class A\x7bint B;class B\x7b\x7d\x7d"
  root := open Sample in
    node 0 "program" 0 24 none [
     node 1 "class_declaration" 0 24 none [mark 2 "class" 0 5, name 3 6 7 "name",
      node 4 "class_body" 7 24 (some "body") [mark 5 "\x7b" 7 8,
       node 6 "field_declaration" 8 14 none [
        node 7 "integral_type" 8 11 (some "type") [mark 8 "int" 8 11],
        node 9 "variable_declarator" 12 13 (some "declarator") [name 10 12 13 "name"],
        mark 11 ";" 13 14],
       node 12 "class_declaration" 14 23 none [mark 13 "class" 14 19, name 14 20 21 "name",
        node 15 "class_body" 21 23 (some "body") [mark 16 "\x7b" 21 22, mark 17 "\x7d" 22 23]],
       mark 18 "\x7d" 23 24]]]

/-- The field and the class have one key, so that both are renamed together. -/
theorem field_and_class_renamed :
    let c : BindingInput := ⟨Sample.homonyms, 0, Index.build [Sample.homonyms]⟩
    let d := Dictionary.empty.record "A.B" (some "Count")
    Sample.homonyms.shapedOK = true ∧ Sample.homonyms.keysOK = true
      ∧ c.declarations.map (·.key) = ["A", "A.B", "A.B"]
      ∧ ∃ p ∈ Sample.homonyms.root.places, ∃ q ∈ Sample.homonyms.root.places,
        p.parentKind? = some "variable_declarator" ∧ q.parentKind? = some "class_declaration"
          ∧ (Symbols.ofUnit d .preserve c).replacement? d p = some "Count"
          ∧ (Symbols.ofUnit d .preserve c).replacement? d q = some "Count" := by
  decide +kernel

end Legible
