import Legible.Proofs.Binding.Ahead

/-!
# Where the steps of a rule stand

`Placed c R N steps` says of a program what the tree settles about it: it is run inside of the
regions `R`, it opens scopes for constructs of the tree only, and what it visits lies in the regions
that are open then. It uses up the numbers `N`, so when the numbers of a tree are distinct nothing
is visited or declared twice. `Linking` says for each name that is given a meaning which one of the
rules does it, and where the name stands.

`placed_steps` shows this of the program of every place that is no name in an expression; those are
looked up where they are visited. Which regions these are the tree says only where it is shaped.
-/

namespace Legible

open Binder Place

/-! ## Names and declarations in programs -/

def linkMeaning (key : String) (found : Found) (b : Binder) :
    Option Resolution × Option StaticType :=
  (some (b.target key found), none)

/-- The name at a place is given its meaning by one of the rules but that for names in
expressions. -/
inductive Linking (c : BindingInput) (R : List Region) :
    Place → (Binder → Option Resolution × Option StaticType) → Prop
  | keep (q : Place) : Linking c R q fun _ => (some .keep, none)
  | typeName {p q : Place} {first : Option Place} (hp : c.Has p)
      (hparts : typeNameParts? p = some (first, q)) :
      Linking c R q fun b => (typeMeaning c p b, none)
  | imported {p q : Place} {key : String} (hp : c.Has p)
      (hlast : (if p.kind == "scoped_identifier" then p.child? "name" else some p) = some q)
      (hkey : c.index.resolveType c.number none (c.unit.text p) = .known key) :
      Linking c R q (linkMeaning key .valid)
  | outerImported {p q : Place} {key : String} (hp : c.Has p)
      (hlast : (if p.kind == "scoped_identifier" then p.child? "name" else some p) = some q)
      (hkey : c.index.resolveType c.number none (c.unit.text p) = .external key) :
      Linking c R q (linkMeaning key .missing)
  | staticField {q : Place} {owner : String} {found : TypeInfo × FieldInfo}
      (hkey : c.index.findField? owner (c.unit.text q) = some found) :
      Linking c R q (linkMeaning found.2.key .valid)
  | staticMethod {p q : Place} {owner key : String} (hp : c.Has p) (hq : p.child? "name" = some q)
      (hkey : key ∈ methodKeys c owner (c.unit.text q)) : Linking c R q (linkMeaning key .valid)
  | missing {q : Place} (hq : q.NamesMember) (owner : String) :
      Linking c R q (linkMeaning (owner ++ "." ++ c.unit.text q) .missing)
  | typeDecl {p q body : Place} {kind : TypeKind} {key : String} (hp : c.Has p)
      (hof : Construct.of p = .typeDecl kind q body)
      (hkey : c.index.typeAt? c.number p = some key) :
      Linking c R q fun b => ((b.table.idOf? key).map .symbol, none)
  | member {q : Place} {key : String} (h : MemberName c R q key) :
      Linking c R q (linkMeaning key .valid)
  | constructorName {p q : Place} {params body : Option Place} (hp : c.At R p)
      (hof : Construct.of p = .method q params body true) :
      Linking c R q fun b => (some ((b.frames.head?.bind (·.symbol)).elim .keep .symbol), none)
  | superField (q : Place) : Linking c R q (superMeaning c (c.unit.text q))
  | access {p object q : Place} (hp : c.Has p) (hof : Construct.of p = .fieldAccess object q) :
      Linking c R q (accessMeaning c p object (c.unit.text q))
  | call {p q arguments : Place} {object : Option Place} (hp : c.Has p)
      (hof : Construct.of p = .methodCall object q arguments) :
      Linking c R q (callMeaning c object q arguments)
  | reference {p q : Place} (object : Place) (hp : c.Has p) (hq : q ∈ p.children)
      (hkind : q.kind = "identifier") :
      Linking c R q fun b => (some (referenceMeaning c object q b), none)

/-- The name at a place is given its meaning by one of the rules. -/
inductive Naming (c : BindingInput) (R : List Region) :
    Place → (Binder → Option Resolution × Option StaticType) → Prop
  | identifier {q : Place} (hof : Construct.of q = .identifier) : Naming c R q (nameMeaning c q)
  | linked {q : Place} {meaning : Binder → Option Resolution × Option StaticType}
      (h : Linking c R q meaning) : Naming c R q meaning

/-! ## Programs -/

/-- The program is run inside of the regions `R` and uses up the numbers `N`. -/
inductive Placed (c : BindingInput) : List Region → List Nat → List Step → Prop
  | nil {R : List Region} : Placed c R [] []
  | append {R : List Region} {N M : List Nat} {steps steps' : List Step} (h : Placed c R N steps)
      (h' : Placed c R M steps') : Placed c R (N ++ M) (steps ++ steps')
  | mono {R : List Region} {N M : List Nat} {steps : List Step} (h : Placed c R N steps)
      (hsub : N.Subperm M) : Placed c R M steps
  | visit {R : List Region} {q : Place} (hq : c.At R q) : Placed c R q.numbers [.visit q]
  | name {R : List Region} {q access : Place}
      {meaning : Binder → Option Resolution × Option StaticType} (hq : c.Has q)
      (h : Linking c R q meaning) : Placed c R [q.number] [.name q access meaning]
  /-- The name of a component that is visited with its declarator is linked after that. -/
  | again {R : List Region} {N : List Nat} {steps : List Step} {q : Place} {key : String}
      (h : Placed c R N steps) (hq : c.Has q) (hmem : q.number ∈ N) (hname : MemberName c R q key)
      (hkey : key.toList.getLast? ≠ some ')') : Placed c R N (steps ++ [.link q key .valid])
  | note {R : List Region} (p : Place) (type : Binder → Option StaticType) :
      Placed c R [] [.note p type]
  | declare {R : List Region} {owner : String} {s : Step} (h : Ahead c owner s) : Placed c R [] [s]
  | declareVariable {R : List Region} {N : List Nat} {q : Place} {kind : SymbolKind}
      {types : Binder → Option String × Option StaticType} {before : List Step}
      (h : Placed c R N before) (hq : c.At R q)
      (hname : q.node.isName = true ∨ c.unit.text q = "_") (hkind : kind.isVariable = true) :
      Placed c R (N ++ [q.number]) [.declareVariable q kind types before]
  | inScope {R : List Region} {N : List Nat} {p : Place} {kind : ScopeKind} {steps : List Step}
      (hp : c.Has p) (hcode : (Construct.of p).declaresType = false)
      (h : Placed c (⟨p, none⟩ :: R) N steps) :
      Placed c R (p.number :: N) [.inScope p kind steps]
  | inType {R : List Region} {N : List Nat} {p : Place} {key : String} {kind : ScopeKind}
      {frame : Binder → TypeFrame} {steps : List Step} (hp : c.Has p)
      (htype : (Construct.of p).declaresType = true)
      (hkey : c.index.typeAt? c.number p = some key) (hframe : ∀ b, (frame b).name = key)
      (hsymbol : ∀ b id, (frame b).symbol = some id → b.table.idOf? key = some id)
      (h : Placed c (⟨p, some key⟩ :: R) N steps) :
      Placed c R (p.number :: N) [.inScope p kind [.inFrame frame (aheadSteps c key p ++ steps)]]
  | inMember {R : List Region} {N : List Nat} {steps : List Step} {key : String}
      (hkey : IsMemberKey key) (h : Placed c R N steps) : Placed c R N [.inMember key steps]
  | inSwitch {R : List Region} {N : List Nat} {steps : List Step}
      (subject : Binder → Option StaticType) (h : Placed c R N steps) :
      Placed c R N [.inSwitch subject steps]
  | choose {R : List Region} {N : List Nat} {yes no : List Step} (text : String)
      (h : Placed c R N yes) (h' : Placed c R N no) :
      Placed c R N [.choose (knowsType c text) yes no]

namespace Placed

variable {c : BindingInput} {R : List Region} {N : List Nat} {p q : Place} {steps : List Step}

theorem idle : Placed c R N [] := .mono .nil List.nil_subperm

theorem cons {s : Step} {M : List Nat} (h : Placed c R N [s]) (h' : Placed c R M steps) :
    Placed c R (N ++ M) (s :: steps) := h.append h'

theorem andThen {steps' : List Step} (h : Placed c R N steps) (h' : Placed c R [] steps') :
    Placed c R N (steps ++ steps') := by
  simpa using h.append h'

theorem flatMap {α : Type} {f : α → List Step} (ns : α → List Nat) {xs : List α}
    (h : ∀ x ∈ xs, Placed c R (ns x) (f x)) : Placed c R (xs.flatMap ns) (xs.flatMap f) := by
  induction xs with
  | nil => exact .nil
  | cons x xs ih =>
    exact (h x (List.mem_cons_self ..)).append (ih fun y hy => h y (List.mem_cons_of_mem _ hy))

theorem map {α : Type} {f : α → Step} (ns : α → List Nat) {xs : List α}
    (h : ∀ x ∈ xs, Placed c R (ns x) [f x]) : Placed c R (xs.flatMap ns) (xs.map f) := by
  rw [List.map_eq_flatMap]
  exact flatMap ns h

theorem visits {qs : List Place} (h : ∀ q ∈ qs, c.At R q) :
    Placed c R (numbersOf qs) (qs.map .visit) :=
  map numbers fun q hq => .visit (h q hq)

theorem declareAll {owner : String} (h : ∀ s ∈ steps, Ahead c owner s) : Placed c R [] steps := by
  induction steps with
  | nil => exact .nil
  | cons s steps ih =>
    exact (declare (h s (List.mem_cons_self ..))).cons
      (ih fun s hs => h s (List.mem_cons_of_mem _ hs))

theorem ofParts (qs : List Place) (h : Placed c R (numbersOf qs) steps)
    (hqs : qs.Subperm p.children) : Placed c R p.numbers steps :=
  h.mono (numbersOf_subperm hqs)

theorem ofPartsIn (qs : List Place) (h : Placed c R (p.number :: numbersOf qs) steps)
    (hqs : qs.Subperm p.children) : Placed c R p.numbers steps := by
  rw [p.numbers_eq]
  exact h.mono ((List.subperm_cons p.number).mpr (numbersOf_subperm_of_subperm hqs))

/-- The same by counting how often each number is used up. -/
theorem ofCounts (qs : List Place) (h : Placed c R N steps) (hqs : qs.Subperm p.children)
    (hcount : ∀ n, N.count n ≤ (p.number :: numbersOf qs).count n) : Placed c R p.numbers steps :=
  .ofPartsIn qs (h.mono (List.subperm_ext_iff.mpr fun n _ => hcount n)) hqs

/-- A name is a number of its subtree. -/
theorem whole (h : Placed c R [p.number] steps) : Placed c R p.numbers steps :=
  h.mono p.singleton_subperm

theorem link {key : String} {found : Found} (hq : c.Has q)
    (h : Linking c R q (linkMeaning key found)) : Placed c R [q.number] [.link q key found] :=
  .name hq h

theorem keep (hq : c.Has q) : Placed c R [q.number] [.keep q] := .name hq (.keep q)

end Placed

end Legible
