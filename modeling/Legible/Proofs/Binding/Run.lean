import Legible.Proofs.Binding.Standing
import Legible.Proofs.Index.Lookup

/-!
# What a traversal does

A traversal changes the state in few ways: it gives names their resolutions, declares types,
members and variables, notes static types, and does all this inside of scopes, members, types and
switches that it leaves again. `Run c N b b'` says that `b'` comes from `b` by such steps, and
nothing else, and that no name outside of the numbers `N` was touched. The steps say where a key or
a symbol comes from (`Means`, `Resolves`), not whether that is right: what follows from them is
shown once for each step and carried along every run by induction.

`N` is a list of numbers that a run uses up. Runs in sequence use both lists, and `Run.mono` lets a
list grow into one that holds it with its multiplicities. So when the numbers of a tree are
distinct, no two parts of a traversal touch the same name.
-/

namespace Legible

variable {c : BindingInput} {b b' : Binder} {s : Symbol} {N : List Nat}

namespace Binder

/-- The name is that of a type in scope, which has the key. -/
def Bound (b : Binder) (name key : String) : Prop :=
  ∃ scope id, b.table.scopes.lookup? b.scope .type name = some (scope, .symbol id)
    ∧ key = b.keyOfSymbol id

/-- What a text means as a type: what is in scope under its first name and what that leads to, or
else what the index says. -/
theorem lookupType?_cases {text : String} {ref : TypeRef} (h : b.lookupType? c text = some ref) :
    (∃ key, ref = .known key ∧ c.index.Leads c.number b.Bound (Text.trim text) key)
      ∨ (∃ key, ref = .external key ∧ c.index.Outside c.number (Text.trim text) key)
      ∨ ref = .primitive (Text.trim text) := by
  simp only [lookupType?] at h
  split at h
  · cases h
  · next scope id hlookup =>
      split at h
      · next key hkey =>
          cases h
          refine .inl ⟨key, rfl, ?_⟩
          cases hsplit : Text.splitFirst (Text.trim text) with
          | none =>
            rw [hsplit] at hlookup hkey
            cases hkey
            exact .bound ⟨scope, id, hlookup, rfl⟩
          | some parts =>
            rw [hsplit] at hlookup hkey
            rw [(Text.splitFirst_eq_some hsplit).1, ← Text.behind_segments]
            exact Index.leads_of_descend? (.bound ⟨scope, id, hlookup, rfl⟩) hkey
      · cases h
        exact .inr (.inl ⟨_, rfl, .written _⟩)
  · rw [← Option.some.inj h]
    have hcases := Index.resolveWith_cases b.Bound c.index c.number b.innermost? (Text.trim text) true
    rwa [Text.trim_trim] at hcases

end Binder

open Binder

/-! ## Where keys come from -/

/-- The place has a name in an expression, of a field, or at the end of an import. -/
def Place.NamesMember (p : Place) : Prop :=
  Construct.of p = .identifier ∨ p.role = some "field" ∨ p.role = some "name"

/-- A type of that name is declared in the unit. -/
def BindingInput.NamesType (c : BindingInput) (text : String) : Prop :=
  ∃ decl kind name body, c.Has decl ∧ Construct.of decl = .typeDecl kind name body
    ∧ text = c.unit.text name

/-- At `q` stands the name of a member with that key: a component of a record, or a member of the
innermost type of the regions `R`. -/
inductive MemberName (c : BindingInput) (R : List Region) : Place → String → Prop
  | component {p params param q body name : Place} {key : String} (hp : c.Has p)
      (hof : Construct.of p = .typeDecl .recordType name body)
      (hkey : c.index.typeAt? c.number p = some key)
      (hparams : c.unit.shapedOK = true → p.child? "parameters" = some params)
      (hparam : param ∈ params.namedChildren) (hq : param.declaredName? = some q) :
      MemberName c R q (key ++ "." ++ c.unit.text q)
  | field {p d q type : Place} (hp : c.At R p) (hof : Construct.of p = .field type)
      (hd : (d, q) ∈ p.declarators) :
      MemberName c R q ((innermostType? R).getD "" ++ "." ++ c.unit.text q)
  | constant {p q : Place} {body : Option Place} (hp : c.At R p)
      (hof : Construct.of p = .enumConstant q body) :
      MemberName c R q ((innermostType? R).getD "" ++ "." ++ c.unit.text q)
  | method {p q : Place} {owner : String} (hp : c.At R p) (hof : p.DeclaresMethod q)
      (howner : innermostType? R = some owner) : MemberName c R q (c.unit.memberKey owner p)

/-- In the state `b` the name at a place stands for what the key identifies. -/
inductive Means (c : BindingInput) (b : Binder) : Place → String → Found → Prop
  | typeName {p last : Place} {first : Option Place} {key : String} (hp : c.Has p)
      (hparts : typeNameParts? p = some (first, last))
      (hkey : b.lookupType? c (c.unit.typeText p) = some (.known key)) : Means c b last key .valid
  | outerTypeName {p last : Place} {first : Option Place} {key : String} (hp : c.Has p)
      (hparts : typeNameParts? p = some (first, last))
      (hkey : b.lookupType? c (c.unit.typeText p) = some (.external key)) :
      Means c b last key .missing
  | importedName {p last : Place} {key : String} (hp : c.Has p)
      (hlast : (if p.kind == "scoped_identifier" then p.child? "name" else some p) = some last)
      (hkey : c.index.resolveType c.number none (c.unit.text p) = .known key) :
      Means c b last key .valid
  | outerImportedName {p last : Place} {key : String} (hp : c.Has p)
      (hlast : (if p.kind == "scoped_identifier" then p.child? "name" else some p) = some last)
      (hkey : c.index.resolveType c.number none (c.unit.text p) = .external key) :
      Means c b last key .missing
  | field {p : Place} {owner : String} {info : TypeInfo} {f : FieldInfo}
      (h : c.index.findField? owner (c.unit.text p) = some (info, f)) : Means c b p f.key .valid
  | method {p : Place} {owner : String} {info : TypeInfo} {m : MethodInfo}
      (hinfo : info ∈ c.index.hierarchy owner) (hm : m ∈ info.methods)
      (hname : m.name = c.unit.text p) : Means c b p m.key .valid
  | scopedMethod {p : Place} {scope : ScopeId} {id : SymbolId}
      (h : (scope, .symbol id) ∈ b.table.scopes.lookupAll b.scope .method (c.unit.text p)) :
      Means c b p (b.keyOfSymbol id) .valid
  | memberType {p : Place} {owner key : String}
      (h : c.index.findMemberType? owner (c.unit.text p) = some key) : Means c b p key .valid
  | simpleType {p : Place} {key : String}
      (h : b.lookupType? c (c.unit.text p) = some (.known key)) : Means c b p key .valid
  | outerSimpleType {p : Place} {key : String}
      (h : b.lookupType? c (c.unit.text p) = some (.external key)) : Means c b p key .missing
  | qualifiedType {p field : Place} {key : String} (hp : c.Has p) (hkind : p.kind = "field_access")
      (hfield : p.child? "field" = some field) (hname : field.kind = "identifier")
      (hkey : b.lookupType? c (c.unit.typeText p) = some (.known key)) : Means c b field key .valid
  | caseLabel {p : Place} {owner : String} (h : owner ∈ c.index.enumsWith (c.unit.text p)) :
      Means c b p (owner ++ "." ++ c.unit.text p) .valid
  | declared {p : Place} {R : List Region} {key : String} (h : MemberName c R p key) :
      Means c b p key .valid
  | missingMember {p : Place} (hp : p.NamesMember) (owner : String) :
      Means c b p (owner ++ "." ++ c.unit.text p) .missing
  | missingMethod (p : Place) (owner : String) (count : Nat) :
      Means c b p (methodKey owner (c.unit.text p) (List.replicate count "?")) .missing

/-- In the state `b` the name at a place gets the resolution. -/
inductive Resolves (c : BindingInput) (b : Binder) : Place → Resolution → Prop
  | keep (p : Place) : Resolves c b p .keep
  | value {p : Place} {scope : ScopeId} {id : SymbolId}
      (h : b.table.scopes.lookup? b.scope .value (c.unit.text p) = some (scope, .symbol id)) :
      Resolves c b p (.symbol id)
  | linked {p : Place} {key : String} {found : Found} (h : Means c b p key found) :
      Resolves c b p (b.target key found)
  | typeName {decl name body : Place} {kind : TypeKind} {key : String} {id : SymbolId}
      (hdecl : c.Has decl) (hof : Construct.of decl = .typeDecl kind name body)
      (hkey : c.index.typeAt? c.number decl = some key) (hid : b.table.idOf? key = some id) :
      Resolves c b name (.symbol id)
  /-- A variable at its declaration, under whatever key it has in its member. -/
  | variableName {p : Place} {s : Symbol} {id : SymbolId} (kind : SymbolKind)
      (hs : b.table.symbol? id = some s) (member : Binder)
      (hkey : s.key = member.variableKey kind (c.unit.text p))
      (hname : p.node.isName = true) : Resolves c b p (.symbol id)
  /-- A constructor is named by the innermost type, which is the one that it stands in. -/
  | constructorName {p name : Place} {params body : Option Place} {id : SymbolId} (hp : c.Has p)
      (hof : Construct.of p = .method name params body true)
      (hid : b.frames.head?.bind (·.symbol) = some id)
      (hplaced : ∀ key, c.InBody p key → ∃ s, b.table.symbol? id = some s ∧ s.key = key) :
      Resolves c b name (.symbol id)

inductive MemberKey (c : BindingInput) : Place → String → Prop
  | field {p : Place} (owner : String) (hname : isPlainName (c.unit.text p) = true) :
      MemberKey c p (owner ++ "." ++ c.unit.text p)
  | method {p name : Place} (owner : String) (hp : c.Has p) (hof : p.DeclaresMethod name) :
      MemberKey c name (c.unit.memberKey owner p)

/-! ## Runs -/

/-- The state `b'` comes from `b` by the steps of a traversal that touches the numbers `N` only. -/
inductive Run (c : BindingInput) : List Nat → Binder → Binder → Prop
  | refl (b : Binder) : Run c [] b b
  | trans {N M : List Nat} {b b₁ b₂ : Binder} (h : Run c N b b₁) (h' : Run c M b₁ b₂) :
      Run c (N ++ M) b b₂
  | mono {N M : List Nat} {b b' : Binder} (h : Run c N b b') (hsub : N.Subperm M) :
      Run c M b b'
  | resolve {N : List Nat} {b b' : Binder} {p : Place} {r : Resolution} (h : Run c N b b')
      (hp : c.Has p) (hmem : p.number ∈ N) (hr : Resolves c b' p r) : Run c N b (b'.resolve p r)
  | declareType {b : Binder} {decl name body : Place} {kind : TypeKind} {key : String}
      (hdecl : c.Has decl) (hof : Construct.of decl = .typeDecl kind name body)
      (hkey : c.index.typeAt? c.number decl = some key) :
      Run c [] b (b.declareType key (c.unit.text name)).1
  | declareMember {b : Binder} {p : Place} {key : String} {space : Namespace} {kind : SymbolKind}
      (type : Option String) (hspace : space ≠ .type) (hkind : kind.isVariable = false)
      (hkey : MemberKey c p key) :
      Run c [] b (b.declareMember space kind key (c.unit.text p) type).1
  | bindAccessor {b : Binder} {p : Place} {owner : String} {id : SymbolId}
      (hname : isPlainName (c.unit.text p) = true)
      (hid : b.table.idOf? (owner ++ "." ++ c.unit.text p) = some id) :
      Run c [] b (b.bind .method (c.unit.text p) (.symbol id))
  | bindTypeVariable (b : Binder) (name : String) : Run c [] b (b.bind .type name .typeVariable)
  | declareVariable {b : Binder} {p : Place} {kind : SymbolKind} (declaredType : Option String)
      (type : Option StaticType) (hp : c.Has p) (hkind : kind.isVariable = true)
      (hname : p.node.isName = true ∨ c.unit.text p = "_") :
      Run c [p.number] b (b.declareVariable c p kind declaredType type)
  | note (b : Binder) (types : Std.TreeMap Nat StaticType)
      (symbolTypes : Std.TreeMap SymbolId StaticType) (arities : Std.TreeMap SymbolId Arity) :
      Run c [] b { b with types, symbolTypes, arities }
  | inScope {N : List Nat} {b b' : Binder} (kind : ScopeKind) (h : Run c N (b.openScope kind) b') :
      Run c N b (b'.closeScope b.scope)
  | inMember {N : List Nat} {b b' : Binder} (key : String)
      (h : Run c N { b with members := key :: b.members } b') :
      Run c N b { b' with members := b'.members.tail }
  | inFrame {N : List Nat} {b b' : Binder} (frame : TypeFrame)
      (h : Run c N { b with frames := frame :: b.frames } b') :
      Run c N b { b' with frames := b'.frames.tail }
  | inSwitch {N : List Nat} {b b' : Binder} (subject : Option StaticType)
      (h : Run c N { b with switches := subject :: b.switches } b') :
      Run c N b { b' with switches := b'.switches.tail }

/-! ## What the steps do to the table -/

namespace Symbols

variable {t : Symbols} {id : SymbolId} {key : String} {s' : Symbol}

def define (t : Symbols) (scope : ScopeId) (d : Definition) : Symbols :=
  { t with scopes := t.scopes.define scope d }

theorem exists_symbol?_of_idOf? (h : t.idOf? key = some id) :
    ∃ s, t.symbol? id = some s ∧ s.key = key := by
  obtain ⟨hlt, hkey, _⟩ := Array.findIdx?_eq_some_iff_getElem.mp h
  exact ⟨t.symbols[id], Array.getElem?_eq_getElem hlt, by simpa using hkey⟩

theorem symbol?_lt (h : t.symbol? id = some s) : id < t.symbols.size :=
  (Array.getElem?_eq_some_iff.mp h).1

/-- A symbol whose key the table has is the symbol of that key; any other is added at the end. -/
theorem add_cases (t : Symbols) (s : Symbol) :
    (∃ id, t.idOf? s.key = some id ∧ t.add s = (t, id))
      ∨ (t.idOf? s.key = none
        ∧ t.add s = ({ t with symbols := t.symbols.push s }, t.symbols.size)) := by
  cases hid : t.idOf? s.key with
  | some id => exact .inl ⟨id, rfl, by simp [add, hid]⟩
  | none => exact .inr ⟨rfl, by simp [add, hid]⟩

theorem scopes_add (t : Symbols) (s : Symbol) : (t.add s).1.scopes = t.scopes := by
  unfold add
  split <;> rfl

theorem resolution?_add (t : Symbols) (s : Symbol) (p : Place) :
    (t.add s).1.resolution? p = t.resolution? p := by
  unfold add
  split <;> rfl

theorem symbol?_push (t : Symbols) (s : Symbol) (id : SymbolId) :
    ({ t with symbols := t.symbols.push s } : Symbols).symbol? id
      = if id = t.symbols.size then some s else t.symbol? id := by
  simp only [symbol?, Array.getElem?_push]

theorem symbol?_add (h : (t.add s).1.symbol? id = some s') :
    t.symbol? id = some s' ∨ id = (t.add s).2 ∧ s' = s := by
  rcases add_cases t s with ⟨_, _, heq⟩ | ⟨_, heq⟩
  · rw [heq] at h
    exact .inl h
  · rw [heq, symbol?_push] at h
    split at h
    · next hid => exact .inr ⟨by rw [heq, hid], (Option.some.inj h).symm⟩
    · exact .inl h

theorem symbol?_add_of_symbol? (s : Symbol) (h : t.symbol? id = some s') :
    (t.add s).1.symbol? id = some s' := by
  rcases add_cases t s with ⟨_, _, heq⟩ | ⟨_, heq⟩
  · rw [heq]
    exact h
  · rw [heq, symbol?_push, if_neg (Nat.ne_of_lt (symbol?_lt h))]
    exact h

theorem idOf?_add (t : Symbols) (s : Symbol) : (t.add s).1.idOf? s.key = some (t.add s).2 := by
  rcases t.add_cases s with ⟨id, hid, heq⟩ | ⟨hid, heq⟩
  · rw [heq]
    exact hid
  · rw [heq]
    simp only [idOf?] at hid ⊢
    simp [Array.findIdx?_push, hid]

theorem idOf?_mono {t' : Symbols}
    (hsymbols : ∀ id s, t.symbol? id = some s → t'.symbol? id = some s)
    (h : t.idOf? key = some id) : t'.idOf? key = some id := by
  rw [idOf?, Array.findIdx?_eq_some_iff_getElem] at h ⊢
  obtain ⟨hlt, hkey, hbefore⟩ := h
  have hget : ∀ j (hj : j < t.symbols.size), ∃ hj' : j < t'.symbols.size,
      t'.symbols[j] = t.symbols[j] := by
    intro j hj
    have hs := hsymbols j t.symbols[j] (by rw [symbol?, Array.getElem?_eq_getElem hj])
    exact Array.getElem?_eq_some_iff.mp hs
  obtain ⟨hlt', heq⟩ := hget id hlt
  refine ⟨hlt', by rwa [heq], fun j hj => ?_⟩
  obtain ⟨hj', heq⟩ := hget j (Nat.lt_trans hj hlt)
  rw [heq]
  exact hbefore j hj

/-- The number that a symbol is added under is that of a symbol of the same key: itself, or one
that was there before. -/
theorem exists_symbol?_add (t : Symbols) (s : Symbol) :
    ∃ s', (t.add s).1.symbol? (t.add s).2 = some s' ∧ s'.key = s.key
      ∧ (s' = s ∨ t.symbol? (t.add s).2 = some s') := by
  rcases add_cases t s with ⟨id, hid, heq⟩ | ⟨_, heq⟩
  · obtain ⟨s', hs', hkey⟩ := exists_symbol?_of_idOf? hid
    rw [heq]
    exact ⟨s', hs', hkey, .inr hs'⟩
  · rw [heq]
    exact ⟨s, by rw [symbol?_push, if_pos rfl], rfl, .inl rfl⟩

end Symbols

inductive Declares (c : BindingInput) (b : Binder) (s : Symbol) : Prop
  | type {decl name body : Place} {kind : TypeKind} (hdecl : c.Has decl)
      (hof : Construct.of decl = .typeDecl kind name body)
      (hkey : c.index.typeAt? c.number decl = some s.key) (hkind : s.kind = .type)
      (hname : s.declaredName = c.unit.text name)
  | member {p : Place} (hkey : MemberKey c p s.key) (hkind : s.kind.isVariable = false)
      (hname : s.declaredName = c.unit.text p)
  | varName {p : Place} (hp : c.Has p) (hname : p.node.isName = true)
      (hkey : s.key = b.variableKey s.kind (c.unit.text p)) (hkind : s.kind.isVariable = true)
      (hdeclared : s.declaredName = c.unit.text p)

namespace Binder

/-- The table with a symbol declared in the innermost scope. -/
def declared (b : Binder) (space : Namespace) (s : Symbol) : Symbols :=
  (b.table.add s).1.define b.scope ⟨space, s.declaredName, .symbol (b.table.add s).2⟩

/-- A type is declared once for its key. -/
theorem declareType_cases (b : Binder) (key name : String) :
    (∃ id, b.table.idOf? key = some id ∧ b.declareType key name = (b, id))
      ∨ (b.declareType key name).1
          = { b with table := b.declared .type { key, kind := .type, declaredName := name } } := by
  unfold declareType
  split
  · next id hid => exact .inl ⟨id, hid, rfl⟩
  · exact .inr rfl

theorem idOf?_declareType (b : Binder) (key name : String) :
    (b.declareType key name).1.table.idOf? key = some (b.declareType key name).2 := by
  unfold declareType
  split
  · next hid => exact hid
  · exact b.table.idOf?_add { key, kind := .type, declaredName := name }

theorem idOf?_declareMember (b : Binder) (space : Namespace) (kind : SymbolKind)
    (key name : String) (type : Option String) :
    (b.declareMember space kind key name type).1.table.idOf? key
      = some (b.declareMember space kind key name type).2 :=
  b.table.idOf?_add { key, kind, declaredName := name, declaredType := type }

/-- The name `_` declares nothing; any other is declared and resolved to its symbol. -/
theorem declareVariable_cases (c : BindingInput) (p : Place) (kind : SymbolKind)
    (declaredType : Option String) (type : Option StaticType) (b : Binder) :
    (c.unit.text p = "_" ∧ b.declareVariable c p kind declaredType type = b.resolve p .keep)
      ∨ (c.unit.text p ≠ "_"
        ∧ ∃ s : Symbol, s.key = b.variableKey kind (c.unit.text p) ∧ s.kind = kind
          ∧ s.declaredName = c.unit.text p ∧ s.chosenName = none
          ∧ (b.declareVariable c p kind declaredType type).table
            = (b.declared .value s).resolve p (.symbol (b.table.add s).2)
          ∧ (b.declareVariable c p kind declaredType type).frames = b.frames
          ∧ (b.declareVariable c p kind declaredType type).scope = b.scope) := by
  by_cases hname : c.unit.text p = "_"
  · exact .inl ⟨hname, by simp [declareVariable, hname]⟩
  · let s : Symbol :=
      { key := b.variableKey kind (c.unit.text p), kind := kind,
        declaredName := c.unit.text p, declaredType := declaredType }
    refine .inr ⟨hname, s, rfl, rfl, rfl, rfl, ?_⟩
    have hne : (c.unit.text p == "_") = false := by simpa using hname
    simp only [declareVariable, hne, Bool.false_eq_true, if_false]
    by_cases hkind : kind = .parameter
    · rw [if_pos hkind]
      cases type <;> exact ⟨rfl, rfl, rfl⟩
    · rw [if_neg hkind]
      cases type <;> exact ⟨rfl, rfl, rfl⟩

end Binder

/-- What every step keeps of the table is kept by every run. -/
theorem Run.keeps {I : Symbols → Prop}
    (hresolve : ∀ (b : Binder) p r, c.Has p → Resolves c b p r → I b.table →
      I (b.table.resolve p r)) (hdeclare : ∀ (b : Binder) space s, Declares c b s →
      (space = .type → c.NamesType s.declaredName) → I b.table → I (b.declared space s))
    (haccessor : ∀ (b : Binder) (p : Place) owner id,
      isPlainName (c.unit.text p) = true →
      b.table.idOf? (owner ++ "." ++ c.unit.text p) = some id → I b.table →
      I (b.table.define b.scope ⟨.method, c.unit.text p, .symbol id⟩))
    (htypeVariable : ∀ (b : Binder) name, I b.table →
      I (b.table.define b.scope ⟨.type, name, .typeVariable⟩))
    (hopen : ∀ (b : Binder) kind, I b.table →
      I { b.table with scopes := b.table.scopes.openIn b.scope kind })
    (hclose : ∀ (b : Binder), I b.table →
      I { b.table with scopes := b.table.scopes.close b.scope }) (h : Run c N b b')
    (hb : I b.table) : I b'.table := by
  induction h with
  | refl => exact hb
  | trans _ _ ih ih' => exact ih' (ih hb)
  | mono _ _ ih => exact ih hb
  | resolve _ hp _ hr ih => exact hresolve _ _ _ hp hr (ih hb)
  | @declareType b _ name _ _ key hdecl hof hkey =>
    rcases b.declareType_cases key (c.unit.text name) with ⟨_, _, heq⟩ | heq
    · rw [heq]
      exact hb
    · rw [heq]
      exact hdeclare b .type _ (.type hdecl hof hkey rfl rfl)
        (fun _ => ⟨_, _, name, _, hdecl, hof, rfl⟩) hb
  | declareMember _ hspace hkind hkey =>
    exact hdeclare _ _ _ (.member hkey hkind rfl) (fun h => absurd h hspace) hb
  | bindAccessor hname hid => exact haccessor _ _ _ _ hname hid hb
  | bindTypeVariable b name => exact htypeVariable b name hb
  | @declareVariable b p kind declaredType type hp hkind hname =>
    rcases b.declareVariable_cases c p kind declaredType type with
      ⟨_, heq⟩ | ⟨hunderscore, s, hkey, rfl, hdeclared, -, htable, _⟩
    · rw [heq]
      exact hresolve b p .keep hp (.keep p) hb
    · have hisName := hname.resolve_right hunderscore
      obtain ⟨s', hs', hkey', _⟩ := b.table.exists_symbol?_add s
      rw [htable]
      exact hresolve { b with table := b.declared .value s } p _ hp
        (.variableName s.kind hs' b (hkey'.trans hkey) hisName)
        (hdeclare b .value s (.varName hp hisName hkey hkind hdeclared) (fun h => by cases h) hb)
  | note => exact hb
  | inScope kind _ ih => exact hclose _ (ih (hopen _ kind hb))
  | inMember _ _ ih => exact ih hb
  | inFrame _ _ ih => exact ih hb
  | inSwitch _ _ ih => exact ih hb

/-! ## First consequences -/

/-- A run only adds symbols. -/
theorem Run.symbol?_eq_some (h : Run c N b b') {id : SymbolId} (hs : b.table.symbol? id = some s) :
    b'.table.symbol? id = some s :=
  h.keeps (I := fun t => t.symbol? id = some s) (fun _ _ _ _ _ h => h)
    (fun _ _ s _ _ h => Symbols.symbol?_add_of_symbol? s h) (fun _ _ _ _ _ _ h => h)
    (fun _ _ h => h) (fun _ _ h => h) (fun _ h => h) hs

/-- The types that a run enters it leaves again. -/
theorem Run.frames_eq (h : Run c N b b') : b'.frames = b.frames := by
  induction h with
  | trans _ _ ih ih' => exact ih'.trans ih
  | mono _ _ ih => exact ih
  | resolve _ _ _ _ ih => exact ih
  | @declareType b _ name _ _ key =>
    rcases b.declareType_cases key (c.unit.text name) with ⟨_, _, heq⟩ | heq <;> rw [heq]
  | @declareVariable b p kind declaredType type =>
    rcases b.declareVariable_cases c p kind declaredType type with
      ⟨_, heq⟩ | ⟨_, _, _, _, _, _, _, hframes, _⟩
    · rw [heq]
      rfl
    · exact hframes
  | inScope _ _ ih => exact ih
  | inMember _ _ ih => exact ih
  | inFrame _ _ ih => exact congrArg List.tail ih
  | inSwitch _ _ ih => exact ih
  | _ => rfl

end Legible
