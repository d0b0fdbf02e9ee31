import Legible.Proofs.Binding.Courses
import Legible.Proofs.Binding.Lexical

/-!
# The types around

Wherever a traversal stands, the scopes from the innermost one outward are those of code and those
of the bodies of types. A scope of code has types and variables in it. The scope of a body has the
members of the type besides, all of them, and no other method or field (`Hosts`). `Housed` says this
of the scopes around, with the types that they belong to.

Members are declared ahead of the body, one by one, and this is the only time at which a scope is
not what `Housed` says. Every other step only adds types and variables (`Grows`). So `Settled` holds
of the state at every moment but those at which members are declared (`exists_settled`).
-/

namespace Legible

open Binder

variable {c : BindingInput} {p : Place} {key name : String} {m : Member} {binding : Binding}
  {b b' : Binder} {space : Namespace} {id : SymbolId} {s n scope : ScopeId} {homes : List Home}
  {log : List Moment} {g : Scopes}

/-! ## Members of types -/

namespace Binder.Member

/-- Whether a call can mean the member: a method, or a record component for its accessor. -/
def isCallable (m : Member) : Bool := m.space = .method || m.accessor

/-- A member as the rules declare it for the type of the key. -/
inductive Formed (owner : String) (m : Member) : Prop
  | value (hspace : m.space = .value) (hkind : m.kind = .field)
      (hkey : m.key = owner ++ "." ++ m.name) (hname : isPlainName m.name = true)
      (harity : m.accessor = true → m.arity ≠ none)
  | method (hspace : m.space = .method) (hkind : m.kind = .method) (haccessor : m.accessor = false)
      (hlast : m.key.toList.getLast? = some ')') (harity : m.arity ≠ none)

variable {owner : String}

theorem Formed.arity_ne_none (h : m.Formed owner) (hcall : m.isCallable = true) :
    m.arity ≠ none := by
  cases h with
  | value hspace _ _ _ harity => exact harity (by simpa [isCallable, hspace] using hcall)
  | method _ _ _ _ harity => exact harity

end Binder.Member

namespace BindingInput

/-- The members of the types of the unit. -/
def members (c : BindingInput) : List Member :=
  c.unit.root.places.flatMap fun p =>
    (c.index.typeAt? c.number p).toList.flatMap fun key => c.membersOf key p

theorem mem_members (hp : c.Has p) (hkey : c.index.typeAt? c.number p = some key)
    (hm : m ∈ c.membersOf key p) : m ∈ c.members :=
  List.mem_flatMap.mpr ⟨p, hp, List.mem_flatMap.mpr ⟨key, by simp [hkey], hm⟩⟩

end BindingInput

section Members

open Place

theorem Binder.Member.Made.formed (hparted : c.unit.Parted) (h : m.Made c key) : m.Formed key := by
  cases h with
  | value hq hspace hkind hname hkey harity =>
    refine .value hspace hkind (hkey.trans (by rw [hname])) ?_ harity
    rw [hname]
    exact hq.isPlainName hparted
  | method hp hof hspace hkind hname hkey haccessor harity =>
    exact .method hspace hkind haccessor (hkey ▸ getLast?_memberKey hof c.unit key) harity

def Binder.Step.member? : Step → Option Member
  | .declareMember m => some m
  | _ => none

theorem filterMap_member?_typeSteps (c : BindingInput) (p : Place) :
    (typeSteps c p).filterMap Step.member? = [] := by
  unfold typeSteps
  split <;> rfl

theorem filterMap_member?_map (ms : List Member) :
    (ms.map Step.declareMember).filterMap Step.member? = ms := by
  rw [List.filterMap_map]
  exact List.filterMap_some

theorem filterMap_member?_memberSteps (c : BindingInput) (key : String) (isRecord : Bool)
    (p body : Place) : (memberSteps c key isRecord p body).filterMap Step.member?
      = (if isRecord then componentMembers c key p else [])
        ++ body.bodyMembers.flatMap (membersAt c key) := by
  rw [memberSteps, List.filterMap_append, filterMap_member?_map, List.filterMap_flatMap]
  congr 2
  funext q
  rw [List.filterMap_append, filterMap_member?_map, filterMap_member?_typeSteps, List.append_nil]

/-- The type variables are bound before the members are declared. -/
theorem mem_of_aheadSteps_eq {before rest : List Step}
    (h : aheadSteps c key p = before ++ .declareMember m :: rest) :
    ∀ name ∈ c.typeVariablesOf p, .bindTypeVariable name ∈ before := by
  have hfirst : ∃ rest, aheadSteps c key p = (c.typeVariablesOf p).map .bindTypeVariable ++ rest := by
    unfold aheadSteps BindingInput.typeVariablesOf
    cases Construct.of p with
    | typeDecl => exact ⟨_, rfl⟩
    | _ => exact ⟨_, rfl⟩
  obtain ⟨rest', heq⟩ := hfirst
  intro name hname
  have hmem := List.mem_map_of_mem (f := Step.bindTypeVariable) hname
  rcases List.append_eq_append_iff.mp (heq.symm.trans h) with ⟨mid, hbefore, -⟩ | ⟨mid, hmid, hrest⟩
  · exact hbefore ▸ List.mem_append_left _ hmem
  · cases mid with
    | nil => exact List.append_nil before ▸ hmid ▸ hmem
    | cons s mid =>
      obtain rfl := (List.cons.inj hrest).1
      have hmember : Step.declareMember m ∈ (c.typeVariablesOf p).map Step.bindTypeVariable := by
        simp [hmid]
      simp at hmember

/-- What is done ahead of a body declares the members of the type, in order. -/
theorem filterMap_member?_aheadSteps (c : BindingInput) (key : String) (p : Place) :
    (aheadSteps c key p).filterMap Step.member? = c.membersOf key p := by
  unfold aheadSteps BindingInput.membersOf
  split
  · next kind name body hof =>
      have hvariables : (typeVariableSteps c p).filterMap Step.member? = [] := by
        rw [typeVariableSteps, List.filterMap_map]
        exact List.filterMap_eq_nil_iff.mpr fun _ _ => rfl
      rw [List.filterMap_append, hvariables, List.nil_append, filterMap_member?_memberSteps]
      simp
  · rw [filterMap_member?_memberSteps]
    simp
  · rw [filterMap_member?_memberSteps]
    simp
  · rfl

theorem formed_of_mem_membersOf (hshaped : c.unit.shapedOK = true) (hp : c.Has p)
    (hm : m ∈ c.membersOf key p) : m.Formed key := by
  rw [← filterMap_member?_aheadSteps] at hm
  obtain ⟨s, hs, hmember⟩ := List.mem_filterMap.mp hm
  cases ahead_aheadSteps hp key s hs with
  | member hmade =>
    cases hmember
    exact hmade.formed (parted_of_shapedOK hshaped)
  | _ => cases hmember

theorem mem_membersOf_of_ahead (hm : .declareMember m ∈ aheadSteps c key p) :
    m ∈ c.membersOf key p := by
  rw [← filterMap_member?_aheadSteps]
  exact List.mem_filterMap.mpr ⟨_, hm, rfl⟩

end Members

/-! ## What is noted of symbols -/

/-- The name and the key of the variable that is declared at the moment. -/
def Binder.Moment.variable? (c : BindingInput) (m : Moment) : Option (String × String) :=
  match m.step with
  | .declareVariable p kind .. => some (c.unit.text p, m.state.variableKey kind (c.unit.text p))
  | _ => none

/-- A type, or a variable that was declared: what code binds. -/
def Symbols.Loose (t : Symbols) (c : BindingInput) (log : List Moment) (d : Definition) : Prop :=
  d.space = .type ∨ d.space = .value ∧ ∃ id s, d.binding = .symbol id ∧ t.symbol? id = some s
    ∧ ∃ v ∈ log, v.variable? c = some (d.name, s.key)

/-- The binding is that of a type variable, or of the type with the key. -/
inductive Symbols.BindsType (t : Symbols) : Binding → Option String → Prop
  | typeVariable : t.BindsType .typeVariable none
  | type {id : SymbolId} {s : Symbol} (hs : t.symbol? id = some s) :
      t.BindsType (.symbol id) (some s.key)

/-- The types that are bound are those that the unit declares by the name. -/
def Binder.NamesTypes (c : BindingInput) (b : Binder) : Prop :=
  ∀ scope, ∀ d ∈ b.table.scopes.definitionsIn scope, d.space = .type →
    ∃ key, b.table.BindsType d.binding key ∧ (d.name, key) ∈ c.typeDeclarations

/-- A type whose body is around. -/
structure Home where
  place : Place
  key : String

def BindingInput.membersIn (c : BindingInput) (home : Home) : List Member :=
  c.membersOf home.key home.place

theorem Binder.innermost?_eq {keys : List String} (h : b.frames.map (·.name) = keys) :
    b.innermost? = keys.head? := by
  rw [innermost?, ← List.head?_map, h]

/-- The member is declared in the state `b` inside of the body of its type, whose type variables are
known. -/
structure DeclaredAt (c : BindingInput) (m : Member) (b : Binder) : Prop where
  names : b.NamesTypes c
  within : ∃ home, m ∈ c.membersIn home ∧ c.Has home.place
    ∧ c.index.typeAt? c.number home.place = some home.key ∧ b.innermost? = some home.key
    ∧ ∀ name ∈ c.typeVariablesOf home.place, b.table.scopes.lookup? b.scope .type name ≠ none

/-- What the state notes of symbols comes from the declarations of members and variables. -/
structure Binder.Noted (c : BindingInput) (b : Binder) : Prop where
  arity : ∀ id a, b.arities[id]? = some a →
    ∃ s, b.table.symbol? id = some s ∧ ∃ m ∈ c.members, m.key = s.key ∧ m.arity = some a
  type : ∀ id type, b.symbolTypes[id]? = some type →
    ∃ s, b.table.symbol? id = some s ∧ (s.key.toList.getLast? = some ')'
      ∨ ∃ m b₀, DeclaredAt c m b₀ ∧ m.key = s.key ∧ m.type b₀ = some type)
  names : b.NamesTypes c
  /-- Nothing is bound in a scope that is not opened yet. -/
  fresh : ∀ scope, b.table.scopes.size ≤ scope → b.table.scopes.definitionsIn scope = []

/-- The state `b'` comes from `b`: in scopes before the `n`-th only types and variables are bound,
and what is noted of symbols is not lost. -/
structure Grows (c : BindingInput) (log : List Moment) (n : ScopeId) (b b' : Binder) : Prop where
  size : b.table.scopes.size ≤ b'.table.scopes.size
  parent : ∀ s < b.table.scopes.size, b'.table.scopes.parent? s = b.table.scopes.parent? s
  symbols : ∀ id s, b.table.symbol? id = some s → b'.table.symbol? id = some s
  arities : ∀ id : SymbolId, b.arities[id]? ≠ none → b'.arities[id]? ≠ none
  types : ∀ id : SymbolId, b.symbolTypes[id]? ≠ none → b'.symbolTypes[id]? ≠ none
  definitions : ∀ s < n, ∃ new,
    b'.table.scopes.definitionsIn s = b.table.scopes.definitionsIn s ++ new
      ∧ ∀ d ∈ new, b'.table.Loose c log d
  noted : b.Noted c → b'.Noted c

section Symbols

variable {t t' : Symbols} {d : Definition}

theorem Symbols.Loose.mono (h : t.Loose c log d)
    (hsymbols : ∀ id s, t.symbol? id = some s → t'.symbol? id = some s) : t'.Loose c log d := by
  rcases h with h | ⟨hspace, id, s, hid, hs, hvariable⟩
  · exact .inl h
  · exact .inr ⟨hspace, id, s, hid, hsymbols id s hs, hvariable⟩

theorem Symbols.BindsType.mono {key : Option String} (h : t.BindsType binding key)
    (hsymbols : ∀ id s, t.symbol? id = some s → t'.symbol? id = some s) :
    t'.BindsType binding key := by
  cases h with
  | typeVariable => exact .typeVariable
  | type hs => exact .type (hsymbols _ _ hs)

/-- No types are bound that were not bound before. -/
theorem Binder.NamesTypes.mono (h : b.NamesTypes c)
    (hsymbols : ∀ id s, b.table.symbol? id = some s → b'.table.symbol? id = some s)
    (hin : ∀ s, b'.table.scopes.definitionsIn s = b.table.scopes.definitionsIn s) :
    b'.NamesTypes c := by
  intro s d hd hspace
  obtain ⟨key, hkey, hname⟩ := h s d (by rwa [← hin]) hspace
  exact ⟨key, hkey.mono hsymbols, hname⟩

end Symbols

section Notes

variable {α : Type} {notes : Std.TreeMap SymbolId α} {note : Option α} {a : α} {id' : SymbolId}

theorem noted_cases (h : (note.elim notes (notes.insert id))[id']? = some a) :
    id = id' ∧ note = some a ∨ notes[id']? = some a := by
  cases note with
  | none => exact .inr h
  | some x =>
    rw [Option.elim_some, Std.TreeMap.getElem?_insert] at h
    split at h
    · next hid => exact .inl ⟨Std.LawfulEqCmp.eq_of_compare hid, h⟩
    · exact .inr h

theorem ne_none_of_noted (h : notes[id']? ≠ none) :
    (note.elim notes (notes.insert id))[id']? ≠ none := by
  cases note with
  | none => exact h
  | some x =>
    rw [Option.elim_some, Std.TreeMap.getElem?_insert]
    split <;> simp [h]

end Notes

namespace Grows

variable {log : List Moment} {n n' : ScopeId} {b₁ b₂ : Binder} {a : Arity}
  {type : Option StaticType} {kind : SymbolKind} {v : Moment}

theorem trans (h : Grows c log n b b₁) (h' : Grows c log n b₁ b₂) : Grows c log n b b₂ where
  size := Nat.le_trans h.size h'.size
  parent s hs := (h'.parent s (Nat.lt_of_lt_of_le hs h.size)).trans (h.parent s hs)
  symbols id s hs := h'.symbols id s (h.symbols id s hs)
  arities id hid := h'.arities id (h.arities id hid)
  types id hid := h'.types id (h.types id hid)
  definitions s hs := by
    obtain ⟨new, hnew, hloose⟩ := h.definitions s hs
    obtain ⟨new', hnew', hloose'⟩ := h'.definitions s hs
    refine ⟨new ++ new', by rw [hnew', hnew, List.append_assoc], fun d hd => ?_⟩
    exact (List.mem_append.mp hd).elim (fun hd => (hloose d hd).mono h'.symbols) (hloose' d)
  noted hb := h'.noted (h.noted hb)

theorem mono (h : Grows c log n' b b₁) (hn : n ≤ n') : Grows c log n b b₁ :=
  { h with definitions := fun s hs => h.definitions s (Nat.lt_of_lt_of_le hs hn) }

/-- A change to nothing that is noted. -/
theorem of_eq (hsymbols : b₁.table.symbols = b.table.symbols)
    (hopened : b₁.table.scopes.opened = b.table.scopes.opened)
    (hdefinitions : b₁.table.scopes.definitions = b.table.scopes.definitions)
    (harities : b₁.arities = b.arities) (htypes : b₁.symbolTypes = b.symbolTypes) :
    Grows c log n b b₁ := by
  have hsymbol : ∀ id, b₁.table.symbol? id = b.table.symbol? id := fun id => by
    rw [Symbols.symbol?, hsymbols, Symbols.symbol?]
  have hsize : b₁.table.scopes.size = b.table.scopes.size := by
    rw [Scopes.size, hopened, Scopes.size]
  have hin : ∀ s, b₁.table.scopes.definitionsIn s = b.table.scopes.definitionsIn s := fun s => by
    rw [Scopes.definitionsIn, hdefinitions, Scopes.definitionsIn]
  refine
    { size := Nat.le_of_eq hsize.symm
      parent := fun s _ => by rw [Scopes.parent?, hopened, Scopes.parent?]
      symbols := fun id s hs => (hsymbol id).trans hs
      arities := fun id hid => by rwa [harities]
      types := fun id hid => by rwa [htypes]
      definitions := fun s _ => ⟨[], by rw [hin, List.append_nil], by simp⟩
      noted := fun hb => ?_ }
  refine
    { arity := fun id a ha => ?_
      type := fun id type htype => ?_
      names := hb.names.mono (fun id s hs => (hsymbol id).trans hs) hin
      fresh := fun s hs => (hin s).trans (hb.fresh s (hsize ▸ hs)) }
  · rw [hsymbol]
    exact hb.arity id a (harities ▸ ha)
  · rw [hsymbol]
    exact hb.type id type (htypes ▸ htype)

/-- Names are bound in the innermost scope, in one of code only those of types and variables, and
something may be noted of a symbol. -/
theorem of_declared {attempts : List Attempt} (id : SymbolId) (arity : Option Arity)
    (type : Option StaticType) (hb : b.Ready)
    (horderly : b.Orderly b₁ attempts) (hscope : ∀ a ∈ attempts, a.scope = b.scope)
    (hsymbols : ∀ id s, b.table.symbol? id = some s → b₁.table.symbol? id = some s)
    (hloose : n ≤ b.scope ∨ ∀ a ∈ attempts, b₁.table.Loose c log a.definition)
    (hnames : ∀ a ∈ attempts, a.definition.space = .type → ∃ key,
      b₁.table.BindsType a.definition.binding key ∧ (a.definition.name, key) ∈ c.typeDeclarations)
    (harities : b₁.arities = arity.elim b.arities (b.arities.insert id))
    (htypes : b₁.symbolTypes = type.elim b.symbolTypes (b.symbolTypes.insert id))
    (harity : ∀ a, arity = some a →
      ∃ s, b₁.table.symbol? id = some s ∧ ∃ m ∈ c.members, m.key = s.key ∧ m.arity = some a)
    (htype : ∀ t, type = some t → ∃ s, b₁.table.symbol? id = some s
      ∧ (s.key.toList.getLast? = some ')'
        ∨ ∃ m b₀, DeclaredAt c m b₀ ∧ m.key = s.key ∧ m.type b₀ = some t)) : Grows c log n b b₁ := by
  have hin := horderly.scopes.definitionsIn
  have hbound : ∀ {scope d}, d ∈ boundIn scope attempts →
      b.scope = scope ∧ ∃ a ∈ attempts, a.definition = d := by
    intro scope d hd
    obtain ⟨a, ha, rfl⟩ := List.mem_map.mp hd
    obtain ⟨ha, hs⟩ := List.mem_filter.mp ha
    exact ⟨(hscope a ha).symm.trans (beq_iff_eq.mp hs), a, ha, rfl⟩
  refine
    { size := horderly.scopes.size
      parent := horderly.scopes.parent
      symbols := hsymbols
      arities := fun id hid => harities ▸ ne_none_of_noted hid
      types := fun id hid => htypes ▸ ne_none_of_noted hid
      definitions := fun scope hlt => ⟨_, hin scope, fun d hd => ?_⟩
      noted := fun hnoted =>
        { arity := fun id' a ha => ?_
          type := fun id' t ht => ?_
          names := fun scope d hd hspace => ?_
          fresh := fun scope hle => ?_ } }
  · obtain ⟨rfl, a, ha, rfl⟩ := hbound hd
    exact hloose.resolve_left (Nat.not_le_of_lt hlt) a ha
  · rcases noted_cases (harities ▸ ha) with ⟨rfl, hnew⟩ | hold
    · exact harity a hnew
    · obtain ⟨s, hs, hrest⟩ := hnoted.arity id' a hold
      exact ⟨s, hsymbols id' s hs, hrest⟩
  · rcases noted_cases (htypes ▸ ht) with ⟨rfl, hnew⟩ | hold
    · exact htype t hnew
    · obtain ⟨s, hs, hrest⟩ := hnoted.type id' t hold
      exact ⟨s, hsymbols id' s hs, hrest⟩
  · rw [hin, List.mem_append] at hd
    rcases hd with hd | hd
    · obtain ⟨key, hkey, hname⟩ := hnoted.names scope d hd hspace
      exact ⟨key, hkey.mono hsymbols, hname⟩
    · obtain ⟨-, a, ha, rfl⟩ := hbound hd
      exact hnames a ha hspace
  · have hle := Nat.le_trans horderly.scopes.size hle
    rw [hin, hnoted.fresh scope hle, List.nil_append, List.eq_nil_iff_forall_not_mem]
    intro d hd
    exact Nat.ne_of_lt (Nat.lt_of_lt_of_le hb.lt_size hle) (hbound hd).1

theorem openScope (b : Binder) (kind : ScopeKind) : Grows c log n b (b.openScope kind) := by
  have hsize : (b.openScope kind).table.scopes.size = b.table.scopes.size + 1 :=
    Scopes.size_openIn ..
  refine
    { size := by omega
      parent := fun s hs => ?_
      symbols := fun _ _ hs => hs
      arities := fun _ hid => hid
      types := fun _ hid => hid
      definitions := fun _ _ => ⟨[], (List.append_nil _).symm, by simp⟩
      noted := fun hb =>
        { hb with
          names := hb.names.mono (fun _ _ hs => hs) fun _ => rfl
          fresh := fun s hs => hb.fresh s (by omega) } }
  rw [Binder.openScope, Scopes.parent?_openIn, if_neg (Nat.ne_of_lt hs)]

theorem closeScope (b : Binder) (outer : ScopeId) : Grows c log n b (b.closeScope outer) :=
  of_eq rfl rfl rfl rfl rfl

/-! ## Declarations -/

theorem give (p access : Place) (found : Option Resolution × Option StaticType) :
    Grows c log n b (b.give p access found) := by
  unfold Binder.give
  cases found.1 <;> cases found.2 <;> exact of_eq rfl rfl rfl rfl rfl

theorem setType (p : Place) (type : Option StaticType) : Grows c log n b (b.setType p type) := by
  cases type <;> exact of_eq rfl rfl rfl rfl rfl

theorem typeVariable (hb : b.Ready) (hname : (name, none) ∈ c.typeDeclarations) :
    Grows c log n b (b.bind .type name .typeVariable) :=
  of_declared 0 none none hb (.bind hb ..) (by simp [Binder.attempt])
    (fun _ _ hs => hs) (.inr (List.forall_mem_singleton.mpr (.inl rfl)))
    (List.forall_mem_singleton.mpr fun _ => ⟨none, .typeVariable, hname⟩) rfl rfl (by simp) (by simp)

theorem declareType (hb : b.Ready) (hname : (name, some key) ∈ c.typeDeclarations) :
    Grows c log n b (b.declareType key name).1 := by
  have horderly : b.Orderly _ _ := .declareType hb key name
  unfold Binder.typeAttempts at horderly
  unfold Binder.declareType at horderly ⊢
  generalize b.table.idOf? key = found at horderly ⊢
  cases found with
  | some id => exact of_eq rfl rfl rfl rfl rfl
  | none =>
    obtain ⟨s, hs, hkey, -⟩ := b.table.exists_symbol?_add { key, kind := .type, declaredName := name }
    refine of_declared 0 none none hb horderly
      (List.forall_mem_singleton.mpr rfl) (fun _ _ hs => Symbols.symbol?_add_of_symbol? _ hs)
      (.inr (List.forall_mem_singleton.mpr (.inl rfl)))
      (List.forall_mem_singleton.mpr fun _ => ⟨some s.key, .type hs, ?_⟩) rfl rfl (by simp) (by simp)
    rwa [hkey]

/-- The key of a variable ends in a parenthesis. -/
theorem declareVariable (hb : b.Ready) (hv : v ∈ log)
    (hvariable : v.variable? c = some (c.unit.text p, b.variableKey kind (c.unit.text p)))
    (declaredType : Option String) (type : Option StaticType) :
    Grows c log n b (b.declareVariable c p kind declaredType type) := by
  have horderly : b.Orderly _ _ := .declareVariable hb c p kind declaredType type
  rcases b.declareVariable_cases c p kind declaredType type with ⟨-, heq⟩ | ⟨hname, -⟩
  · rw [heq]
    exact of_eq rfl rfl rfl rfl rfl
  · let s : Symbol :=
      { key := b.variableKey kind (c.unit.text p), kind, declaredName := c.unit.text p, declaredType }
    obtain ⟨s', hs', hkey, -⟩ := b.table.exists_symbol?_add s
    have hlast : s'.key.toList.getLast? = some ')' := by
      rw [hkey]
      exact Trace.getLast?_variableKey ..
    have hdeclared : (∀ id, (b.declareVariable c p kind declaredType type).table.symbol? id
          = (b.table.add s).1.symbol? id)
        ∧ (b.declareVariable c p kind declaredType type).arities = b.arities
        ∧ (b.declareVariable c p kind declaredType type).symbolTypes
          = type.elim b.symbolTypes (b.symbolTypes.insert (b.table.add s).2) := by
      unfold Binder.declareVariable
      by_cases hkind : kind = .parameter <;> cases type <;> simp [hname, hkind, s] <;>
        exact ⟨fun _ => rfl, rfl, rfl⟩
    obtain ⟨hsymbols, harities, htypes⟩ := hdeclared
    simp only [Binder.variableAttempts, beq_eq_false_iff_ne.mpr hname] at horderly
    refine of_declared _ none type hb horderly (List.forall_mem_singleton.mpr rfl)
      (fun id s hs => ?_) (.inr (List.forall_mem_singleton.mpr (.inr ⟨rfl, _, s', rfl, ?_, v, hv, ?_⟩)))
      (List.forall_mem_singleton.mpr fun h => by cases h) harities htypes (by simp)
      fun t ht => ⟨s', (hsymbols _).trans hs', .inl hlast⟩
    · exact (hsymbols id).trans (Symbols.symbol?_add_of_symbol? _ hs)
    · exact (hsymbols _).trans hs'
    · rw [hkey]
      exact hvariable

end Grows

/-! ## Members in their scope -/

namespace Binder

def Member.definitions (m : Member) (id : SymbolId) : List Definition :=
  ⟨m.space, m.name, .symbol id⟩ :: if m.accessor then [⟨.method, m.name, .symbol id⟩] else []

/-- The number of the symbol that a member is or becomes. -/
def memberId (b : Binder) (m : Member) : SymbolId := (b.table.add (Trace.memberSymbol m)).2

theorem table_declare (m : Member) (b : Binder) : ∃ scopes : Scopes,
    (b.declare m).table = { (b.table.add (Trace.memberSymbol m)).1 with scopes } := by
  rcases (Trace.declare_eq m b).1 with heq | heq <;> rw [heq] <;> exact ⟨_, rfl⟩

theorem arities_declare (m : Member) (b : Binder) : (b.declare m).arities
    = m.arity.elim b.arities (b.arities.insert (b.memberId m)) := by
  unfold Binder.declare Binder.declareMember
  cases m.type b <;> cases m.accessor <;> cases m.arity <;> rfl

theorem symbolTypes_declare (m : Member) (b : Binder) : (b.declare m).symbolTypes
    = (m.type b).elim b.symbolTypes (b.symbolTypes.insert (b.memberId m)) := by
  unfold Binder.declare Binder.declareMember
  cases m.type b <;> cases m.accessor <;> cases m.arity <;> rfl

theorem definitionsIn_declare (hb : b.Ready) (m : Member) (s : ScopeId) :
    (b.declare m).table.scopes.definitionsIn s = b.table.scopes.definitionsIn s
      ++ if b.scope = s then m.definitions (b.memberId m) else [] := by
  rw [(Orderly.declare hb m).scopes.definitionsIn]
  congr 1
  unfold memberAttempts Member.definitions
  by_cases hs : b.scope = s <;> cases m.accessor <;>
    simp [boundIn, Binder.attempt, Binder.addSymbol, Binder.bind, hs] <;> rfl

end Binder

/-- A member is declared in the scope of the body of its type. -/
theorem Grows.declare {owner : String} (hb : b.Ready) (hn : n ≤ b.scope) (hmem : m ∈ c.members)
    (hm : m.Formed owner) (hdeclared : DeclaredAt c m b) : Grows c log n b (b.declare m) := by
  obtain ⟨scopes, htable⟩ := table_declare m b
  obtain ⟨s, hs, hkey, -⟩ := b.table.exists_symbol?_add (Trace.memberSymbol m)
  have hsymbol : (b.declare m).table.symbol? (b.memberId m) = some s := by
    rw [htable]
    exact hs
  have hspace : ∀ a ∈ b.memberAttempts m, a.scope = b.scope ∧ a.definition.space ≠ .type := by
    unfold memberAttempts
    cases hm with
    | value hspace | method hspace =>
      cases m.accessor <;> simp [Binder.attempt, Binder.bind, Binder.addSymbol, hspace]
  refine of_declared _ _ _ hb (.declare hb m) (fun a ha => (hspace a ha).1) (fun id s hs => ?_) (.inl hn)
    (fun a ha htype => absurd htype (hspace a ha).2) (arities_declare m b) (symbolTypes_declare m b)
    (fun a ha => ⟨s, hsymbol, m, hmem, hkey.symm, ha⟩)
    fun t ht => ⟨s, hsymbol, .inr ⟨m, b, hdeclared, hkey.symm, ht⟩⟩
  rw [htable]
  exact Symbols.symbol?_add_of_symbol? _ hs

/-- The symbol of a number is that of the member, and what the declaration noted is there. -/
structure Binder.Knows (c : BindingInput) (b : Binder) (m : Member) (id : SymbolId) : Prop where
  idOf? : b.table.idOf? m.key = some id
  arity : m.arity ≠ none → b.arities[id]? ≠ none
  type : ∃ b₀, DeclaredAt c m b₀ ∧ (m.type b₀ ≠ none → b.symbolTypes[id]? ≠ none)

/-- What a member is bound as for calls. -/
def Symbols.methodOf? (t : Symbols) (m : Member) : Option Definition :=
  if m.isCallable then (t.idOf? m.key).map fun id => ⟨.method, m.name, .symbol id⟩ else none

/-- What a member is bound as for names in expressions. -/
def Symbols.IsValueOf (t : Symbols) (m : Member) (d : Definition) : Prop :=
  m.space = .value ∧ ∃ id, t.idOf? m.key = some id ∧ d = ⟨.value, m.name, .symbol id⟩

/-- The scope has the members in it, and no other methods and fields. -/
structure Hosts (c : BindingInput) (log : List Moment) (b : Binder) (scope : ScopeId)
    (ms : List Member) : Prop where
  known : ∀ m ∈ ms, ∃ id, b.Knows c m id
  methods : (b.table.scopes.definitionsIn scope).filter (·.space = .method)
    = ms.filterMap b.table.methodOf?
  values : ∀ d ∈ b.table.scopes.definitionsIn scope, d.space = .value →
    b.table.Loose c log d ∨ ∃ m ∈ ms, b.table.IsValueOf m d
  bound : ∀ m ∈ ms, m.space = .value → ∃ d ∈ b.table.scopes.definitionsIn scope,
    b.table.IsValueOf m d

section Holding

variable {log : List Moment} {n : ScopeId} {scope : ScopeId} {ms extra : List Member}
  {new : List Definition} {d : Definition} {t t' : Symbols}

theorem Binder.Knows.mono (h : b.Knows c m id)
    (hsymbols : ∀ id s, b.table.symbol? id = some s → b'.table.symbol? id = some s)
    (harities : ∀ id : SymbolId, b.arities[id]? ≠ none → b'.arities[id]? ≠ none)
    (htypes : ∀ id : SymbolId, b.symbolTypes[id]? ≠ none → b'.symbolTypes[id]? ≠ none) :
    b'.Knows c m id where
  idOf? := Symbols.idOf?_mono hsymbols h.idOf?
  arity hm := harities id (h.arity hm)
  type := by
    obtain ⟨b₀, hdeclared, htype⟩ := h.type
    exact ⟨b₀, hdeclared, fun hne => htypes id (htype hne)⟩

theorem Symbols.IsValueOf.mono (h : t.IsValueOf m d)
    (hsymbols : ∀ id s, t.symbol? id = some s → t'.symbol? id = some s) : t'.IsValueOf m d := by
  obtain ⟨hspace, id, hid, hd⟩ := h
  exact ⟨hspace, id, idOf?_mono hsymbols hid, hd⟩

/-- More members are declared in the scope. -/
theorem Hosts.append (h : Hosts c log b scope ms)
    (hsymbols : ∀ id s, b.table.symbol? id = some s → b'.table.symbol? id = some s)
    (harities : ∀ id : SymbolId, b.arities[id]? ≠ none → b'.arities[id]? ≠ none)
    (htypes : ∀ id : SymbolId, b.symbolTypes[id]? ≠ none → b'.symbolTypes[id]? ≠ none)
    (hin : b'.table.scopes.definitionsIn scope = b.table.scopes.definitionsIn scope ++ new)
    (hknown : ∀ m ∈ extra, ∃ id, b'.Knows c m id)
    (hmethods : new.filter (·.space = .method) = extra.filterMap b'.table.methodOf?)
    (hvalues : ∀ d ∈ new, d.space = .value →
      b'.table.Loose c log d ∨ ∃ m ∈ extra, b'.table.IsValueOf m d)
    (hbound : ∀ m ∈ extra, m.space = .value → ∃ d ∈ new, b'.table.IsValueOf m d) :
    Hosts c log b' scope (ms ++ extra) where
  known m hm := by
    rcases List.mem_append.mp hm with hm | hm
    · obtain ⟨id, hid⟩ := h.known m hm
      exact ⟨id, hid.mono hsymbols harities htypes⟩
    · exact hknown m hm
  methods := by
    rw [hin, List.filter_append, h.methods, hmethods, List.filterMap_append]
    congr 1
    refine List.filterMap_congr fun m hm => ?_
    obtain ⟨id, hid⟩ := h.known m hm
    rw [Symbols.methodOf?, Symbols.methodOf?, hid.idOf?, Symbols.idOf?_mono hsymbols hid.idOf?]
  values d hd hspace := by
    rw [hin] at hd
    rcases List.mem_append.mp hd with hd | hd
    · refine (h.values d hd hspace).imp (·.mono hsymbols) ?_
      rintro ⟨m, hm, hvalue⟩
      exact ⟨m, List.mem_append_left _ hm, hvalue.mono hsymbols⟩
    · refine (hvalues d hd hspace).imp_right ?_
      rintro ⟨m, hm, hvalue⟩
      exact ⟨m, List.mem_append_right _ hm, hvalue⟩
  bound m hm hspace := by
    rw [hin]
    rcases List.mem_append.mp hm with hm | hm
    · obtain ⟨d, hd, hvalue⟩ := h.bound m hm hspace
      exact ⟨d, List.mem_append_left _ hd, hvalue.mono hsymbols⟩
    · obtain ⟨d, hd, hvalue⟩ := hbound m hm hspace
      exact ⟨d, List.mem_append_right _ hd, hvalue⟩

theorem Hosts.mono (h : Hosts c log b scope ms) (hgrows : Grows c log n b b') (hn : scope < n) :
    Hosts c log b' scope ms := by
  obtain ⟨new, hnew, hloose⟩ := hgrows.definitions scope hn
  rw [← List.append_nil ms]
  refine h.append hgrows.symbols hgrows.arities hgrows.types hnew (by simp) ?_
    (fun d hd _ => .inl (hloose d hd)) (by simp)
  rw [List.filterMap_nil, List.filter_eq_nil_iff]
  intro d hd hmethod
  have hspace : d.space = .method := by simpa using hmethod
  rcases hloose d hd with htype | ⟨hvalue, -⟩
  · rw [hspace] at htype
    cases htype
  · rw [hspace] at hvalue
    cases hvalue

theorem Binder.Knows.declare (hdeclared : DeclaredAt c m b) :
    (b.declare m).Knows c m (b.memberId m) where
  idOf? := by
    obtain ⟨scopes, htable⟩ := table_declare m b
    rw [htable]
    exact b.table.idOf?_add (Trace.memberSymbol m)
  arity hne := by
    rw [arities_declare]
    cases harity : m.arity with
    | none => exact absurd harity hne
    | some a => simp
  type := by
    refine ⟨b, hdeclared, fun hne => ?_⟩
    rw [symbolTypes_declare]
    cases htype : m.type b with
    | none => exact absurd htype hne
    | some t => simp

theorem Hosts.declare {owner : String} (h : Hosts c log b b.scope ms) (hb : b.Ready)
    (hgrows : Grows c log n b (b.declare m)) (hm : m.Formed owner)
    (hdeclared : DeclaredAt c m b) : Hosts c log (b.declare m) b.scope (ms ++ [m]) := by
  have hknows := Binder.Knows.declare hdeclared
  have hin := definitionsIn_declare hb m b.scope
  rw [if_pos rfl] at hin
  refine h.append hgrows.symbols hgrows.arities hgrows.types hin ?_ ?_ ?_ ?_
  · exact List.forall_mem_singleton.mpr ⟨_, hknows⟩
  · simp only [List.filterMap_cons, List.filterMap_nil, Symbols.methodOf?, hknows.idOf?,
      Member.definitions, Member.isCallable]
    cases hm with
    | value hspace => cases haccessor : m.accessor <;> simp [hspace]
    | method hspace _ haccessor => simp [hspace, haccessor]
  · intro d hd hspace
    refine .inr ⟨m, List.mem_singleton_self m, ?_⟩
    rcases List.mem_cons.mp hd with rfl | hd
    · exact ⟨hspace, _, hknows.idOf?, by rw [← hspace]⟩
    · split at hd
      · rw [List.mem_singleton.mp hd] at hspace
        cases hspace
      · cases hd
  · intro m' hm' hspace
    rw [List.mem_singleton.mp hm'] at hspace ⊢
    exact ⟨_, List.mem_cons_self, hspace, _, hknows.idOf?, by rw [hspace]⟩

end Holding

/-! ## Scopes around -/

/-- The scopes from the given one outward are those of code and those of the bodies of types. -/
inductive Housed (c : BindingInput) (log : List Moment) (b : Binder) : ScopeId → List Home → Prop
  | root (hparent : b.table.scopes.parent? 0 = none) (hsize : 0 < b.table.scopes.size)
      (hloose : ∀ d ∈ b.table.scopes.definitionsIn 0, b.table.Loose c log d) : Housed c log b 0 []
  | code {scope outer : ScopeId} {homes : List Home}
      (hparent : b.table.scopes.parent? scope = some outer) (hlt : outer < scope)
      (hsize : scope < b.table.scopes.size)
      (hloose : ∀ d ∈ b.table.scopes.definitionsIn scope, b.table.Loose c log d)
      (h : Housed c log b outer homes) : Housed c log b scope homes
  | body {scope outer : ScopeId} {home : Home} {homes : List Home}
      (hparent : b.table.scopes.parent? scope = some outer) (hlt : outer < scope)
      (hsize : scope < b.table.scopes.size) (hplace : c.Has home.place)
      (hkey : c.index.typeAt? c.number home.place = some home.key)
      (hhosts : Hosts c log b scope (c.membersIn home)) (h : Housed c log b outer homes) :
      Housed c log b scope (home :: homes)

/-- The state of a traversal while it is not about to declare members. -/
structure Settled (c : BindingInput) (log : List Moment) (b : Binder) (homes : List Home) : Prop where
  ready : b.Ready
  noted : b.Noted c
  housed : Housed c log b b.scope homes
  frames : b.frames.map (·.name) = homes.map (·.key)

theorem Scopes.lookup?_ne_none (hs : s ∈ g.chain scope)
    (hd : ⟨space, name, binding⟩ ∈ g.definitionsIn s) : g.lookup? scope space name ≠ none := by
  intro hnone
  rw [lookup?, List.findSome?_eq_none_iff] at hnone
  exact getLast?_lookupIn hd (hnone s hs)

section Around

variable {log : List Moment} {n : ScopeId} {scope : ScopeId} {home : Home}

theorem Grows.loose (h : Grows c log n b b') (hn : s < n)
    (hloose : ∀ d ∈ b.table.scopes.definitionsIn s, b.table.Loose c log d) :
    ∀ d ∈ b'.table.scopes.definitionsIn s, b'.table.Loose c log d := by
  obtain ⟨new, hnew, hloose'⟩ := h.definitions s hn
  rw [hnew]
  intro d hd
  exact (List.mem_append.mp hd).elim (fun hd => (hloose d hd).mono h.symbols) (hloose' d)

theorem Housed.mono (h : Housed c log b scope homes) (hgrows : Grows c log n b b')
    (hn : scope < n) : Housed c log b' scope homes := by
  induction h with
  | root hparent hsize hloose =>
    exact .root ((hgrows.parent 0 hsize).trans hparent) (Nat.lt_of_lt_of_le hsize hgrows.size)
      (hgrows.loose hn hloose)
  | code hparent hlt hsize hloose _ ih =>
    exact .code ((hgrows.parent _ hsize).trans hparent) hlt (Nat.lt_of_lt_of_le hsize hgrows.size)
      (hgrows.loose hn hloose) (ih (Nat.lt_trans hlt hn))
  | body hparent hlt hsize hplace hkey hhosts _ ih =>
    exact .body ((hgrows.parent _ hsize).trans hparent) hlt (Nat.lt_of_lt_of_le hsize hgrows.size)
      hplace hkey (hhosts.mono hgrows hn) (ih (Nat.lt_trans hlt hn))

theorem Housed.declared (h : Housed c log b scope homes) : ∀ home ∈ homes, c.Has home.place
    ∧ c.index.typeAt? c.number home.place = some home.key := by
  induction h with
  | root => exact fun home hhome => by cases hhome
  | code _ _ _ _ _ ih => exact ih
  | body _ _ _ hplace hkey _ _ ih => exact List.forall_mem_cons.mpr ⟨⟨hplace, hkey⟩, ih⟩

/-- What adds types and variables only, and stands where it stood, keeps a state settled. -/
theorem Settled.mono (h : Settled c log b homes)
    (hgrows : Grows c log b.table.scopes.size b b') (hready : b'.Ready) (hscope : b'.scope = b.scope)
    (hframes : b'.frames = b.frames) : Settled c log b' homes where
  ready := hready
  noted := hgrows.noted h.noted
  housed := hscope ▸ h.housed.mono hgrows h.ready.lt_size
  frames := hframes ▸ h.frames

theorem Settled.openScope (h : Settled c log b homes) (kind : ScopeKind) :
    Settled c log (b.openScope kind) homes := by
  have hgrows : Grows c log b.table.scopes.size b (b.openScope kind) := .openScope b kind
  refine
    { ready := h.ready.openScope kind
      noted := hgrows.noted h.noted
      housed := ?_
      frames := h.frames }
  refine .code (Scopes.parent?_openIn_self ..) h.ready.lt_size (h.ready.openScope kind).lt_size ?_
    (h.housed.mono hgrows h.ready.lt_size)
  have hempty : (b.openScope kind).table.scopes.definitionsIn b.table.scopes.size = [] :=
    h.noted.fresh _ (Nat.le_refl _)
  intro d hd
  rw [show (b.openScope kind).scope = b.table.scopes.size from rfl, hempty] at hd
  cases hd

end Around

/-! ## Bodies that are opened -/

/-- Inside of the body of a type, while what is visible throughout is declared: the type variables
and the members, by the steps so far. -/
structure Opening (c : BindingInput) (log : List Moment) (home : Home) (homes : List Home)
    (outer : ScopeId) (before : List Step) (b : Binder) : Prop where
  ready : b.Ready
  noted : b.Noted c
  place : c.Has home.place
  key : c.index.typeAt? c.number home.place = some home.key
  frames : b.frames.map (·.name) = home.key :: homes.map (·.key)
  parent : b.table.scopes.parent? b.scope = some outer
  lt : outer < b.scope
  housed : Housed c log b outer homes
  bound : ∀ name, .bindTypeVariable name ∈ before →
    ⟨.type, name, .typeVariable⟩ ∈ b.table.scopes.definitionsIn b.scope
  hosts : Hosts c log b b.scope (before.filterMap Step.member?)

namespace Opening

variable {c : BindingInput} {log : List Moment} {home : Home} {homes : List Home} {outer : ScopeId}
  {before steps : List Step} {s : Step} {b b' : Binder} {attempts : List Attempt} {visit : Visit}

section

variable (h : Opening c log home homes outer before b)

include h

theorem step (hgrows : Grows c log b.scope b b') (horderly : b.Orderly b' attempts)
    (hbound : ∀ name, s = .bindTypeVariable name →
      ⟨.type, name, .typeVariable⟩ ∈ b'.table.scopes.definitionsIn b.scope)
    (hhosts : Hosts c log b' b.scope ((before ++ [s]).filterMap Step.member?)) :
    Opening c log home homes outer (before ++ [s]) b' where
  ready := horderly.ready h.ready
  noted := hgrows.noted h.noted
  __ := h
  frames := horderly.frames ▸ h.frames
  parent := by
    rw [horderly.scope]
    exact (hgrows.parent _ h.ready.lt_size).trans h.parent
  lt := horderly.scope ▸ h.lt
  housed := h.housed.mono hgrows h.lt
  bound name hname := by
    rw [horderly.scope]
    rcases List.mem_append.mp hname with hname | hname
    · rw [horderly.scopes.definitionsIn]
      exact List.mem_append_left _ (h.bound name hname)
    · exact hbound name (List.mem_singleton.mp hname).symm
  hosts := horderly.scope ▸ hhosts

theorem declaredAt (hm : m ∈ c.membersIn home)
    (heq : aheadSteps c home.key home.place = before ++ .declareMember m :: steps) :
    DeclaredAt c m b := by
  obtain ⟨_, -, hchain⟩ := Scopes.exists_outward h.parent h.lt (Nat.le_of_lt h.ready.lt_size)
  refine ⟨h.noted.names, home, hm, h.place, h.key, innermost?_eq h.frames, fun name hname => ?_⟩
  exact Scopes.lookup?_ne_none (by rw [Scopes.chain, hchain]; exact List.mem_cons_self)
    (h.bound name (mem_of_aheadSteps_eq heq name hname))

end

/-- What is done ahead of the body declares type variables and members. -/
theorem runAll (hshaped : c.unit.shapedOK = true) (visit : Visit)
    (heq : aheadSteps c home.key home.place = before ++ steps)
    (h : Opening c log home homes outer before b) :
    Grows c log b.scope b (Step.runAll c visit steps b)
      ∧ Opening c log home homes outer (aheadSteps c home.key home.place)
        (Step.runAll c visit steps b) := by
  induction steps generalizing b before with
  | nil =>
    rw [Step.runAll, heq, List.append_nil]
    exact ⟨.of_eq rfl rfl rfl rfl rfl, h⟩
  | cons s steps ih =>
    rw [Step.runAll]
    have hs : s ∈ aheadSteps c home.key home.place := by simp [heq]
    have hfirst : Grows c log b.scope b (s.run c visit b) ∧ (s.run c visit b).scope = b.scope
        ∧ Opening c log home homes outer (before ++ [s]) (s.run c visit b) := by
      cases ahead_aheadSteps h.place home.key s hs with
      | @typeVariable name hname =>
        rw [Step.run]
        have horderly : b.Orderly (b.bind .type name .typeVariable) _ := .bind h.ready ..
        have hhosts := h.hosts.mono (.typeVariable h.ready hname) h.ready.lt_size
        refine ⟨.typeVariable h.ready hname, rfl, h.step (.typeVariable h.ready hname) horderly ?_
          (by simpa [List.filterMap_cons, Step.member?] using hhosts)⟩
        rintro _ ⟨⟩
        rw [horderly.scopes.definitionsIn, Binder.attempt, boundIn_singleton, if_pos rfl]
        exact List.mem_append_right _ (List.mem_singleton_self _)
      | @type _ name _ _ key hp hof hkey =>
        have hname := mem_typeDeclarations_of_typeDecl hp hof hkey
        rw [Step.run]
        have horderly : b.Orderly (b.declareType key (c.unit.text name)).1 _ :=
          .declareType h.ready ..
        have hhosts := h.hosts.mono (.declareType h.ready hname) h.ready.lt_size
        exact ⟨.declareType h.ready hname, horderly.scope, h.step (.declareType h.ready hname) horderly
          (fun _ hstep => by cases hstep) (by simpa [List.filterMap_cons, Step.member?] using hhosts)⟩
      | @member m hmade =>
        rw [Step.run]
        have hm := mem_membersOf_of_ahead hs
        have hformed := hmade.formed (parted_of_shapedOK hshaped)
        have hdeclared := h.declaredAt hm heq
        have hgrows : Grows c log b.scope b (b.declare m) := .declare h.ready (Nat.le_refl _)
          (BindingInput.mem_members h.place h.key hm) hformed hdeclared
        have horderly : b.Orderly (b.declare m) _ := .declare h.ready m
        have hhosts := h.hosts.declare h.ready hgrows hformed hdeclared
        exact ⟨hgrows, horderly.scope, h.step hgrows horderly (fun _ hstep => by cases hstep)
          (by simpa [List.filterMap_cons, Step.member?] using hhosts)⟩
    obtain ⟨hgrows, hscope, h'⟩ := hfirst
    obtain ⟨hgrows', h''⟩ := ih (by rw [heq, List.append_cons]) h'
    exact ⟨hgrows.trans (hscope ▸ hgrows'), h''⟩

end Opening

/-! ## Programs -/

/-- Nothing is about to be declared that is visible throughout a body. -/
def Binder.Moment.AtRest (m : Moment) : Prop := m.step.isAhead = false

instance (m : Moment) : Decidable m.AtRest := inferInstanceAs (Decidable (m.step.isAhead = false))

/-- Between two states only types and variables were added to the scopes, and the states at rest on
the way were settled. -/
structure Kept (c : BindingInput) (log : List Moment) (b b' : Binder) (ms : List Moment) : Prop where
  grows : Grows c log b.table.scopes.size b b'
  settled : ∀ m ∈ ms, m.AtRest → ∃ homes, Settled c log m.state homes

namespace Kept

variable {b₁ b₂ : Binder} {ms ms' : List Moment}

theorem trans (h : Kept c log b b₁ ms) (h' : Kept c log b₁ b₂ ms') :
    Kept c log b b₂ (ms ++ ms') where
  grows := h.grows.trans (h'.grows.mono h.grows.size)
  settled m hm := (List.mem_append.mp hm).elim (h.settled m) (h'.settled m)

theorem refl (b : Binder) : Kept c log b b [] where
  grows := .of_eq rfl rfl rfl rfl rfl
  settled m hm := by cases hm

/-- One step from a settled state. -/
theorem single (hb : Settled c log b homes) (step : Step)
    (h : Grows c log b.table.scopes.size b b₁) : Kept c log b b₁ [⟨step, b⟩] where
  grows := h
  settled m hm _ := by
    rw [List.mem_singleton.mp hm]
    exact ⟨homes, hb⟩

end Kept

section Ahead

variable {visit : Visit} {visitLog : Place → Binder → List Moment}

theorem not_atRest_ahead (hp : c.Has p) :
    ∀ m ∈ Step.momentsAll c visit visitLog (aheadSteps c key p) b, ¬ m.AtRest := by
  refine momentsAll_induction (P := fun _ _ ms => ∀ m ∈ ms, ¬ m.AtRest) (by simp)
    (fun h h' m hm => (List.mem_append.mp hm).elim (h m) (h' m)) (fun s hs b m hm => ?_) b
  cases ahead_aheadSteps hp key s hs <;>
    (rw [Step.moments, List.mem_singleton] at hm; rw [hm]; exact Bool.noConfusion)

end Ahead

section Programs

variable {log ms : List Moment} {visit : Visit} {visitLog : Place → Binder → List Moment}
  {attempts : Place → Binder → List Attempt} {owner : Option String} {frame : TypeFrame}
  {inside : Binder} {locals : List Place}

/-- Inside of the body of a type, once its members are declared. -/
theorem settled_ahead (hshaped : c.unit.shapedOK = true) (hp : c.Has p)
    (hkey : c.index.typeAt? c.number p = some key) (hb : Settled c log b homes)
    (hframe : frame.name = key)
    (hinside : inside = { b.openScope .typeBody with frames := frame :: b.frames }) :
    Grows c log b.table.scopes.size b (Step.runAll c visit (aheadSteps c key p) inside)
      ∧ Settled c log (Step.runAll c visit (aheadSteps c key p) inside) (⟨p, key⟩ :: homes) := by
  have hopened := hb.openScope .typeBody
  have hgrows : Grows c log b.table.scopes.size b inside :=
    (Grows.openScope b .typeBody).trans (hinside ▸ .of_eq rfl rfl rfl rfl rfl)
  have hscope : inside.scope = b.table.scopes.size := by rw [hinside]; rfl
  have hempty : inside.table.scopes.definitionsIn inside.scope = [] := by
    rw [hscope, hinside]
    exact hb.noted.fresh _ (Nat.le_refl _)
  have hopening : Opening c log ⟨p, key⟩ homes b.scope [] inside :=
    { ready := by
        rw [hinside]
        exact ⟨hopened.ready.lt_size, hopened.ready.isOpen, hopened.ready.unopened⟩
      noted := hgrows.noted hb.noted
      place := hp
      key := hkey
      frames := by rw [hinside, List.map_cons, hframe, hb.frames]
      parent := by
        rw [hscope, hinside]
        exact Scopes.parent?_openIn_self ..
      lt := by
        rw [hscope]
        exact hb.ready.lt_size
      housed := hb.housed.mono hgrows hb.ready.lt_size
      bound := fun name hname => by cases hname
      hosts :=
        { known := fun m hm => by cases hm
          methods := by rw [hempty]; rfl
          values := fun d hd => by rw [hempty] at hd; cases hd
          bound := fun m hm => by cases hm } }
  obtain ⟨hgrows', h⟩ := hopening.runAll hshaped visit rfl
  have hhosts := h.hosts
  rw [filterMap_member?_aheadSteps] at hhosts
  exact ⟨hgrows.trans (hscope ▸ hgrows'), h.ready, h.noted,
    .body h.parent h.lt h.ready.lt_size h.place h.key hhosts h.housed, h.frames⟩

/-- A traversal keeps the scopes around from a settled state on. -/
theorem Course.kept (hshaped : c.unit.shapedOK = true) (h : Course c owner locals b b' ms)
    (homes : List Home) (hb : Settled c log b homes) (hlog : ms ⊆ log) : Kept c log b b' ms := by
  -- a program leaves the traversal where it stood
  have hafter : ∀ {b b' : Binder} {homes : List Home}, Settled c log b homes →
      (b.Ready → ∃ log, b.Orderly b' log) → Grows c log b.table.scopes.size b b' →
      Settled c log b' homes := by
    intro b b' homes hb hdone hgrows
    obtain ⟨_, hdone⟩ := hdone hb.ready
    exact hb.mono hgrows (hdone.ready hb.ready) hdone.scope hdone.frames
  induction h generalizing homes with
  | idle owner b => exact .refl b
  | trans _ hdone _ ih ih' =>
    rw [List.append_subset] at hlog
    have hfirst := ih homes hb hlog.1
    exact hfirst.trans (ih' homes (hafter hb hdone hfirst.grows) hlog.2)
  | @visit _ p _ b _ ms _ _ _ ih =>
    have hvisited : Kept c log b b [⟨.visit p, b⟩] := .single hb _ (.of_eq rfl rfl rfl rfl rfl)
    exact hvisited.trans (ih homes hb (List.cons_subset.mp hlog).2)
  | name => exact .single hb _ (.give ..)
  | note => exact .single hb _ (.setType ..)
  | declare h hs =>
    cases h with
    | typeVariable hname =>
      rw [Step.run, Step.moments]
      exact .single hb _ (.typeVariable hb.ready hname)
    | type hp hof hkey =>
      rw [Step.run, Step.moments]
      exact .single hb _ (.declareType hb.ready (mem_typeDeclarations_of_typeDecl hp hof hkey))
    | member => exact absurd rfl (hs _)
  | parameter =>
    exact .single hb _ (.declareVariable hb.ready (hlog (List.mem_singleton_self _)) rfl ..)
  | localVariable _ _ _ hdone _ ih =>
    rw [List.append_subset] at hlog
    have hbefore := ih homes hb hlog.1
    have hb' := hafter hb hdone hbefore.grows
    exact hbefore.trans (.single hb' _ (.declareVariable hb'.ready
      (hlog.2 (List.mem_singleton_self _)) rfl ..))
  | @inScope _ _ b _ _ kind _ p steps ih =>
    have hopened : Kept c log b (b.openScope kind) [⟨.inScope p kind steps, b⟩] :=
      .single hb _ (.openScope b kind)
    have hinside := hopened.trans (ih homes (hb.openScope kind) (List.cons_subset.mp hlog).2)
    exact ⟨hinside.grows.trans (.closeScope ..), hinside.settled⟩
  | inMember _ _ ih | inSwitch _ ih =>
    have hinside := ih homes (hb.mono (.of_eq rfl rfl rfl rfl rfl)
      ⟨hb.ready.lt_size, hb.ready.isOpen, hb.ready.unopened⟩ rfl rfl) hlog
    refine ⟨.trans ?_ (hinside.grows.trans (.of_eq rfl rfl rfl rfl rfl)), hinside.settled⟩
    exact .of_eq rfl rfl rfl rfl rfl
  | @inType _ _ b _ _ _ p key hp hkey _ hframe _ hinside _ _ _ _ ih =>
    rw [List.cons_subset, List.append_subset] at hlog
    obtain ⟨hahead, hb'⟩ := settled_ahead hshaped hp hkey hb hframe hinside
    have hinside := ih (⟨p, key⟩ :: homes) hb' hlog.2.2
    refine ⟨(hahead.trans (hinside.grows.mono hahead.size)).trans
      (.of_eq rfl rfl rfl rfl rfl), fun m hm hrest => ?_⟩
    rcases List.mem_cons.mp hm with rfl | hm
    · exact ⟨homes, hb⟩
    · rcases List.mem_append.mp hm with hm | hm
      · exact absurd hrest (not_atRest_ahead hp m hm)
      · exact hinside.settled m hm hrest

theorem settled_empty (c : BindingInput) (log : List Moment) : Settled c log {} [] where
  ready := ready_empty
  noted :=
    { arity := fun id a ha => by simp at ha
      type := fun id type htype => by simp at htype
      names := fun scope d hd => by
        simp [Symbols.new, Scopes.new, Scopes.definitionsIn] at hd
      fresh := fun scope _ => by simp [Symbols.new, Scopes.new, Scopes.definitionsIn] }
  housed := .root rfl Nat.zero_lt_one fun d hd => by
    simp [Symbols.new, Scopes.new, Scopes.definitionsIn] at hd
  frames := rfl

/-- Whenever a traversal is at rest, its state is settled. -/
theorem exists_settled (hshaped : c.unit.shapedOK = true) {m : Moment} (hm : m ∈ moments c)
    (hrest : m.AtRest) : ∃ homes, Settled c (moments c) m.state homes :=
  ((course_moments c).kept hshaped [] (settled_empty c _) (List.Subset.refl _)).settled m hm hrest

end Programs

end Legible
