import Legible.Proofs.Binding.ValidKeys

/-!
# Local variables have symbols of their own

Symbols are told apart by their keys alone, and a second declaration with the key of an earlier one
is silently the same symbol. The key of a local variable is made of the member it belongs to, its
name and a number, which is the number of declarations of that name in that member so far
(`localKey`). So it has to be shown that no key of another kind has this form
(`not_isLocalKey_methodKey`), and that the numbers in use never exceed the counts
(`Binder.Numbered`). `localsAt` lists the local variables that are declared at some moments, and
`Counted` says of a part of a traversal how their keys go on from the counts before.
-/

namespace Legible

open Binder

variable {c : BindingInput} {key member member' name' owner : String} {q : Place} {m : Member}
  {l : LocalVariable} {n n' : Nat} {types : List String} {t t' : Symbols} {units : List SourceUnit}

/-! ## Keys of local variables -/

/-- Whether a text has none of the marks that keys are put together with. -/
def isKeyName (name : String) : Bool :=
  name.toList.all fun c => !(['.', '(', ')', '#'].contains c)

/-- The key of the local variable of a name in a member, by its number. -/
def localKey (member name : String) (n : Nat) : String :=
  callKey member name ("local#" ++ toString n)

def IsLocalKey (key : String) : Prop :=
  ∃ member name n, isKeyName name = true ∧ key = localKey member name n

theorem notMem_of_isKeyName {name : String} (h : isKeyName name = true) (mark : Char)
    (hmark : mark ∈ ['.', '(', ')', '#']) : mark ∉ name.toList := by
  intro hmem
  have := List.all_eq_true.mp h mark hmem
  simp [hmark] at this

theorem localKey_inj {name : String} (h : localKey member name n = localKey member' name' n')
    (hname : isKeyName name = true) (hname' : isKeyName name' = true) :
    member = member' ∧ name = name' ∧ n = n' := by
  obtain ⟨hmember, hsame, htail⟩ := callKey_inj h (notMem_of_isKeyName hname '.' (by simp))
    (notMem_of_isKeyName hname' '.' (by simp)) (Text.notMem_append_number (by decide) rfl n)
    (Text.notMem_append_number (by decide) rfl n')
  exact ⟨hmember, hsame, Nat.repr_inj.mp (by simpa using htail)⟩

theorem not_isLocalKey_of_getLast? (h : key.toList.getLast? ≠ some ')') : ¬ IsLocalKey key := by
  rintro ⟨member, name, n, -, rfl⟩
  exact h (getLast?_callKey ..)

theorem getLast?_dotted_ne (front : String) {name : String} (h : ')' ∉ name.toList) :
    (front ++ "." ++ name).toList.getLast? ≠ some ')' := by
  intro hlast
  have hlist : (front ++ "." ++ name).toList = front.toList ++ '.' :: name.toList := by simp
  rw [hlist, List.getLast?_append_of_ne_nil _ (by simp)] at hlast
  have hmem := List.mem_of_getLast? hlast
  simp [h] at hmem

/-- The number of a local variable follows the last number sign of its key, while in the key of a
method a dot does. -/
theorem not_isLocalKey_methodKey {name : String} (hname : isKeyName name = true)
    (htypes : ∀ type ∈ types, '#' ∉ type.toList) : ¬ IsLocalKey (methodKey owner name types) := by
  rintro ⟨member, name', n, -, heq⟩
  have hjoined : '#' ∉ (",".intercalate types).toList :=
    Text.notMem_intercalate (by decide) htypes
  rw [methodKey_eq] at heq
  generalize ",".intercalate types = joined at hjoined heq
  let rest := '.' :: (name.toList ++ '(' :: (joined.toList ++ [')']))
  have hrest : '#' ∉ rest := by
    simp [rest, hjoined, notMem_of_isKeyName hname '#']
  let front := member.toList ++ '.' :: (name'.toList ++ "(local".toList)
  have hlist : owner.toList ++ rest = front ++ '#' :: (Nat.toDigits 10 n ++ [')']) := by
    have hlist := congrArg String.toList heq
    rw [localKey, toList_callKey, toList_callKey] at hlist
    simpa [rest, front] using hlist
  -- the rest has no number sign, so it comes after the last one
  rcases List.append_eq_append_iff.mp hlist with ⟨mid, -, hmid⟩ | ⟨mid, -, hmid⟩
  · exact hrest (by rw [hmid]; simp)
  · cases mid with
    | nil => exact hrest (by rw [← show '#' :: _ = rest by simpa using hmid]; simp)
    | cons sign mid =>
      have hback : Nat.toDigits 10 n ++ [')'] = mid ++ rest := (List.cons.inj hmid).2
      have hdot : '.' ∈ Nat.toDigits 10 n ++ [')'] := by simp [hback, rest]
      have hdigit := Nat.isDigit_of_mem_toDigits (b := 10) (by decide) (by decide)
        (show '.' ∈ Nat.toDigits 10 n by simpa using hdot)
      cases hdigit

theorem not_isLocalKey_parameter (member : String) {name : String} (hname : isKeyName name = true) :
    ¬ IsLocalKey (callKey member name "param") := by
  rintro ⟨member', name', n, hname', heq⟩
  obtain ⟨-, -, htail⟩ := callKey_inj heq (notMem_of_isKeyName hname '.' (by simp))
    (notMem_of_isKeyName hname' '.' (by simp)) (by decide)
    (Text.notMem_append_number (by decide) rfl n)
  have := congrArg (·.toList.head?) htail
  simp at this

/-! ## Units whose names can be told apart in keys -/

namespace SourceUnit

/-- Names have none of the marks that keys are put together with, and types have no number sign. -/
def keyedOK (u : SourceUnit) : Bool :=
  u.root.places.all fun p =>
    (p.kind != "identifier" || isKeyName (u.text p))
      && ((qualifiedNameParents.contains p.kind && !inParameterList p)
        || (p.child? "name").all fun name => isKeyName (u.text name))
      && p.declaredType?.all fun type => !(u.typeText type).toList.contains '#'

end SourceUnit

section Keyed

variable {c : BindingInput} {owner type : String} {params : Place} (hkeyed : c.unit.keyedOK = true)

include hkeyed

theorem isKeyName_of_named (hq : c.Named q) : isKeyName (c.unit.text q) = true := by
  obtain ⟨hhas, hkind | ⟨p, hp, hname, hkind⟩⟩ := hq
  · have hok := List.all_eq_true.mp hkeyed q hhas
    simp only [hkind, Bool.and_eq_true] at hok
    simpa using hok.1.1
  · have hok := List.all_eq_true.mp hkeyed p hp
    simp only [hname, Bool.and_eq_true, Bool.or_eq_true] at hok
    rcases hok.1.2 with ⟨hqualified, hlist⟩ | hok
    · rcases hkind with hkind | hkind
      · exact absurd (by simpa using hqualified) hkind
      · simp [hkind] at hlist
    · simpa using hok

theorem notMem_parameterTypes (hparams : c.Has params)
    (htype : type ∈ c.unit.parameterTypes params) : '#' ∉ type.toList := by
  obtain ⟨p, hp, htype⟩ := List.mem_filterMap.mp htype
  obtain ⟨t, ht, rfl⟩ := Option.map_eq_some_iff.mp htype
  have hhas := hparams.child (Place.mem_children_of_mem_namedChildren (List.mem_of_mem_filter hp))
  have hok := List.all_eq_true.mp hkeyed p hhas
  simp only [ht, Bool.and_eq_true] at hok
  rw [String.toList_append, List.mem_append]
  rintro (hmem | hmem)
  · simp [hmem] at hok
  · rcases mem_brackets hmem with heq | heq <;> cases heq

theorem Binder.Member.Made.not_isLocalKey (h : m.Made c owner) : ¬ IsLocalKey m.key := by
  cases h with
  | value hq _ _ _ hkey =>
    rw [hkey]
    exact not_isLocalKey_of_getLast? (getLast?_dotted_ne owner
      (notMem_of_isKeyName (isKeyName_of_named hkeyed hq) ')' (by simp)))
  | @method p name hp hof _ _ _ hkey =>
    rcases hof with ⟨params, body, hof⟩ | hof
    · obtain ⟨-, hkind, hname, hparams⟩ := Construct.partsOf hof
      have hkind := hkind rfl
      rw [hkey, SourceUnit.memberKey, hof]
      refine not_isLocalKey_methodKey (isKeyName_of_named hkeyed
        (named_of_child? hp hname (by rw [hkind]; decide))) fun type htype => ?_
      simp only [SourceUnit.methodParameters, hkind] at htype
      cases params with
      | none => simp at htype
      | some params =>
        exact notMem_parameterTypes hkeyed (hp.role hparams.symm) (by simpa using htype)
    · have hparts := Construct.partsOf hof
      rw [hkey, SourceUnit.memberKey, hof]
      exact not_isLocalKey_methodKey (isKeyName_of_named hkeyed
        (named_of_child? hp hparts.2 (by rw [hparts.1]; decide))) (by simp)

theorem TypeKey.not_isLocalKey (h : TypeKey c.unit key) : ¬ IsLocalKey key := by
  refine not_isLocalKey_of_getLast? ?_
  cases h with
  | @named imports around p name body kind hp hof =>
    have hparts := Construct.partsOf hof
    have hname := notMem_of_isKeyName (isKeyName_of_named hkeyed
      (named_of_child? hp hparts.2.1 (notMem_of_typeDecl hof))) ')' (by simp)
    unfold Indexing.declaredName
    split
    · exact getLast?_dotted_ne _ hname
    · exact getLast?_dotted_ne _ hname
    · unfold Imports.qualify
      split
      · exact fun hlast => hname (List.mem_of_getLast? hlast)
      · exact getLast?_dotted_ne _ hname
  | numbered owner n =>
    exact getLast?_dotted_ne owner (Text.notMem_append_number (by decide) rfl n)

end Keyed

/-! ## Declarations of local variables -/

structure LocalVariable where
  place : Place
  member : String
  id : SymbolId
  key : String

namespace Binder.Moment

def local? (c : BindingInput) (m : Moment) : Option LocalVariable :=
  match m.step with
  | .declareVariable q .localVariable _ _ =>
    if c.unit.text q == "_" then none
    else some
      { place := q
        member := m.state.currentMember
        id := Trace.variableId .localVariable (c.unit.text q) m.state
        key := m.state.variableKey .localVariable (c.unit.text q) }
  | _ => none

def otherKey? (c : BindingInput) (m : Moment) : Option String :=
  match m.step with
  | .declareType key _ => some key
  | .declareMember member => some member.key
  | .declareVariable q .parameter _ _ =>
    if c.unit.text q == "_" then none
    else some (m.state.variableKey .parameter (c.unit.text q))
  | _ => none

end Binder.Moment

def localsAt (c : BindingInput) (log : List Moment) : List LocalVariable :=
  log.filterMap (·.local? c)

/-- The keys of all else that is declared at some moments. -/
def otherKeysAt (c : BindingInput) (log : List Moment) : List String :=
  log.filterMap (·.otherKey? c)

/-- Those of some local variables that have the name and belong to the member. -/
def localsOf (c : BindingInput) (member name : String) (locals : List LocalVariable) :
    List LocalVariable :=
  locals.filter fun l => l.member == member && c.unit.text l.place == name

@[simp] theorem localsAt_append (c : BindingInput) (log log' : List Moment) :
    localsAt c (log ++ log') = localsAt c log ++ localsAt c log' :=
  List.filterMap_append ..

@[simp] theorem otherKeysAt_append (c : BindingInput) (log log' : List Moment) :
    otherKeysAt c (log ++ log') = otherKeysAt c log ++ otherKeysAt c log' :=
  List.filterMap_append ..

@[simp] theorem localsOf_append (c : BindingInput) (member name : String)
    (locals locals' : List LocalVariable) : localsOf c member name (locals ++ locals')
      = localsOf c member name locals ++ localsOf c member name locals' :=
  List.filter_append ..

/-- The numbers in use do not exceed the counts. -/
def Binder.Numbered (b : Binder) : Prop :=
  ∀ member name n, isKeyName name = true → b.table.HasKey (localKey member name n) →
    n ≤ b.localCount member name

def Symbols.HasLocal (c : BindingInput) (t : Symbols) (l : LocalVariable) : Prop :=
  ∃ s, t.symbol? l.id = some s ∧ s.key = l.key ∧ s.kind = .localVariable
    ∧ s.declaredName = c.unit.text l.place

/-- Between two states the local variables were counted, and got the numbers next to come. -/
structure Counted (c : BindingInput) (b b' : Binder) (log : List Moment) : Prop where
  symbols : ∀ id s, b.table.symbol? id = some s → b'.table.symbol? id = some s
  numbered : b'.Numbered
  count : ∀ member name, b'.localCount member name
    = b.localCount member name + (localsOf c member name (localsAt c log)).length
  keys : ∀ member name, (localsOf c member name (localsAt c log)).map (·.key)
    = (List.range' (b.localCount member name + 1)
        (localsOf c member name (localsAt c log)).length).map (localKey member name)
  locals : ∀ l ∈ localsAt c log, isKeyName (c.unit.text l.place) = true ∧ b'.table.HasLocal c l
  others : ∀ key ∈ otherKeysAt c log, ¬ IsLocalKey key

theorem Symbols.HasLocal.mono (h : t.HasLocal c l)
    (hsymbols : ∀ id s, t.symbol? id = some s → t'.symbol? id = some s) : t'.HasLocal c l := by
  obtain ⟨s, hs, hrest⟩ := h
  exact ⟨s, hsymbols l.id s hs, hrest⟩

namespace Counted

variable {c : BindingInput} {b b₁ b₂ b₃ : Binder} {log log' : List Moment} {s : Symbol}

theorem trans (h : Counted c b b₁ log) (h' : Counted c b₁ b₂ log') :
    Counted c b b₂ (log ++ log') where
  symbols id s hs := h'.symbols id s (h.symbols id s hs)
  numbered := h'.numbered
  count member name := by
    rw [h'.count, h.count, localsAt_append, localsOf_append, List.length_append, Nat.add_assoc]
  keys member name := by
    rw [localsAt_append, localsOf_append, List.map_append, h.keys, h'.keys, h.count,
      List.length_append, ← List.range'_append_1, List.map_append, Nat.add_right_comm]
  locals l hl := by
    rw [localsAt_append, List.mem_append] at hl
    rcases hl with hl | hl
    · exact ⟨(h.locals l hl).1, (h.locals l hl).2.mono h'.symbols⟩
    · exact h'.locals l hl
  others key hkey := by
    rw [otherKeysAt_append, List.mem_append] at hkey
    exact hkey.elim (h.others key) (h'.others key)

/-- What is counted does not depend on where the traversal stands. -/
theorem congr (h : Counted c b₁ b₂ log) (hsymbols : b₁.table.symbols = b.table.symbols)
    (hcounts : b₁.localCounts = b.localCounts) (hsymbols' : b₃.table.symbols = b₂.table.symbols)
    (hcounts' : b₃.localCounts = b₂.localCounts) : Counted c b b₃ log := by
  have hsymbol : b₁.table.symbol? = b.table.symbol? := by
    unfold Symbols.symbol?
    rw [hsymbols]
  have hsymbol' : b₃.table.symbol? = b₂.table.symbol? := by
    unfold Symbols.symbol?
    rw [hsymbols']
  have hcount : b₁.localCount = b.localCount := by
    unfold localCount
    rw [hcounts]
  have hcount' : b₃.localCount = b₂.localCount := by
    unfold localCount
    rw [hcounts']
  exact
    { symbols := by rw [hsymbol', ← hsymbol]; exact h.symbols
      numbered := by unfold Numbered Symbols.HasKey; rw [hsymbol', hcount']; exact h.numbered
      count := by rw [hcount', ← hcount]; exact h.count
      keys := hcount ▸ h.keys
      locals := by unfold Symbols.HasLocal; rw [hsymbol']; exact h.locals
      others := h.others }

theorem refl (hb : b.Numbered) (hlocals : localsAt c log = []) (hothers : otherKeysAt c log = []) :
    Counted c b b log where
  symbols _ _ hs := hs
  numbered := hb
  count member name := by simp [hlocals, localsOf]
  keys member name := by simp [hlocals, localsOf]
  locals l hl := by simp [hlocals] at hl
  others key hkey := by simp [hothers] at hkey

/-- A change to neither symbols nor counts. -/
theorem of_eq (hb : b.Numbered) (hsymbols : b₁.table.symbols = b.table.symbols)
    (hcounts : b₁.localCounts = b.localCounts) (hlocals : localsAt c log = [])
    (hothers : otherKeysAt c log = []) : Counted c b b₁ log :=
  (refl hb hlocals hothers).congr rfl rfl hsymbols hcounts

/-- A symbol is added that is no local variable. -/
theorem other (hb : b.Numbered) (hs : ¬ IsLocalKey s.key)
    (hsymbols : b₁.table.symbols = (b.table.add s).1.symbols)
    (hcounts : b₁.localCounts = b.localCounts) (hlocals : localsAt c log = [])
    (hothers : otherKeysAt c log = [s.key]) : Counted c b b₁ log := by
  suffices hadded : Counted c b { b with table := (b.table.add s).1 } log from
    hadded.congr rfl rfl hsymbols hcounts
  refine
    { symbols := fun id s' hs' => Symbols.symbol?_add_of_symbol? s hs'
      numbered := fun member name n hname hkey => ?_
      count := fun member name => by simp [hlocals, localsOf, localCount]
      keys := fun member name => by simp [hlocals, localsOf]
      locals := fun l hl => by simp [hlocals] at hl
      others := fun key hkey => ?_ }
  · obtain ⟨id, s', hs', hkey⟩ := hkey
    rcases Symbols.symbol?_add hs' with hs' | ⟨-, rfl⟩
    · exact hb member name n hname ⟨id, s', hs', hkey⟩
    · exact absurd ⟨member, name, n, hname, hkey⟩ hs
  · rw [hothers, List.mem_singleton] at hkey
    exact hkey ▸ hs

theorem declareType (hb : b.Numbered) (hkey : ¬ IsLocalKey key) (name : String) :
    Counted c b (b.declareType key name).1 [⟨.declareType key name, b⟩] := by
  let s : Symbol := { key, kind := .type, declaredName := name }
  rcases b.declareType_cases key name with ⟨id, hid, heq⟩ | heq
  · have hadded : (b.table.add s).1 = b.table := by rw [Symbols.add, hid]
    exact other hb (s := s) hkey (by rw [heq, hadded]) (by rw [heq]) rfl rfl
  · exact other hb (s := s) hkey (by rw [heq]; rfl) (by rw [heq]) rfl rfl

theorem localCounts_declare (b : Binder) (m : Member) :
    (b.declare m).localCounts = b.localCounts := by
  unfold Binder.declare Binder.declareMember
  cases m.type b <;> cases m.accessor <;> cases m.arity <;> rfl

theorem declare (hb : b.Numbered) (hkey : ¬ IsLocalKey m.key) :
    Counted c b (b.declare m) [⟨.declareMember m, b⟩] :=
  other hb (s := Trace.memberSymbol m) hkey (Symbols.symbols_declare b m) (localCounts_declare b m)
    rfl rfl

/-! ## Variables -/

theorem localCounts_declareVariable (p : Place) (kind : SymbolKind) (declaredType : Option String)
    (type : Option StaticType) (b : Binder) :
    (b.declareVariable c p kind declaredType type).localCounts
      = if c.unit.text p = "_" ∨ kind = .parameter then b.localCounts
        else (b.countLocal b.currentMember (c.unit.text p)).localCounts := by
  unfold Binder.declareVariable
  by_cases hname : c.unit.text p = "_"
  · simp [hname, Binder.resolve]
  · by_cases hkind : kind = .parameter <;> cases type <;> simp [hname, hkind] <;> rfl

theorem localCount_countLocal (b : Binder) (member member' name name' : String) :
    (b.countLocal member name).localCount member' name' = b.localCount member' name'
      + if member = member' ∧ name = name' then 1 else 0 := by
  rw [localCount, Binder.countLocal, List.lookup_cons]
  by_cases hsame : member = member' ∧ name = name'
  · obtain ⟨rfl, rfl⟩ := hsame
    simp
  · have hne : ((member', name') == (member, name)) = false := by
      rw [beq_eq_false_iff_ne]
      intro heq
      exact hsame ⟨(congrArg Prod.fst heq).symm, (congrArg Prod.snd heq).symm⟩
    rw [hne, if_neg hsame]
    rfl

theorem parameter (hb : b.Numbered) (hq : isKeyName (c.unit.text q) = true)
    (types : Binder → Option String × Option StaticType) (before : List Step)
    (declaredType : Option String) (type : Option StaticType) :
    Counted c b (b.declareVariable c q .parameter declaredType type)
      [⟨.declareVariable q .parameter types before, b⟩] := by
  have hcounts := localCounts_declareVariable (c := c) q .parameter declaredType type b
  rcases b.declareVariable_cases c q .parameter declaredType type with
    ⟨hname, heq⟩ | ⟨hname, s, hkey, -, -, -, htable, -⟩
  · exact of_eq hb (by rw [heq]; rfl) (by rw [heq]; rfl) rfl
      (by simp [otherKeysAt, Moment.otherKey?, hname])
  · refine other hb (s := s) ?_ (by rw [htable]; rfl) (by simpa using hcounts) rfl
      (by simp [otherKeysAt, Moment.otherKey?, hname, hkey])
    rw [hkey, variableKey_eq]
    exact not_isLocalKey_parameter _ hq

theorem variableKey_local (b : Binder) (name : String) : b.variableKey .localVariable name
    = localKey b.currentMember name (b.localCount b.currentMember name + 1) :=
  variableKey_eq ..

/-- A local variable is declared with the number next to come, so its key is new. -/
theorem localVariable (hb : b.Numbered) (hq : isKeyName (c.unit.text q) = true)
    (types : Binder → Option String × Option StaticType) (before : List Step)
    (declaredType : Option String) (type : Option StaticType) :
    Counted c b (b.declareVariable c q .localVariable declaredType type)
      [⟨.declareVariable q .localVariable types before, b⟩] := by
  have hcounts := localCounts_declareVariable (c := c) q .localVariable declaredType type b
  rcases b.declareVariable_cases c q .localVariable declaredType type with
    ⟨hname, heq⟩ | ⟨hname, s, hkey, hkind, hdeclared, -, htable, -⟩
  · exact of_eq hb (by rw [heq]; rfl) (by rw [heq]; rfl)
      (by simp [localsAt, Moment.local?, hname]) rfl
  · rw [if_neg (by simp [hname])] at hcounts
    rw [variableKey_local] at hkey
    let l : LocalVariable := ⟨q, b.currentMember, (b.table.add s).2, s.key⟩
    have hlocals : localsAt c [⟨.declareVariable q .localVariable types before, b⟩] = [l] := by
      have hid := Trace.variableId_eq (hkey.trans (variableKey_local ..).symm)
      simp [localsAt, Moment.local?, hname, l, hkey, variableKey_local, hid]
    have hsymbols : ∀ id, (b.declareVariable c q .localVariable declaredType type).table.symbol? id
        = (b.table.add s).1.symbol? id := fun id => by rw [htable]; rfl
    have hcount : ∀ member name,
        (b.declareVariable c q .localVariable declaredType type).localCount member name
          = b.localCount member name
            + if b.currentMember = member ∧ c.unit.text q = name then 1 else 0 := fun member name => by
      rw [← localCount_countLocal, localCount, hcounts, localCount]
    have hof : ∀ member name, localsOf c member name [l]
        = if b.currentMember = member ∧ c.unit.text q = name then [l] else [] := fun member name => by
      by_cases hsame : b.currentMember = member ∧ c.unit.text q = name
      · simp [localsOf, l, hsame]
      · rw [if_neg hsame]
        simpa [localsOf, l] using hsame
    -- the key has a number that exceeds the count, so no symbol had it
    have hadded : (b.table.add s).1.symbol? (b.table.add s).2 = some s := by
      obtain ⟨s', hs', hkey', rfl | hold⟩ := Symbols.exists_symbol?_add b.table s
      · exact hs'
      · have hle := hb _ _ _ hq ⟨_, s', hold, hkey'.trans hkey⟩
        omega
    refine
      { symbols := fun id s' hs' => ?_
        numbered := fun member name n hname' hhas => ?_
        count := fun member name => ?_
        keys := fun member name => ?_
        locals := fun l' hl' => ?_
        others := fun key hkey => by cases hkey }
    · rw [hsymbols]
      exact Symbols.symbol?_add_of_symbol? s hs'
    · obtain ⟨id, s', hs', hkey'⟩ := hhas
      rw [hsymbols] at hs'
      rw [hcount]
      rcases Symbols.symbol?_add hs' with hs' | ⟨-, rfl⟩
      · exact Nat.le_trans (hb member name n hname' ⟨id, s', hs', hkey'⟩) (Nat.le_add_right ..)
      · obtain ⟨rfl, rfl, rfl⟩ := localKey_inj (hkey'.symm.trans hkey) hname' hq
        simp
    · rw [hcount, hlocals, hof]
      split <;> rfl
    · rw [hlocals, hof]
      split
      · next hsame =>
          obtain ⟨rfl, rfl⟩ := hsame
          simp [l, hkey]
      · rfl
    · rw [hlocals, List.mem_singleton] at hl'
      subst hl'
      exact ⟨hq, s, (hsymbols _).trans hadded, rfl, hkind, hdeclared⟩

end Counted

/-! ## Programs count local variables -/

section Programs

variable {c : BindingInput} {visit : Visit} {visitLog : Place → Binder → List Moment}
  {log ms log' : List Moment} {owner : Option String} {s : Step} {b b' : Binder}
  {names names' : List Place}

theorem counted_name (p access : Place) (meaning : Binder → Option Resolution × Option StaticType)
    (hb : b.Numbered) :
    Counted c b (b.give p access (meaning b)) [⟨.name p access meaning, b⟩] := by
  refine .of_eq hb (symbols_give ..) ?_ rfl rfl
  unfold Binder.give
  cases (meaning b).1 <;> cases (meaning b).2 <;> rfl

/-- What is done ahead of a body declares no local variable. -/
theorem Ahead.counted (hkeyed : c.unit.keyedOK = true)
    (htypes : ∀ p key, c.index.typeAt? c.number p = some key → TypeKey c.unit key) {owner : String}
    (h : Ahead c owner s) (b : Binder) (hb : b.Numbered) :
    Counted c b (s.run c visit b) (s.moments c visit visitLog b) := by
  cases h with
  | typeVariable =>
    rw [Step.run, Step.moments]
    exact .of_eq hb rfl rfl rfl rfl
  | type _ _ hkey =>
    rw [Step.run, Step.moments]
    exact .declareType hb ((htypes _ _ hkey).not_isLocalKey hkeyed) _
  | member hmade =>
    rw [Step.run, Step.moments]
    exact .declare hb (hmade.not_isLocalKey hkeyed)

/-- A traversal counts the local variables. -/
theorem Course.counted (hkeyed : c.unit.keyedOK = true)
    (htypes : ∀ p key, c.index.typeAt? c.number p = some key → TypeKey c.unit key)
    {locals : List Place} (h : Course c owner locals b b' ms) (hb : b.Numbered) :
    Counted c b b' ms := by
  induction h with
  | idle => exact .refl hb rfl rfl
  | trans _ _ _ ih ih' => exact (ih hb).trans (ih' (ih hb).numbered)
  | @visit _ p _ b _ _ _ _ _ ih =>
    have hvisited : Counted c b b [⟨.visit p, b⟩] := .refl hb rfl rfl
    exact hvisited.trans (ih hb)
  | name => exact counted_name _ _ _ hb
  | @note _ _ _ _ type _ b => cases htype : type b <;> exact .of_eq hb rfl rfl rfl rfl
  | declare h => exact h.counted hkeyed htypes _ hb
  | @parameter _ _ hq types => exact .parameter hb (isKeyName_of_named hkeyed hq) types [] _ _
  | @localVariable _ _ hq types _ _ _ _ _ _ before ih =>
    exact (ih hb).trans
      (.localVariable (ih hb).numbered (isKeyName_of_named hkeyed hq) types before _ _)
  | @inScope _ _ b _ _ kind _ p steps ih =>
    have hopened : Counted c b b [⟨.inScope p kind steps, b⟩] := .refl hb rfl rfl
    exact hopened.trans ((ih hb).congr rfl rfl rfl rfl)
  | inMember _ _ ih => exact (ih hb).congr rfl rfl rfl rfl
  | inSwitch _ ih => exact (ih hb).congr rfl rfl rfl rfl
  | @inType _ _ b inside _ _ p key hp _ _ _ _ hinside visit log _ steps ih =>
    have hopened : Counted c b b [⟨.inScope p .typeBody steps, b⟩] := .refl hb rfl rfl
    have hahead : Counted c inside (Step.runAll c visit (aheadSteps c key p) inside)
        (Step.momentsAll c visit log (aheadSteps c key p) inside) :=
      momentsAll_induction (P := fun b b' ms => b.Numbered → Counted c b b' ms)
        (fun _ hb => .refl hb rfl rfl) (fun h h' hb => (h hb).trans (h' (h hb).numbered))
        (fun s hs => (ahead_aheadSteps hp key s hs).counted hkeyed htypes) inside (hinside ▸ hb)
    subst hinside
    exact hopened.trans ((hahead.trans (ih hahead.numbered)).congr rfl rfl rfl rfl)

/-! ## Which local variables are declared -/

/-- The local variables that are declared at some moments are the named ones and those of the
constructs that are visited. -/
def Lists (c : BindingInput) (names : List Place) (log : List Moment) : Prop :=
  ∀ q, q ∈ (localsAt c log).map (·.place) ↔ c.unit.text q ≠ "_"
    ∧ (q ∈ names ∨ ∃ p b, ⟨.visit p, b⟩ ∈ log ∧ q ∈ p.localNames)

theorem Lists.append (h : Lists c names log) (h' : Lists c names' log') :
    Lists c (names ++ names') (log ++ log') := by
  intro q
  rw [localsAt_append, List.map_append, List.mem_append, h q, h' q]
  simp only [List.mem_append, or_and_right, exists_or]
  rw [← and_or_left, or_or_or_comm]

/-- Nothing is visited, and no local variable declared. -/
theorem Lists.none (hlocals : localsAt c log = []) (hvisits : ∀ p b, ⟨.visit p, b⟩ ∉ log) :
    Lists c [] log := by
  intro q
  simp [hlocals, hvisits]

theorem Ahead.lists {owner : String} (h : Ahead c owner s) (b : Binder) :
    Lists c [] (s.moments c visit visitLog b) := by
  cases h <;> rw [Step.moments] <;> exact .none rfl (by simp)

/-- A program declares the local variables that it names, and those of what it visits. -/
theorem Course.lists (h : Course c owner names b b' ms) : Lists c names ms := by
  induction h with
  | idle => exact .none rfl (by simp)
  | trans _ _ _ ih ih' => exact ih.append ih'
  | @visit _ p _ b _ ms _ _ _ ih =>
    intro q
    rw [localsAt, List.filterMap_cons]
    refine (ih q).trans (and_congr_right fun _ => ?_)
    constructor
    · rintro (hq | ⟨p', b', hmem, hq⟩)
      · exact .inr ⟨p, b, List.mem_cons_self, hq⟩
      · exact .inr ⟨p', b', List.mem_cons_of_mem _ hmem, hq⟩
    · rintro (hq | ⟨p', b', hmem, hq⟩)
      · cases hq
      · rcases List.mem_cons.mp hmem with heq | hmem
        · cases heq
          exact .inl hq
        · exact .inr ⟨p', b', hmem, hq⟩
  | name | note | parameter => exact .none rfl (by simp)
  | declare h => exact h.lists _
  | @localVariable _ q _ _ _ _ _ _ _ _ _ ih =>
    refine ih.append fun q' => ?_
    by_cases hname : c.unit.text q = "_"
    · simp only [localsAt, Moment.local?, hname, List.filterMap_cons]
      simpa using fun hne heq => hne (heq ▸ hname)
    · simp only [localsAt, Moment.local?, List.filterMap_cons]
      simpa [hname] using fun heq => heq ▸ hname
  | @inScope _ _ b _ _ kind _ p steps ih =>
    have hopened : Lists c [] [⟨.inScope p kind steps, b⟩] := .none rfl (by simp)
    exact hopened.append ih
  | @inType _ _ b inside _ _ p key hp _ _ _ _ _ visit log _ steps ih =>
    have hopened : Lists c [] [⟨.inScope p .typeBody steps, b⟩] := .none rfl (by simp)
    have hahead : ∀ b, Lists c [] (Step.momentsAll c visit log (aheadSteps c key p) b) :=
      momentsAll_induction (P := fun _ _ ms => Lists c [] ms) (fun _ => .none rfl (by simp))
        (fun h h' => h.append h') fun s hs => (ahead_aheadSteps hp key s hs).lists
    exact hopened.append ((hahead inside).append ih)
  | inMember _ _ ih | inSwitch _ ih => exact ih

end Programs

/-! ## The local variables of a unit -/

section Units

variable {c : BindingInput} {locals : List LocalVariable}

theorem numbered_empty : ({} : Binder).Numbered := by
  rintro member name n - ⟨id, s, hs, -⟩
  simp [Symbols.symbol?, Symbols.new] at hs

theorem counted_walked (hkeyed : c.unit.keyedOK = true)
    (htypes : ∀ p key, c.index.typeAt? c.number p = some key → TypeKey c.unit key) :
    Counted c {} (walked c) (moments c) :=
  (course_moments c).counted hkeyed htypes numbered_empty

theorem lists_moments (c : BindingInput) : Lists c [] (moments c) :=
  (course_moments c).lists

/-- Local variables have one key only if they have one name and belong to one member. So they have
distinct keys if those do that have one name and belong to one member. -/
theorem nodup_map_key (hkeys : ∀ member name, ((localsOf c member name locals).map (·.key)).Nodup)
    (hsame : ∀ l ∈ locals, ∀ l' ∈ locals, l.key = l'.key →
      l.member = l'.member ∧ c.unit.text l.place = c.unit.text l'.place) :
    (locals.map (·.key)).Nodup := by
  induction locals with
  | nil => exact List.nodup_nil
  | cons l locals ih =>
    rw [List.map_cons, List.nodup_cons]
    constructor
    · intro hmem
      obtain ⟨l', hl', hkey⟩ := List.mem_map.mp hmem
      have hof := hsame l' (List.mem_cons_of_mem l hl') l List.mem_cons_self hkey
      have hnodup := hkeys l.member (c.unit.text l.place)
      rw [localsOf, List.filter_cons_of_pos (by simp), List.map_cons, List.nodup_cons] at hnodup
      refine hnodup.1 (List.mem_map.mpr ⟨l', List.mem_filter.mpr ⟨hl', ?_⟩, hkey⟩)
      simp [hof.1, hof.2]
    · refine ih (fun member name => ?_) fun l hl l' hl' =>
        hsame l (List.mem_cons_of_mem _ hl) l' (List.mem_cons_of_mem _ hl')
      refine (hkeys member name).sublist (List.Sublist.map _ ?_)
      exact List.Sublist.filter _ (List.sublist_cons_self ..)

end Units

theorem hasLocal_ofUnit (h : (walked c).table.HasLocal c l) (d : Dictionary)
    (policy : NamingPolicy) : (Symbols.ofUnit d policy c).HasLocal c l := by
  obtain ⟨s, hs, hkey, hkind, hname⟩ := h
  have hfound : (Symbols.found c).symbol? l.id = some s := by
    rw [Symbols.symbol?_found]
    exact hs
  have hmap := Symbols.map_symbol?_ofUnit d policy c
    (f := fun s => (s.key, s.kind, s.declaredName)) (fun _ _ => rfl) l.id
  rw [hfound] at hmap
  obtain ⟨s', hs', heq⟩ := Option.map_eq_some_iff.mp hmap
  have heq : (s'.key, s'.kind, s'.declaredName) = (s.key, s.kind, s.declaredName) := heq
  simp only [Prod.mk.injEq] at heq
  exact ⟨s', hs', heq.1.trans hkey, heq.2.1.trans hkind, heq.2.2.trans hname⟩

/-- In a shaped unit the name of a local variable is resolved to its symbol. -/
theorem resolution?_of_mem_localsAt (hunits : ∀ u ∈ units, u.shapedOK = true)
    (hc : c ∈ inputs units) (hl : l ∈ localsAt c (moments c)) :
    (Symbols.found c).resolution? l.place = some (.symbol l.id) := by
  obtain ⟨hunit, hindex⟩ := mem_inputs hc
  obtain ⟨hrooted, hnests⟩ := rooted_build hunits
  rw [← hindex] at hrooted hnests
  have hlex := lexical_traverse (hunits _ (List.mem_of_getElem? hunit)) hrooted hnests
    (G := fun _ _ => True) fun _ _ _ _ _ _ _ _ _ _ => trivial
  obtain ⟨⟨step, b⟩, hm, hlocal⟩ := List.mem_filterMap.mp hl
  have hdeclared : .declared l.place l.id ∈ (Trace.of c).log := by
    rw [Trace.log_of, Trace.eventsAt, List.mem_reverse, List.mem_filterMap]
    refine ⟨_, hm, ?_⟩
    unfold Moment.local? at hlocal
    split at hlocal
    · next hstep =>
        subst hstep
        split at hlocal
        · cases hlocal
        · next hname =>
            cases hlocal
            simp [Trace.eventAt?, hname]
    · cases hlocal
  exact Symbols.resolution?_keepUnresolved_of_eq_some _ (hlex.declared _ _ hdeclared).1

/-- Local variables have symbols of their own. What is declared as a local variable are the names
that the visited constructs introduce, each with another key. The keys of one name in one member are
numbered from one on without a gap. Each of them is that of a local variable in the table of the
unit, and of nothing else that is declared. If the units are shaped, the name of each declaration is
linked to its key. -/
theorem local_variables_distinct {units : List SourceUnit} {c : BindingInput}
    (hc : c ∈ inputs units) (hkeyed : c.unit.keyedOK = true) (d : Dictionary)
    (policy : NamingPolicy) :
    let t := Symbols.ofUnit d policy c
    let locals := localsAt c (moments c)
    (∀ q, q ∈ locals.map (·.place) ↔ c.unit.text q ≠ "_"
        ∧ ∃ p, .visited p ∈ (Trace.of c).log ∧ q ∈ p.localNames)
      ∧ (locals.map (·.key)).Nodup
      ∧ (∀ member name, (localsOf c member name locals).map (·.key)
          = (List.range (localsOf c member name locals).length).map
            fun n => localKey member name (n + 1))
      ∧ (∀ l ∈ locals, t.HasLocal c l ∧ l.key ∉ otherKeysAt c (moments c))
      ∧ ((∀ u ∈ units, u.shapedOK = true) → ∀ l ∈ locals,
          t.keyOf? l.place = some (l.key, .valid)) := by
  intro t locals
  obtain ⟨hunit, hindex⟩ := mem_inputs hc
  have htypes := typesKeyed_build hunit
  rw [← hindex] at htypes
  have hcounted := counted_walked hkeyed htypes
  have hkeys : ∀ member name, (localsOf c member name locals).map (·.key)
      = (List.range (localsOf c member name locals).length).map
        fun n => localKey member name (n + 1) := by
    intro member name
    rw [hcounted.keys, List.range'_eq_map_range, List.map_map]
    refine List.map_congr_left fun n _ => ?_
    rw [Function.comp, show localCount {} member name = 0 from rfl, Nat.zero_add, Nat.add_comm]
  -- a key tells the member and the name that it was made of
  have hform : ∀ l ∈ locals, ∃ n, l.key = localKey l.member (c.unit.text l.place) n := by
    intro l hl
    have hmem : l.key ∈ (localsOf c l.member (c.unit.text l.place) locals).map (·.key) :=
      List.mem_map_of_mem (List.mem_filter.mpr ⟨hl, by simp⟩)
    rw [hkeys] at hmem
    obtain ⟨n, -, hn⟩ := List.mem_map.mp hmem
    exact ⟨n + 1, hn.symm⟩
  refine ⟨fun q => ?_, nodup_map_key (c := c) (fun member name => ?_) fun l hl l' hl' hkey => ?_,
    hkeys, fun l hl => ⟨hasLocal_ofUnit (hcounted.locals l hl).2 d policy, fun hother => ?_⟩,
    fun hunits l hl => ?_⟩
  · rw [lists_moments c q]
    simp [Trace.visited_mem_log]
  · rw [hkeys]
    refine List.Nodup.map_on (fun n hn n' _ heq => ?_) List.nodup_range
    obtain ⟨l, hl⟩ := List.exists_mem_of_length_pos (Nat.zero_lt_of_lt (List.mem_range.mp hn))
    obtain ⟨hl, hof⟩ := List.mem_filter.mp hl
    have hname : isKeyName name = true := by
      rw [← show c.unit.text l.place = name by simpa using (Bool.and_eq_true_iff.mp hof).2]
      exact (hcounted.locals l hl).1
    exact Nat.succ.inj (localKey_inj heq hname hname).2.2
  · obtain ⟨n, hn⟩ := hform l hl
    obtain ⟨n', hn'⟩ := hform l' hl'
    obtain ⟨hmember, hname, -⟩ := localKey_inj (hn.symm.trans (hkey.trans hn'))
      (hcounted.locals l hl).1 (hcounted.locals l' hl').1
    exact ⟨hmember, hname⟩
  · obtain ⟨n, hn⟩ := hform l hl
    exact hcounted.others _ hother ⟨_, _, n, (hcounted.locals l hl).1, hn⟩
  · obtain ⟨s, hs, hkey, -⟩ := hasLocal_ofUnit (hcounted.locals l hl).2 d policy
    have hresolved : t.resolution? l.place = some (.symbol l.id) :=
      (Symbols.resolution?_ofUnit d policy c _).trans (resolution?_of_mem_localsAt hunits hc hl)
    rw [Symbols.keyOf?, hresolved, ← hkey]
    simp only [t, hs, Option.map_some]

/-- A method with two blocks that declare a variable of one name. -/
def Sample.siblings : SourceUnit where
  path := "A.java"
  source := "class A\x7bvoid f()\x7b\x7bint x;\x7d\x7bint x;\x7d\x7d\x7d"
  root := open Sample in
    node 0 "program" 0 35 none [
     node 1 "class_declaration" 0 35 none [mark 2 "class" 0 5, name 3 6 7 "name",
      node 4 "class_body" 7 35 (some "body") [mark 5 "\x7b" 7 8,
       node 6 "method_declaration" 8 34 none [node 7 "void_type" 8 12 (some "type") [],
        name 8 13 14 "name",
        node 9 "formal_parameters" 14 16 (some "parameters") [mark 10 "(" 14 15, mark 11 ")" 15 16],
        node 12 "block" 16 34 (some "body") [mark 13 "\x7b" 16 17,
         node 14 "block" 17 25 none [mark 15 "\x7b" 17 18,
          node 16 "local_variable_declaration" 18 24 none [
           node 17 "integral_type" 18 21 (some "type") [mark 18 "int" 18 21],
           node 19 "variable_declarator" 22 23 (some "declarator") [name 20 22 23 "name"],
           mark 21 ";" 23 24], mark 22 "\x7d" 24 25],
         node 23 "block" 25 33 none [mark 24 "\x7b" 25 26,
          node 25 "local_variable_declaration" 26 32 none [
           node 26 "integral_type" 26 29 (some "type") [mark 27 "int" 26 29],
           node 28 "variable_declarator" 30 31 (some "declarator") [name 29 30 31 "name"],
           mark 30 ";" 31 32], mark 31 "\x7d" 32 33], mark 32 "\x7d" 33 34]],
       mark 33 "\x7d" 34 35]]]

/-- The two variables get the numbers one and two. -/
theorem local_variables_distinct_siblings :
    let c : BindingInput := ⟨Sample.siblings, 0, Index.build [Sample.siblings]⟩
    let locals := localsAt c (moments c)
    c ∈ inputs [Sample.siblings] ∧ c.unit.keyedOK = true
      ∧ locals.map (·.key) = ["A.f().x(local#1)", "A.f().x(local#2)"]
      ∧ ∀ l ∈ locals, (Symbols.ofUnit .empty .typeDerived c).keyOf? l.place = some (l.key, .valid) := by
  intro c locals
  have hc : c ∈ inputs [Sample.siblings] := mem_inputs_of_getElem? rfl
  have hkeyed : c.unit.keyedOK = true := by decide +kernel
  have hshaped : Sample.siblings.shapedOK = true := by decide +kernel
  obtain ⟨-, -, -, -, hlinked⟩ := local_variables_distinct hc hkeyed .empty .typeDerived
  exact ⟨hc, hkeyed, by decide +kernel, hlinked (List.forall_mem_singleton.mpr hshaped)⟩

/-- A class with a field, and a pattern for records that declares a variable of the same name. -/
def Sample.recordPattern : SourceUnit where
  path := "A.java"
  source := "class A\x7bint x;void f(Object o)\x7bif(o instanceof P(int x))\x7b\x7d\x7d\x7d"
  root := open Sample in
    node 0 "program" 0 60 none [
     node 1 "class_declaration" 0 60 none [mark 2 "class" 0 5, name 3 6 7 "name",
      node 4 "class_body" 7 60 (some "body") [mark 5 "\x7b" 7 8,
       node 6 "field_declaration" 8 14 none [
        node 7 "integral_type" 8 11 (some "type") [mark 8 "int" 8 11],
        node 9 "variable_declarator" 12 13 (some "declarator") [name 10 12 13 "name"],
        mark 11 ";" 13 14],
       node 12 "method_declaration" 14 59 none [node 13 "void_type" 14 18 (some "type") [],
        name 14 19 20 "name",
        node 15 "formal_parameters" 20 30 (some "parameters") [mark 16 "(" 20 21,
         node 17 "formal_parameter" 21 29 none [node 18 "type_identifier" 21 27 (some "type") [],
          name 19 28 29 "name"], mark 20 ")" 29 30],
        node 21 "block" 30 59 (some "body") [mark 22 "\x7b" 30 31,
         node 23 "if_statement" 31 58 none [mark 24 "if" 31 33,
          node 25 "parenthesized_expression" 33 56 (some "condition") [mark 26 "(" 33 34,
           node 27 "instanceof_expression" 34 55 none [name 28 34 35 "left",
            mark 29 "instanceof" 36 46,
            node 30 "record_pattern" 47 55 (some "pattern") [node 31 "identifier" 47 48 none [],
             node 32 "record_pattern_body" 48 55 none [mark 33 "(" 48 49,
              node 34 "record_pattern_component" 49 54 none [
               node 35 "integral_type" 49 52 none [mark 36 "int" 49 52],
               node 37 "identifier" 53 54 none []], mark 38 ")" 54 55]]], mark 39 ")" 55 56],
          node 40 "block" 56 58 (some "consequence") [mark 41 "\x7b" 56 57, mark 42 "\x7d" 57 58]],
         mark 43 "\x7d" 58 59]], mark 44 "\x7d" 59 60]]]

/-- The variable of the pattern is not declared, and its name is linked to the field. -/
theorem record_pattern_linked_to_field :
    let c : BindingInput := ⟨Sample.recordPattern, 0, Index.build [Sample.recordPattern]⟩
    Sample.recordPattern.keyedOK = true ∧ Sample.recordPattern.shapedOK = true
      ∧ (localsAt c (moments c)).isEmpty = true
      ∧ ∃ p ∈ Sample.recordPattern.root.places, ∃ q ∈ p.children,
        p.kind = "record_pattern_component" ∧ q.kind = "identifier"
          ∧ (Symbols.ofUnit .empty .preserve c).keyOf? q = some ("A.x", .valid) := by
  decide +kernel

end Legible
