import Legible.Proofs.Binding.Mirrors

/-!
# Calls without a receiver

A call without a receiver means the only method in scope that takes so many arguments, if there is
only one, whatever the types of the arguments are. Otherwise it is looked up in the index, as a call
on `this` always is. The methods in scope are those that the bodies of the types around declare
(`map_methodsInScope`), so it is settled by the tree when the two kinds of calls differ
(`unqualified_call_target`).
-/

namespace Legible

open Binder

/-! ## Methods in scope -/

/-- The keys of those members that a call by the name with so many arguments can mean. -/
def callableKeys (name : String) (count : Nat) (ms : List Member) : List String :=
  ms.filterMap fun m =>
    if m.isCallable && m.name == name && m.arity.any (·.accepts count) then some m.key else none

/-- The place at which the type of the key is declared. -/
def BindingInput.placeOf? (c : BindingInput) (key : String) : Option Place :=
  c.unit.root.places.find? fun p => c.index.typeAt? c.number p == some key

/-- The keys of the methods of the name that take so many arguments, among those that the bodies of
the types around declare. -/
def Binder.methodsAround (c : BindingInput) (b : Binder) (name : String) (count : Nat) :
    List String :=
  b.frames.flatMap fun frame =>
    (c.placeOf? frame.name).toList.flatMap fun p =>
      callableKeys name count (c.membersOf frame.name p)

/-- The symbol of a binding, if it is that of a method that takes so many arguments. -/
def Binder.accepting (b : Binder) (count : Nat) (binding : Binding) : Option SymbolId :=
  match binding with
  | .symbol id =>
    match b.arities[id]? with
    | some arity => if arity.accepts count then some id else none
    | none => none
  | .typeVariable => none

section Scopes

variable {c : BindingInput} {log : List Moment} {b : Binder} {scope : ScopeId} {homes : List Home}
  {name : String} {count : Nat}

theorem Scopes.lookupIn_eq (g : Scopes) (scope : ScopeId) (space : Namespace) (name : String) :
    g.lookupIn scope space name = ((g.definitionsIn scope).filter (·.space = space)).filterMap
      fun d => if d.name == name then some d.binding else none := by
  rw [lookupIn, List.filterMap_filter]
  refine List.filterMap_congr fun d _ => ?_
  by_cases hspace : d.space = space <;> simp [hspace]

theorem methodsInScope_eq (b : Binder) (name : String) (count : Nat) :
    b.methodsInScope name count = (b.table.scopes.chain b.scope).flatMap fun s =>
      (b.table.scopes.lookupIn s .method name).filterMap (b.accepting count) := by
  rw [methodsInScope, Scopes.lookupAll, List.filterMap_flatMap]
  congr 1
  funext s
  rw [List.filterMap_map]
  rfl

/-- The scopes around, one after the other. -/
theorem Housed.flatMap_outward {α : Type} {f : ScopeId → List α} {F : Home → List α}
    (h : Housed c log b scope homes)
    (hcode : ∀ s, (∀ d ∈ b.table.scopes.definitionsIn s, b.table.Loose c log d) → f s = [])
    (hbody : ∀ s home, c.Has home.place → c.index.typeAt? c.number home.place = some home.key →
      Hosts c log b s (c.membersIn home) → f s = F home) {steps : Nat} (hsteps : scope ≤ steps) :
    (b.table.scopes.outward steps scope).flatMap f = homes.flatMap F := by
  induction h generalizing steps with
  | root hparent _ hloose => simp [Scopes.outward_eq_singleton hparent, hcode _ hloose]
  | code hparent hlt _ hloose _ ih =>
    obtain ⟨steps, hsteps, heq⟩ := Scopes.exists_outward hparent hlt hsteps
    rw [heq, List.flatMap_cons, hcode _ hloose, List.nil_append]
    exact ih hsteps
  | body hparent hlt _ hplace hkey hhosts _ ih =>
    obtain ⟨steps, hsteps, heq⟩ := Scopes.exists_outward hparent hlt hsteps
    rw [heq, List.flatMap_cons, List.flatMap_cons, hbody _ _ hplace hkey hhosts, ih hsteps]

theorem lookupIn_of_loose (h : ∀ d ∈ b.table.scopes.definitionsIn scope, b.table.Loose c log d) :
    b.table.scopes.lookupIn scope .method name = [] := by
  rw [Scopes.lookupIn_eq, List.filter_eq_nil_iff.mpr, List.filterMap_nil]
  intro d hd hmethod
  have hspace : d.space = .method := by simpa using hmethod
  rcases h d hd with htype | ⟨hvalue, -⟩
  · rw [hspace] at htype
    cases htype
  · rw [hspace] at hvalue
    cases hvalue

variable (hnoted : b.Noted c)
  (harities : ∀ m ∈ c.members, ∀ m' ∈ c.members, m.key = m'.key → m.arity = m'.arity)

include hnoted harities

theorem arity_of_knows {m : Member} (hm : m ∈ c.members) {id : SymbolId} (h : b.Knows c m id)
    (harity : m.arity ≠ none) : b.arities[id]? = m.arity := by
  obtain ⟨a, ha⟩ := Option.ne_none_iff_exists'.mp (h.arity harity)
  obtain ⟨s, hs, m', hm', hkey, ha'⟩ := hnoted.arity id a ha
  obtain ⟨s', hs', hkey'⟩ := Symbols.exists_symbol?_of_idOf? h.idOf?
  obtain rfl : s' = s := Option.some.inj (hs'.symm.trans hs)
  rw [ha, harities m hm m' hm' (hkey'.symm.trans hkey.symm), ha']

/-- What the scope of a body has for a call are the members of the type that it can mean. -/
theorem map_accepting_of_hosts {ms : List Member} {owner : String}
    (hmembers : ∀ m ∈ ms, m ∈ c.members) (hformed : ∀ m ∈ ms, m.Formed owner)
    (h : Hosts c log b scope ms) :
    ((b.table.scopes.lookupIn scope .method name).filterMap (b.accepting count)).map b.keyOfSymbol
      = callableKeys name count ms := by
  rw [Scopes.lookupIn_eq, h.methods, List.filterMap_filterMap, List.filterMap_filterMap,
    List.map_filterMap, callableKeys]
  refine List.filterMap_congr fun m hm => ?_
  cases hcall : m.isCallable with
  | false => simp [Symbols.methodOf?, hcall]
  | true =>
    obtain ⟨id, hid⟩ := h.known m hm
    have harity := (hformed m hm).arity_ne_none hcall
    obtain ⟨a, ha⟩ := Option.ne_none_iff_exists'.mp harity
    have hnote := arity_of_knows hnoted harities (hmembers m hm) hid harity
    obtain ⟨s, hs, hkey⟩ := Symbols.exists_symbol?_of_idOf? hid.idOf?
    by_cases hname : m.name = name
    · by_cases haccepts : a.accepts count = true
      · simp [Symbols.methodOf?, hcall, hid.idOf?, hname, Binder.accepting, hnote, ha, haccepts,
          Binder.keyOfSymbol, hs, hkey]
      · simp [Symbols.methodOf?, hcall, hid.idOf?, hname, Binder.accepting, hnote, ha, haccepts]
    · simp [Symbols.methodOf?, hcall, hid.idOf?, hname]

end Scopes

/-! ## The methods of the types around -/

section Around

variable {units : List SourceUnit} {c : BindingInput} {b : Binder} {homes : List Home}

/-- If no two types have one key, a type is declared where it is looked for. -/
theorem placeOf?_eq (hkeys : (typeKeys units).Nodup) (hc : c ∈ inputs units) {p : Place}
    {key : String} (hp : c.Has p) (hkey : c.index.typeAt? c.number p = some key) :
    c.placeOf? key = some p := by
  cases hfound : c.placeOf? key with
  | none =>
    have hnone := List.find?_eq_none.mp hfound p hp
    simp [hkey] at hnone
  | some q =>
    have hq : c.index.typeAt? c.number q = some key := by simpa using List.find?_some hfound
    rw [(eq_of_typeKeys_nodup hkeys hc hc hp (List.mem_of_find?_eq_some hfound) hkey hq).2]

/-- The types around are declared where the scopes have them. -/
theorem methodsAround_eq (hkeys : (typeKeys units).Nodup) (hc : c ∈ inputs units)
    (hframes : b.frames.map (·.name) = homes.map (·.key))
    (hhomes : ∀ home ∈ homes, c.Has home.place
      ∧ c.index.typeAt? c.number home.place = some home.key) (name : String) (count : Nat) :
    b.methodsAround c name count
      = homes.flatMap fun home => callableKeys name count (c.membersIn home) := by
  let keysOf : String → List String := fun key =>
    (c.placeOf? key).toList.flatMap fun p => callableKeys name count (c.membersOf key p)
  have hframe : b.methodsAround c name count = (b.frames.map (·.name)).flatMap keysOf := by
    rw [List.flatMap_map]
    rfl
  rw [hframe, hframes, List.flatMap_map]
  refine List.flatMap_congr fun home hhome => ?_
  obtain ⟨hp, hkey⟩ := hhomes home hhome
  simp [keysOf, placeOf?_eq hkeys hc hp hkey, BindingInput.membersIn]

/-- The methods in scope that take so many arguments are those that the bodies of the types around
declare. -/
theorem map_methodsInScope (hshaped : c.unit.shapedOK = true) (hkeys : (typeKeys units).Nodup)
    (hc : c ∈ inputs units)
    (harities : ∀ m ∈ c.members, ∀ m' ∈ c.members, m.key = m'.key → m.arity = m'.arity)
    {log : List Moment} (hb : Settled c log b homes) (name : String) (count : Nat) :
    (b.methodsInScope name count).map b.keyOfSymbol = b.methodsAround c name count := by
  rw [methodsInScope_eq, List.map_flatMap,
    methodsAround_eq hkeys hc hb.frames hb.housed.declared name count]
  refine hb.housed.flatMap_outward (fun s hloose => ?_) (fun s home hp hkey hhosts => ?_)
    (Nat.le_of_lt hb.ready.lt_size)
  · rw [lookupIn_of_loose hloose]
    rfl
  · exact map_accepting_of_hosts hb.noted harities
      (fun m hm => BindingInput.mem_members hp hkey hm)
      (fun m hm => formed_of_mem_membersOf hshaped hp hm) hhosts

end Around

/-! ## Calls -/

/-- The only one of the keys, if there is only one. -/
def onlyOr (default : String) : List String → String
  | [only] => only
  | _ => default

section Calls

variable {units : List SourceUnit} {c : BindingInput} {b : Binder} {owner name : String}
  {args : List (Option StaticType)} {info : TypeInfo} {mi : MethodInfo}

/-- If the type that is innermost has the method itself, its body declares it. -/
theorem mem_methodsAround (hunits : ∀ u ∈ units, u.shapedOK = true)
    (hkeys : (typeKeys units).Nodup) (hc : c ∈ inputs units) {homes : List Home}
    (hframes : b.frames.map (·.name) = homes.map (·.key))
    (hhomes : ∀ home ∈ homes, c.Has home.place
      ∧ c.index.typeAt? c.number home.place = some home.key) (howner : b.innermost? = some owner)
    (hfound : c.index.findMethod owner name args = .found info mi)
    (hinfo : info.qualifiedName = owner) (hname : name ≠ "<init>") :
    mi.key ∈ b.methodsAround c name args.length := by
  obtain ⟨hmem, hmi, hname'⟩ := Index.mem_of_findMethod hfound
  have haccepts := (Index.mem_pool (Index.mem_pool_of_findMethod hfound)).2
  rw [innermost?_eq hframes] at howner
  cases homes with
  | nil => cases howner
  | cons home homes =>
    have hkey : home.key = owner := Option.some.inj howner
    obtain ⟨hp, htype⟩ := hhomes home List.mem_cons_self
    obtain ⟨key, hkey'⟩ := Index.exists_of_mem_hierarchy hmem
    have hfirst : c.index.type? owner = some info := by
      obtain ⟨_, _, _, -, -, -, -, hqualified, heq⟩ :=
        exists_entry_of_type? hunits ((mem_inputs hc).2 ▸ hkey')
      have hsame : info.qualifiedName = key := (congrArg TypeInfo.qualifiedName heq).trans hqualified
      rwa [← hinfo, hsame]
    have hmirrors := mirrors_of_type? hunits hc hkeys hp htype (hkey ▸ hfirst)
    obtain ⟨m, hm, hmirror⟩ := (hmirrors.methods mi hmi).resolve_left (hname' ▸ hname)
    obtain ⟨a, ha, haccept⟩ := hmirror.arity
    rw [methodsAround_eq hkeys hc hframes hhomes, List.flatMap_cons]
    refine List.mem_append_left _ (List.mem_filterMap.mpr ⟨m, hm, ?_⟩)
    simp [hmirror.isCallable, hmirror.name, hname', ha, haccept, haccepts, hmirror.key]

theorem unqualifiedTarget_eq (howner : b.innermost? = some owner)
    (hfound : c.index.findMethod owner name args = .found info mi) :
    ∃ returns, b.unqualifiedTarget c name args
      = .found (onlyOr mi.key ((b.methodsInScope name args.length).map b.keyOfSymbol)) returns := by
  have hframes : targetInFrames? c name args b.frames = some (foundMethod c info mi) := by
    cases hframe : b.frames with
    | nil => simp [innermost?, hframe] at howner
    | cons frame frames =>
      have hname : frame.name = owner := by simpa [innermost?, hframe] using howner
      rw [targetInFrames?, hname, hfound]
  unfold unqualifiedTarget
  split
  · next id hid =>
      rw [hid]
      exact ⟨_, rfl⟩
  · next hnot =>
      rw [hframes]
      have honly : onlyOr mi.key ((b.methodsInScope name args.length).map b.keyOfSymbol)
          = mi.key := by
        unfold onlyOr
        split
        · next hsingle =>
            obtain ⟨id, hid, -⟩ := List.map_eq_singleton_iff.mp hsingle
            exact absurd hid (hnot id)
        · rfl
      rw [honly]
      exact ⟨_, rfl⟩

/-- A call without a receiver inside of a type finds a method whenever one on `this` does. It is the
same one, unless the bodies of the types around declare just one method of that name that takes so
many arguments: then it is that one. So it is the same one if the type declares it itself, and not
one of its supertypes. -/
theorem unqualified_call_target (hunits : ∀ u ∈ units, u.shapedOK = true)
    (hkeys : (typeKeys units).Nodup) (hc : c ∈ inputs units)
    (harities : ∀ m ∈ c.members, ∀ m' ∈ c.members, m.key = m'.key → m.arity = m'.arity)
    {m : Moment} (hm : m ∈ moments c) (hrest : m.AtRest)
    (howner : m.state.innermost? = some owner)
    (hfound : c.index.findMethod owner name args = .found info mi) :
    ∃ key returns, m.state.unqualifiedTarget c name args = .found key returns
      ∧ targetOn c { base := .known owner } name args = .found mi.key (c.index.returnType? info mi)
      ∧ key = onlyOr mi.key (m.state.methodsAround c name args.length)
      ∧ (info.qualifiedName = owner → name ≠ "<init>" → key = mi.key) := by
  have hshaped := hunits _ (List.mem_of_getElem? (mem_inputs hc).1)
  obtain ⟨homes, hsettled⟩ := exists_settled hshaped hm hrest
  obtain ⟨returns, htarget⟩ := unqualifiedTarget_eq howner hfound
  rw [map_methodsInScope hshaped hkeys hc harities hsettled] at htarget
  refine ⟨_, returns, htarget, ?_, rfl, fun hinfo hname => ?_⟩
  · simp [targetOn, StaticType.memberOwner?, hfound, foundMethod]
  · have hmem := mem_methodsAround hunits hkeys hc hsettled.frames hsettled.housed.declared howner
      hfound hinfo hname
    unfold onlyOr
    split
    · next honly =>
        rw [honly, List.mem_singleton] at hmem
        exact hmem.symm
    · rfl

end Calls

def CallTarget.key? : CallTarget → Option String
  | .found key _ => some key
  | _ => none

/-- A class with two methods of the name that it calls, neither of which takes the argument, and a
superclass with one that does. -/
def Sample.inheritedOverload : SourceUnit where
  path := "C.java"
  source := "class B\x7bvoid f(int i)\x7b\x7d\x7dclass C extends B\x7bvoid f(Object o)\x7b\x7dvoid f(B b)\x7b\x7dvoid g()\x7bf(1);\x7d\x7d"
  root := open Sample in
    node 0 "program" 0 89 none [
     node 1 "class_declaration" 0 24 none [mark 2 "class" 0 5, name 3 6 7 "name",
      node 4 "class_body" 7 24 (some "body") [mark 5 "\x7b" 7 8,
       node 6 "method_declaration" 8 23 none [node 7 "void_type" 8 12 (some "type") [],
        name 8 13 14 "name",
        node 9 "formal_parameters" 14 21 (some "parameters") [mark 10 "(" 14 15,
         node 11 "formal_parameter" 15 20 none [
          node 12 "integral_type" 15 18 (some "type") [mark 13 "int" 15 18], name 14 19 20 "name"],
         mark 15 ")" 20 21],
        node 16 "block" 21 23 (some "body") [mark 17 "\x7b" 21 22, mark 18 "\x7d" 22 23]],
       mark 19 "\x7d" 23 24]],
     node 20 "class_declaration" 24 89 none [mark 21 "class" 24 29, name 22 30 31 "name",
      node 23 "superclass" 32 41 (some "superclass") [mark 24 "extends" 32 39,
       node 25 "type_identifier" 40 41 none []],
      node 26 "class_body" 41 89 (some "body") [mark 27 "\x7b" 41 42,
       node 28 "method_declaration" 42 60 none [node 29 "void_type" 42 46 (some "type") [],
        name 30 47 48 "name",
        node 31 "formal_parameters" 48 58 (some "parameters") [mark 32 "(" 48 49,
         node 33 "formal_parameter" 49 57 none [node 34 "type_identifier" 49 55 (some "type") [],
          name 35 56 57 "name"], mark 36 ")" 57 58],
        node 37 "block" 58 60 (some "body") [mark 38 "\x7b" 58 59, mark 39 "\x7d" 59 60]],
       node 40 "method_declaration" 60 73 none [node 41 "void_type" 60 64 (some "type") [],
        name 42 65 66 "name",
        node 43 "formal_parameters" 66 71 (some "parameters") [mark 44 "(" 66 67,
         node 45 "formal_parameter" 67 70 none [node 46 "type_identifier" 67 68 (some "type") [],
          name 47 69 70 "name"], mark 48 ")" 70 71],
        node 49 "block" 71 73 (some "body") [mark 50 "\x7b" 71 72, mark 51 "\x7d" 72 73]],
       node 52 "method_declaration" 73 88 none [node 53 "void_type" 73 77 (some "type") [],
        name 54 78 79 "name",
        node 55 "formal_parameters" 79 81 (some "parameters") [mark 56 "(" 79 80,
         mark 57 ")" 80 81],
        node 58 "block" 81 88 (some "body") [mark 59 "\x7b" 81 82,
         node 60 "expression_statement" 82 87 none [
          node 61 "method_invocation" 82 86 none [name 62 82 83 "name",
           node 63 "argument_list" 83 86 (some "arguments") [mark 64 "(" 83 84,
            node 65 "decimal_integer_literal" 84 85 none [], mark 66 ")" 85 86]],
          mark 67 ";" 86 87], mark 68 "\x7d" 87 88]], mark 69 "\x7d" 88 89]]]

/-- The call means the inherited method. -/
theorem unqualified_call_target_inherited :
    let units := [Sample.inheritedOverload]
    let c : BindingInput := ⟨Sample.inheritedOverload, 0, Index.build units⟩
    let int : StaticType := { base := .primitive "int" }
    (∀ u ∈ units, u.shapedOK = true) ∧ (typeKeys units).Nodup ∧ c ∈ inputs units
      ∧ (∀ m ∈ c.members, ∀ m' ∈ c.members, m.key = m'.key → m.arity = m'.arity)
      ∧ ∃ m ∈ moments c, m.AtRest ∧ m.state.innermost? = some "C"
        ∧ m.state.methodsAround c "f" 1 = ["C.f(Object)", "C.f(B)"]
        ∧ ∃ info mi, c.index.findMethod "C" "f" [some int] = .found info mi ∧ mi.key = "B.f(int)"
          ∧ ∃ returns, m.state.unqualifiedTarget c "f" [some int] = .found "B.f(int)" returns := by
  intro units c int
  have hunits : ∀ u ∈ units, u.shapedOK = true := by decide +kernel
  have hkeys : (typeKeys units).Nodup := by decide +kernel
  have hc : c ∈ inputs units := mem_inputs_of_getElem? rfl
  have harities : ∀ m ∈ c.members, ∀ m' ∈ c.members, m.key = m'.key → m.arity = m'.arity := by
    decide +kernel
  obtain ⟨m, hm, hrest, howner, haround⟩ : ∃ m ∈ moments c, m.AtRest
      ∧ m.state.innermost? = some "C"
      ∧ m.state.methodsAround c "f" 1 = ["C.f(Object)", "C.f(B)"] := by
    decide +kernel
  obtain ⟨info, mi, hfound, hkey⟩ : ∃ info mi,
      c.index.findMethod "C" "f" [some int] = .found info mi ∧ mi.key = "B.f(int)" :=
    Index.exists_found_of_key? (by decide +kernel)
  obtain ⟨key, returns, htarget, -, honly, -⟩ :=
    unqualified_call_target hunits hkeys hc harities hm hrest howner hfound
  have hmeant : key = "B.f(int)" := by
    rw [honly, List.length_singleton, haround, hkey]
    rfl
  exact ⟨hunits, hkeys, hc, harities, m, hm, hrest, howner, haround, info, mi, hfound, hkey,
    returns, hmeant ▸ htarget⟩

/-- A class with one method of the name that it calls, which does not take the argument, and a
superclass with one that does. -/
def Sample.onlyOverload : SourceUnit where
  path := "C.java"
  source := "class B\x7bvoid f(int i)\x7b\x7d\x7dclass C extends B\x7bvoid f(Object o)\x7b\x7dvoid g()\x7bf(1);\x7d\x7d"
  root := open Sample in
    node 0 "program" 0 76 none [
     node 1 "class_declaration" 0 24 none [mark 2 "class" 0 5, name 3 6 7 "name",
      node 4 "class_body" 7 24 (some "body") [mark 5 "\x7b" 7 8,
       node 6 "method_declaration" 8 23 none [node 7 "void_type" 8 12 (some "type") [],
        name 8 13 14 "name",
        node 9 "formal_parameters" 14 21 (some "parameters") [mark 10 "(" 14 15,
         node 11 "formal_parameter" 15 20 none [
          node 12 "integral_type" 15 18 (some "type") [mark 13 "int" 15 18], name 14 19 20 "name"],
         mark 15 ")" 20 21],
        node 16 "block" 21 23 (some "body") [mark 17 "\x7b" 21 22, mark 18 "\x7d" 22 23]],
       mark 19 "\x7d" 23 24]],
     node 20 "class_declaration" 24 76 none [mark 21 "class" 24 29, name 22 30 31 "name",
      node 23 "superclass" 32 41 (some "superclass") [mark 24 "extends" 32 39,
       node 25 "type_identifier" 40 41 none []],
      node 26 "class_body" 41 76 (some "body") [mark 27 "\x7b" 41 42,
       node 28 "method_declaration" 42 60 none [node 29 "void_type" 42 46 (some "type") [],
        name 30 47 48 "name",
        node 31 "formal_parameters" 48 58 (some "parameters") [mark 32 "(" 48 49,
         node 33 "formal_parameter" 49 57 none [node 34 "type_identifier" 49 55 (some "type") [],
          name 35 56 57 "name"], mark 36 ")" 57 58],
        node 37 "block" 58 60 (some "body") [mark 38 "\x7b" 58 59, mark 39 "\x7d" 59 60]],
       node 40 "method_declaration" 60 75 none [node 41 "void_type" 60 64 (some "type") [],
        name 42 65 66 "name",
        node 43 "formal_parameters" 66 68 (some "parameters") [mark 44 "(" 66 67,
         mark 45 ")" 67 68],
        node 46 "block" 68 75 (some "body") [mark 47 "\x7b" 68 69,
         node 48 "expression_statement" 69 74 none [
          node 49 "method_invocation" 69 73 none [name 50 69 70 "name",
           node 51 "argument_list" 70 73 (some "arguments") [mark 52 "(" 70 71,
            node 53 "decimal_integer_literal" 71 72 none [], mark 54 ")" 72 73]],
          mark 55 ";" 73 74], mark 56 "\x7d" 74 75]], mark 57 "\x7d" 75 76]]]

/-- The call means the method that does not take the argument, and one on `this` the inherited. -/
theorem call_linked_to_only_overload :
    let c : BindingInput := ⟨Sample.onlyOverload, 0, Index.build [Sample.onlyOverload]⟩
    let int : StaticType := { base := .primitive "int" }
    Sample.onlyOverload.shapedOK = true ∧ (typeKeys [Sample.onlyOverload]).Nodup
      ∧ (c.index.findMethod "C" "f" [some int]).key? = some "B.f(int)"
      ∧ (∃ m ∈ moments c, m.AtRest ∧ m.state.innermost? = some "C"
        ∧ (m.state.unqualifiedTarget c "f" [some int]).key? = some "C.f(Object)")
      ∧ ∃ p ∈ Sample.onlyOverload.root.places, p.kind = "identifier"
        ∧ p.parentKind? = some "method_invocation"
        ∧ (Symbols.ofUnit .empty .preserve c).keyOf? p = some ("C.f(Object)", .valid) := by
  decide +kernel

end Legible
