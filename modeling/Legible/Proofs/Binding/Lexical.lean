import Legible.Proofs.Binding.Chains
import Legible.Proofs.Index.Origin

/-!
# Variables are lexically scoped

`Lexical` says of a table and of the log so far that the one is right as far as the other goes: what
is bound in the scope of a region was declared in that region, and a name that was resolved to a
variable sees its declaration. A program that is placed in the tree keeps this (`Placed.keeps`), so
the visits of all places do (`keeps_visit`), and so does the traversal of a unit
(`lexical_traverse`).
-/

namespace Legible

open Binder

variable {log : List Event} {k : Nat} {q p : Place} {id : SymbolId} {space : Namespace}
  {name key : String} {s : Symbol} {b : Binder} {t : Symbols}

/-! ## Tables and logs -/

/-- What a name is resolved to is a symbol, and if it is a variable the name sees it. -/
def Symbols.Shows (c : BindingInput) (t : Symbols) (earlier : List Event) (n : Place)
    (id : SymbolId) : Prop :=
  ∃ s, t.symbol? id = some s ∧ (s.kind.isVariable = true → ∃ d, Sees c earlier n d id)

/-- What is bound in a scope is a symbol, and if it is a variable it was declared in the region of
the scope. -/
def Symbols.Bound (c : BindingInput) (t : Symbols) (log : List Event) (scope : ScopeId)
    (space : Namespace) (name : String) (id : SymbolId) : Prop :=
  ∃ s, t.symbol? id = some s
    ∧ (space = .type → s.key.toList.getLast? ≠ some ')')
    ∧ (space = .value → s.kind.isVariable = true → ∃ d, .declared d id ∈ log
      ∧ c.unit.text d = name ∧ Chain c t.scopes log scope (c.regions d))

/-- The table is right as far as the log goes. What `G` says of keys holds of those by which names
are found elsewhere. -/
structure Lexical (c : BindingInput) (G : Nat → String → Prop) (t : Symbols) (log : List Event) :
    Prop where
  has : ∀ p, .visited p ∈ log → c.Has p
  paired : Paired log
  opened_lt : ∀ scope p, .opened scope p ∈ log → scope < t.scopes.size
  closed_lt : ∀ scope, t.scopes.isClosed scope = true → scope < t.scopes.size
  root : ∃ kind, t.scopes.opened[0]? = some ⟨none, kind⟩
  /-- The keys of variables are told from those of fields and types by their end. -/
  key : ∀ id s, t.symbol? id = some s → s.kind.isVariable = true → s.key.toList.getLast? = some ')'
  bound : ∀ scope space name id, ⟨space, name, .symbol id⟩ ∈ t.scopes.definitionsIn scope →
    t.Bound c log scope space name id
  declared : ∀ d id, .declared d id ∈ log → t.resolution? d = some (.symbol id)
    ∧ ∃ scope, Chain c t.scopes log scope (c.regions d)
      ∧ ⟨.value, c.unit.text d, .symbol id⟩ ∈ t.scopes.definitionsIn scope
  seen : ∀ later earlier n id, log = later ++ .visited n :: earlier →
    Construct.of n = .identifier → t.resolution? n = some (.symbol id) → t.Shows c earlier n id
  valid : ∀ p key, t.resolution? p = some (.member key .valid) → G p.number key

/-- Nothing was done yet at the place of a number. -/
structure Fresh (t : Symbols) (log : List Event) (k : Nat) : Prop where
  unresolved : t.resolutions[k]? = none
  opened : ∀ scope p, .opened scope p ∈ log → p.number ≠ k
  visited : ∀ p, .visited p ∈ log → Construct.of p = .identifier → p.number ≠ k

theorem Fresh.resolve (h : Fresh t log k) (hne : q.number ≠ k) (r : Resolution) :
    Fresh (t.resolve q r) log k where
  unresolved := by
    simpa [Symbols.resolve, Std.TreeMap.getElem?_insertIfNew, hne] using h.unresolved
  __ := h

theorem Fresh.note (h : Fresh t log k) (hne : Construct.of p = .identifier → p.number ≠ k) :
    Fresh t (.visited p :: log) k where
  unresolved := h.unresolved
  opened := by simpa using h.opened
  visited q hq hq' := by
    rcases List.mem_cons.mp hq with hq | hq
    · cases hq
      exact hne hq'
    · exact h.visited q hq hq'

namespace Symbols

variable {c : BindingInput} {t t' : Symbols} {log log' earlier : List Event} {n : Place}
  {scope : ScopeId}

theorem Shows.mono (h : t.Shows c earlier n id)
    (hsymbols : ∀ id s, t.symbol? id = some s → t'.symbol? id = some s) :
    t'.Shows c earlier n id := by
  obtain ⟨s, hs, hsees⟩ := h
  exact ⟨s, hsymbols id s hs, hsees⟩

theorem Bound.mono (h : t.Bound c log scope space name id)
    (hsymbols : ∀ id s, t.symbol? id = some s → t'.symbol? id = some s)
    (hparent : ∀ s outer, t.scopes.parent? s = some outer → t'.scopes.parent? s = some outer)
    (hlog : log ⊆ log') : t'.Bound c log' scope space name id := by
  obtain ⟨s, hs, htype, hvalue⟩ := h
  refine ⟨s, hsymbols id s hs, htype, fun hspace hkind => ?_⟩
  obtain ⟨d, hd, hname, hchain⟩ := hvalue hspace hkind
  exact ⟨d, hlog hd, hname, hchain.mono hparent hlog⟩

end Symbols

namespace Lexical

variable {c : BindingInput} {G : Nat → String → Prop} {t : Symbols} {log : List Event}
  {scope : ScopeId} {found : Found}

section

variable {d : Definition} (h : Lexical c G t log)

include h

/-- A place is visited whose name has no resolution. -/
theorem visited (hp : c.Has p) (hnone : Construct.of p = .identifier → t.resolution? p = none) :
    Lexical c G t (.visited p :: log) where
  has q hq := by
    rcases List.mem_cons.mp hq with hq | hq
    · cases hq
      exact hp
    · exact h.has q hq
  paired := ⟨by simpa using h.paired.place, by simpa using h.paired.scope⟩
  opened_lt := by simpa using h.opened_lt
  __ := h
  bound scope space name id hbound :=
    (h.bound scope space name id hbound).mono (fun _ _ hs => hs) (fun _ _ hs => hs)
      (List.subset_cons_self ..)
  declared d id hd := by
    obtain ⟨hr, scope, hchain, hbound⟩ := h.declared d id (by simpa using hd)
    exact ⟨hr, scope, hchain.mono (fun _ _ hs => hs) (List.subset_cons_self ..), hbound⟩
  seen later earlier n id hlog hof hr := by
    cases later with
    | nil =>
      cases hlog
      rw [hnone hof] at hr
      cases hr
    | cons e later =>
      cases hlog
      exact h.seen later earlier n id rfl hof hr

theorem opened (outer : ScopeId) (kind : ScopeKind)
    (hp : ∀ scope q, .opened scope q ∈ log → q.number ≠ p.number) :
    Lexical c G { t with scopes := t.scopes.openIn outer kind }
      (.opened t.scopes.size p :: log) := by
  have hgrows := Scopes.Grows.openIn t.scopes outer kind
  have hnone : ∀ q, .opened t.scopes.size q ∉ log := fun q hq =>
    Nat.lt_irrefl _ (h.opened_lt _ q hq)
  have hplace : ∀ scope, .opened scope p ∉ log := fun scope hin => hp scope p hin rfl
  refine
    { has := by simpa using h.has, paired := ⟨?_, ?_⟩, opened_lt := ?_, closed_lt := ?_, root := ?_,
      key := h.key, bound := ?_, declared := ?_, seen := ?_, valid := h.valid }
  · intro scope q q' hq hq'
    rcases List.mem_cons.mp hq with hq | hq <;> rcases List.mem_cons.mp hq' with hq' | hq'
    · cases hq
      cases hq'
      rfl
    · cases hq
      exact absurd hq' (hnone q')
    · cases hq'
      exact absurd hq (hnone q)
    · exact h.paired.place scope q q' hq hq'
  · intro scope scope' q hq hq'
    rcases List.mem_cons.mp hq with hq | hq <;> rcases List.mem_cons.mp hq' with hq' | hq'
    · cases hq
      cases hq'
      rfl
    · cases hq
      exact absurd hq' (hplace scope')
    · cases hq'
      exact absurd hq (hplace scope)
    · exact h.paired.scope scope scope' q hq hq'
  · intro scope q hq
    rw [Scopes.size_openIn]
    rcases List.mem_cons.mp hq with hq | hq
    · cases hq
      exact Nat.lt_succ_self _
    · exact Nat.lt_succ_of_lt (h.opened_lt scope q hq)
  · exact fun scope hscope => Nat.lt_of_lt_of_le (h.closed_lt scope hscope) hgrows.size
  · obtain ⟨first, hfirst⟩ := h.root
    have hlt := (Array.getElem?_eq_some_iff.mp hfirst).1
    exact ⟨first, by rw [Scopes.openIn, Array.getElem?_push, if_neg (Nat.ne_of_lt hlt), hfirst]⟩
  · intro scope space name id hbound
    exact (h.bound scope space name id hbound).mono (fun _ _ hs => hs) hgrows.parent
      (List.subset_cons_self ..)
  · intro d id hd
    obtain ⟨hr, scope, hchain, hbound⟩ := h.declared d id (by simpa using hd)
    exact ⟨hr, scope, hchain.mono hgrows.parent (List.subset_cons_self ..), hbound⟩
  · intro later earlier n id hlog hof hr
    cases later with
    | nil => cases hlog
    | cons e later =>
      cases hlog
      exact h.seen later earlier n id rfl hof hr

theorem closed (hscope : scope < t.scopes.size) :
    Lexical c G { t with scopes := t.scopes.close scope } log where
  __ := h
  closed_lt s hs := by
    rw [Scopes.isClosed_close, Bool.or_eq_true, beq_iff_eq] at hs
    rcases hs with rfl | hs
    · exact hscope
    · exact h.closed_lt s hs
  bound scope' space name id hbound :=
    (h.bound scope' space name id hbound).mono (fun _ _ hs => hs) (fun _ _ hs => hs)
      (List.Subset.refl _)
  declared d id hd := by
    obtain ⟨hr, scope', hchain, hbound⟩ := h.declared d id hd
    exact ⟨hr, scope', hchain.mono (fun _ _ hs => hs) (List.Subset.refl _), hbound⟩

/-- A symbol is added. -/
theorem added (hs : s.kind.isVariable = true → s.key.toList.getLast? = some ')') :
    Lexical c G (t.add s).1 log := by
  have hsymbols : ∀ id s', t.symbol? id = some s' → (t.add s).1.symbol? id = some s' :=
    fun _ _ hs' => Symbols.symbol?_add_of_symbol? s hs'
  have hkey : ∀ id s', (t.add s).1.symbol? id = some s' → s'.kind.isVariable = true →
      s'.key.toList.getLast? = some ')' := by
    intro id s' hs' hkind
    rcases Symbols.symbol?_add hs' with hs' | ⟨-, rfl⟩
    · exact h.key id s' hs' hkind
    · exact hs hkind
  rcases t.add_cases s with ⟨_, _, heq⟩ | ⟨_, heq⟩
  · rwa [heq]
  · rw [heq] at hsymbols hkey ⊢
    exact { h with
      key := hkey
      bound := fun scope space name id hbound => (h.bound scope space name id hbound).mono hsymbols
        (fun _ _ hs => hs) (List.Subset.refl _)
      seen := fun later earlier n id hlog hof hr =>
        (h.seen later earlier n id hlog hof hr).mono hsymbols }

theorem defined (hd : ∀ id, d.binding = .symbol id → t.Bound c log scope d.space d.name id) :
    Lexical c G (t.define scope d) log := by
  have hgrows := Scopes.Grows.define t.scopes scope d
  exact
    { has := h.has
      __ := h
      opened_lt := fun s p hp => Nat.lt_of_lt_of_le (h.opened_lt s p hp) hgrows.size
      closed_lt := fun s hs => by
        rw [Symbols.define, Scopes.isClosed_define] at hs
        exact Nat.lt_of_lt_of_le (h.closed_lt s hs) hgrows.size
      root := by
        obtain ⟨first, hfirst⟩ := h.root
        exact ⟨first, by rw [Symbols.define, Scopes.opened_define, hfirst]⟩
      bound := by
        intro scope' space name id hbound
        have hbound : t.Bound c log scope' space name id := by
          rcases Scopes.mem_define_iff.mp hbound with hbound | ⟨rfl, rfl, -⟩
          · exact h.bound scope' space name id hbound
          · exact hd id rfl
        exact hbound.mono (fun _ _ hs => hs) hgrows.parent (List.Subset.refl _)
      declared := by
        intro p id hp
        obtain ⟨hr, scope', hchain, hbound⟩ := h.declared p id hp
        exact ⟨hr, scope', hchain.mono hgrows.parent (List.Subset.refl _),
          hgrows.definitions _ _ hbound⟩
      valid := h.valid }

/-- A name is resolved. -/
theorem resolved {r : Resolution}
    (hseen : ∀ later earlier n id, log = later ++ .visited n :: earlier →
      Construct.of n = .identifier → n.number = q.number → r = .symbol id →
      t.Shows c earlier n id) (hvalid : ∀ key, r = .member key .valid → G q.number key) :
    Lexical c G (t.resolve q r) log where
  __ := h
  declared d id hd := by
    obtain ⟨hr, hscope⟩ := h.declared d id hd
    exact ⟨Symbols.resolution?_resolve_of_eq_some hr r, hscope⟩
  seen later earlier n id hlog hof hr := by
    rcases Symbols.resolution?_resolve_cases hr with hr | ⟨hnumber, heq⟩
    · exact h.seen later earlier n id hlog hof hr
    · exact hseen later earlier n id hlog hof hnumber.symm heq.symm
  valid p key hr := by
    rcases Symbols.resolution?_resolve_cases hr with hr | ⟨hnumber, heq⟩
    · exact h.valid p key hr
    · rw [← hnumber]
      exact hvalid key heq.symm

/-- A variable is declared in the innermost scope, and its name is resolved to it. -/
theorem declaredVariable (hp : Fresh t log p.number) (hid : ∃ s, t.symbol? id = some s)
    (hchain : Chain c t.scopes log scope (c.regions p)) (hopen : t.scopes.isClosed scope = false) :
    Lexical c G ((t.define scope ⟨.value, c.unit.text p, .symbol id⟩).resolve p (.symbol id))
      (.declared p id :: log) := by
  have hgrows := Scopes.Grows.define t.scopes scope ⟨.value, c.unit.text p, .symbol id⟩
  have hlog : log ⊆ .declared p id :: log := List.subset_cons_self ..
  have hresolved : Lexical c G (t.resolve p (.symbol id)) log := by
    refine h.resolved (fun later earlier n id' heq hof hnumber _ => ?_) (fun _ heq => by cases heq)
    exact absurd hnumber (hp.visited n (by simp [heq]) hof)
  refine
    { has := by simpa using h.has
      paired := ⟨by simpa using h.paired.place, by simpa using h.paired.scope⟩
      opened_lt := ?_, closed_lt := ?_, root := ?_, key := h.key, bound := ?_, declared := ?_
      seen := ?_, valid := hresolved.valid }
  · intro scope' q hq
    exact Nat.lt_of_lt_of_le (h.opened_lt scope' q (by simpa using hq)) hgrows.size
  · intro s hs
    rw [Symbols.resolve, Symbols.define, Scopes.isClosed_define] at hs
    exact Nat.lt_of_lt_of_le (h.closed_lt s hs) hgrows.size
  · obtain ⟨first, hfirst⟩ := h.root
    exact ⟨first, by rw [Symbols.resolve, Symbols.define, Scopes.opened_define, hfirst]⟩
  · intro scope' space name id' hbound
    rcases Scopes.mem_define_iff.mp hbound with hbound | ⟨heq, rfl, -⟩
    · exact (h.bound scope' space name id' hbound).mono (fun _ _ hs => hs) hgrows.parent hlog
    · cases heq
      obtain ⟨s, hs⟩ := hid
      exact ⟨s, hs, (fun hspace => by cases hspace), fun _ _ =>
        ⟨p, List.mem_cons_self .., rfl, hchain.mono hgrows.parent hlog⟩⟩
  · intro d id' hd
    rcases List.mem_cons.mp hd with hd | hd
    · cases hd
      refine ⟨?_, scope, hchain.mono hgrows.parent hlog,
        Scopes.mem_define_iff.mpr (.inr ⟨rfl, rfl, hopen⟩)⟩
      rw [Symbols.resolution?_resolve, if_pos ⟨rfl, hp.unresolved⟩]
    · obtain ⟨hr, scope', hchain', hbound⟩ := hresolved.declared d id' hd
      exact ⟨hr, scope', hchain'.mono hgrows.parent hlog, hgrows.definitions _ _ hbound⟩
  · intro later earlier n id' heq hof hr
    cases later with
    | nil => cases heq
    | cons e later =>
      cases heq
      exact hresolved.seen later earlier n id' rfl hof hr

theorem not_isVariable (hid : t.idOf? key = some id) (hkey : key.toList.getLast? ≠ some ')') :
    ∃ s, t.symbol? id = some s ∧ s.kind.isVariable = false := by
  obtain ⟨s, hs, rfl⟩ := Symbols.exists_symbol?_of_idOf? hid
  refine ⟨s, hs, ?_⟩
  by_contra hkind
  exact hkey (h.key id s hs (by simpa using hkind))

end

theorem shows_of_target (h : Lexical c G b.table log) (htarget : b.target key found = .symbol id)
    (hkey : key.toList.getLast? ≠ some ')') (earlier : List Event) (n : Place) :
    b.table.Shows c earlier n id := by
  unfold target at htarget
  split at htarget
  · next hid =>
      cases htarget
      obtain ⟨s, hs, hkind⟩ := h.not_isVariable hid hkey
      exact ⟨s, hs, fun hvar => by rw [hkind] at hvar; cases hvar⟩
  · cases htarget

end Lexical

/-! ## Programs -/

/-- The keys of types end in plain names. -/
def BindingInput.PlainTypes (c : BindingInput) : Prop :=
  ∀ p key, c.index.typeAt? c.number p = some key → isPlainName (Text.simpleName key) = true

namespace Trace

variable {c : BindingInput} {t t' t'' : Trace} {f : Trace → Trace} {R : List Region}

/-- Nothing that was there is lost, and the traversal stands where it stood. -/
structure Grows (t t' : Trace) : Prop where
  log : t.log ⊆ t'.log
  symbols : ∀ id s, t.binder.table.symbol? id = some s → t'.binder.table.symbol? id = some s
  scopes : t.binder.table.scopes.Grows t'.binder.table.scopes
  scope : t'.binder.scope = t.binder.scope
  frames : t'.binder.frames = t.binder.frames

/-- The traversal stands inside of the regions. -/
structure Inside (c : BindingInput) (R : List Region) (t : Trace) : Prop where
  stands : Stands c t.binder.table.scopes t.log t.binder.scope R
  innermost : t.binder.innermost? = innermostType? R

theorem Grows.refl (t : Trace) : t.Grows t :=
  ⟨List.Subset.refl _, fun _ _ hs => hs, .refl _, rfl, rfl⟩

theorem Grows.trans (h : t.Grows t') (h' : t'.Grows t'') : t.Grows t'' where
  log := List.Subset.trans h.log h'.log
  symbols id s hs := h'.symbols id s (h.symbols id s hs)
  scopes := h.scopes.trans h'.scopes
  scope := h'.scope.trans h.scope
  frames := h'.frames.trans h.frames

theorem Inside.after (h : t.Inside c R) (hgrows : t.Grows t') : t'.Inside c R where
  stands := by
    rw [hgrows.scope]
    exact h.stands.mono hgrows.scopes hgrows.log
  innermost := by
    rw [← h.innermost, innermost?, innermost?, hgrows.frames]

/-- What is done inside of the regions `R` at the numbers `N` keeps the table right. -/
def Keeps (c : BindingInput) (G : Nat → String → Prop) (R : List Region) (N : List Nat)
    (f : Trace → Trace) : Prop :=
  ∀ t, Lexical c G t.binder.table t.log → t.Inside c R →
    (∀ k ∈ N, Fresh t.binder.table t.log k) →
    Lexical c G (f t).binder.table (f t).log ∧ t.Grows (f t)
      ∧ ∀ k ∉ N, Fresh t.binder.table t.log k → Fresh (f t).binder.table (f t).log k

namespace Keeps

variable {c : BindingInput} {G : Nat → String → Prop} {R : List Region} {N M : List Nat}
  {g : Trace → Trace} {h : Binder → Binder}

theorem append (hf : Keeps c G R N f) (hg : Keeps c G R M g) (hnodup : (N ++ M).Nodup) :
    Keeps c G R (N ++ M) fun t => g (f t) := by
  intro t hlex hin hfresh
  obtain ⟨hlex₁, hgrows₁, hfresh₁⟩ := hf t hlex hin fun k hk => hfresh k (List.mem_append_left _ hk)
  have hleft : ∀ k ∈ M, k ∉ N := fun k hk hkN => (List.disjoint_of_nodup_append hnodup) hkN hk
  obtain ⟨hlex₂, hgrows₂, hfresh₂⟩ := hg (f t) hlex₁ (hin.after hgrows₁) fun k hk =>
    hfresh₁ k (hleft k hk) (hfresh k (List.mem_append_right _ hk))
  refine ⟨hlex₂, hgrows₁.trans hgrows₂, fun k hk hk' => ?_⟩
  rw [List.mem_append, not_or] at hk
  exact hfresh₂ k hk.2 (hfresh₁ k hk.1 hk')

theorem mono (h : Keeps c G R N f) (hsub : N ⊆ M) : Keeps c G R M f := by
  intro t hlex hin hfresh
  obtain ⟨hlex', hgrows, hfresh'⟩ := h t hlex hin fun k hk => hfresh k (hsub hk)
  exact ⟨hlex', hgrows, fun k hk => hfresh' k fun hk' => hk (hsub hk')⟩

/-- What changes neither table nor log, nor where the traversal stands. -/
theorem quiet (htable : ∀ b, (h b).table = b.table) (hscope : ∀ b, (h b).scope = b.scope)
    (hframes : ∀ b, (h b).frames = b.frames) : Keeps c G R [] (map h) := by
  intro t hlex _ _
  have hsame : (map h t).binder.table = t.binder.table := htable t.binder
  rw [hsame]
  refine ⟨hlex, ⟨List.Subset.refl _, ?_, ?_, hscope _, hframes _⟩, fun k _ hk => hk⟩
  · rw [hsame]
    exact fun _ _ hs => hs
  · rw [hsame]
    exact .refl _

end Keeps

/-- What keeps the table right wherever it is done, and at no place. -/
def KeepsAnywhere (c : BindingInput) (G : Nat → String → Prop) (f : Trace → Trace) : Prop :=
  ∀ t, Lexical c G t.binder.table t.log →
    Lexical c G (f t).binder.table (f t).log ∧ t.Grows (f t)
      ∧ ∀ k, Fresh t.binder.table t.log k → Fresh (f t).binder.table (f t).log k

theorem KeepsAnywhere.keeps {G : Nat → String → Prop} (h : KeepsAnywhere c G f) (R : List Region) :
    Keeps c G R [] f := by
  intro t hlex _ _
  obtain ⟨hlex', hgrows, hfresh⟩ := h t hlex
  exact ⟨hlex', hgrows, fun k _ => hfresh k⟩

section Primitives

variable {c : BindingInput} {G : Nat → String → Prop} {R : List Region} {t t' : Trace}
  {q p access : Place} {space : Namespace} {owner : String} {kind : SymbolKind}
  {r : Option Resolution} {meaning : Binder → Option Resolution × Option StaticType}
  {g : Trace → Trace} {binding : Binding} {m : Member} {steps : List Step}
  {types : Option String × Option StaticType}

theorem setType_eq (b : Binder) (p : Place) (type : Option StaticType) :
    (b.setType p type).table = b.table ∧ (b.setType p type).scope = b.scope
      ∧ (b.setType p type).frames = b.frames := by
  cases type <;> exact ⟨rfl, rfl, rfl⟩

theorem give_eq (b : Binder) (q access : Place) (found : Option Resolution × Option StaticType) :
    (b.give q access found).table = found.1.elim b.table (b.table.resolve q)
      ∧ (b.give q access found).scope = b.scope
      ∧ (b.give q access found).frames = b.frames := by
  obtain ⟨r, type⟩ := found
  cases r <;> exact setType_eq _ access type

/-- A table in which a name may have been resolved. -/
theorem grows_of_elim (htable : t'.binder.table = r.elim t.binder.table (t.binder.table.resolve q))
    (hlog : t.log ⊆ t'.log) (hscope : t'.binder.scope = t.binder.scope)
    (hframes : t'.binder.frames = t.binder.frames) : t.Grows t' := by
  refine ⟨hlog, ?_, ?_, hscope, hframes⟩
  · rw [htable]
    cases r <;> exact fun _ _ hs => hs
  · rw [htable]
    cases r <;> exact .refl _

theorem keeps_name
    (hmeaning : ∀ (t : Trace) (key : String), Lexical c G t.binder.table t.log → t.Inside c R →
      (meaning t.binder).1 = some (.member key .valid) → G q.number key) :
    Keeps c G R [q.number] (map fun b => b.give q access (meaning b)) := by
  intro t hlex hin hfresh
  have hq := hfresh q.number (List.mem_singleton_self _)
  obtain ⟨htable, hscope, hframes⟩ := give_eq t.binder q access (meaning t.binder)
  have htable : (map (fun b => b.give q access (meaning b)) t).binder.table = _ := htable
  refine ⟨?_, grows_of_elim htable (List.Subset.refl _) hscope hframes, ?_⟩
  · rw [htable]
    cases hm : (meaning t.binder).1 with
    | none => exact hlex
    | some r =>
      refine hlex.resolved ?_ fun key hr => hmeaning t key hlex hin (hm.trans (congrArg some hr))
      intro later earlier n id hlog hof hnumber _
      exact absurd hnumber (hq.visited n (by simp [hlog]) hof)
  · intro k hk hfresh'
    rw [htable]
    cases (meaning t.binder).1 with
    | none => exact hfresh'
    | some r => exact hfresh'.resolve (fun heq => hk (by simp [heq])) r

/-! ## Declarations -/

theorem grows_declared (htable : t'.binder.table = t.binder.declared space s)
    (hlog : t.log ⊆ t'.log) (hscope : t'.binder.scope = t.binder.scope)
    (hframes : t'.binder.frames = t.binder.frames) : t.Grows t' := by
  refine ⟨hlog, ?_, ?_, hscope, hframes⟩
  · rw [htable]
    exact fun _ _ hs => Symbols.symbol?_add_of_symbol? s hs
  · rw [htable, declared, Symbols.define, Symbols.scopes_add]
    exact .define ..

theorem resolutions_declared (b : Binder) (space : Namespace) (s : Symbol) :
    (b.declared space s).resolutions = b.table.resolutions := by
  simp only [declared, Symbols.define, Symbols.add]
  split <;> rfl

theorem KeepsAnywhere.comp (hf : KeepsAnywhere c G f) (hg : KeepsAnywhere c G g) :
    KeepsAnywhere c G fun t => g (f t) := by
  intro t hlex
  obtain ⟨hlex₁, hgrows₁, hfresh₁⟩ := hf t hlex
  obtain ⟨hlex₂, hgrows₂, hfresh₂⟩ := hg (f t) hlex₁
  exact ⟨hlex₂, hgrows₁.trans hgrows₂, fun k hk => hfresh₂ k (hfresh₁ k hk)⟩

/-- Binding a name that stands for a symbol of the table. -/
theorem keepsAnywhere_bind
    (hbinding : ∀ (t : Trace) (id : SymbolId), Lexical c G t.binder.table t.log →
      binding = .symbol id → t.binder.table.Bound c t.log t.binder.scope space name id) :
    KeepsAnywhere c G (map fun b => b.bind space name binding) := by
  intro t hlex
  refine ⟨hlex.defined fun id heq => hbinding t id hlex heq, ?_, ?_⟩
  · exact ⟨List.Subset.refl _, fun _ _ hs => hs, .define .., rfl, rfl⟩
  · exact fun k hk => ⟨hk.unresolved, hk.opened, hk.visited⟩

/-- Declaring a symbol that is no variable. -/
theorem lexical_declared (hlex : Lexical c G t.binder.table t.log)
    (hkind : s.kind.isVariable = false)
    (hkey : space ≠ .method → s.key.toList.getLast? ≠ some ')') :
    Lexical c G (t.binder.declared space s) t.log := by
  have hadded : Lexical c G (t.binder.table.add s).1 t.log :=
    hlex.added fun hvar => by rw [hkind] at hvar; cases hvar
  refine hadded.defined fun id heq => ?_
  cases heq
  obtain ⟨s', hs', hkey', _⟩ := Symbols.exists_symbol?_add t.binder.table s
  refine ⟨s', hs', ?_, ?_⟩
  · rintro rfl
    rw [hkey']
    exact hkey nofun
  · rintro rfl hvar
    exact absurd (hadded.key _ s' hs' hvar) (by rw [hkey']; exact hkey nofun)

def memberSymbol (m : Member) : Symbol :=
  { key := m.key, kind := m.kind, declaredName := m.name, declaredType := m.declaredType }

/-- A member is declared under its name, and a component under that of its accessor too. -/
theorem declare_eq (m : Member) (b : Binder) :
    ((b.declare m).table = b.declared m.space (memberSymbol m)
        ∨ (b.declare m).table = (b.declared m.space (memberSymbol m)).define b.scope
          ⟨.method, m.name, .symbol (b.table.add (memberSymbol m)).2⟩)
      ∧ (b.declare m).scope = b.scope ∧ (b.declare m).frames = b.frames := by
  have hset (b : Binder) (id : SymbolId) (type : Option StaticType) :
      (b.setSymbolType id type).table = b.table ∧ (b.setSymbolType id type).scope = b.scope
        ∧ (b.setSymbolType id type).frames = b.frames := by
    cases type <;> exact ⟨rfl, rfl, rfl⟩
  unfold Binder.declare
  obtain ⟨htable, hscope, hframes⟩ := hset _ _ _
  rw [htable, hscope, hframes]
  cases m.accessor <;> cases m.arity
  · exact ⟨.inl rfl, rfl, rfl⟩
  · exact ⟨.inl rfl, rfl, rfl⟩
  · exact ⟨.inr rfl, rfl, rfl⟩
  · exact ⟨.inr rfl, rfl, rfl⟩

/-- A member that is declared is bound under its name. -/
theorem exists_bound_declare (m : Member) (hopen : b.table.scopes.isClosed b.scope = false) :
    ∃ binding, ⟨m.space, m.name, binding⟩ ∈ (b.declare m).table.scopes.definitionsIn b.scope := by
  have hbound : ⟨m.space, m.name, .symbol (b.table.add (memberSymbol m)).2⟩
      ∈ (b.declared m.space (memberSymbol m)).scopes.definitionsIn b.scope :=
    Scopes.mem_define_iff.mpr (.inr ⟨rfl, rfl, by rwa [Symbols.scopes_add]⟩)
  obtain ⟨htable | htable, -, -⟩ := declare_eq m b
  · rw [htable]
    exact ⟨_, hbound⟩
  · rw [htable]
    exact ⟨_, Scopes.mem_define_iff.mpr (.inl hbound)⟩

theorem keepsAnywhere_declare (hkind : m.kind.isVariable = false)
    (hkey : m.space ≠ .method → m.key.toList.getLast? ≠ some ')') :
    KeepsAnywhere c G (map (·.declare m)) := by
  intro t hlex
  have hlex' : Lexical c G (t.binder.declared m.space (memberSymbol m)) t.log :=
    lexical_declared hlex hkind hkey
  have hresolutions := resolutions_declared t.binder m.space (memberSymbol m)
  obtain ⟨htable | htable, hscope, hframes⟩ := declare_eq m t.binder
  · have htable : (map (·.declare m) t).binder.table = _ := htable
    refine ⟨by rwa [htable], grows_declared htable (List.Subset.refl _) hscope hframes, ?_⟩
    intro k hk
    rw [htable]
    exact ⟨by rw [hresolutions]; exact hk.unresolved, hk.opened, hk.visited⟩
  · have htable : (map (·.declare m) t).binder.table = _ := htable
    have hgrows : t.Grows (t.map fun b => { b with table := b.declared m.space (memberSymbol m) }) :=
      grows_declared rfl (List.Subset.refl _) rfl rfl
    refine ⟨?_, ⟨List.Subset.refl _, ?_, ?_, hscope, hframes⟩, ?_⟩
    · rw [htable]
      refine hlex'.defined fun id heq => ?_
      cases heq
      obtain ⟨s', hs', _⟩ := Symbols.exists_symbol?_add t.binder.table (memberSymbol m)
      exact ⟨s', hs', nofun, nofun⟩
    · rw [htable]
      exact hgrows.symbols
    · rw [htable]
      exact hgrows.scopes.trans (.define ..)
    · intro k hk
      rw [htable]
      exact ⟨by rw [Symbols.define, hresolutions]; exact hk.unresolved, hk.opened, hk.visited⟩

theorem keepsAnywhere_declareType (hplain : isPlainName (Text.simpleName key) = true) :
    KeepsAnywhere c G (map fun b => (b.declareType key name).1) := by
  intro t hlex
  rcases declareType_cases t.binder key name with ⟨_, _, heq⟩ | heq
  · have hsame : map (fun b => (b.declareType key name).1) t = t := by
      simp only [map, heq]
    rw [hsame]
    exact ⟨hlex, .refl t, fun _ hk => hk⟩
  · have htable : (map (fun b => (b.declareType key name).1) t).binder.table
        = t.binder.declared .type { key, kind := .type, declaredName := name } := by
      simp only [map, heq]
    refine ⟨?_, grows_declared htable (List.Subset.refl _) (by simp only [map, heq])
      (by simp only [map, heq]), ?_⟩
    · rw [htable]
      exact lexical_declared hlex rfl fun _ => getLast?_ne_of_plain_simpleName hplain
    · intro k hk
      rw [htable]
      exact ⟨by rw [resolutions_declared]; exact hk.unresolved, hk.opened, hk.visited⟩

/-- A step that declares, but no variable. -/
theorem keepsAnywhere_ahead (hparted : c.unit.Parted) (visit : Place → Trace → Trace)
    (hplain : c.PlainTypes) {s : Step} (h : Ahead c owner s) :
    KeepsAnywhere c G (exec c visit s) := by
  intro t hlex
  cases h with
  | typeVariable =>
    rw [exec]
    exact keepsAnywhere_bind (fun _ _ _ heq => by cases heq) t hlex
  | type hp hof hkey =>
    rw [exec]
    exact keepsAnywhere_declareType (hplain _ _ hkey) t hlex
  | member hmade =>
    rw [exec]
    cases hmade with
    | value hq _ hkind _ hkey =>
      exact keepsAnywhere_declare (by simp [hkind, SymbolKind.isVariable])
        (fun _ => hkey ▸ getLast?_append_ne _ (hq.isPlainName hparted)) t hlex
    | method _ _ hspace hkind =>
      exact keepsAnywhere_declare (by simp [hkind, SymbolKind.isVariable])
        (fun hne => absurd hspace hne) t hlex

theorem keepsAnywhere_aheadAll (hparted : c.unit.Parted) (visit : Place → Trace → Trace)
    (hplain : c.PlainTypes) (h : ∀ s ∈ steps, Ahead c owner s) :
    KeepsAnywhere c G (execAll c visit steps) := by
  induction steps with
  | nil =>
    intro t hlex
    rw [execAll_nil]
    exact ⟨hlex, .refl t, fun _ hk => hk⟩
  | cons s steps ih =>
    intro t hlex
    rw [execAll_cons]
    exact (keepsAnywhere_ahead hparted visit hplain (h s (List.mem_cons_self ..))).comp
      (ih fun s hs => h s (List.mem_cons_of_mem _ hs)) t hlex

/-! ## Variables -/

theorem variableId_eq (hkey : s.key = b.variableKey kind name) :
    variableId kind name b = (b.table.add s).2 := by
  rw [variableId, ← hkey, Symbols.add]
  cases b.table.idOf? s.key <;> rfl

theorem getLast?_variableKey (b : Binder) (kind : SymbolKind) (name : String) :
    (b.variableKey kind name).toList.getLast? = some ')' := by
  rw [variableKey_eq]
  exact getLast?_callKey ..

theorem keeps_declareVariable (hR : c.regions q = R) :
    Keeps c G R [q.number] (declareVariable c q kind types) := by
  intro t hlex hin hfresh
  have hq := hfresh q.number (List.mem_singleton_self _)
  have hbinder := binder_declareVariable (c := c) q kind types t
  rcases declareVariable_cases c q kind types.1 types.2 t.binder with
    ⟨hname, heq⟩ | ⟨hname, s, hkey, hs, htext, -, htable, hframes, hscope⟩
  · have hlog : (declareVariable c q kind types t).log = t.log := by
      simp [declareVariable, hname, map]
    have hsame : (declareVariable c q kind types t).binder = t.binder.resolve q .keep :=
      hbinder.trans heq
    refine ⟨?_, grows_of_elim (q := q) (r := some .keep) (by rw [hsame]; rfl)
      (by rw [hlog]; exact List.Subset.refl _) (by rw [hsame]; rfl) (by rw [hsame]; rfl), ?_⟩
    · rw [hlog, hsame]
      exact hlex.resolved (fun _ _ _ _ _ _ _ hr => by cases hr) (fun _ hr => by cases hr)
    · intro k hk hfresh'
      rw [hlog, hsame]
      exact hfresh'.resolve (fun heq => hk (by simp [heq])) _
  · have hlog : (declareVariable c q kind types t).log
        = .declared q (t.binder.table.add s).2 :: t.log := by
      simp [declareVariable, hname, map, note, variableId_eq hkey]
    have htable : (declareVariable c q kind types t).binder.table
        = (t.binder.declared .value s).resolve q (.symbol (t.binder.table.add s).2) := by
      rw [hbinder, htable]
    have hresolutions : (t.binder.table.add s).1.resolutions = t.binder.table.resolutions :=
      resolutions_declared t.binder .value s
    have hadded : Lexical c G (t.binder.table.add s).1 t.log :=
      hlex.added fun _ => by rw [hkey]; exact getLast?_variableKey ..
    have hgrows : t.Grows (t.map fun b => { b with table := b.declared .value s }) :=
      grows_declared rfl (List.Subset.refl _) rfl rfl
    obtain ⟨s', hs', -⟩ := Symbols.exists_symbol?_add t.binder.table s
    have hfresh₁ : Fresh (t.binder.table.add s).1 t.log q.number :=
      ⟨by rw [hresolutions]; exact hq.unresolved, hq.opened, hq.visited⟩
    refine ⟨?_, ⟨?_, ?_, ?_, ?_, ?_⟩, ?_⟩
    · rw [htable, hlog, declared, htext]
      refine hadded.declaredVariable hfresh₁ ⟨s', hs'⟩ ?_ ?_
      · rw [hR, Symbols.scopes_add]
        exact hin.stands.chain
      · rw [Symbols.scopes_add]
        exact hin.stands.isClosed
    · rw [hlog]
      exact List.subset_cons_self ..
    · rw [htable]
      exact hgrows.symbols
    · rw [htable]
      exact hgrows.scopes
    · rw [hbinder, hscope]
    · rw [hbinder, hframes]
    · intro k hk hfresh'
      rw [htable, hlog]
      refine Fresh.resolve ⟨?_, ?_, ?_⟩ (fun heq => hk (by simp [heq])) _
      · rw [resolutions_declared]
        exact hfresh'.unresolved
      · simpa using hfresh'.opened
      · simpa using hfresh'.visited

/-! ## Scopes -/

/-- The trace inside of a scope that is opened for the construct at `p`. -/
def enter (p : Place) (kind : ScopeKind) (t : Trace) : Trace :=
  (t.note (.opened t.binder.table.scopes.size p)).map (·.openScope kind)

theorem lexical_enter (kind : ScopeKind) (hlex : Lexical c G t.binder.table t.log)
    (hp : Fresh t.binder.table t.log p.number) :
    Lexical c G (t.enter p kind).binder.table (t.enter p kind).log :=
  hlex.opened t.binder.scope kind hp.opened

theorem fresh_enter (kind : ScopeKind) (hne : p.number ≠ k) (h : Fresh t.binder.table t.log k) :
    Fresh (t.enter p kind).binder.table (t.enter p kind).log k where
  unresolved := h.unresolved
  opened scope q hq := by
    rcases List.mem_cons.mp hq with hq | hq
    · cases hq
      exact hne
    · exact h.opened scope q hq
  visited q hq := h.visited q (by simpa [enter, note, map] using hq)

theorem scope_enter_lt (p : Place) (kind : ScopeKind) (t : Trace) :
    (t.enter p kind).binder.scope < (t.enter p kind).binder.table.scopes.size := by
  simp [enter, note, map, openScope, Scopes.openIn, Scopes.size]

theorem isClosed_enter (p : Place) (kind : ScopeKind) (hlex : Lexical c G t.binder.table t.log) :
    (t.enter p kind).binder.table.scopes.isClosed (t.enter p kind).binder.scope = false := by
  by_contra hclosed
  exact Nat.lt_irrefl _ (hlex.closed_lt t.binder.table.scopes.size (eq_true_of_ne_false hclosed))

/-- Inside of the scope the traversal stands in the region of the construct, once the fields of the
type are bound if it declares one. -/
theorem stands_enter (kind : ScopeKind) (hlex : Lexical c G t.binder.table t.log)
    (hin : t.Inside c R) (hgrows : (t.enter p kind).Grows t')
    (hfields : ∀ name ∈ c.unit.fieldNames p, ∃ binding,
      ⟨.value, name, binding⟩ ∈ t'.binder.table.scopes.definitionsIn t'.binder.scope) :
    Stands c t'.binder.table.scopes t'.log t'.binder.scope (c.region p :: R) := by
  have hopens : t.binder.table.scopes.Grows (t.enter p kind).binder.table.scopes :=
    .openIn t.binder.table.scopes t.binder.scope kind
  have hsize := scope_enter_lt p kind t
  rw [hgrows.scope] at hfields ⊢
  refine .inside (hgrows.log (List.mem_cons_self ..))
    (hgrows.scopes.parent _ _ (Scopes.parent?_openIn_self ..)) hin.stands.lt_size
    (Nat.lt_of_lt_of_le hsize hgrows.scopes.size)
    ((hgrows.scopes.isClosed _ hsize).trans (isClosed_enter p kind hlex)) hfields ?_
  exact hin.stands.mono (hopens.trans hgrows.scopes)
    (List.Subset.trans (List.subset_cons_self ..) hgrows.log)

/-- Leaving the scope the traversal is back where it stood. -/
theorem keeps_leave {kind : ScopeKind} (hlex' : Lexical c G t'.binder.table t'.log)
    (hgrows : (t.enter p kind).Grows t') :
    Lexical c G (t'.map (·.closeScope t.binder.scope)).binder.table
        (t'.map (·.closeScope t.binder.scope)).log
      ∧ t.Grows (t'.map (·.closeScope t.binder.scope)) := by
  have hopens : t.binder.table.scopes.Grows (t.enter p kind).binder.table.scopes :=
    .openIn t.binder.table.scopes t.binder.scope kind
  have hscope : t'.binder.scope = t.binder.table.scopes.size := hgrows.scope
  refine ⟨hlex'.closed ?_, ?_⟩
  · rw [hgrows.scope]
    exact Nat.lt_of_lt_of_le (scope_enter_lt p kind t) hgrows.scopes.size
  · refine ⟨List.Subset.trans (List.subset_cons_self ..) hgrows.log, hgrows.symbols, ?_, rfl,
      hgrows.frames⟩
    exact (hopens.trans hgrows.scopes).close (Nat.le_of_eq hscope.symm)

end Primitives

/-- Every key by which a name is found outside of the table is admitted. -/
def Admits (c : BindingInput) (G : Nat → String → Prop) : Prop :=
  ∀ R q meaning, c.Has q → Naming c R q meaning → ∀ (t : Trace) (key : String),
    Lexical c G t.binder.table t.log → t.Inside c R →
    (meaning t.binder).1 = some (.member key .valid) → G q.number key

end Trace

end Legible
