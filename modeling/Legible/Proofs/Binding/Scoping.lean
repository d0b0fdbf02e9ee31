import Legible.Proofs.Binding.Lexical

/-!
# Variables are lexically scoped
-/

namespace Legible

open Binder Trace

variable {t : Symbols} {p : Place} {key : String}

/-! ## Programs -/

section Programs

variable {c : BindingInput} {G : Nat → String → Prop} {kind : ScopeKind}

/-- Every member that is declared is bound in the innermost scope. -/
theorem exists_bound_of_ahead (hparted : c.unit.Parted) (visit : Place → Trace → Trace)
    (hplain : c.PlainTypes) {owner : String} {steps : List Step}
    (h : ∀ s ∈ steps, Ahead c owner s) {m : Member} (hm : .declareMember m ∈ steps) {t : Trace}
    (hlex : Lexical c G t.binder.table t.log)
    (hsize : t.binder.scope < t.binder.table.scopes.size)
    (hopen : t.binder.table.scopes.isClosed t.binder.scope = false) :
    ∃ binding, ⟨m.space, m.name, binding⟩
      ∈ (execAll c visit steps t).binder.table.scopes.definitionsIn t.binder.scope := by
  induction steps generalizing t with
  | nil => cases hm
  | cons s steps ih =>
    obtain ⟨hlex₁, hgrows₁, -⟩ :=
      keepsAnywhere_ahead hparted visit hplain (h s (List.mem_cons_self ..)) t hlex
    have htail : ∀ s ∈ steps, Ahead c owner s := fun s hs => h s (List.mem_cons_of_mem _ hs)
    rw [execAll_cons]
    rcases List.mem_cons.mp hm with rfl | hm
    · obtain ⟨-, hgrows₂, -⟩ := keepsAnywhere_aheadAll hparted visit hplain htail _ hlex₁
      obtain ⟨binding, hbound⟩ := exists_bound_declare m hopen
      refine ⟨binding, hgrows₂.scopes.definitions _ _ ?_⟩
      rw [exec]
      exact hbound
    · rw [← hgrows₁.scope]
      refine ih htail hm hlex₁ ?_ ?_
      · rw [hgrows₁.scope]
        exact Nat.lt_of_lt_of_le hsize hgrows₁.scopes.size
      · rw [hgrows₁.scope, hgrows₁.scopes.isClosed _ hsize, hopen]

variable {visit : Place → Trace → Trace} {R : List Region} {N : List Nat} {steps : List Step}

theorem keeps_inScope (hcode : (Construct.of p).declaresType = false)
    (h : Keeps c G (⟨p, none⟩ :: R) N (execAll c visit steps)) (hp : p.number ∉ N) :
    Keeps c G R (p.number :: N) (exec c visit (.inScope p kind steps)) := by
  intro t hlex hin hfresh
  have hregion : c.region p = ⟨p, none⟩ := by simp [BindingInput.region, hcode]
  have hfields : c.unit.fieldNames p = [] := c.unit.fieldNames_of_declaresType hcode
  have hin' : (t.enter p kind).Inside c (⟨p, none⟩ :: R) := by
    refine ⟨?_, hin.innermost⟩
    rw [← hregion]
    exact stands_enter kind hlex hin (.refl _) fun name hname => by simp [hfields] at hname
  obtain ⟨hlex', hgrows, hfresh'⟩ := h (t.enter p kind)
    (lexical_enter kind hlex (hfresh _ (List.mem_cons_self ..))) hin' fun k hk =>
      fresh_enter kind (fun heq => hp (heq ▸ hk)) (hfresh k (List.mem_cons_of_mem _ hk))
  obtain ⟨hleft, hgrows'⟩ := keeps_leave hlex' hgrows
  rw [exec]
  refine ⟨hleft, hgrows', fun k hk hk' => ?_⟩
  rw [List.mem_cons, not_or] at hk
  have hlast := hfresh' k hk.2 (fresh_enter kind (fun heq => hk.1 heq.symm) hk')
  exact ⟨hlast.unresolved, hlast.opened, hlast.visited⟩

theorem keeps_inType (hshaped : c.unit.shapedOK = true) {frame : Binder → TypeFrame}
    (hplain : c.PlainTypes) (hhas : c.Has p) (htype : (Construct.of p).declaresType = true)
    (hkey : c.index.typeAt? c.number p = some key) (hframe : ∀ b, (frame b).name = key)
    (h : Keeps c G (⟨p, some key⟩ :: R) N (execAll c visit steps)) (hp : p.number ∉ N) :
    Keeps c G R (p.number :: N)
      (exec c visit (.inScope p kind [.inFrame frame (aheadSteps c key p ++ steps)])) := by
  have hparted := parted_of_shapedOK hshaped
  have hahead := ahead_aheadSteps hhas key
  intro t hlex hin hfresh
  have hregion : c.region p = ⟨p, some key⟩ := by simp [BindingInput.region, htype, hkey]
  have hlex₁ := lexical_enter kind hlex (hfresh _ (List.mem_cons_self ..))
  -- the members are declared ahead, so the fields are bound when the rest is done
  let inner := (t.enter p kind).map fun b => { b with frames := frame b :: b.frames }
  let ready := execAll c visit (aheadSteps c key p) inner
  obtain ⟨hlex₂, hgrows₂, hfresh₂⟩ :=
    keepsAnywhere_aheadAll hparted visit hplain hahead inner hlex₁
  have hgrows : (t.enter p kind).Grows
      (ready.map fun b => { b with frames := (t.enter p kind).binder.frames }) :=
    ⟨hgrows₂.log, hgrows₂.symbols, hgrows₂.scopes, hgrows₂.scope, rfl⟩
  have hin' : ready.Inside c (⟨p, some key⟩ :: R) := by
    refine ⟨?_, ?_⟩
    · have hstands := stands_enter kind hlex hin hgrows fun name hname => by
        obtain ⟨m, hm, hspace, rfl⟩ := exists_declareMember hshaped hhas key hname
        have hbound := exists_bound_of_ahead hparted visit hplain hahead hm
          (t := inner) hlex₁ (scope_enter_lt p kind t) (isClosed_enter p kind hlex)
        rw [hspace, ← hgrows₂.scope] at hbound
        exact hbound
      rw [hregion] at hstands
      exact hstands
    · rw [innermost?, hgrows₂.frames]
      simp [inner, map, innermostType?, hframe]
  obtain ⟨hlex₃, hgrows₃, hfresh₃⟩ := h ready hlex₂ hin' fun k hk =>
    hfresh₂ k (fresh_enter kind (fun heq => hp (heq ▸ hk)) (hfresh k (List.mem_cons_of_mem _ hk)))
  let done := (execAll c visit steps ready).map fun b => { b with frames := b.frames.tail }
  have hgrows' : (t.enter p kind).Grows done :=
    ⟨List.Subset.trans hgrows.log hgrows₃.log,
      fun id s hs => hgrows₃.symbols id s (hgrows.symbols id s hs),
      hgrows.scopes.trans hgrows₃.scopes, hgrows₃.scope.trans hgrows.scope,
      congrArg List.tail (hgrows₃.frames.trans hgrows₂.frames)⟩
  have hlex' : Lexical c G done.binder.table done.log := hlex₃
  obtain ⟨hleft, hgrows''⟩ := keeps_leave hlex' hgrows'
  have hexec : exec c visit (.inScope p kind [.inFrame frame (aheadSteps c key p ++ steps)]) t
      = done.map (·.closeScope t.binder.scope) := by
    rw [exec, execAll_cons, execAll_nil, exec, execAll_append]
    rfl
  rw [hexec]
  refine ⟨hleft, hgrows'', fun k hk hk' => ?_⟩
  rw [List.mem_cons, not_or] at hk
  have hlast := hfresh₃ k hk.2 (hfresh₂ k (fresh_enter kind (fun heq => hk.1 heq.symm) hk'))
  exact ⟨hlast.unresolved, hlast.opened, hlast.visited⟩

/-- What is placed in the tree keeps the table right, if the visits of places do. -/
theorem Placed.keeps (hshaped : c.unit.shapedOK = true) (hplain : c.PlainTypes) (hG : Admits c G)
    (hvisit : ∀ R q, c.At R q → Keeps c G R q.numbers (visit q))
    (h : Placed c R N steps) (hN : N.Nodup) : Keeps c G R N (execAll c visit steps) := by
  induction h with
  | nil =>
    intro t hlex _ _
    rw [execAll_nil]
    exact ⟨hlex, .refl t, fun _ _ hk => hk⟩
  | append h h' ih ih' =>
    have hrun := (ih (List.Nodup.of_append_left hN)).append (ih' (List.Nodup.of_append_right hN)) hN
    intro t
    rw [execAll_append]
    exact hrun t
  | mono h hsub ih =>
    obtain ⟨l, hperm, hsub'⟩ := hsub
    exact (ih (hperm.nodup_iff.mp (hN.sublist hsub'))).mono (List.Subperm.subset ⟨l, hperm, hsub'⟩)
  | visit hq =>
    intro t
    rw [execAll_cons, execAll_nil, exec]
    exact hvisit _ _ hq t
  | name hq h =>
    intro t
    rw [execAll_cons, execAll_nil, exec]
    exact keeps_name (hG _ _ _ hq (.linked h)) t
  | again h hq hmem hname hkey ih =>
    intro t hlex hin hfresh
    obtain ⟨hlex', hgrows, hfresh'⟩ := ih hN t hlex hin hfresh
    rw [execAll_append, execAll_cons, execAll_nil, Step.link, exec]
    refine ⟨?_, hgrows.trans ⟨List.Subset.refl _, fun _ _ hs => hs, .refl _, rfl, rfl⟩, ?_⟩
    · refine hlex'.resolved (fun _ earlier n id _ _ _ htarget =>
        hlex'.shows_of_target htarget hkey earlier n) fun key' htarget => ?_
      exact hG _ _ _ hq (.linked (.member hname)) _ key' hlex' (hin.after hgrows)
        (congrArg some htarget)
    · intro k hk hk'
      exact (hfresh' k hk hk').resolve (fun heq => hk (heq ▸ hmem)) _
  | note p type =>
    intro t
    rw [execAll_cons, execAll_nil, exec]
    exact Keeps.quiet (h := fun b => b.setType p (type b)) (fun b => (setType_eq b p (type b)).1)
      (fun b => (setType_eq b p (type b)).2.1) (fun b => (setType_eq b p (type b)).2.2) t
  | declare h =>
    intro t
    rw [execAll_cons, execAll_nil]
    exact (keepsAnywhere_ahead (parted_of_shapedOK hshaped) visit hplain h).keeps _ t
  | declareVariable h hq _ hkind ih =>
    intro t
    rw [execAll_cons, execAll_nil, exec]
    exact (ih (List.Nodup.of_append_left hN)).append
      (keeps_declareVariable (hq.regions hshaped)) hN t
  | inScope hp hcode h ih =>
    rw [List.nodup_cons] at hN
    intro t
    rw [execAll_cons, execAll_nil]
    exact keeps_inScope hcode (ih hN.2) hN.1 t
  | inType hp htype hkey hframe _ h ih =>
    rw [List.nodup_cons] at hN
    intro t
    rw [execAll_cons, execAll_nil]
    exact keeps_inType hshaped hplain hp htype hkey hframe (ih hN.2) hN.1 t
  | @inMember _ _ _ key hkey h ih =>
    intro t hlex hin hfresh
    rw [execAll_cons, execAll_nil, exec]
    obtain ⟨hlex', hgrows, hfresh'⟩ :=
      ih hN (t.map fun b => { b with members := key :: b.members }) hlex
        ⟨hin.stands, hin.innermost⟩ hfresh
    exact ⟨hlex', ⟨hgrows.log, hgrows.symbols, hgrows.scopes, hgrows.scope, hgrows.frames⟩, hfresh'⟩
  | inSwitch subject h ih =>
    intro t hlex hin hfresh
    rw [execAll_cons, execAll_nil, exec]
    obtain ⟨hlex', hgrows, hfresh'⟩ :=
      ih hN (t.map fun b => { b with switches := subject b :: b.switches }) hlex
        ⟨hin.stands, hin.innermost⟩ hfresh
    exact ⟨hlex', ⟨hgrows.log, hgrows.symbols, hgrows.scopes, hgrows.scope, hgrows.frames⟩, hfresh'⟩
  | choose test h h' ih ih' =>
    intro t
    rw [execAll_cons, execAll_nil, exec]
    split
    · exact ih hN t
    · exact ih' hN t

end Programs

/-! ## Names in expressions -/

/-- The types that are bound have keys that do not end like those of variables. -/
def Symbols.PlainTypes (t : Symbols) : Prop :=
  ∀ scope name id, ⟨.type, name, .symbol id⟩ ∈ t.scopes.definitionsIn scope →
    ∃ s, t.symbol? id = some s ∧ s.key.toList.getLast? ≠ some ')'

section Names

variable {c : BindingInput} {G : Nat → String → Prop} {units : List SourceUnit} {b : Binder}
  {log : List Event} {text : String} {n : Place} {id : SymbolId}

theorem Lexical.plainTypes (h : Lexical c G t log) : t.PlainTypes := by
  intro scope name id hd
  obtain ⟨s, hs, htype, -⟩ := h.bound scope .type name id hd
  exact ⟨s, hs, htype rfl⟩

section

variable (hrooted : c.index.Rooted units) (hnests : c.index.Nests units)
  (hplain : b.table.PlainTypes) (h : b.lookupType? c text = some (.known key))

include hrooted hnests hplain h

/-- A type that a text means is one that the table declares, or one that the index finds. -/
theorem declared_or_finds_of_lookupType? :
    (∃ id s, b.table.symbol? id = some s ∧ s.key = key ∧ key.toList.getLast? ≠ some ')')
      ∨ c.index.Finds units (Text.trim text) key := by
  rcases lookupType?_cases h with ⟨_, heq, hleads⟩ | ⟨_, heq, -⟩ | heq <;> cases heq
  refine (hrooted.bound_or_finds_of_leads hnests hleads).imp_left ?_
  rintro ⟨scope, id, hlookup, rfl⟩
  obtain ⟨s, hs, hlast⟩ := hplain _ _ _ (Scopes.mem_of_lookup? hlookup)
  have hkey : b.keyOfSymbol id = s.key := by simp [keyOfSymbol, hs]
  rw [hkey]
  exact ⟨id, s, hs, rfl, hlast⟩

theorem getLast?_of_lookupType? : key.toList.getLast? ≠ some ')' := by
  rcases declared_or_finds_of_lookupType? hrooted hnests hplain h with ⟨_, _, _, _, hkey⟩ | hfinds
  · exact hkey
  · exact getLast?_ne_of_plain_simpleName (hrooted.plain_of_finds hfinds)

end

theorem target_missing (b : Binder) (key : String) :
    b.target key .missing = .member key .missing := by
  cases b.table.idOf? key <;> simp [target]

/-- A name in an expression that is resolved to a symbol is found in the scopes, or by a key that is
not that of a variable. -/
theorem value_or_target_of_nameMeaning (hrooted : c.index.Rooted units)
    (hnests : c.index.Nests units) (hplain : b.table.PlainTypes)
    (h : (nameMeaning c n b).1 = some (.symbol id)) :
    (nameMeaning c n b = (some (.symbol id), b.symbolTypes[id]?)
        ∧ ∃ scope, b.table.scopes.lookup? b.scope .value (c.unit.text n) = some (scope, .symbol id))
      ∨ ∃ key, b.target key .valid = .symbol id ∧ key.toList.getLast? ≠ some ')' := by
  have hcases := nameMeaning_cases c b n
  generalize nameMeaning c n b = meaning at h hcases ⊢
  cases hcases with
  | none => cases h
  | keep => cases h
  | value hvalue =>
    cases h
    exact .inl ⟨rfl, _, hvalue⟩
  | caseLabel howner =>
    exact .inr ⟨_, Option.some.inj h, (hrooted.declares_of_enumsWith howner).1⟩
  | constant hfound | field hfound =>
    exact .inr ⟨_, Option.some.inj h, (hrooted.declares_of_findField? hfound).1⟩
  | type hkey =>
    exact .inr ⟨_, Option.some.inj h, getLast?_of_lookupType? hrooted hnests hplain hkey⟩
  | outerType =>
    rw [target_missing] at h
    cases h
  | missing =>
    rw [target_missing] at h
    cases h

/-- A name in an expression that is resolved to a variable sees it. -/
theorem shows_nameMeaning (hrooted : c.index.Rooted units) (hnests : c.index.Nests units)
    {t : Trace} (hlex : Lexical c G t.binder.table t.log) (hin : t.Inside c (c.regions n))
    (h : (nameMeaning c n t.binder).1 = some (.symbol id)) : t.binder.table.Shows c t.log n id := by
  rcases value_or_target_of_nameMeaning hrooted hnests hlex.plainTypes h with
    ⟨-, scope, hlookup⟩ | ⟨key, htarget, hkey⟩
  · obtain ⟨s, hs, -, hvalue⟩ := hlex.bound _ _ _ _ (Scopes.mem_of_lookup? hlookup)
    refine ⟨s, hs, fun hkind => ?_⟩
    obtain ⟨first, hfirst⟩ := hlex.root
    exact exists_sees hlex.paired (by rw [Scopes.parent?, hfirst]; rfl) hin.stands hlookup
      (hvalue rfl hkind) fun d id hd => (hlex.declared d id hd).2
  · exact hlex.shows_of_target htarget hkey ..

end Names

/-! ## Visits -/

section Visits

variable {c : BindingInput} {G : Nat → String → Prop} {units : List SourceUnit}

/-- A name in an expression is resolved right after it is visited, so it sees what is declared until
then. -/
theorem keeps_identifier (hrooted : c.index.Rooted units) (hnests : c.index.Nests units)
    (hG : Admits c G) (hp : c.Has p) (hof : Construct.of p = .identifier) :
    Keeps c G (c.regions p) [p.number] fun t =>
      (t.note (.visited p)).map fun b => b.give p p (nameMeaning c p b) := by
  intro t hlex hin hfresh
  have hp' := hfresh p.number (List.mem_singleton_self _)
  have hlex' : Lexical c G t.binder.table (.visited p :: t.log) :=
    hlex.visited hp fun _ => hp'.unresolved
  obtain ⟨htable, hscope, hframes⟩ := give_eq t.binder p p (nameMeaning c p t.binder)
  refine ⟨?_, grows_of_elim htable (List.subset_cons_self ..) hscope hframes, ?_⟩
  · show Lexical c G (t.binder.give p p (nameMeaning c p t.binder)).table _
    rw [htable]
    cases hr : (nameMeaning c p t.binder).1 with
    | none => exact hlex'
    | some r =>
      refine hlex'.resolved ?_ fun key heq =>
        hG _ _ _ hp (.identifier hof) t key hlex hin (hr.trans (congrArg some heq))
      intro later earlier n id hlog hn hnumber heq
      cases later with
      | nil =>
        cases hlog
        exact shows_nameMeaning hrooted hnests hlex hin (hr.trans (congrArg some heq))
      | cons e later =>
        obtain ⟨-, hlog⟩ := List.cons.inj hlog
        exact absurd hnumber (hp'.visited n (by simp [hlog]) hn)
  · intro k hk hk'
    have hne : p.number ≠ k := fun heq => hk (by simp [heq])
    show Fresh (t.binder.give p p (nameMeaning c p t.binder)).table _ k
    rw [htable]
    cases (nameMeaning c p t.binder).1 with
    | none => exact hk'.note fun _ => hne
    | some r => exact (hk'.note fun _ => hne).resolve hne r

/-- The visit of a place keeps the table right. -/
theorem keeps_visit (hshaped : c.unit.shapedOK = true) (hrooted : c.index.Rooted units)
    (hnests : c.index.Nests units) (hG : Admits c G) (levels : Nat) (R : List Region) (p : Place)
    (hp : c.At R p) : Keeps c G R p.numbers (Trace.visit c levels p) := by
  induction levels generalizing R p with
  | zero => exact fun t hlex _ _ => ⟨hlex, .refl t, fun _ _ hk => hk⟩
  | succ levels ih =>
    intro t
    rw [Trace.visit]
    by_cases hof : Construct.of p = .identifier
    · have hsteps : steps c t.binder.innermost? p = [.name p p (nameMeaning c p)] := by
        simp only [steps, hof]
      rw [hsteps, execAll_cons, execAll_nil, exec]
      rw [← hp.regions hshaped]
      exact (keeps_identifier hrooted hnests hG hp.has hof).mono p.singleton_subperm.subset t
    · intro hlex hin hfresh
      have hgrows : t.Grows (t.note (.visited p)) :=
        ⟨List.subset_cons_self .., fun _ _ hs => hs, .refl _, rfl, rfl⟩
      have hfresh' : ∀ k, Fresh t.binder.table t.log k →
          Fresh t.binder.table (.visited p :: t.log) k :=
        fun k hk => hk.note fun hof' => absurd hof' hof
      have hplaced := placed_steps (parted_of_shapedOK hshaped) hp hof
      rw [← hin.innermost] at hplaced
      obtain ⟨hlex', hgrows', hkeeps⟩ := hplaced.keeps hshaped
        (fun q key => hrooted.plain _ q key) hG ih
        (numbers_nodup_of_shapedOK hshaped hp.has) (t.note (.visited p))
        (hlex.visited hp.has fun hof' => absurd hof' hof) (hin.after hgrows)
        fun k hk => hfresh' k (hfresh k hk)
      exact ⟨hlex', hgrows.trans hgrows', fun k hk hk' => hkeeps k hk (hfresh' k hk')⟩

/-! ## The traversal of a unit -/

theorem lexical_empty : Lexical c G ({} : Binder).table [] where
  has := nofun
  paired := ⟨nofun, nofun⟩
  opened_lt := nofun
  closed_lt := nofun
  root := ⟨_, rfl⟩
  key := by
    intro id s hs
    simp [Symbols.symbol?, Symbols.new] at hs
  bound := by
    intro scope space name id hbound
    simp [Scopes.definitionsIn, Symbols.new, Scopes.new] at hbound
  declared := nofun
  seen := by
    intro later earlier n id hlog
    simp at hlog
  valid := by
    intro p key hr
    simp [Symbols.resolution?, Symbols.new] at hr

theorem nodup_numbersOf_top (hshaped : c.unit.shapedOK = true) :
    (Place.numbersOf c.unit.top.namedChildren).Nodup := by
  obtain ⟨l, hperm, hsub⟩ :=
    Place.numbersOf_subperm c.unit.top.namedChildren_sublist.subperm
  exact hperm.nodup_iff.mp ((parted_of_shapedOK hshaped).numbers.sublist hsub)

/-- The traversal of a shaped unit keeps its table right. -/
theorem lexical_traverse (hshaped : c.unit.shapedOK = true) (hrooted : c.index.Rooted units)
    (hnests : c.index.Nests units) (hG : Admits c G) :
    Lexical c G (traverse c).table (Trace.of c).log := by
  have hplain : c.PlainTypes := fun q key => hrooted.plain _ q key
  have hin : (⟨{}, []⟩ : Trace).Inside c [] := ⟨.root (by decide) rfl, rfl⟩
  obtain ⟨hlex, hgrows, -⟩ := (placed_unitSteps (parted_of_shapedOK hshaped)).keeps hshaped hplain hG
    (keeps_visit hshaped hrooted hnests hG c.unit.root.height) (nodup_numbersOf_top hshaped) {}
    lexical_empty hin fun k _ => ⟨by simp [Symbols.new], nofun, nofun⟩
  rw [← binder_of]
  exact hlex.closed (hin.after hgrows).stands.lt_size

end Visits

/-! ## The table of a unit -/

/-- Only names that nothing was found for are kept as they are written afterwards. -/
theorem Symbols.resolution?_of_keepUnresolved (names : List Place) {r : Resolution}
    (h : (t.keepUnresolved names).resolution? p = some r) :
    t.resolution? p = some r ∨ r = .keep := by
  unfold keepUnresolved at h
  induction names generalizing t with
  | nil => exact .inl h
  | cons q names ih =>
    rcases ih h with h | h
    · rcases Symbols.resolution?_resolve_cases h with h | ⟨-, h⟩
      · exact .inl h
      · exact .inr h
    · exact .inr h

/-- A name in an expression that is resolved to a parameter or local variable lies in the region of
a declaration of it that was visited before, and no other declaration of the name that was visited
before, nor a field of a type around, has a region strictly inside of that one which holds the name
too. -/
theorem variables_lexically_scoped {units : List SourceUnit}
    (hunits : ∀ u ∈ units, u.shapedOK = true) {c : BindingInput}
    (hindex : c.index = Index.build units) (hshaped : c.unit.shapedOK = true) (d : Dictionary)
    (policy : NamingPolicy) {later earlier : List Event} {n : Place} {id : SymbolId} {s : Symbol}
    (hlog : (Trace.of c).log = later ++ .visited n :: earlier)
    (hof : Construct.of n = .identifier)
    (hresolved : (Symbols.ofUnit d policy c).resolution? n = some (.symbol id))
    (hsymbol : (Symbols.ofUnit d policy c).symbol? id = some s)
    (hkind : s.kind.isVariable = true) :
    (Trace.of c).binder = traverse c
      ∧ ∃ decl, (Symbols.ofUnit d policy c).resolution? decl = some (.symbol id)
        ∧ Sees c earlier n decl id := by
  refine ⟨binder_of c, ?_⟩
  have hrooted := rooted_build hunits
  rw [← hindex] at hrooted
  have hlex := lexical_traverse hshaped hrooted.1 hrooted.2
    (G := fun _ _ => True) fun _ _ _ _ _ _ _ _ _ _ => trivial
  have hfound : (traverse c).table.resolution? n = some (.symbol id) :=
    (Symbols.resolution?_of_keepUnresolved _ hresolved).resolve_right nofun
  obtain ⟨s', hs', hsees⟩ := hlex.seen later earlier n id hlog hof hfound
  have hsame : s'.kind = s.kind := by
    have hmap := Symbols.map_symbol?_ofUnit d policy c (f := (·.kind)) (fun _ _ => rfl) id
    rw [hsymbol, Symbols.symbol?_found, hs'] at hmap
    exact (Option.some.inj hmap).symm
  obtain ⟨decl, hdecl⟩ := hsees (hsame ▸ hkind)
  refine ⟨decl, ?_, hdecl⟩
  have hearlier : .declared decl id ∈ (Trace.of c).log := by
    rw [hlog]
    exact List.mem_append_right _ (List.mem_cons_of_mem _ hdecl.declared)
  exact Symbols.resolution?_keepUnresolved_of_eq_some _ (hlex.declared decl id hearlier).1

/-- A class whose method has a local variable of the name of a field. -/
def Sample.shadow : SourceUnit where
  path := "A.java"
  source := "class A\x7bint x;int f(int p)\x7bint x=p;return x;\x7d\x7d"
  root := open Sample in
    node 0 "program" 0 46 none [
     node 1 "class_declaration" 0 46 none [mark 2 "class" 0 5, name 3 6 7 "name",
      node 4 "class_body" 7 46 (some "body") [mark 5 "\x7b" 7 8,
       node 6 "field_declaration" 8 14 none [
        node 7 "integral_type" 8 11 (some "type") [mark 8 "int" 8 11],
        node 9 "variable_declarator" 12 13 (some "declarator") [name 10 12 13 "name"],
        mark 11 ";" 13 14],
       node 12 "method_declaration" 14 45 none [
        node 13 "integral_type" 14 17 (some "type") [mark 14 "int" 14 17], name 15 18 19 "name",
        node 16 "formal_parameters" 19 26 (some "parameters") [mark 17 "(" 19 20,
         node 18 "formal_parameter" 20 25 none [
          node 19 "integral_type" 20 23 (some "type") [mark 20 "int" 20 23], name 21 24 25 "name"],
         mark 22 ")" 25 26],
        node 23 "block" 26 45 (some "body") [mark 24 "\x7b" 26 27,
         node 25 "local_variable_declaration" 27 35 none [
          node 26 "integral_type" 27 30 (some "type") [mark 27 "int" 27 30],
          node 28 "variable_declarator" 31 34 (some "declarator") [name 29 31 32 "name",
           mark 30 "=" 32 33, name 31 33 34 "value"], mark 32 ";" 34 35],
         node 33 "return_statement" 35 44 none [mark 34 "return" 35 41,
          node 35 "identifier" 42 43 none [], mark 36 ";" 43 44], mark 37 "\x7d" 44 45]],
       mark 38 "\x7d" 45 46]]]

/-- The name that is returned sees the local variable and not the field. -/
theorem variables_lexically_scoped_shadow :
    let c : BindingInput := ⟨Sample.shadow, 0, Index.build [Sample.shadow]⟩
    ∃ later earlier n decl, (Trace.of c).log = later ++ .visited n :: earlier
      ∧ n.number = 35 ∧ Construct.of n = .identifier
      ∧ (Symbols.ofUnit .empty .typeDerived c).resolution? decl = some (.symbol 4)
      ∧ Sees c earlier n decl 4 := by
  intro c
  have hshaped : Sample.shadow.shapedOK = true := by decide +kernel
  have hvisited : (Trace.of c).log.any (fun e => match e with
      | .visited p => p.number == 35 && (Construct.of p matches .identifier)
      | _ => false) = true := by decide +kernel
  obtain ⟨e, he, hn⟩ := List.any_eq_true.mp hvisited
  have hresolved : (Symbols.ofUnit .empty .typeDerived c).resolutions[35]? = some (.symbol 4) := by
    decide +kernel
  have hkind : ((Symbols.ofUnit .empty .typeDerived c).symbol? 4).map (·.kind)
      = some .localVariable := by decide +kernel
  obtain ⟨s, hs, hkind⟩ := Option.map_eq_some_iff.mp hkind
  cases e with
  | visited n =>
    obtain ⟨later, earlier, hlog⟩ := List.append_of_mem he
    rw [Bool.and_eq_true, beq_iff_eq] at hn
    have hof : Construct.of n = .identifier := by
      cases hof : Construct.of n <;> simp_all
    rw [← hn.1] at hresolved
    obtain ⟨-, decl, hdecl, hsees⟩ := variables_lexically_scoped
      (List.forall_mem_singleton.mpr hshaped) (c := c) rfl hshaped .empty .typeDerived hlog hof
      hresolved hs (by rw [hkind]; rfl)
    exact ⟨later, earlier, n, decl, hlog, hn.1, hof, hdecl, hsees⟩
  | opened => cases hn
  | declared => cases hn

/-- A class with a class in its header, where a variable is declared. -/
def Sample.leak : SourceUnit where
  path := "Outer.java"
  source := "@A(()->\x7bclass Inner\x7bboolean b=o instanceof String s;\x7dreturn s;\x7d)" ++
    "class Outer\x7b\x7d"
  root := open Sample in
    node 0 "program" 0 77 none [
     node 1 "class_declaration" 0 77 none [
      node 2 "modifiers" 0 64 none [
       node 3 "annotation" 0 64 none [mark 4 "@" 0 1, name 5 1 2 "name",
        node 6 "annotation_argument_list" 2 64 (some "arguments") [mark 7 "(" 2 3,
         node 8 "lambda_expression" 3 63 none [
          node 9 "formal_parameters" 3 5 (some "parameters") [mark 10 "(" 3 4, mark 11 ")" 4 5],
          mark 12 "->" 5 7,
          node 13 "block" 7 63 (some "body") [mark 14 "\x7b" 7 8,
           node 15 "class_declaration" 8 53 none [mark 16 "class" 8 13, name 17 14 19 "name",
            node 18 "class_body" 19 53 (some "body") [mark 19 "\x7b" 19 20,
             node 20 "field_declaration" 20 52 none [node 21 "boolean_type" 20 27 (some "type") [],
              node 22 "variable_declarator" 28 51 (some "declarator") [name 23 28 29 "name",
               mark 24 "=" 29 30,
               node 25 "instanceof_expression" 30 51 (some "value") [name 26 30 31 "left",
                mark 27 "instanceof" 32 42, node 28 "type_identifier" 43 49 (some "right") [],
                name 29 50 51 "name"]], mark 30 ";" 51 52], mark 31 "\x7d" 52 53]],
           node 32 "return_statement" 53 62 none [mark 33 "return" 53 59,
            node 34 "identifier" 60 61 none [], mark 35 ";" 61 62], mark 36 "\x7d" 62 63]],
         mark 37 ")" 63 64]]], mark 38 "class" 64 69, name 39 70 75 "name",
      node 40 "class_body" 75 77 (some "body") [mark 41 "\x7b" 75 76, mark 42 "\x7d" 76 77]]]

/-- The class in the header is not indexed and opens no scope, so that the variable declared in its
body is seen by a name outside of it. -/
theorem variable_seen_outside_class :
    let c : BindingInput := ⟨Sample.leak, 0, Index.build [Sample.leak]⟩
    let t := Symbols.ofUnit .empty .preserve c
    Sample.leak.shapedOK = true
      ∧ (t.symbol? 1).map (·.kind) = some .localVariable
      ∧ ((Trace.of c).log.filterMap fun e => match e with
          | .declared d id => some (d.number, id)
          | _ => none) = [(29, 1)]
      ∧ ∃ n ∈ Sample.leak.root.places, ∃ body ∈ Sample.leak.root.places,
        n.kind = "identifier" ∧ n.parentKind? = some "return_statement"
          ∧ t.resolution? n = some (.symbol 1)
          ∧ body.kind = "class_body" ∧ 29 ∈ body.numbers ∧ n.number ∉ body.numbers := by
  decide +kernel

end Legible
