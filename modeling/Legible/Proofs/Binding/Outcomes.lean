import Legible.Proofs.Binding.Descent
import Legible.Proofs.Binding.Scoping

/-!
# What becomes of names

A program uses up the numbers of the names that it resolves, and no number is used up twice. So
nothing in a place has a resolution when the place is visited (`awaits_of_mem`), and what a name is
found to mean then is what the table of the unit says of it in the end (`resolution?_ofUnit`).
-/

namespace Legible

open Binder Place

variable {m : Moment} {p q : Place} {c : BindingInput} {b : Binder} {r : Resolution} {key : String}

def Binder.Moment.visited? (m : Moment) : Option Place :=
  match m.step with
  | .visit p => some p
  | _ => none

theorem Binder.Moment.eq_of_visited? (h : m.visited? = some p) : m = ⟨.visit p, m.state⟩ := by
  obtain ⟨step, b⟩ := m
  cases step <;> cases h
  rfl

/-- A state in which a place can be visited: what encloses it has been entered, and nothing in it
has a resolution. -/
structure Binder.Awaits (c : BindingInput) (p : Place) (b : Binder) : Prop where
  innermost : b.innermost? = innermostType? (c.regions p)
  fresh : ∀ k ∈ p.numbers, b.table.resolutions[k]? = none

theorem Place.number_mem_numbers (p : Place) : p.number ∈ p.numbers :=
  p.singleton_subperm.subset (List.mem_singleton_self _)

theorem Binder.Awaits.unresolved (h : b.Awaits c p) : b.table.resolution? p = none :=
  h.fresh p.number p.number_mem_numbers

/-- The place, which has one of the numbers `N`, was visited in the state `b` on the way to `b'`. A
name in an expression that was found to mean nothing then has no resolution afterwards; only the
name of a component is linked once more. -/
structure VisitOutcome (c : BindingInput) (N : List Nat) (p : Place) (b b' : Binder) : Prop where
  has : c.Has p
  mem : p.number ∈ N
  awaits : b.Awaits c p
  left : Construct.of p = .identifier → p.role ≠ some "name" → (nameMeaning c p b).1 = none →
    b'.table.resolutions[p.number]? = none

/-- A part of a traversal that resolves names of the numbers `N` only, and none before its place is
visited. -/
structure Spends (c : BindingInput) (N : List Nat) (b b' : Binder) (ms : List Moment) : Prop where
  fresh : ∀ k ∉ N, b.table.resolutions[k]? = none → b'.table.resolutions[k]? = none
  frames : b'.frames = b.frames
  visits : ∀ p b₀, ⟨.visit p, b₀⟩ ∈ ms → VisitOutcome c N p b₀ b'

namespace Spends

variable {c : BindingInput} {N M : List Nat} {b b₁ b₂ : Binder} {ms ms' : List Moment} {s : Step}

theorem idle (b : Binder) : Spends c N b b [] where
  fresh _ _ hnone := hnone
  frames := rfl
  visits p b₀ hm := by cases hm

theorem mono (h : Spends c N b b₁ ms) (hsub : N ⊆ M) : Spends c M b b₁ ms where
  fresh k hk := h.fresh k fun hk' => hk (hsub hk')
  frames := h.frames
  visits p b₀ hm := { h.visits p b₀ hm with mem := hsub (h.visits p b₀ hm).mem }

theorem trans (h : Spends c N b b₁ ms) (h' : Spends c M b₁ b₂ ms') (hdisjoint : N.Disjoint M) :
    Spends c (N ++ M) b b₂ (ms ++ ms') where
  fresh k hk hnone := by
    rw [List.mem_append, not_or] at hk
    exact h'.fresh k hk.2 (h.fresh k hk.1 hnone)
  frames := h'.frames.trans h.frames
  visits p b₀ hm := by
    rcases List.mem_append.mp hm with hm | hm
    · have hout := h.visits p b₀ hm
      exact ⟨hout.has, List.mem_append_left _ hout.mem, hout.awaits, fun hof hrole hnone =>
        h'.fresh _ (fun hk => hdisjoint hout.mem hk) (hout.left hof hrole hnone)⟩
    · have hout := h'.visits p b₀ hm
      exact ⟨hout.has, List.mem_append_right _ hout.mem, hout.awaits, hout.left⟩

/-- Around a part of a traversal the state may change in what is around. -/
theorem within {b' b₁' : Binder} (h : Spends c N b' b₁' ms)
    (hbefore : b'.table.resolutions = b.table.resolutions)
    (hafter : b₁.table.resolutions = b₁'.table.resolutions) (hframes : b₁.frames = b.frames) :
    Spends c N b b₁ ms where
  fresh k hk hnone := by
    rw [hafter]
    exact h.fresh k hk (by rwa [hbefore])
  frames := hframes
  visits p b₀ hm := by
    have hout := h.visits p b₀ hm
    exact ⟨hout.has, hout.mem, hout.awaits, fun hof hrole hnone =>
      hafter ▸ hout.left hof hrole hnone⟩

/-- One step that resolves nothing. -/
theorem quiet (hs : (Moment.mk s b).visited? = none)
    (hresolutions : b₁.table.resolutions = b.table.resolutions) (hframes : b₁.frames = b.frames) :
    Spends c [] b b₁ [⟨s, b⟩] where
  fresh k _ hnone := by rw [hresolutions, hnone]
  frames := hframes
  visits p b₀ hm := by
    cases List.mem_singleton.mp hm
    cases hs

theorem resolve (hs : (Moment.mk s b).visited? = none) {table : Symbols}
    (h : table.resolutions = b.table.resolutions) (htable : b₁.table = table.resolve q r)
    (hframes : b₁.frames = b.frames) : Spends c [q.number] b b₁ [⟨s, b⟩] where
  fresh k hk hnone := by
    have hne : q.number ≠ k := fun heq => hk (by simp [heq])
    rw [htable]
    simpa [Symbols.resolve, Std.TreeMap.getElem?_insertIfNew, hne, h] using hnone
  frames := hframes
  visits p b₀ hm := by
    cases List.mem_singleton.mp hm
    cases hs

theorem give (q access : Place) (meaning : Binder → Option Resolution × Option StaticType) :
    Spends c [q.number] b (b.give q access (meaning b)) [⟨.name q access meaning, b⟩] := by
  obtain ⟨htable, -, hframes⟩ := Trace.give_eq b q access (meaning b)
  cases hr : (meaning b).1 with
  | none =>
    rw [hr, Option.elim_none] at htable
    have hquiet : Spends c [] b (b.give q access (meaning b)) [⟨.name q access meaning, b⟩] :=
      quiet rfl (by rw [htable]) hframes
    exact hquiet.mono (List.nil_subset _)
  | some r =>
    rw [hr, Option.elim_some] at htable
    exact resolve (s := .name q access meaning) rfl rfl htable hframes

theorem declareVariable (q : Place) (kind : SymbolKind)
    (types : Binder → Option String × Option StaticType) (before : List Step)
    (declaredType : Option String) (type : Option StaticType) :
    Spends c [q.number] b (b.declareVariable c q kind declaredType type)
      [⟨.declareVariable q kind types before, b⟩] := by
  rcases declareVariable_cases c q kind declaredType type b with
    ⟨-, heq⟩ | ⟨-, s, -, -, -, -, htable, hframes, -⟩
  · rw [heq]
    exact resolve (s := .declareVariable q kind types before) rfl rfl
      (rfl : (b.resolve q .keep).table = _) rfl
  · exact resolve (s := .declareVariable q kind types before) rfl
      (Trace.resolutions_declared b .value s) htable hframes

theorem ahead {owner : String} (h : Ahead c owner s) (visit : Visit)
    (log : Place → Binder → List Moment) :
    Spends c [] b (s.run c visit b) (s.moments c visit log b) := by
  cases h with
  | typeVariable =>
    rw [Step.run, Step.moments]
    exact quiet rfl rfl rfl
  | @type _ name _ _ key =>
    rw [Step.run, Step.moments]
    rcases declareType_cases b key (c.unit.text name) with ⟨id, -, heq⟩ | heq
    · rw [heq]
      exact quiet rfl rfl rfl
    · rw [heq]
      exact quiet rfl (Trace.resolutions_declared ..) rfl
  | @member m =>
    rw [Step.run, Step.moments]
    obtain ⟨scopes, htable⟩ := table_declare m b
    refine quiet rfl ?_ (Trace.declare_eq m b).2.2
    rw [htable]
    exact Trace.resolutions_declared b m.space (Trace.memberSymbol m)

end Spends

theorem MemberName.role {R : List Region} (h : MemberName c R q key) : q.role = some "name" := by
  cases h with
  | component _ _ _ _ _ hq =>
    rcases child?_of_declaredName? hq with hq | ⟨_, -, hq⟩
    · exact role_of_child? hq
    · exact role_of_child? hq
  | field _ _ hd => exact role_of_child? (declarators_mem hd).2.2
  | @constant p _ _ _ hof =>
    have hparts := Construct.partsOf hof
    exact role_of_child? hparts.2.1
  | method _ hof => exact role_of_child? hof.child?.1

/-! ## Programs -/

/-- What is done inside of the regions `R`, if none of the numbers `N` has a resolution yet. -/
def RunSpends (c : BindingInput) (R : List Region) (N : List Nat) (f : Binder → Binder)
    (log : Binder → List Moment) : Prop :=
  ∀ b, b.innermost? = innermostType? R → (∀ k ∈ N, b.table.resolutions[k]? = none) →
    Spends c N b (f b) (log b)

section Programs

variable {R : List Region} {N : List Nat} {visit : Visit} {log : Place → Binder → List Moment}
  {steps : List Step} (hshaped : c.unit.shapedOK = true)

include hshaped

theorem Placed.spends (hvisit : ∀ R q, c.At R q → RunSpends c R q.numbers (visit q) (log q))
    (h : Placed c R N steps) (hN : N.Nodup) :
    RunSpends c R N (Step.runAll c visit steps) (Step.momentsAll c visit log steps) := by
  intro b hin hfresh
  induction h generalizing b with
  | nil =>
    rw [Step.runAll, momentsAll_nil]
    exact .idle b
  | @append _ N M _ _ _ _ ih ih' =>
    rw [Step.runAll_append, momentsAll_append]
    have hdisjoint := List.disjoint_of_nodup_append hN
    have hfirst := ih hN.of_append_left b hin fun k hk => hfresh k (List.mem_append_left _ hk)
    refine hfirst.trans (ih' hN.of_append_right _ ?_ fun k hk => ?_) hdisjoint
    · rw [innermost?, hfirst.frames]
      exact hin
    · exact hfirst.fresh k (fun hk' => hdisjoint hk' hk) (hfresh k (List.mem_append_right _ hk))
  | mono _ hsub ih =>
    have hsubset := hsub.subset
    obtain ⟨l, hperm, hsub⟩ := hsub
    exact (ih (hperm.nodup_iff.mp (hN.sublist hsub)) b hin
      fun k hk => hfresh k (hsubset hk)).mono hsubset
  | visit hq =>
    rw [runAll_singleton, momentsAll_singleton, Step.run, Step.moments]
    exact hvisit _ _ hq b hin hfresh
  | name hq _ =>
    rw [runAll_singleton, momentsAll_singleton, Step.run, Step.moments]
    exact .give _ _ _
  | @again _ N steps q key _ hq hmem hname _ ih =>
    have hfirst := ih hN b hin hfresh
    rw [Step.runAll_append, momentsAll_append, runAll_singleton, momentsAll_singleton, Step.link,
      Step.run, Step.moments]
    have hlink : Spends c [q.number] _ _ _ := .give (b := Step.runAll c visit steps b) q q
      (linkMeaning key .valid)
    refine ⟨fun k hk hnone => ?_, hlink.frames.trans hfirst.frames, fun p b₀ hm => ?_⟩
    · exact hlink.fresh k (fun hk' => hk (List.mem_singleton.mp hk' ▸ hmem))
        (hfirst.fresh k hk hnone)
    · rcases List.mem_append.mp hm with hm | hm
      · have hout := hfirst.visits p b₀ hm
        refine ⟨hout.has, hout.mem, hout.awaits, fun hof hrole hnone => ?_⟩
        refine hlink.fresh _ (fun hk => hrole ?_) (hout.left hof hrole hnone)
        rw [(parted_of_shapedOK hshaped).eq_of_number_eq hout.has hq (List.mem_singleton.mp hk)]
        exact hname.role
      · cases List.mem_singleton.mp hm
  | note p type =>
    rw [runAll_singleton, momentsAll_singleton, Step.run, Step.moments]
    obtain ⟨htable, -, hframes⟩ := Trace.setType_eq b p (type b)
    exact .quiet rfl (by rw [htable]) hframes
  | declare h =>
    rw [runAll_singleton, momentsAll_singleton]
    exact .ahead h visit log
  | @declareVariable _ N q kind types before _ _ _ _ ih =>
    rw [runAll_singleton, momentsAll_singleton, Step.run, Step.moments]
    exact (ih hN.of_append_left b hin fun k hk => hfresh k (List.mem_append_left _ hk)).trans
      (.declareVariable q kind types before _ _) (List.disjoint_of_nodup_append hN)
  | @inScope _ N p kind steps hp _ _ ih =>
    rw [List.nodup_cons] at hN
    rw [runAll_singleton, momentsAll_singleton, Step.run, Step.moments]
    have hinside := ih hN.2 (b.openScope kind) (hin.trans (by simp [innermostType?]))
      fun k hk => hfresh k (List.mem_cons_of_mem _ hk)
    have hopened : Spends c [] b b [⟨.inScope p kind steps, b⟩] := .quiet rfl rfl rfl
    have hscope : Spends c N b (b.inScope kind (Step.runAll c visit steps)) _ :=
      hinside.within rfl rfl hinside.frames
    exact (hopened.trans hscope (List.disjoint_nil_left _)).mono (List.subset_cons_self _ _)
  | @inType _ N p key kind frame steps hp _ _ hframe _ _ ih =>
    rw [List.nodup_cons] at hN
    rw [runAll_singleton, momentsAll_singleton, Step.run, Step.moments, Binder.inScope,
      runAll_singleton, momentsAll_singleton, Step.run, Step.moments, Binder.inFrame,
      Step.runAll_append, momentsAll_append]
    let inside : Binder :=
      { b.openScope kind with frames := frame (b.openScope kind) :: (b.openScope kind).frames }
    have hahead := momentsAll_induction (P := Spends c []) .idle
      (fun h h' => h.trans h' (List.disjoint_nil_left _))
      (fun s hs _ => .ahead (ahead_aheadSteps hp key s hs) visit log) inside
    have hinside := hahead.trans (ih hN.2 (Step.runAll c visit (aheadSteps c key p) inside)
      (by rw [innermost?, hahead.frames]; simp [inside, innermostType?, hframe])
      fun k hk => hahead.fresh k List.not_mem_nil (hfresh k (List.mem_cons_of_mem _ hk)))
      (List.disjoint_nil_left _)
    have hopened : Spends c [] b b
        [⟨.inScope p kind [.inFrame frame (aheadSteps c key p ++ steps)], b⟩] := .quiet rfl rfl rfl
    refine Spends.mono (hopened.trans (M := N) ?_ (List.disjoint_nil_left _))
      (List.subset_cons_self _ _)
    exact hinside.within rfl rfl (congrArg List.tail hinside.frames)
  | @inMember _ _ _ key _ _ ih =>
    rw [runAll_singleton, momentsAll_singleton, Step.run, Step.moments]
    have hinside := ih hN { b with members := key :: b.members } hin hfresh
    exact hinside.within rfl rfl hinside.frames
  | inSwitch subject _ ih =>
    rw [runAll_singleton, momentsAll_singleton, Step.run, Step.moments]
    have hinside := ih hN { b with switches := subject b :: b.switches } hin hfresh
    exact hinside.within rfl rfl hinside.frames
  | choose test _ _ ih ih' =>
    rw [runAll_singleton, momentsAll_singleton, Step.run, Step.moments]
    split
    · exact ih hN b hin hfresh
    · exact ih' hN b hin hfresh

theorem runSpends_visit (levels : Nat) (R : List Region) (p : Place) (hp : c.At R p) :
    RunSpends c R p.numbers (Binder.visit c levels p) (visitMoments c levels p) := by
  induction levels generalizing R p with
  | zero => exact fun b _ _ => .idle b
  | succ levels ih =>
    intro b hin hfresh
    have hregions := hp.regions hshaped
    rw [Binder.visit, visitMoments]
    have hself : ∀ b', (Construct.of p = .identifier → (nameMeaning c p b).1 = none →
        b'.table.resolutions[p.number]? = none) → VisitOutcome c p.numbers p b b' := fun b' hleft =>
      ⟨hp.has, p.number_mem_numbers, ⟨hregions ▸ hin, hfresh⟩, fun hof _ => hleft hof⟩
    by_cases hof : Construct.of p = .identifier
    · have hsteps : steps c b.innermost? p = [.name p p (nameMeaning c p)] := by
        simp only [steps, hof]
      rw [hsteps, runAll_singleton, momentsAll_singleton, Step.run, Step.moments]
      have hgive := (Spends.give (c := c) (b := b) p p (nameMeaning c p)).mono
        p.singleton_subperm.subset
      refine ⟨hgive.fresh, hgive.frames, fun q b₀ hm => ?_⟩
      rcases List.mem_cons.mp hm with heq | hm
      · cases heq
        refine hself _ fun _ hnone => ?_
        rw [(Trace.give_eq b p p (nameMeaning c p b)).1, hnone]
        exact hfresh p.number p.number_mem_numbers
      · exact hgive.visits q b₀ hm
    · have hplaced := placed_steps (parted_of_shapedOK hshaped) hp hof
      rw [← hin] at hplaced
      have hsteps :=
        hplaced.spends hshaped ih (numbers_nodup_of_shapedOK hshaped hp.has) b hin hfresh
      refine ⟨hsteps.fresh, hsteps.frames, fun q b₀ hm => ?_⟩
      rcases List.mem_cons.mp hm with heq | hm
      · cases heq
        exact hself _ fun hof' => absurd hof' hof
      · exact hsteps.visits q b₀ hm

theorem spends_moments :
    Spends c (numbersOf c.unit.top.namedChildren) {} (walked c) (moments c) := by
  rw [moments, walked]
  exact (placed_unitSteps (parted_of_shapedOK hshaped)).spends hshaped
    (runSpends_visit hshaped c.unit.root.height) (nodup_numbersOf_top hshaped) {} rfl
    fun k _ => by simp [Symbols.new]

section

variable (hm : ⟨.visit p, b⟩ ∈ moments c)

include hm

/-- Nothing in a place has a resolution when the place is visited. -/
theorem awaits_of_mem : b.Awaits c p :=
  ((spends_moments hshaped).visits p b hm).awaits

theorem name_mem_moments (hof : Construct.of p = .identifier) :
    ⟨.name p p (nameMeaning c p), b⟩ ∈ moments c := by
  obtain ⟨levels, -, hsub⟩ := exists_visitMoments hshaped hm
  have hsteps : steps c b.innermost? p = [.name p p (nameMeaning c p)] := by
    simp only [steps, hof]
  rw [hsteps, momentsAll_singleton, Step.moments] at hsub
  exact hsub (List.mem_singleton_self _)

/-- A name in an expression is resolved where it is visited, or not at all. -/
theorem resolution?_traverse_identifier (hof : Construct.of p = .identifier)
    (hrole : p.role ≠ some "name") : (traverse c).table.resolution? p = (nameMeaning c p b).1 := by
  have hout := (spends_moments hshaped).visits p b hm
  cases hr : (nameMeaning c p b).1 with
  | none => exact hout.left hof hrole hr
  | some r =>
    exact resolution?_traverse hshaped (name_mem_moments hshaped hm hof) hout.awaits.unresolved hr

/-- What a name in an expression means where it is visited is what the symbols of the unit say of it
in the end. -/
theorem resolution?_ofUnit (hof : Construct.of p = .identifier) (d : Dictionary)
    (policy : NamingPolicy) (hr : (nameMeaning c p b).1 = some r) :
    (Symbols.ofUnit d policy c).resolution? p = some r :=
  Symbols.resolution?_keepUnresolved_of_eq_some _ (resolution?_traverse hshaped
    (name_mem_moments hshaped hm hof) (awaits_of_mem hshaped hm).unresolved hr)

end

/-- What is linked to a key has that key in the end. -/
theorem keyOf?_ofUnit_of_target (hm : m ∈ moments c) {d : Dictionary} {policy : NamingPolicy}
    {found : Found}
    (h : (Symbols.ofUnit d policy c).resolution? q = some (m.state.target key found)) :
    (Symbols.ofUnit d policy c).keyOf? q = some (key, found) := by
  rw [Symbols.resolution?_ofUnit] at h
  rw [Symbols.keyOf?_ofUnit, Symbols.keyOf?, h]
  cases found with
  | missing => rfl
  | valid =>
    cases hid : m.state.table.idOf? key with
    | none => simp [target, hid]
    | some id =>
      obtain ⟨s, hs, hkey⟩ := Symbols.exists_symbol?_of_idOf? hid
      have hfinal := ((stretch_moments hshaped).onward m hm).symbols id s hs
      simp only [target, hid, Symbols.symbol?_found, Binder.traverse]
      show ((walked c).table.symbol? id).map _ = _
      rw [hfinal, Option.map_some, hkey]

end Programs

end Legible
