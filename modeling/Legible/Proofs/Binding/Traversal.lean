import Legible.Proofs.Binding.Meanings
import Legible.Proofs.Binding.PlacedSteps

/-!
# The traversal of a unit is a run

A program that is placed is a run over the numbers that it uses up (`Placed.run`): what it gives a
name is one of the resolutions of `Resolves`, and what it declares is named in the tree. One level
at a time this holds of the visit of every place, so `walked_run` holds of a whole unit.
-/

namespace Legible

open Binder

variable {c : BindingInput} {R : List Region} {b b' b'' : Binder} {p q : Place} {N : List Nat}
  {key owner : String} {r : Resolution} {visit : Visit} {steps : List Step}

/-! ## Small runs -/

namespace Run

theorem idle (b : Binder) (N : List Nat) : Run c N b b := (Run.refl b).mono List.nil_subperm

variable (h : Run c N b b')

include h

theorem andThen (h' : Run c [] b' b'') : Run c N b b'' := by
  simpa using h.trans h'

theorem setType (p : Place) (type : Option StaticType) : Run c N b (b'.setType p type) := by
  cases type with
  | none => exact h
  | some t => exact h.andThen (.note b' _ _ _)

theorem setSymbolType (id : SymbolId) (type : Option StaticType) :
    Run c N b (b'.setSymbolType id type) := by
  cases type with
  | none => exact h
  | some t => exact h.andThen (.note b' _ _ _)

theorem setArity (id : SymbolId) (arity : Arity) : Run c N b (b'.setArity id arity) :=
  h.andThen (.note b' _ _ _)

theorem give {found : Option Resolution × Option StaticType} (hq : c.Has q) (hmem : q.number ∈ N)
    (access : Place) (hr : ∀ r, found.1 = some r → Resolves c b' q r) :
    Run c N b (b'.give q access found) := by
  refine setType ?_ access found.2
  cases hfound : found.1 with
  | none => exact h
  | some r => exact h.resolve hq hmem (hr r hfound)

end Run

/-! ## The types around -/

/-- The innermost type of the state is that of the regions, and its symbol is of its key. -/
structure Binder.Framed (R : List Region) (b : Binder) : Prop where
  innermost : b.innermost? = innermostType? R
  symbol : ∀ frame id, b.frames.head? = some frame → frame.symbol = some id →
    ∃ s, b.table.symbol? id = some s ∧ s.key = frame.name

namespace Binder.Framed

theorem after (h : b.Framed R) (hrun : Run c N b b') : b'.Framed R where
  innermost := by
    rw [innermost?, hrun.frames_eq]
    exact h.innermost
  symbol := by
    intro frame id hframe hid
    rw [hrun.frames_eq] at hframe
    obtain ⟨s, hs, hkey⟩ := h.symbol frame id hframe hid
    exact ⟨s, hrun.symbol?_eq_some hs, hkey⟩

/-- A constructor is named by the type that it stands in. -/
theorem key_of_inBody (h : b.Framed R) (hp : c.At R p) {id : SymbolId}
    (hid : b.frames.head?.bind (·.symbol) = some id) (hin : c.InBody p key) :
    ∃ s, b.table.symbol? id = some s ∧ s.key = key := by
  obtain ⟨frame, hframe, hid⟩ := Option.bind_eq_some_iff.mp hid
  obtain ⟨s, hs, hkey⟩ := h.symbol frame id hframe hid
  have hname := h.innermost.trans (hp.member key hin)
  simp only [innermost?, hframe, Option.map_some, Option.some.injEq] at hname
  exact ⟨s, hs, hkey.trans hname⟩

end Binder.Framed

/-! ## Steps -/

theorem Means.resolves {found : Found} (h : Means c b q key found)
    (hr : (linkMeaning key found b).1 = some r) : Resolves c b q r :=
  Option.some.inj hr ▸ .linked h

theorem Linking.resolves {meaning : Binder → Option Resolution × Option StaticType}
    (h : Linking c R q meaning) (hb : ∀ id, r = .symbol id → b.Framed R)
    (hr : (meaning b).1 = some r) : Resolves c b q r := by
  cases h with
  | keep => exact Option.some.inj hr ▸ .keep q
  | typeName hp hparts =>
    dsimp only at hr
    exact resolves_typeMeaning hp hparts hr
  | imported hp hlast hkey => exact Means.resolves (.importedName hp hlast hkey) hr
  | outerImported hp hlast hkey => exact Means.resolves (.outerImportedName hp hlast hkey) hr
  | staticField hkey => exact Means.resolves (.field hkey) hr
  | staticMethod _ _ hkey => exact (means_of_methodKeys hkey).resolves hr
  | missing hq owner => exact Means.resolves (.missingMember hq owner) hr
  | typeDecl hp hof hkey =>
    obtain ⟨id, hid, rfl⟩ := Option.map_eq_some_iff.mp hr
    exact .typeName hp hof hkey hid
  | member hname => exact Means.resolves (.declared hname) hr
  | constructorName hp hof =>
    dsimp only at hr
    cases hid : b.frames.head?.bind (·.symbol) with
    | none =>
      rw [hid] at hr
      exact Option.some.inj hr ▸ .keep q
    | some id =>
      rw [hid] at hr
      cases hr
      exact .constructorName hp.has hof hid fun key hin =>
        (hb id rfl).key_of_inBody hp hid hin
  | superField => exact resolves_superMeaning hr
  | access hp hof => exact resolves_accessMeaning hp hof hr
  | call => exact resolves_callMeaning hr
  | reference object => exact Option.some.inj hr ▸ resolves_referenceMeaning object

theorem Binder.run_declare {m : Member} (hspace : m.space ≠ .type)
    (hkind : m.kind.isVariable = false) (hname : m.name = c.unit.text q) (hkey : MemberKey c q m.key)
    (haccessor : m.accessor = true → isPlainName (c.unit.text q) = true
      ∧ ∃ owner, m.key = owner ++ "." ++ c.unit.text q) : Run c [] b (b.declare m) := by
  have hdeclare : Run c [] b (b.declareMember m.space m.kind m.key m.name m.declaredType).1 := by
    rw [hname]
    exact .declareMember m.declaredType hspace hkind hkey
  have hbind : Run c [] b (if m.accessor then
      (b.declareMember m.space m.kind m.key m.name m.declaredType).1.bind .method m.name
        (.symbol (b.declareMember m.space m.kind m.key m.name m.declaredType).2)
      else (b.declareMember m.space m.kind m.key m.name m.declaredType).1) := by
    split
    · next h =>
        obtain ⟨hplain, owner, howner⟩ := haccessor h
        refine hdeclare.andThen ?_
        have hid := b.idOf?_declareMember m.space m.kind m.key m.name m.declaredType
        rw [howner] at hid
        rw [hname, howner]
        rw [hname] at hid
        exact .bindAccessor hplain hid
    · exact hdeclare
  unfold declare
  refine Run.setSymbolType ?_ _ _
  cases m.arity with
  | none => exact hbind
  | some arity => exact hbind.setArity _ _

theorem Ahead.run (hparted : c.unit.Parted) {s : Step} (h : Ahead c owner s) (b : Binder) :
    Run c [] b (s.run c visit b) := by
  cases h with
  | @typeVariable name => simpa [Step.run] using Run.bindTypeVariable b name
  | type hp hof hkey => simpa [Step.run] using Run.declareType hp hof hkey
  | member hmade =>
    rw [Step.run]
    cases hmade with
    | value hq hspace hkind hname hkey =>
      have hplain := hq.isPlainName hparted
      exact run_declare (by simp [hspace]) (by simp [hkind, SymbolKind.isVariable]) hname
        (hkey ▸ .field owner hplain) fun _ => ⟨hplain, owner, hkey⟩
    | method hp hof hspace hkind hname hkey haccessor =>
      exact run_declare (by simp [hspace]) (by simp [hkind, SymbolKind.isVariable]) hname
        (hkey ▸ .method owner hp hof) fun h => by rw [haccessor] at h; cases h

theorem ahead_runAll (hparted : c.unit.Parted) (visit : Visit) (h : ∀ s ∈ steps, Ahead c owner s)
    (b : Binder) : Run c [] b (Step.runAll c visit steps b) := by
  induction steps generalizing b with
  | nil => simpa using Run.refl b
  | cons s steps ih =>
    rw [Step.runAll_cons]
    exact ((h s (List.mem_cons_self ..)).run hparted b).andThen
      (ih (fun s hs => h s (List.mem_cons_of_mem _ hs)) _)

/-- A program that is placed is a run over its numbers, as far as visits are. -/
theorem Placed.run (hparted : c.unit.Parted)
    (hvisit : ∀ R q b, c.At R q → b.Framed R → Run c q.numbers b (visit q b))
    (h : Placed c R N steps) :
    ∀ b : Binder, b.Framed R → Run c N b (Step.runAll c visit steps b) := by
  induction h with
  | nil =>
    intro b _
    simpa using Run.refl b
  | append _ _ ih ih' =>
    intro b hb
    rw [Step.runAll_append]
    exact (ih b hb).trans (ih' _ (hb.after (ih b hb)))
  | mono _ hsub ih => exact fun b hb => (ih b hb).mono hsub
  | visit hq =>
    intro b hb
    simpa using hvisit _ _ b hq hb
  | name hq hname =>
    intro b hb
    rw [Step.runAll_cons, Step.runAll_nil, Step.run]
    exact (Run.idle b _).give hq (List.mem_singleton_self _) _ fun r =>
      hname.resolves fun _ _ => hb
  | again _ hq hmem hname _ ih =>
    intro b hb
    rw [Step.runAll_append, Step.runAll_cons, Step.runAll_nil, Step.link, Step.run]
    refine (ih b hb).give hq hmem _ fun r hr => ?_
    cases hr
    exact .linked (.declared hname)
  | note p type =>
    intro b _
    rw [Step.runAll_cons, Step.runAll_nil, Step.run]
    exact (Run.refl b).setType p _
  | declare hs =>
    intro b _
    rw [Step.runAll_cons, Step.runAll_nil]
    exact hs.run hparted b
  | declareVariable _ hq hname hkind ih =>
    intro b hb
    rw [Step.runAll_cons, Step.runAll_nil, Step.run]
    exact (ih b hb).trans (.declareVariable _ _ hq.has hkind hname)
  | @inScope _ _ _ kind _ _ _ _ ih =>
    intro b hb
    rw [Step.runAll_cons, Step.runAll_nil, Step.run]
    exact (Run.inScope kind (ih _ ⟨hb.innermost, hb.symbol⟩)).mono
      ((List.Subperm.refl _).cons_right _)
  | @inType R N p key kind frame steps hp _ _ hframe hsymbol _ ih =>
    intro b hb
    rw [Step.runAll_cons, Step.runAll_nil, Step.run, Binder.inScope, Step.runAll_cons,
      Step.runAll_nil, Step.run, Binder.inFrame, Step.runAll_append]
    refine (Run.inScope kind (Run.inFrame (frame (b.openScope kind)) ?_)).mono
      ((List.Subperm.refl _).cons_right _)
    have hentered : ({ b.openScope kind with
        frames := frame (b.openScope kind) :: (b.openScope kind).frames } : Binder).Framed
        (⟨p, some key⟩ :: R) := by
      refine ⟨congrArg some (hframe _), fun fr id hfr hid => ?_⟩
      cases hfr
      obtain ⟨s, hs, hkey⟩ := Symbols.exists_symbol?_of_idOf? (hsymbol _ id hid)
      exact ⟨s, hs, hkey.trans (hframe _).symm⟩
    have hdeclared := ahead_runAll hparted visit (ahead_aheadSteps hp key)
    exact (hdeclared _).trans (ih _ (hentered.after (hdeclared _)))
  | inMember _ _ ih =>
    intro b hb
    rw [Step.runAll_cons, Step.runAll_nil, Step.run]
    exact .inMember _ (ih _ ⟨hb.innermost, hb.symbol⟩)
  | inSwitch _ _ ih =>
    intro b hb
    rw [Step.runAll_cons, Step.runAll_nil, Step.run]
    exact .inSwitch _ (ih _ ⟨hb.innermost, hb.symbol⟩)
  | choose _ _ _ ih ih' =>
    intro b hb
    rw [Step.runAll_cons, Step.runAll_nil, Step.run]
    split
    · exact ih b hb
    · exact ih' b hb

/-! ## The traversal -/

theorem visit_run (hparted : c.unit.Parted) (levels : Nat) : ∀ R q b, c.At R q → b.Framed R →
    Run c q.numbers b (Binder.visit c levels q b) := by
  induction levels with
  | zero => exact fun _ _ b _ _ => Run.idle b _
  | succ levels ih =>
    intro R q b hq hb
    rw [Binder.visit, hb.innermost]
    by_cases hof : Construct.of q = .identifier
    · simp only [steps, hof, Step.runAll_cons, Step.runAll_nil, Step.run]
      exact (Run.idle b _).give hq.has (by simp [q.numbers_eq]) _ fun r =>
        resolves_nameMeaning hof
    · exact (placed_steps hparted hq hof).run hparted ih b hb

/-- A traversal is a run over all numbers of the tree. -/
theorem walked_run (hparted : c.unit.Parted) : Run c c.unit.top.numbers {} (walked c) := by
  have hempty : ({} : Binder).Framed [] := ⟨rfl, fun _ _ h => by cases h⟩
  rw [walked]
  exact ((placed_unitSteps hparted).run hparted (visit_run hparted c.unit.root.height) _
    hempty).mono (Place.numbersOf_subperm c.unit.top.namedChildren_sublist.subperm)

end Legible
