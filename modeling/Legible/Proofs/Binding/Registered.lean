import Legible.Proofs.Binding.Descent

/-!
# What a visit declares

The program of a place where a type is declared, declares the type and all its members, whatever the
state is (`declares_steps`). What is declared stays, so each such place that a traversal visits is
registered by its end (`registered_of_visited`).
-/

namespace Legible

open Binder Trace

def Symbols.HasKey (t : Symbols) (key : String) : Prop :=
  ∃ id s, t.symbol? id = some s ∧ s.key = key

/-- The type that the index knows at `p` is declared, if it has a name, and so are its members. -/
def Symbols.Registers (c : BindingInput) (t : Symbols) (p : Place) : Prop :=
  c.Has p → ∀ owner, c.index.typeAt? c.number p = some owner →
    (∀ kind name body, Construct.of p = .typeDecl kind name body → t.HasKey owner)
      ∧ ∀ key ∈ c.unit.memberKeys owner p, t.HasKey key

/-! ## What is declared stays -/

section Declared

variable {c : BindingInput}

theorem hasKey_add (t : Symbols) (s : Symbol) : (t.add s).1.HasKey s.key := by
  obtain ⟨s', hs', hkey, -⟩ := Symbols.exists_symbol?_add t s
  exact ⟨_, s', hs', hkey⟩

theorem symbols_give (b : Binder) (q access : Place)
    (found : Option Resolution × Option StaticType) :
    (b.give q access found).table.symbols = b.table.symbols := by
  rw [(give_eq b q access found).1]
  cases found.1 <;> rfl

theorem hasKey_declareType (b : Binder) (key name : String) :
    (b.declareType key name).1.table.HasKey key :=
  ⟨_, Symbols.exists_symbol?_of_idOf? (idOf?_declareType b key name)⟩

theorem hasKey_declare (b : Binder) (m : Member) : (b.declare m).table.HasKey m.key := by
  obtain ⟨id, s, hs, hkey⟩ := hasKey_add b.table (Trace.memberSymbol m)
  refine ⟨id, s, ?_, hkey⟩
  rw [Symbols.symbol?, Symbols.symbols_declare]
  exact hs

/-- What has a symbol once a step has been taken has one at the end. -/
theorem hasKey_of_moment (hshaped : c.unit.shapedOK = true) {m : Moment} (hm : m ∈ moments c)
    {key : String} (hkey : m.result.table.HasKey key) : (traverse c).table.HasKey key := by
  obtain ⟨id, s, hs, hkey⟩ := hkey
  refine ⟨id, s, ?_, hkey⟩
  rw [Binder.traverse]
  exact ((stretch_moments hshaped).after m hm).symbols id s hs

end Declared

/-! ## The keys of a type -/

section Keys

variable {c : BindingInput} {p : Place} {owner key : String} {visit : Visit}
  {log : Place → Binder → List Moment}

theorem exists_moments_subset (visit : Visit) (log : Place → Binder → List Moment) {s : Step}
    {steps : List Step} (hs : s ∈ steps) (b : Binder) :
    ∃ b', s.moments c visit log b' ⊆ Step.momentsAll c visit log steps b := by
  induction steps generalizing b with
  | nil => cases hs
  | cons s' steps ih =>
    rw [Step.momentsAll]
    rcases List.mem_cons.mp hs with rfl | hs
    · exact ⟨b, List.subset_append_left ..⟩
    · obtain ⟨b', hsub⟩ := ih hs (s'.run c visit b)
      exact ⟨b', List.subset_append_of_subset_right _ hsub⟩

theorem map_key_membersAt (c : BindingInput) (owner : String) (q : Place) :
    (membersAt c owner q).map (·.key) = c.unit.memberKeysAt owner q := by
  unfold membersAt SourceUnit.memberKeysAt
  split <;> simp [*]

/-- The index and the rules have the same members of a type. -/
theorem exists_member_of_mem_memberKeys (hshaped : c.unit.shapedOK = true) (hp : c.Has p)
    (hkey : key ∈ c.unit.memberKeys owner p) : ∃ m ∈ c.membersOf owner p, m.key = key := by
  have hmembers : ∀ body : Place, key ∈ body.bodyMembers.flatMap (c.unit.memberKeysAt owner) →
      ∃ m ∈ body.bodyMembers.flatMap (membersAt c owner), m.key = key := by
    intro body hkey
    obtain ⟨q, hq, hkey⟩ := List.mem_flatMap.mp hkey
    rw [← map_key_membersAt] at hkey
    obtain ⟨m, hm, rfl⟩ := List.mem_map.mp hkey
    exact ⟨m, List.mem_flatMap.mpr ⟨q, hq, hm⟩, rfl⟩
  rw [SourceUnit.memberKeys, SourceUnit.componentKeys, Place.typeMembers, Place.typeBody?] at hkey
  unfold BindingInput.membersOf
  cases hof : Construct.of p with
  | typeDecl kind name body =>
    rcases List.mem_append.mp hkey with hkey | hkey
    · cases kind with
      | recordType =>
        obtain ⟨name, hname, rfl⟩ := List.mem_map.mp (by simpa only [hof] using hkey)
        obtain ⟨m, hm, -, -, hm'⟩ := exists_componentMembers hshaped owner hp hname
        exact ⟨m, List.mem_append_left _ (by simpa using hm), hm'⟩
      | _ => simp [hof] at hkey
    · obtain ⟨m, hm, hm'⟩ := hmembers body (by simpa [hof] using hkey)
      exact ⟨m, List.mem_append_right _ hm, hm'⟩
  | enumConstant _ body | objectCreation _ body =>
    obtain _ | body := body
    · simp [hof] at hkey
    · exact hmembers body (by simpa [hof] using hkey)
  | _ => simp [hof] at hkey

/-- Where a type has members, its body is entered. -/
theorem exists_inScope_mem_steps (howner : c.index.typeAt? c.number p = some owner) {m : Member}
    (hm : m ∈ c.membersOf owner p) (around : Option String) : ∃ frame rest,
      .inScope p .typeBody [.inFrame frame (aheadSteps c owner p ++ rest)] ∈ steps c around p := by
  unfold BindingInput.membersOf at hm
  split at hm
  · next hof =>
      simp only [steps, hof, declarationSteps, howner, insideSteps_eq hof]
      exact ⟨_, _, .tail _ (.tail _ (.head _))⟩
  · next body hof =>
      exact ⟨fun _ => ⟨owner, none⟩, body.bodyMembers.map .visit,
        by simp [steps, hof, constantSteps, anonymousSteps, howner, aheadSteps]⟩
  · next body hof =>
      exact ⟨fun _ => ⟨owner, none⟩, body.bodyMembers.map .visit,
        by simp [steps, hof, creationSteps, anonymousSteps, howner, aheadSteps]⟩
  · cases hm

/-- The program of a place where a type is declared, declares the type and its members. -/
theorem declares_steps (hshaped : c.unit.shapedOK = true) (hp : c.Has p)
    (howner : c.index.typeAt? c.number p = some owner) (around : Option String) (b : Binder) :
    (∀ kind name body, Construct.of p = .typeDecl kind name body →
        ∃ b', ⟨.declareType owner (c.unit.text name), b'⟩
          ∈ Step.momentsAll c visit log (steps c around p) b)
      ∧ ∀ key ∈ c.unit.memberKeys owner p, ∃ m b', m.key = key
        ∧ ⟨.declareMember m, b'⟩ ∈ Step.momentsAll c visit log (steps c around p) b := by
  constructor
  · intro kind name body hof
    have hmem : .declareType owner (c.unit.text name) ∈ steps c around p := by
      simp [steps, hof, declarationSteps, howner]
    obtain ⟨b', hsub⟩ := exists_moments_subset (c := c) visit log hmem b
    rw [Step.moments] at hsub
    exact ⟨b', hsub (List.mem_singleton_self _)⟩
  · intro key hkey
    obtain ⟨m, hm, hmkey⟩ := exists_member_of_mem_memberKeys hshaped hp hkey
    obtain ⟨frame, rest, hmem⟩ := exists_inScope_mem_steps howner hm around
    rw [← filterMap_member?_aheadSteps] at hm
    obtain ⟨s, hs, hmember⟩ := List.mem_filterMap.mp hm
    obtain ⟨b₁, hsub⟩ := exists_moments_subset (c := c) visit log hmem b
    rw [Step.moments, momentsAll_singleton, Step.moments, momentsAll_append, List.cons_subset,
      List.append_subset] at hsub
    obtain ⟨b₂, hsub'⟩ := exists_moments_subset (c := c) visit log hs _
    cases s with
    | declareMember m' =>
      cases hmember
      rw [Step.moments] at hsub'
      exact ⟨m, b₂, hmkey, hsub.2.1 (hsub' (List.mem_singleton_self _))⟩
    | _ => cases hmember

end Keys

/-- What a traversal visits is registered at its end. -/
theorem registered_of_visited {c : BindingInput} (hshaped : c.unit.shapedOK = true) {p : Place}
    (hp : .visited p ∈ (Trace.of c).log) : (traverse c).table.Registers c p := by
  obtain ⟨b, hm⟩ := Trace.visited_mem_log.mp hp
  obtain ⟨levels, -, hsub⟩ := exists_visitMoments hshaped hm
  intro hp owner howner
  obtain ⟨htype, hmembers⟩ := declares_steps hshaped hp howner b.innermost? b
  refine ⟨fun kind name body hof => ?_, fun key hkey => ?_⟩
  · obtain ⟨b', hm⟩ := htype kind name body hof
    exact hasKey_of_moment hshaped (hsub hm) (hasKey_declareType ..)
  · obtain ⟨m, b', rfl, hm⟩ := hmembers key hkey
    exact hasKey_of_moment hshaped (hsub hm) (hasKey_declare ..)

end Legible
