import Legible.Index.Basic
import Mathlib.Data.List.Forall2

/-!
# Which method a call finds

A call takes its candidates from the hierarchy of the owner: of the methods of the name that it
declares, the first of each list of parameter types, and of these the ones that take so many
arguments. The types of the arguments decide only in the last step, and only by ruling methods out
(`argumentsFit_of_learned`). So knowing more of them never leads to another method
(`findMethod_learned`).
-/

namespace Legible.Index

/-- The methods of the name that the owner and what it inherits from declare, nearest first. -/
def declaredMethods (ix : Index) (owner name : String) : List (TypeInfo × MethodInfo) :=
  (ix.hierarchy owner).flatMap fun info =>
    (info.methods.filter (·.name == name)).map fun m => (info, m)

def signature (c : TypeInfo × MethodInfo) : String := ",".intercalate c.2.paramTypes

/-- How the methods that take so many arguments and the types of the arguments settle a call. -/
inductive Settles (pool : List (TypeInfo × MethodInfo)) (fits : TypeInfo × MethodInfo → Bool) :
    MethodLookup → Prop
  | absent (h : pool = []) : Settles pool fits .absent
  | only {info : TypeInfo} {m : MethodInfo} (h : pool = [(info, m)]) :
      Settles pool fits (.found info m)
  | fitting {info : TypeInfo} {m : MethodInfo} (hpool : 2 ≤ pool.length)
      (h : pool.filter fits = [(info, m)]) : Settles pool fits (.found info m)
  | undecided (hpool : 2 ≤ pool.length) (h : ∀ c, pool.filter fits ≠ [c]) :
      Settles pool fits (.ambiguous pool.length)

/-- The second list of types has those of the first that are known, and may have more. -/
def Learned (args args' : List (Option StaticType)) : Prop :=
  List.Forall₂ (fun arg arg' => arg = none ∨ arg' = arg) args args'

variable {ix : Index} {owner name key : String} {args args' : List (Option StaticType)}
  {info : TypeInfo} {m : MethodInfo} {x c : TypeInfo × MethodInfo} {count : Nat}
  {seen : List String} {ms candidates : List (TypeInfo × MethodInfo)}

/-! ## Candidates -/

/-- What is left of the methods is the first with its signature. -/
theorem exists_of_mem_firstOverrides (h : x ∈ firstOverrides seen ms) :
    signature x ∉ seen
      ∧ ∃ before after, ms = before ++ x :: after ∧ ∀ y ∈ before, signature y ≠ signature x := by
  induction ms generalizing seen with
  | nil => cases h
  | cons y ms ih =>
    simp only [firstOverrides, List.contains_eq_mem, decide_eq_true_eq] at h
    split at h
    · next hseen =>
        obtain ⟨hx, before, after, rfl, hbefore⟩ := ih h
        exact ⟨hx, y :: before, after, rfl,
          List.forall_mem_cons.mpr ⟨fun heq => hx (heq ▸ hseen), hbefore⟩⟩
    · next hseen =>
        rcases List.mem_cons.mp h with rfl | h
        · exact ⟨hseen, [], ms, rfl, by simp⟩
        · obtain ⟨hx, before, after, rfl, hbefore⟩ := ih h
          rw [List.mem_cons, not_or] at hx
          exact ⟨hx.2, y :: before, after, rfl,
            List.forall_mem_cons.mpr ⟨fun heq => hx.1 heq.symm, hbefore⟩⟩

theorem mem_pool (h : x ∈ pool candidates count) :
    x ∈ candidates ∧ x.2.acceptsArity count = true := by
  simp only [pool] at h
  split at h
  · exact List.mem_filter.mp h
  · exact List.mem_filter.mp (List.mem_of_mem_filter h)

/-! ## The outcome -/

theorem settles_findMethod (ix : Index) (owner name : String) (args : List (Option StaticType)) :
    Settles (pool (ix.methodsNamed owner name) args.length) (ix.argumentsFit args)
      (ix.findMethod owner name args) := by
  unfold findMethod
  dsimp only
  split
  · next hpool => exact .absent hpool
  · next hpool => exact .only hpool
  · next hnil hone =>
      have hlength : 2 ≤ (pool (ix.methodsNamed owner name) args.length).length := by
        rcases hpool : pool (ix.methodsNamed owner name) args.length with _ | ⟨c, _ | ⟨d, rest⟩⟩
        · exact absurd hpool hnil
        · exact absurd hpool (hone c.1 c.2)
        · exact Nat.le_add_left 2 _
      split
      · next hfilter => exact .fitting hlength hfilter
      · next hfilter => exact .undecided hlength fun c => hfilter c.1 c.2

section

variable (h : ix.findMethod owner name args = .found info m)

include h

theorem mem_pool_of_findMethod : (info, m) ∈ pool (ix.methodsNamed owner name) args.length := by
  have hsettles := settles_findMethod ix owner name args
  rw [h] at hsettles
  cases hsettles with
  | only hpool => simp [hpool]
  | fitting _ hfilter => exact List.mem_of_mem_filter (by rw [hfilter]; exact List.mem_singleton_self _)

/-- A method that is found is the first with its signature. -/
theorem exists_of_findMethod :
    ∃ before after, ix.declaredMethods owner name = before ++ (info, m) :: after
      ∧ ∀ y ∈ before, signature y ≠ signature (info, m) :=
  (exists_of_mem_firstOverrides (mem_pool (mem_pool_of_findMethod h)).1).2

theorem mem_of_findMethod : info ∈ ix.hierarchy owner ∧ m ∈ info.methods ∧ m.name = name := by
  obtain ⟨before, after, hlist, -⟩ := exists_of_findMethod h
  have hmem : (info, m) ∈ ix.declaredMethods owner name := by simp [hlist]
  obtain ⟨info', hinfo, hm⟩ := List.mem_flatMap.mp hmem
  obtain ⟨m', hm, heq⟩ := List.mem_map.mp hm
  cases heq
  obtain ⟨hm, hname⟩ := List.mem_filter.mp hm
  exact ⟨hinfo, hm, by simpa using hname⟩

end

/-! ## Learning types -/

theorem argumentsFit_of_learned (h : Learned args args') (hfits : ix.argumentsFit args' c = true) :
    ix.argumentsFit args c = true := by
  unfold argumentsFit at hfits ⊢
  generalize 0 = start at hfits ⊢
  induction h generalizing start with
  | nil => rfl
  | @cons arg arg' args args' harg _ ih =>
    rw [List.zipIdx_cons, List.all_cons, Bool.and_eq_true] at hfits ⊢
    refine ⟨?_, ih _ hfits.2⟩
    rcases harg with rfl | rfl
    · rfl
    · exact hfits.1

namespace Settles

variable {pool : List (TypeInfo × MethodInfo)} {fits fits' : TypeInfo × MethodInfo → Bool}
  {lookup : MethodLookup}

/-- Where one method was found, ruling more methods out leaves it or none. -/
theorem found (h : Settles pool fits (.found info m)) (h' : Settles pool fits' lookup)
    (hfewer : ∀ c, fits' c = true → fits c = true) :
    lookup = .found info m ∨ ∃ count, lookup = .ambiguous count := by
  cases h with
  | only hone =>
    -- the types of the arguments are not asked for
    subst hone
    cases h' with
    | absent heq => cases heq
    | only heq => cases heq; exact .inl rfl
    | fitting hpool | undecided hpool => simp at hpool
  | fitting hpool hfilter =>
    cases h' with
    | absent heq | only heq => simp [heq] at hpool
    | @fitting info' m' _ hfilter' =>
      have hmem : (info', m') ∈ pool.filter fits' := by simp [hfilter']
      obtain ⟨hmem, hfits'⟩ := List.mem_filter.mp hmem
      have hmem := List.mem_filter.mpr ⟨hmem, hfewer _ hfits'⟩
      rw [hfilter, List.mem_singleton] at hmem
      cases hmem
      exact .inl rfl
    | undecided => exact .inr ⟨_, rfl⟩

theorem eq_absent (h : Settles pool fits .absent) (h' : Settles pool fits' lookup) :
    lookup = .absent := by
  cases h with
  | absent hnone =>
    subst hnone
    cases h' with
    | absent => rfl
    | only heq => cases heq
    | fitting hpool | undecided hpool => simp at hpool

theorem two_le (h : Settles pool fits (.ambiguous count)) : 2 ≤ count := by
  cases h with
  | undecided hpool => exact hpool

end Settles

/-- A method that a call finds is declared in the hierarchy of the owner, under the name, takes so
many arguments and is the first with its signature. If more is known of the types of the arguments,
the call finds this method or none is certain; a call that finds no candidate finds none then
either. Where no method is certain there are two at least. -/
theorem findMethod_learned (ix : Index) (owner name : String) {args args' : List (Option StaticType)}
    (h : Learned args args') :
    (∀ info m, ix.findMethod owner name args = .found info m →
        info ∈ ix.hierarchy owner ∧ m ∈ info.methods ∧ m.name = name
          ∧ m.acceptsArity args.length = true
          ∧ (∃ before after, ix.declaredMethods owner name = before ++ (info, m) :: after
            ∧ ∀ y ∈ before, signature y ≠ signature (info, m))
          ∧ (ix.findMethod owner name args' = .found info m
            ∨ ∃ count, ix.findMethod owner name args' = .ambiguous count))
      ∧ (ix.findMethod owner name args = .absent → ix.findMethod owner name args' = .absent)
      ∧ ∀ count, ix.findMethod owner name args = .ambiguous count → 2 ≤ count := by
  have hsettles := settles_findMethod ix owner name args
  have hsettles' := settles_findMethod ix owner name args'
  rw [← List.Forall₂.length_eq h] at hsettles'
  refine ⟨fun info m hfound => ?_, fun habsent => ?_, fun count hcount => ?_⟩
  · obtain ⟨hinfo, hm, hname⟩ := mem_of_findMethod hfound
    rw [hfound] at hsettles
    exact ⟨hinfo, hm, hname, (mem_pool (mem_pool_of_findMethod hfound)).2,
      exists_of_findMethod hfound, hsettles.found hsettles' fun _ => argumentsFit_of_learned h⟩
  · rw [habsent] at hsettles
    exact hsettles.eq_absent hsettles'
  · rw [hcount] at hsettles
    exact hsettles.two_le

/-- Two methods `f`, one of an `int` and one of a text, each with an `int` behind. -/
def overloaded : TypeInfo :=
  { qualifiedName := "A", name := "A", kind := .classType, enclosing := none, isLocal := false
    unit := 0
    methods := ["int", "String"].map fun type =>
      { name := "f", key := "A.f(" ++ type ++ ",int)", paramTypes := [type, "int"], varargs := false
        returnType := none, typeParams := [] } }

def MethodLookup.key? : MethodLookup → Option String
  | .found _ method => some method.key
  | _ => none

theorem exists_found_of_key? {found : MethodLookup} (h : found.key? = some key) :
    ∃ info mi, found = .found info mi ∧ mi.key = key := by
  cases found with
  | found info mi => exact ⟨info, mi, rfl, Option.some.inj h⟩
  | ambiguous | absent => cases h

/-- The first argument decides between the methods, until the second turns out to fit neither. -/
theorem findMethod_learned_overloaded :
    let ix : Index := { types := .ofList [("A", overloaded)] }
    let int : StaticType := { base := .primitive "int" }
    let text : StaticType := { base := .external "String" }
    Learned [some int, none] [some int, some text]
      ∧ ∃ info m, ix.findMethod "A" "f" [some int, none] = .found info m ∧ m.key = "A.f(int,int)"
        ∧ (ix.findMethod "A" "f" [some int, some text] = .found info m
          ∨ ∃ count, ix.findMethod "A" "f" [some int, some text] = .ambiguous count) := by
  intro ix int text
  have hlearned : Learned [some int, none] [some int, some text] :=
    .cons (.inr rfl) (.cons (.inl rfl) .nil)
  obtain ⟨info, m, hfound, hkey⟩ : ∃ info m, ix.findMethod "A" "f" [some int, none] = .found info m
      ∧ m.key = "A.f(int,int)" := exists_found_of_key? (by decide +kernel)
  exact ⟨hlearned, info, m, hfound, hkey,
    ((findMethod_learned ix "A" "f" hlearned).1 info m hfound).2.2.2.2.2⟩

end Legible.Index
