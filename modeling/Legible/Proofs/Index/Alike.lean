import Legible.Proofs.Index.Entries
import Mathlib.Data.List.Forall2

/-!
# Indexes that answer alike

Two indexes are alike if they hold the same types under the same names, where a type may have
another number for its unit if the imports are the same, and if the simple names stand for the same
types in some order (`Index.Alike`). Whatever is asked of them then has the same answer: types,
members, methods and their types. Linking the supertypes keeps indexes alike (`Alike.link`), because
it goes through the types by name.
-/

namespace Legible

namespace Index

variable {ix ix' : Index} {found found' : List (TypeInfo × MethodInfo)}

/-- The same type, as far as the number of the unit is used. -/
def SameType (ix ix' : Index) (info info' : TypeInfo) : Prop := ix.sight info = ix'.sight info'

theorem SameType.exists_eq {info info' : TypeInfo} (h : SameType ix ix' info info') :
    ∃ unit, info' = info.inUnit unit ∧ ix.imports? info.unit = ix'.imports? unit := by
  have hinfo : info.inUnit 0 = info'.inUnit 0 := congrArg SeenType.info h
  refine ⟨info'.unit, ?_, congrArg SeenType.imports h⟩
  calc info' = (info'.inUnit 0).inUnit info'.unit := rfl
    _ = (info.inUnit 0).inUnit info'.unit := by rw [hinfo]
    _ = info.inUnit info'.unit := rfl

/-- The two indexes hold the same types. -/
structure Alike (ix ix' : Index) : Prop where
  seen : ∀ name, ix.seen name = ix'.seen name
  bySimple : ∀ name, (ix.bySimple.getD name []).Perm (ix'.bySimple.getD name [])

namespace Alike

variable (h : ix.Alike ix')

include h

/-! ## Types -/

theorem type? (name : String) :
    (ix.type? name = none ∧ ix'.type? name = none)
      ∨ ∃ info info', ix.type? name = some info ∧ ix'.type? name = some info'
        ∧ SameType ix ix' info info' := by
  have hseen := h.seen name
  unfold Index.seen at hseen
  cases hinfo : ix.type? name <;> cases hinfo' : ix'.type? name <;> simp_all [SameType]

theorem contains : ix.types.contains = ix'.types.contains := by
  funext name
  rw [Std.TreeMap.contains_eq_isSome_getElem?, Std.TreeMap.contains_eq_isSome_getElem?]
  have hsome := congrArg Option.isSome (h.seen name)
  rwa [Index.seen, Index.seen, Option.isSome_map, Option.isSome_map] at hsome

theorem toList_types :
    ix.types.toList.map (fun entry => (entry.1, ix.sight entry.2))
      = ix'.types.toList.map (fun entry => (entry.1, ix'.sight entry.2)) := by
  rw [← Std.TreeMap.toList_map (f := fun _ => ix.sight),
    ← Std.TreeMap.toList_map (f := fun _ => ix'.sight)]
  refine (Std.TreeMap.Equiv.of_forall_constGet?_eq fun name => ?_).toList_eq
  rw [Std.TreeMap.getElem?_map, Std.TreeMap.getElem?_map]
  exact h.seen name

theorem keys : ix.types.keys = ix'.types.keys := by
  have hkeys := congrArg (List.map Prod.fst) h.toList_types
  simpa [Std.TreeMap.map_fst_toList_eq_keys, Function.comp_def] using hkeys

theorem size : ix.size = ix'.size := by
  rw [Index.size, Index.size, ← Std.TreeMap.length_keys, ← Std.TreeMap.length_keys, h.keys]

/-! ## Supertypes -/

theorem unseen (seen names : List String) : ix.unseen seen names = ix'.unseen seen names := by
  induction names generalizing seen with
  | nil => rfl
  | cons name names ih => rw [Index.unseen, Index.unseen, h.contains, ih, ih]

theorem supertypesOf : ix.supertypesOf = ix'.supertypesOf := by
  funext name
  rcases h.type? name with ⟨hnone, hnone'⟩ | ⟨info, info', hinfo, hinfo', hsame⟩
  · rw [Index.supertypesOf, Index.supertypesOf, hnone, hnone']
  · obtain ⟨unit, rfl, -⟩ := hsame.exists_eq
    rw [Index.supertypesOf, Index.supertypesOf, hinfo, hinfo']
    rfl

theorem levels (rounds : Nat) (seen names : List String) :
    ix.levels rounds seen names = ix'.levels rounds seen names := by
  induction rounds generalizing seen names with
  | zero => rfl
  | succ rounds ih =>
    rw [Index.levels, Index.levels, h.unseen, h.supertypesOf]
    simp only [ih]

theorem hierarchyNames (name : String) : ix.hierarchyNames name = ix'.hierarchyNames name := by
  rw [Index.hierarchyNames, Index.hierarchyNames, h.size, h.levels]

theorem hierarchy (name : String) :
    List.Forall₂ (SameType ix ix') (ix.hierarchy name) (ix'.hierarchy name) := by
  rw [Index.hierarchy, Index.hierarchy, h.hierarchyNames]
  induction ix'.hierarchyNames name with
  | nil => exact .nil
  | cons name names ih =>
    rcases h.type? name with ⟨hnone, hnone'⟩ | ⟨info, info', hinfo, hinfo', hsame⟩
    · rw [List.filterMap_cons_none hnone, List.filterMap_cons_none hnone']
      exact ih
    · rw [List.filterMap_cons_some hinfo, List.filterMap_cons_some hinfo']
      exact .cons hsame ih

end Alike

/-! ## Lists that correspond -/

/-- The first answer that a list gives is that of a list that corresponds to it. -/
theorem rel_findSome? {α β γ δ : Type} {R : α → β → Prop} {S : γ → δ → Prop} {f : α → Option γ}
    {g : β → Option δ} (hfg : ∀ a b, R a b → Option.Rel S (f a) (g b)) {as : List α} {bs : List β}
    (h : List.Forall₂ R as bs) : Option.Rel S (as.findSome? f) (bs.findSome? g) := by
  induction h with
  | nil => exact .none
  | @cons a b as bs hab _ ih =>
    rw [List.findSome?_cons, List.findSome?_cons]
    have hrel := hfg a b hab
    generalize f a = x, g b = y at hrel ⊢
    cases hrel with
    | none => exact ih
    | some hs => exact .some hs

theorem findSome?_eq_of_forall₂ {α β γ : Type} {R : α → β → Prop} {f : α → Option γ}
    {g : β → Option γ} (hfg : ∀ a b, R a b → f a = g b) {as : List α} {bs : List β}
    (h : List.Forall₂ R as bs) : as.findSome? f = bs.findSome? g := by
  induction h with
  | nil => rfl
  | cons hab _ ih => rw [List.findSome?_cons, List.findSome?_cons, hfg _ _ hab, ih]

theorem any_eq_of_forall₂ {α β : Type} {R : α → β → Prop} {f : α → Bool} {g : β → Bool}
    (hfg : ∀ a b, R a b → f a = g b) {as : List α} {bs : List β} (h : List.Forall₂ R as bs) :
    as.any f = bs.any g := by
  induction h with
  | nil => rfl
  | cons hab _ ih => rw [List.any_cons, List.any_cons, hfg _ _ hab, ih]

theorem forall₂_filter {α β : Type} {R : α → β → Prop} {f : α → Bool} {g : β → Bool}
    (hfg : ∀ a b, R a b → f a = g b) {as : List α} {bs : List β} (h : List.Forall₂ R as bs) :
    List.Forall₂ R (as.filter f) (bs.filter g) :=
  List.rel_filter (fun a b hab => by simp only [hfg a b hab]) h

theorem isEmpty_eq_of_forall₂ {α β : Type} {R : α → β → Prop} {as : List α} {bs : List β}
    (h : List.Forall₂ R as bs) : as.isEmpty = bs.isEmpty := by
  cases h <;> rfl

/-- What is taken from lists that correspond, element by element, is the same. -/
theorem flatMap_eq_of_forall₂ {α β γ : Type} {R : α → β → Prop} {f : α → List γ} {g : β → List γ}
    (hfg : ∀ a b, R a b → f a = g b) {as : List α} {bs : List β} (h : List.Forall₂ R as bs) :
    as.flatMap f = bs.flatMap g := by
  induction h with
  | nil => rfl
  | cons hab _ ih => rw [List.flatMap_cons, List.flatMap_cons, hfg _ _ hab, ih]

namespace Alike

variable (h : ix.Alike ix')

include h

theorem findMemberType? (owner name : String) :
    ix.findMemberType? owner name = ix'.findMemberType? owner name := by
  refine findSome?_eq_of_forall₂ (fun info info' hsame => ?_) (h.hierarchy owner)
  obtain ⟨unit, rfl, -⟩ := hsame.exists_eq
  rfl

/-- A field is found in the same type. -/
theorem findField? (owner name : String) :
    Option.Rel (fun found found' => SameType ix ix' found.1 found'.1 ∧ found.2 = found'.2)
      (ix.findField? owner name) (ix'.findField? owner name) := by
  refine rel_findSome? (fun info info' hsame => ?_) (h.hierarchy owner)
  have hfields : info.fields = info'.fields := by
    obtain ⟨unit, rfl, -⟩ := hsame.exists_eq
    rfl
  rw [hfields]
  cases info'.fields[name]? with
  | none => exact .none
  | some field => exact .some ⟨hsame, rfl⟩

/-! ## Type names -/

theorem enclosingFrom (steps : Nat) (name : Option String) :
    List.Forall₂ (SameType ix ix') (ix.enclosingFrom steps name) (ix'.enclosingFrom steps name) := by
  induction steps generalizing name with
  | zero => exact .nil
  | succ steps ih =>
    rw [Index.enclosingFrom, Index.enclosingFrom]
    cases name with
    | none => exact .nil
    | some name =>
      rcases h.type? name with ⟨hnone, hnone'⟩ | ⟨info, info', hinfo, hinfo', hsame⟩
      · rw [Option.bind_some, Option.bind_some, hnone, hnone']
        exact .nil
      · rw [Option.bind_some, Option.bind_some, hinfo, hinfo']
        have henclosing : info.enclosing = info'.enclosing := by
          obtain ⟨unit, rfl, -⟩ := hsame.exists_eq
          rfl
        refine .cons hsame ?_
        rw [henclosing]
        exact ih info'.enclosing

theorem enclosingTypes (name : Option String) :
    List.Forall₂ (SameType ix ix') (ix.enclosingTypes name) (ix'.enclosingTypes name) := by
  rw [Index.enclosingTypes, Index.enclosingTypes, h.size]
  exact h.enclosingFrom _ name

theorem importedName? (imports : Imports) (name : String) :
    ix.importedName? imports name = ix'.importedName? imports name := by
  have honly : ∀ (ix : Index) (only : String),
      ix.bySimple[name]? = some [only] ↔ ix.bySimple.getD name [] = [only] := by
    intro ix only
    rw [Std.TreeMap.getD_eq_getD_getElem?]
    cases ix.bySimple[name]? <;> simp
  have hsame : ∀ only, ix.bySimple[name]? = some [only] ↔ ix'.bySimple[name]? = some [only] := by
    intro only
    rw [honly, honly]
    exact ⟨fun heq => (List.singleton_perm.mp (heq ▸ h.bySimple name)).symm,
      fun heq => List.perm_singleton.mp (heq ▸ h.bySimple name)⟩
  rw [Index.importedName?, Index.importedName?, h.contains]
  split
  · rfl
  split
  · rfl
  split
  · rfl
  split
  · next only heq => rw [(hsame only).mp heq]
  · next hnot =>
      split
      · next only heq => exact absurd ((hsame only).mpr heq) (hnot only)
      · rfl

variable {unit unit' : Nat} (himports : ix.imports? unit = ix'.imports? unit')

include himports

theorem lookupSimple? (context : Option String) (name : String) (inherited : Bool) :
    ix.lookupSimple? unit context name inherited
      = ix'.lookupSimple? unit' context name inherited := by
  rw [Index.lookupSimple?, Index.lookupSimple?, himports]
  congr 1
  · refine findSome?_eq_of_forall₂ (fun info info' hsame => ?_) (h.enclosingTypes context)
    obtain ⟨unit, rfl, -⟩ := hsame.exists_eq
    rw [nameWithin?, nameWithin?, h.findMemberType?]
    rfl
  · simp only [h.importedName?]

omit himports in
theorem descend? (outer : String) (names : List String) :
    ix.descend? outer names = ix'.descend? outer names := by
  have hmember : ix.findMemberType? = ix'.findMemberType? := by
    funext owner name
    exact h.findMemberType? owner name
  rw [Index.descend?, Index.descend?, hmember]

omit himports in
theorem nestedName? (name : String) : ix.nestedName? name = ix'.nestedName? name := by
  simp only [Index.nestedName?, h.contains, h.descend?]

theorem resolveWith (context : Option String) (name : String) (inherited : Bool) :
    ix.resolveWith unit context name inherited = ix'.resolveWith unit' context name inherited := by
  simp only [Index.resolveWith, lookupDotted?, importOf?, h.contains, h.descend?, h.nestedName?,
    h.lookupSimple? himports, himports]

theorem resolveType (context : Option String) (name : String) :
    ix.resolveType unit context name = ix'.resolveType unit' context name :=
  h.resolveWith himports context name true

theorem staticOwners (name : String) : ix.staticOwners unit name = ix'.staticOwners unit' name := by
  have hresolve : ix.resolveType unit none = ix'.resolveType unit' none := by
    funext text
    exact h.resolveType himports none text
  rw [Index.staticOwners, Index.staticOwners, himports, hresolve]

omit himports

/-! ## Members -/

variable {owner owner' : TypeInfo} (hsame : SameType ix ix' owner owner')

include hsame

theorem isTypeParam (name : String) : ix.isTypeParam owner name = ix'.isTypeParam owner' name := by
  obtain ⟨unit, rfl, -⟩ := hsame.exists_eq
  have hany := any_eq_of_forall₂ (f := fun info => info.typeParams.contains name)
    (g := fun info => info.typeParams.contains name) (fun info info' hsame => by
      obtain ⟨unit, rfl, -⟩ := hsame.exists_eq
      rfl) (h.enclosingTypes owner.enclosing)
  rw [Index.isTypeParam, Index.isTypeParam, hany]
  rfl

theorem memberType? (text : String) (methodParams : List String) :
    ix.memberType? owner text methodParams = ix'.memberType? owner' text methodParams := by
  have hparam : ix.isTypeParam owner = ix'.isTypeParam owner' := by
    funext name
    exact h.isTypeParam hsame name
  obtain ⟨unit, rfl, himports⟩ := hsame.exists_eq
  simp only [Index.memberType?, hparam, h.resolveType himports]
  rfl

theorem returnType? (method : MethodInfo) :
    ix.returnType? owner method = ix'.returnType? owner' method := by
  rw [Index.returnType?, Index.returnType?]
  simp only [h.memberType? hsame]
  obtain ⟨unit, rfl, -⟩ := hsame.exists_eq
  rfl

end Alike

/-! ## Methods -/

def SameMethod (ix ix' : Index) (found found' : TypeInfo × MethodInfo) : Prop :=
  SameType ix ix' found.1 found'.1 ∧ found.2 = found'.2

inductive SameLookup (ix ix' : Index) : MethodLookup → MethodLookup → Prop where
  | found {owner owner' : TypeInfo} (method : MethodInfo) (h : SameType ix ix' owner owner') :
      SameLookup ix ix' (.found owner method) (.found owner' method)
  | ambiguous (count : Nat) : SameLookup ix ix' (.ambiguous count) (.ambiguous count)
  | absent : SameLookup ix ix' .absent .absent

theorem SameLookup.of_sameMethod {found found' : TypeInfo × MethodInfo}
    (h : SameMethod ix ix' found found') :
    SameLookup ix ix' (.found found.1 found.2) (.found found'.1 found'.2) := by
  rw [← h.2]
  exact .found found.2 h.1

theorem forall₂_firstOverrides (h : List.Forall₂ (SameMethod ix ix') found found')
    (seen : List String) :
    List.Forall₂ (SameMethod ix ix') (firstOverrides seen found) (firstOverrides seen found') := by
  induction h generalizing seen with
  | nil => exact .nil
  | @cons m m' found found' hm _ ih =>
    obtain ⟨info, m⟩ := m
    obtain ⟨info', m'⟩ := m'
    obtain ⟨hinfo, rfl⟩ := hm
    simp only [firstOverrides]
    split
    · exact ih seen
    · exact .cons ⟨hinfo, rfl⟩ (ih _)

theorem forall₂_pool (h : List.Forall₂ (SameMethod ix ix') found found') (count : Nat) :
    List.Forall₂ (SameMethod ix ix') (pool found count) (pool found' count) := by
  have hfitting := forall₂_filter (f := (·.2.acceptsArity count)) (g := (·.2.acceptsArity count))
    (fun m m' hm => by rw [hm.2]) h
  have hexact := forall₂_filter (f := (!·.2.varargs)) (g := (!·.2.varargs))
    (fun m m' hm => by rw [hm.2]) hfitting
  simp only [pool, isEmpty_eq_of_forall₂ hexact]
  split
  · exact hfitting
  · exact hexact

namespace Alike

variable (h : ix.Alike ix')

include h

theorem methodsNamed (owner name : String) :
    List.Forall₂ (SameMethod ix ix') (ix.methodsNamed owner name) (ix'.methodsNamed owner name) := by
  refine forall₂_firstOverrides (List.rel_flatMap (h.hierarchy owner) fun info info' hsame => ?_) []
  have hmethods : info.methods = info'.methods := by
    obtain ⟨unit, rfl, -⟩ := hsame.exists_eq
    rfl
  rw [hmethods, List.forall₂_map_left_iff, List.forall₂_map_right_iff]
  exact List.forall₂_same.mpr fun m _ => ⟨hsame, rfl⟩

theorem argumentsFit (args : List (Option StaticType)) {found found' : TypeInfo × MethodInfo}
    (hsame : SameMethod ix ix' found found') :
    ix.argumentsFit args found = ix'.argumentsFit args found' := by
  have hfits : ix.argumentFits found.1 found.2 = ix'.argumentFits found'.1 found'.2 := by
    funext arg
    rw [argumentFits, argumentFits, hsame.2]
    simp only [h.memberType? hsame.1]
  rw [Index.argumentsFit, Index.argumentsFit, hfits]

theorem findMethod (owner name : String) (args : List (Option StaticType)) :
    SameLookup ix ix' (ix.findMethod owner name args) (ix'.findMethod owner name args) := by
  have hpool := forall₂_pool (h.methodsNamed owner name) args.length
  simp only [Index.findMethod]
  generalize pool (ix.methodsNamed owner name) args.length = found,
    pool (ix'.methodsNamed owner name) args.length = found' at hpool ⊢
  have hfitting := forall₂_filter (fun _ _ hm => h.argumentsFit args hm) hpool
  generalize found.filter (ix.argumentsFit args) = fitting,
    found'.filter (ix'.argumentsFit args) = fitting' at hfitting ⊢
  have hlength := hpool.length_eq
  rcases hpool with _ | ⟨hm, _ | _⟩
  · exact .absent
  · exact .of_sameMethod hm
  · rcases hfitting with _ | ⟨hm, _ | _⟩
    · rw [hlength]
      exact .ambiguous _
    · exact .of_sameMethod hm
    · rw [hlength]
      exact .ambiguous _

/-- The keys of the methods of a name. -/
theorem methodKeys (owner name : String) :
    ((ix.hierarchy owner).flatMap fun info => (info.methods.filter (·.name == name)).map (·.key))
      = (ix'.hierarchy owner).flatMap fun info =>
        (info.methods.filter (·.name == name)).map (·.key) :=
  flatMap_eq_of_forall₂ (fun info info' hsame => by
    obtain ⟨unit, rfl, -⟩ := hsame.exists_eq
    rfl) (h.hierarchy owner)

theorem enumsWith (name : String) : ix.enumsWith name = ix'.enumsWith name := by
  have hvalues : ∀ ix : Index, ix.enumsWith name = ((ix.types.toList.map fun entry =>
      (entry.1, ix.sight entry.2)).filter fun entry => entry.2.info.kind = .enumType
        && entry.2.info.fields.contains name).map (·.2.info.qualifiedName) := by
    intro ix
    rw [Index.enumsWith, values_eq_map_toList, List.filter_map, List.filter_map, List.map_map,
      List.map_map]
    rfl
  rw [hvalues, hvalues, h.toList_types]

/-! ## Linking -/

omit h in
/-- What is held of a type once its supertypes are resolved. -/
theorem seen_linkType (ix : Index) (name other : String) :
    (ix.linkType name).seen other
      = if name = other then (ix.type? name).map fun info =>
          ix.sight { info with supertypes :=
            (info.superTexts.map fun text => ix.resolveWith info.unit info.enclosing text false) }
        else ix.seen other := by
  unfold linkType
  cases hinfo : ix.type? name with
  | none =>
    by_cases heq : name = other
    · subst heq
      simp [Index.seen, hinfo]
    · simp [heq]
  | some info =>
    by_cases heq : name = other
    · subst heq
      simp [Index.seen, Index.type?, sight, imports?]
    · simp [Index.seen, Index.type?, Std.TreeMap.getElem?_insert, heq]
      rfl

theorem linkType (name : String) : (ix.linkType name).Alike (ix'.linkType name) where
  seen other := by
    rw [seen_linkType, seen_linkType, h.seen]
    congr 1
    rcases h.type? name with ⟨hnone, hnone'⟩ | ⟨info, info', hinfo, hinfo', hsame⟩
    · rw [hnone, hnone', Option.map_none, Option.map_none]
    · obtain ⟨unit, rfl, himports⟩ := hsame.exists_eq
      have hresolve : ∀ text, ix.resolveWith info.unit info.enclosing text false
          = ix'.resolveWith unit info.enclosing text false :=
        fun text => h.resolveWith himports info.enclosing text false
      rw [hinfo, hinfo', Option.map_some, Option.map_some]
      simp only [sight, TypeInfo.inUnit, himports, hresolve]
  bySimple other := by
    rw [linkType_eq ix, linkType_eq ix']
    exact h.bySimple other

/-- Types are linked in the order of their names, which is the same. -/
theorem link : ix.link.Alike ix'.link := by
  rw [Index.link, Index.link, h.keys]
  generalize ix'.types.keys = names
  induction names generalizing ix ix' with
  | nil => exact h
  | cons name names ih => exact ih (h.linkType name)

end Alike

end Index

end Legible
