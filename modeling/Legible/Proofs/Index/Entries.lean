import Legible.Proofs.Index.Walk
import Std.Data.TreeMap.Lemmas

/-!
# What a unit adds to the index

The walk of a unit only adds to the index: it enters types one after the other, and which ones does
not depend on what the index holds (`enters_run`). So what an index knows after a unit was added is
what the unit has on its own, and else what the index knew before (`seen_addUnit`).

A type of the index carries the number of its unit. What it stands for are the imports of that unit,
so an index is looked at through `Index.seen`, which has the imports in place of the number.
-/

namespace Legible

variable {name key : String}

theorem values_eq_map_toList {α β : Type} {cmp : α → α → Ordering} (m : Std.TreeMap α β cmp) :
    m.values = m.toList.map Prod.snd := by
  show m.foldr (fun _ v l => v :: l) [] = _
  rw [Std.TreeMap.foldr_eq_foldr_toList]
  induction m.toList with
  | nil => rfl
  | cons entry entries ih => rw [List.foldr_cons, ih, List.map_cons]

/-! ## Entries -/

def TypeInfo.inUnit (info : TypeInfo) (unit : Nat) : TypeInfo := { info with unit }

/-- What the index holds of a type when the number of its unit is left out. -/
structure SeenType where
  info : TypeInfo
  imports : Option Imports

namespace Index

def sight (ix : Index) (info : TypeInfo) : SeenType := ⟨info.inUnit 0, ix.imports? info.unit⟩

def seen (ix : Index) (name : String) : Option SeenType := (ix.type? name).map ix.sight

def enter (ix : Index) (entry : Nat × TypeInfo) : Index :=
  { ix with
    types := ix.types.insert entry.2.qualifiedName entry.2
    bySimple :=
      if entry.2.isLocal then ix.bySimple
      else ix.bySimple.insert entry.2.name
        (ix.bySimple.getD entry.2.name [] ++ [entry.2.qualifiedName])
    declared := ix.declared.modify entry.2.unit (·.insert entry.1 entry.2.qualifiedName) }

def enterAll (ix : Index) (unit : Nat) (entries : List (Nat × TypeInfo)) : Index :=
  entries.foldl (fun ix entry => ix.enter (entry.1, entry.2.inUnit unit)) ix

section Entered

variable (ix : Index) (unit : Nat) (entries : List (Nat × TypeInfo))

theorem enterAll_append (entries' : List (Nat × TypeInfo)) :
    ix.enterAll unit (entries ++ entries') = (ix.enterAll unit entries).enterAll unit entries' :=
  List.foldl_append

theorem imports_enterAll : (ix.enterAll unit entries).imports = ix.imports := by
  induction entries generalizing ix with
  | nil => rfl
  | cons entry entries ih => exact ih _

theorem size_declared_enterAll : (ix.enterAll unit entries).declared.size = ix.declared.size := by
  induction entries generalizing ix with
  | nil => rfl
  | cons entry entries ih => exact (ih _).trans (Array.size_modify ..)

theorem type?_enter (ix : Index) (entry : Nat × TypeInfo) (name : String) :
    (ix.enter entry).type? name
      = if entry.2.qualifiedName = name then some entry.2 else ix.type? name := by
  by_cases heq : entry.2.qualifiedName = name <;>
    simp [enter, type?, Std.TreeMap.getElem?_insert, heq]

theorem mem_bySimple_of_only {ix : Index} (h : ix.bySimple[name]? = some [key]) :
    key ∈ ix.bySimple.getD name [] := by
  simp [Std.TreeMap.getD_eq_getD_getElem?, h]

section Folds

variable {α : Type} (f : α → Nat × TypeInfo) (xs : List α) (ix : Index) (name : String)

/-- The last type that is entered under a name, over what there was. -/
theorem type?_foldl_enter :
    (xs.foldl (fun ix x => ix.enter (f x)) ix).type? name
      = ((xs.reverse.find? fun x => (f x).2.qualifiedName == name).map fun x => (f x).2).or
        (ix.type? name) := by
  induction xs generalizing ix with
  | nil => rfl
  | cons x xs ih =>
    rw [List.foldl_cons, ih, type?_enter, List.reverse_cons, List.find?_append]
    cases xs.reverse.find? fun x => (f x).2.qualifiedName == name with
    | some y => rfl
    | none => by_cases hname : (f x).2.qualifiedName = name <;> simp [hname]

/-- The names by simple name, behind those that there were: those of the types that are not local.
-/
theorem bySimple_foldl_enter :
    (xs.foldl (fun ix x => ix.enter (f x)) ix).bySimple.getD name []
      = ix.bySimple.getD name []
        ++ (xs.filter fun x => !(f x).2.isLocal && (f x).2.name == name).map
          fun x => (f x).2.qualifiedName := by
  induction xs generalizing ix with
  | nil => simp
  | cons x xs ih =>
    rw [List.foldl_cons, ih]
    by_cases hlocal : (f x).2.isLocal = true
    · simp [enter, hlocal]
    · by_cases hname : (f x).2.name = name <;> simp [enter, hlocal, Std.TreeMap.getD_insert, hname]

end Folds

/-- The types of entries, over those that there were. -/
theorem type?_enterAll (name : String) :
    (ix.enterAll unit entries).type? name
      = (((({} : Index).enterAll 0 entries).type? name).map (·.inUnit unit)).or
        (ix.type? name) := by
  have hempty : ({} : Index).type? name = none := by simp [type?]
  simp only [enterAll, type?_foldl_enter, hempty, Option.or_none, Option.map_map]
  rfl

/-- The names of entries by simple name, behind those that there were. -/
theorem bySimple_enterAll (name : String) :
    (ix.enterAll unit entries).bySimple.getD name []
      = ix.bySimple.getD name [] ++ (({} : Index).enterAll 0 entries).bySimple.getD name [] := by
  simp [enterAll, bySimple_foldl_enter, TypeInfo.inUnit]

/-- Names are entered for the one unit. -/
theorem declared_enterAll (number : Nat) :
    (ix.enterAll unit entries).declared[number]?
      = if number = unit then
          ix.declared[number]?.map fun m =>
            entries.foldl (fun m entry => m.insert entry.1 entry.2.qualifiedName) m
        else ix.declared[number]? := by
  induction entries generalizing ix with
  | nil => simp [enterAll]
  | cons entry entries ih =>
    have hcons : ix.enterAll unit (entry :: entries)
        = (ix.enter (entry.1, entry.2.inUnit unit)).enterAll unit entries := rfl
    have henter : (ix.enter (entry.1, entry.2.inUnit unit)).declared[number]?
        = if number = unit then
            ix.declared[number]?.map (·.insert entry.1 entry.2.qualifiedName)
          else ix.declared[number]? := by
      simp only [enter, TypeInfo.inUnit, Array.getElem?_modify, eq_comm]
    rw [hcons, ih, henter]
    by_cases h : number = unit
    · simp [h, Function.comp_def]
    · simp [h]

end Entered

end Index

/-! ## The walk -/

namespace SourceUnit

variable (u : SourceUnit) (info : TypeInfo) (unit : Nat)

theorem addMember_inUnit (p : Place) :
    u.addMember (info.inUnit unit) p = (u.addMember info p).inUnit unit := by
  unfold addMember
  split
  · next type _ =>
      generalize p.declarators = ds
      induction ds generalizing info with
      | nil => rfl
      | cons d ds ih => exact ih (info.addField _ _)
  · rfl
  · next isConstructor _ => cases isConstructor <;> rfl
  · rfl
  · rfl
  · rfl

theorem addMembers_inUnit (body : Place) :
    u.addMembers (info.inUnit unit) body = (u.addMembers info body).inUnit unit := by
  unfold addMembers
  generalize body.bodyMembers = ps
  induction ps generalizing info with
  | nil => rfl
  | cons p ps ih => rw [List.foldl_cons, addMember_inUnit, ih, List.foldl_cons]

theorem addComponents_inUnit (p : Place) :
    u.addComponents (info.inUnit unit) p = (u.addComponents info p).inUnit unit := by
  unfold addComponents
  generalize u.recordComponents p = components
  induction components generalizing info with
  | nil => rfl
  | cons component components ih => exact ih ((info.addMethod _).addField _ _)

end SourceUnit

namespace Indexing

/-- What the walk may rely on where it comes by a place: if the surroundings fit the place, a type
that is entered there has the property `P`, and the surroundings fit what is walked below. -/
structure Keeps (u : SourceUnit) (imports : Imports) (Fits : Around → Place → Prop)
    (P : Nat × TypeInfo → Prop) : Prop where
  child : ∀ around p, Fits around p → ∀ q ∈ p.namedChildren, Fits around q
  member : ∀ around p, Fits around p → ∀ q ∈ p.namedChildren,
    Fits { around with member := (around.owner.map (u.memberKey · p)).or around.member } q
  named : ∀ around p, Fits around p → ∀ kind name body, Construct.of p = .typeDecl kind name body →
    let info := declaredType u 0 imports around p kind name body
    P (p.number, info) ∧ ∀ q ∈ body.namedChildren, Fits { owner := some info.qualifiedName } q
  unnamed : ∀ around p, Fits around p →
    (∀ kind name body, Construct.of p ≠ .typeDecl kind name body) → ∀ body ∈ p.children,
    ∀ owner, around.owner = some owner → ∀ (s : Indexing) superText,
      P (p.number, s.anonymousType u 0 owner superText body)
        ∧ ∀ q ∈ body.namedChildren, Fits { owner := some (s.anonymousName owner) } q

def Task.Fits (Fits : Around → Place → Prop) : Task → Prop
  | .walk around p => Fits around p
  | .enter owner _ p body => body ∈ p.children
      ∧ (∀ kind name body, Construct.of p ≠ .typeDecl kind name body)
      ∧ ∃ around : Around, around.owner = some owner ∧ Fits around p

theorem Keeps.trivial {u : SourceUnit} {imports : Imports} :
    Keeps u imports (fun _ _ => True) fun _ => True := by
  constructor <;> simp

section Walk

variable {u : SourceUnit} {imports : Imports} {P : Nat × TypeInfo → Prop} {around : Around}
  {p : Place}

theorem declaredType_inUnit (unit : Nat) (around : Around) (p : Place) (kind : TypeKind)
    (name body : Place) :
    declaredType u unit imports around p kind name body
      = (declaredType u 0 imports around p kind name body).inUnit unit := by
  rw [declaredType, declaredType, ← SourceUnit.addMembers_inUnit]
  split
  · rw [← SourceUnit.addComponents_inUnit]
    rfl
  · rfl

theorem anonymousType_inUnit (unit : Nat) (index : Index) (anonymous : Std.TreeMap String Nat)
    (owner superText : String) (body : Place) :
    anonymousType ⟨index, anonymous⟩ u unit owner superText body
      = (anonymousType ⟨{}, anonymous⟩ u 0 owner superText body).inUnit unit := by
  rw [anonymousType, anonymousType, ← SourceUnit.addMembers_inUnit]
  rfl

variable {Fits : Around → Place → Prop} (hkeeps : Keeps u imports Fits P)

include hkeeps

theorem fits_anonymousTasks {body : Place} (hfits : Fits around p)
    (hnamed : ∀ kind name body, Construct.of p ≠ .typeDecl kind name body)
    (hbody : body ∈ p.children) (superText : String → String) :
    ∀ task ∈ anonymousTasks around p superText body, task.Fits Fits := by
  intro task htask
  unfold anonymousTasks at htask
  split at htask
  · next owner howner =>
      rcases List.mem_append.mp htask with htask | htask
      · obtain ⟨q, hq, rfl⟩ := List.mem_map.mp htask
        exact hkeeps.child around p hfits q (List.mem_of_mem_filter hq)
      · rw [List.mem_singleton.mp htask]
        exact ⟨hbody, hnamed, around, howner, hfits⟩
  · cases htask

/-- Which types a step enters, how it counts anonymous ones and what it leaves depends neither on
the number of the unit nor on what the index holds. All entries have the property `P`. -/
theorem enters_perform {task : Task} (hfits : task.Fits Fits) (anonymous : Std.TreeMap String Nat) :
    ∃ entries anonymous' next, (∀ entry ∈ entries, P entry) ∧ (∀ task ∈ next, task.Fits Fits)
      ∧ ∀ unit index, perform u unit imports ⟨index, anonymous⟩ task
        = (⟨index.enterAll unit entries, anonymous'⟩, next) := by
  have hwalks : ∀ {around : Around} {ps : List Place}, (∀ q ∈ ps, Fits around q) →
      ∀ task ∈ walks around ps, task.Fits Fits := by
    intro around ps hps task htask
    obtain ⟨q, hq, rfl⟩ := List.mem_map.mp htask
    exact hps q hq
  cases task with
  | enter owner superText p body =>
    obtain ⟨hbody, hnamed, around, howner, hfits⟩ := hfits
    obtain ⟨hP, hbelow⟩ := hkeeps.unnamed around p hfits hnamed body hbody owner howner
      ⟨{}, anonymous⟩ superText
    refine ⟨[_], anonymous.insert owner (anonymous.getD owner 0 + 1), _, by simpa using hP,
      hwalks hbelow, fun unit index => ?_⟩
    rw [perform, insertAnonymous, anonymousType_inUnit]
    rfl
  | walk around p =>
    by_cases hnamed : ∃ kind name body, Construct.of p = .typeDecl kind name body
    · obtain ⟨kind, name, body, hof⟩ := hnamed
      obtain ⟨hP, hbelow⟩ := hkeeps.named around p hfits kind name body hof
      refine ⟨[_], anonymous, _, by simpa using hP, hwalks hbelow, fun unit index => ?_⟩
      rw [perform, hof]
      dsimp only
      rw [declaredType_inUnit unit]
      rfl
    · refine ⟨[], anonymous, (perform u 0 imports ⟨{}, anonymous⟩ (.walk around p)).2, by simp, ?_,
        fun unit index => ?_⟩
      · have hstep := @performs u 0 imports ⟨{}, anonymous⟩ (.walk around p)
        generalize perform u 0 imports ⟨{}, anonymous⟩ (.walk around p) = done at hstep
        cases hstep with
        | named hof => exact absurd ⟨_, _, _, hof⟩ hnamed
        | unnamed hbody hnamed superText =>
          exact fits_anonymousTasks hkeeps hfits hnamed (Place.mem_children_of_typeBody? hbody) superText
        | member => exact hwalks (hkeeps.member around p hfits)
        | other => exact hwalks (hkeeps.child around p hfits)
      · rw [perform, perform]
        split
        · next hof => exact absurd ⟨_, _, _, hof⟩ hnamed
        all_goals rfl

/-- The walk of a unit enters types. -/
theorem enters_run (steps : Nat) {stack : List Task} (hstack : ∀ task ∈ stack, task.Fits Fits)
    (anonymous : Std.TreeMap String Nat) :
    ∃ entries, (∀ entry ∈ entries, P entry) ∧ ∀ unit index,
      (run u unit imports steps stack ⟨index, anonymous⟩).2.index = index.enterAll unit entries := by
  induction steps generalizing stack anonymous with
  | zero => exact ⟨[], by simp, fun _ _ => rfl⟩
  | succ steps ih =>
    cases stack with
    | nil => exact ⟨[], by simp, fun _ _ => rfl⟩
    | cons task stack =>
      obtain ⟨htask, hstack⟩ := List.forall_mem_cons.mp hstack
      obtain ⟨entries, anonymous', next, hP, hnext, hperform⟩ :=
        enters_perform hkeeps htask anonymous
      obtain ⟨entries', hP', hrun⟩ := ih (List.forall_mem_append.mpr ⟨hnext, hstack⟩) anonymous'
      refine ⟨entries ++ entries', List.forall_mem_append.mpr ⟨hP, hP'⟩, fun unit index => ?_⟩
      rw [run, hperform, Index.enterAll_append]
      exact hrun unit _

end Walk

end Indexing

/-! ## Units -/

namespace Index

variable {units : List SourceUnit} {number : Nat}

/-- The index of one unit, with its supertypes not resolved yet. -/
def ofUnit (u : SourceUnit) : Index := ({} : Index).addUnit u

def begin (ix : Index) (u : SourceUnit) : Index :=
  { ix with imports := ix.imports.push u.imports, declared := ix.declared.push ∅ }

variable {ix : Index} {u : SourceUnit}

/-- What a unit enters. -/
theorem exists_entries_of {Fits : Around → Place → Prop} {P : Nat × TypeInfo → Prop}
    (h : Indexing.Keeps u u.imports Fits P) (htop : Fits {} u.top) :
    ∃ entries, (∀ entry ∈ entries, P entry)
      ∧ ∀ ix : Index, ix.addUnit u = (ix.begin u).enterAll ix.imports.size entries := by
  have hstack : ∀ task ∈ [Indexing.Task.walk {} u.top], task.Fits Fits :=
    List.forall_mem_singleton.mpr htop
  obtain ⟨entries, hP, hrun⟩ := Indexing.enters_run h u.root.places.length hstack ∅
  exact ⟨entries, hP, fun ix => hrun ix.imports.size (ix.begin u)⟩

theorem exists_entries (u : SourceUnit) :
    ∃ entries, ∀ ix : Index, ix.addUnit u = (ix.begin u).enterAll ix.imports.size entries := by
  obtain ⟨entries, -, hadd⟩ := exists_entries_of Indexing.Keeps.trivial (u := u) trivial
  exact ⟨entries, hadd⟩

/-- Every type belongs to one of the units. -/
structure Sized (ix : Index) : Prop where
  declared : ix.declared.size = ix.imports.size
  unit_lt : ∀ name info, ix.type? name = some info → info.unit < ix.imports.size

theorem sized_empty : ({} : Index).Sized := ⟨rfl, fun name info h => by simp [type?] at h⟩

theorem size_imports_addUnit (ix : Index) (u : SourceUnit) :
    (ix.addUnit u).imports.size = ix.imports.size + 1 := by
  obtain ⟨entries, hadd⟩ := exists_entries u
  rw [hadd, imports_enterAll, begin, Array.size_push]

theorem imports?_addUnit (number : Nat) :
    (ix.addUnit u).imports? number
      = if number = ix.imports.size then some u.imports else ix.imports? number := by
  obtain ⟨entries, hadd⟩ := exists_entries u
  rw [hadd, imports?, imports_enterAll, begin, Array.getElem?_push]
  rfl

theorem type?_addUnit (name : String) :
    (ix.addUnit u).type? name
      = (((ofUnit u).type? name).map (·.inUnit ix.imports.size)).or (ix.type? name) := by
  obtain ⟨entries, hadd⟩ := exists_entries u
  have hown : (ofUnit u).type? name
      = ((({} : Index).enterAll 0 entries).type? name).map (·.inUnit 0) := by
    rw [ofUnit, hadd]
    exact (type?_enterAll _ _ entries name).trans (by simp [begin, type?])
  rw [hadd, type?_enterAll, hown]
  cases (({} : Index).enterAll 0 entries).type? name <;> rfl

theorem Sized.addUnit (h : ix.Sized) : (ix.addUnit u).Sized where
  declared := by
    obtain ⟨entries, hadd⟩ := exists_entries u
    rw [hadd, size_declared_enterAll, imports_enterAll]
    simp [begin, h.declared]
  unit_lt name info hinfo := by
    rw [type?_addUnit] at hinfo
    rw [size_imports_addUnit]
    rcases Option.or_eq_some_iff.mp hinfo with hinfo | ⟨-, hinfo⟩
    · obtain ⟨own, -, rfl⟩ := Option.map_eq_some_iff.mp hinfo
      exact Nat.lt_succ_self _
    · exact Nat.lt_succ_of_lt (h.unit_lt name info hinfo)

theorem seen_addUnit (h : ix.Sized) (name : String) :
    (ix.addUnit u).seen name = ((ofUnit u).seen name).or (ix.seen name) := by
  rw [seen, type?_addUnit, seen]
  cases hown : (ofUnit u).type? name with
  | some info =>
    have hunit := (sized_empty.addUnit (u := u)).unit_lt name info hown
    rw [size_imports_addUnit] at hunit
    have hzero : info.unit = 0 := by simpa using hunit
    simp [sight, imports?_addUnit, ofUnit, hzero, TypeInfo.inUnit]
  | none =>
    rw [Option.map_none, Option.map_none, Option.none_or, Option.none_or, seen]
    refine Option.map_congr fun info hinfo => ?_
    have hne := Nat.ne_of_lt (h.unit_lt name info hinfo)
    rw [sight, imports?_addUnit, if_neg hne, sight]

theorem bySimple_addUnit (name : String) :
    (ix.addUnit u).bySimple.getD name []
      = ix.bySimple.getD name [] ++ (ofUnit u).bySimple.getD name [] := by
  obtain ⟨entries, hadd⟩ := exists_entries u
  have hown : (ofUnit u).bySimple.getD name []
      = (({} : Index).enterAll 0 entries).bySimple.getD name [] := by
    rw [ofUnit, hadd]
    exact (bySimple_enterAll _ _ entries name).trans (by simp [begin])
  rw [hadd, bySimple_enterAll, hown]
  rfl

theorem typeAt?_addUnit (h : ix.Sized) (number : Nat) (p : Place) :
    (ix.addUnit u).typeAt? number p
      = if number = ix.imports.size then (ofUnit u).typeAt? 0 p else ix.typeAt? number p := by
  obtain ⟨entries, hadd⟩ := exists_entries u
  rw [ofUnit, hadd, hadd, typeAt?, typeAt?, declared_enterAll, declared_enterAll]
  by_cases hnumber : number = ix.imports.size
  · simp [begin, hnumber, ← h.declared]
  · rw [if_neg hnumber, if_neg hnumber, typeAt?, begin, Array.getElem?_push, h.declared, if_neg hnumber]

/-! ## Lists of units -/

section Lists

variable (units : List SourceUnit)

theorem seen_foldl (h : ix.Sized) (name : String) :
    (units.foldl addUnit ix).seen name
      = (units.reverse.findSome? fun u => (ofUnit u).seen name).or (ix.seen name) := by
  induction units generalizing ix with
  | nil => rfl
  | cons u units ih =>
    rw [List.foldl_cons, ih h.addUnit, seen_addUnit h, List.reverse_cons, List.findSome?_append,
      Option.or_assoc]
    simp

theorem bySimple_foldl (name : String) :
    (units.foldl addUnit ix).bySimple.getD name []
      = ix.bySimple.getD name [] ++ units.flatMap fun u => (ofUnit u).bySimple.getD name [] := by
  induction units generalizing ix with
  | nil => simp
  | cons u units ih =>
    rw [List.foldl_cons, ih, bySimple_addUnit, List.append_assoc, List.flatMap_cons]

/-- Units that are added change nothing for those before them. -/
theorem kept_foldl (h : ix.Sized) (hlt : number < ix.imports.size) :
    (units.foldl addUnit ix).imports? number = ix.imports? number
      ∧ (units.foldl addUnit ix).typeAt? number = ix.typeAt? number := by
  induction units generalizing ix with
  | nil => exact ⟨rfl, rfl⟩
  | cons u units ih =>
    have hne := Nat.ne_of_lt hlt
    obtain ⟨himports, htypeAt⟩ :=
      ih h.addUnit (Nat.lt_of_lt_of_eq (Nat.lt_succ_of_lt hlt) (size_imports_addUnit ix u).symm)
    refine ⟨himports.trans (by rw [imports?_addUnit, if_neg hne]), htypeAt.trans ?_⟩
    funext p
    rw [typeAt?_addUnit h, if_neg hne]

/-- What stands at a position of the list is held under its number. -/
theorem held_foldl (h : ix.Sized) (hu : units[number]? = some u) :
    (units.foldl addUnit ix).imports? (ix.imports.size + number) = some u.imports
      ∧ (units.foldl addUnit ix).typeAt? (ix.imports.size + number) = (ofUnit u).typeAt? 0 := by
  induction units generalizing ix number with
  | nil => cases hu
  | cons v units ih =>
    have hsize := size_imports_addUnit ix v
    cases number with
    | zero =>
      cases hu
      obtain ⟨himports, htypeAt⟩ := kept_foldl units h.addUnit
        (Nat.lt_of_lt_of_eq (Nat.lt_succ_self ix.imports.size) hsize.symm)
      refine ⟨himports.trans (by rw [imports?_addUnit, if_pos rfl]), htypeAt.trans ?_⟩
      funext p
      rw [typeAt?_addUnit h, if_pos rfl]
    | succ number =>
      have hheld := ih (h.addUnit (u := v)) hu
      rwa [hsize, Nat.add_right_comm, Nat.add_assoc] at hheld

end Lists

theorem linkType_eq (ix : Index) (name : String) :
    ix.linkType name = { ix with types := (ix.linkType name).types } := by
  unfold linkType
  split <;> rfl

/-- Linking changes types only. -/
theorem link_eq (ix : Index) : ix.link = { ix with types := ix.link.types } := by
  rw [link]
  generalize ix.types.keys = names
  induction names generalizing ix with
  | nil => rfl
  | cons name names ih => rw [List.foldl_cons, ih, linkType_eq]

/-- Linking changes the supertypes of a type only. -/
theorem exists_type?_of_linkType {info : TypeInfo} (h : (ix.linkType name).type? key = some info) :
    ∃ info₀, ix.type? key = some info₀ ∧ info = { info₀ with supertypes := info.supertypes } := by
  unfold linkType at h
  split at h
  · exact ⟨info, h, rfl⟩
  · next info₀ hinfo₀ =>
      simp only [type?, Std.TreeMap.getElem?_insert] at h
      split at h
      · next hname =>
          cases h
          rw [← Std.LawfulEqCmp.eq_of_compare hname]
          exact ⟨info₀, hinfo₀, rfl⟩
      · exact ⟨info, h, rfl⟩

theorem bySimple_build (units : List SourceUnit) (name : String) :
    (build units).bySimple.getD name []
      = units.flatMap fun u => (ofUnit u).bySimple.getD name [] := by
  rw [build, link_eq]
  exact (bySimple_foldl units name).trans (by simp)

theorem held_build (hu : units[number]? = some u) :
    (build units).imports? number = some u.imports
      ∧ (build units).typeAt? number = (ofUnit u).typeAt? 0 := by
  have hheld := held_foldl units sized_empty hu
  have hsize : ({} : Index).imports.size + number = number := Nat.zero_add number
  rw [hsize] at hheld
  rw [build, link_eq]
  exact hheld

/-! ## Properties of all entries -/

/-- What the index holds was entered for one of the units, and has the property `P`. -/
structure Holds (P : SourceUnit → Nat × TypeInfo → Prop) (units : List SourceUnit) (ix : Index) :
    Prop where
  imports_size : ix.imports.size = units.length
  declared_size : ix.declared.size = units.length
  imports? : ∀ unit imports, ix.imports? unit = some imports →
    ∃ u, units[unit]? = some u ∧ imports = u.imports
  type : ∀ key info, ix.type? key = some info → info.qualifiedName = key
    ∧ ∃ unit u entry, units[unit]? = some u ∧ P u entry
      ∧ info = { entry.2 with unit, supertypes := info.supertypes }
  bySimple : ∀ name, ∀ key ∈ ix.bySimple.getD name [], ∃ u ∈ units, ∃ entry, P u entry
    ∧ entry.2.isLocal = false ∧ entry.2.name = name ∧ entry.2.qualifiedName = key
  typeAt? : ∀ unit p key, ix.typeAt? unit p = some key → ∃ u entry, units[unit]? = some u
    ∧ P u entry ∧ entry.1 = p.number ∧ entry.2.qualifiedName = key

theorem typeAt?_enter (ix : Index) (entry : Nat × TypeInfo) (unit : Nat) (q : Place) :
    (ix.enter entry).typeAt? unit q
      = if entry.2.unit = unit ∧ entry.1 = q.number ∧ unit < ix.declared.size then
          some entry.2.qualifiedName
        else ix.typeAt? unit q := by
  simp only [enter, typeAt?, Array.getElem?_modify]
  by_cases hunit : entry.2.unit = unit
  · subst hunit
    by_cases hsize : entry.2.unit < ix.declared.size
    · simp [hsize, Std.TreeMap.getElem?_insert]
    · simp [hsize]
  · simp [hunit]

namespace Holds

variable {P : SourceUnit → Nat × TypeInfo → Prop} {units : List SourceUnit} {unit : Nat}

theorem empty : ({} : Index).Holds P [] :=
  ⟨rfl, rfl, by simp [Index.imports?], by simp [type?], by simp, by simp [Index.typeAt?]⟩

variable (h : ix.Holds P units)

include h

theorem enter (hu : units[unit]? = some u) {entry : Nat × TypeInfo} (hP : P u entry) :
    (ix.enter (entry.1, entry.2.inUnit unit)).Holds P units where
  imports_size := h.imports_size
  declared_size := (Array.size_modify ..).trans h.declared_size
  imports? := h.imports?
  type := by
    intro key info hinfo
    rw [type?_enter] at hinfo
    split at hinfo
    · next heq =>
        cases hinfo
        exact ⟨heq, unit, u, entry, hu, hP, rfl⟩
    · exact h.type key info hinfo
  bySimple := by
    intro name key hkey
    have hone := bySimple_foldl_enter (fun entry => entry) [(entry.1, entry.2.inUnit unit)] ix name
    rw [List.foldl_cons, List.foldl_nil] at hone
    rw [hone] at hkey
    rcases List.mem_append.mp hkey with hkey | hkey
    · exact h.bySimple name key hkey
    · obtain ⟨_, hmem, rfl⟩ := List.mem_map.mp hkey
      obtain ⟨hmem, hentry⟩ := List.mem_filter.mp hmem
      cases List.mem_singleton.mp hmem
      rw [Bool.and_eq_true, Bool.not_eq_true', beq_iff_eq] at hentry
      exact ⟨u, List.mem_of_getElem? hu, entry, hP, hentry.1, hentry.2, rfl⟩
  typeAt? := by
    intro i p key hkey
    rw [typeAt?_enter] at hkey
    split at hkey
    · next hnew =>
        cases hkey
        exact ⟨u, entry, hnew.1 ▸ hu, hP, hnew.2.1, rfl⟩
    · exact h.typeAt? i p key hkey

theorem enterAll (hu : units[unit]? = some u) {entries : List (Nat × TypeInfo)}
    (hP : ∀ entry ∈ entries, P u entry) : (ix.enterAll unit entries).Holds P units :=
  List.foldlRecOn (motive := Holds P units) entries _ h fun _ h entry hentry =>
    h.enter hu (hP entry hentry)

theorem begin (u : SourceUnit) : (ix.begin u).Holds P (units ++ [u]) := by
  have hunit : ∀ {unit : Nat} {u' : SourceUnit}, units[unit]? = some u' →
      (units ++ [u])[unit]? = some u' := by
    intro unit u' hu'
    rwa [List.getElem?_append_left (List.getElem?_eq_some_iff.mp hu').1]
  exact
    { imports_size := by simp [Index.begin, h.imports_size]
      declared_size := by simp [Index.begin, h.declared_size]
      imports? := by
        intro unit imports himports
        simp only [Index.imports?, Index.begin, Array.getElem?_push] at himports
        split at himports
        · next hsize =>
            cases himports
            exact ⟨u, by simp [hsize, h.imports_size], rfl⟩
        · obtain ⟨u', hu', rfl⟩ := h.imports? unit imports himports
          exact ⟨u', hunit hu', rfl⟩
      type := by
        intro key info hinfo
        obtain ⟨hname, unit, u', entry, hu', hrest⟩ := h.type key info hinfo
        exact ⟨hname, unit, u', entry, hunit hu', hrest⟩
      bySimple := by
        intro name key hkey
        obtain ⟨u', hu', hrest⟩ := h.bySimple name key hkey
        exact ⟨u', List.mem_append_left _ hu', hrest⟩
      typeAt? := by
        intro unit p key hkey
        simp only [Index.typeAt?, Index.begin, Array.getElem?_push] at hkey
        split at hkey
        · simp at hkey
        · obtain ⟨u', entry, hu', hrest⟩ := h.typeAt? unit p key hkey
          exact ⟨u', entry, hunit hu', hrest⟩ }

theorem linkType (name : String) : (ix.linkType name).Holds P units := by
  rw [linkType_eq]
  refine { h with type := fun key info hinfo => ?_ }
  obtain ⟨info₀, hinfo₀, heq⟩ := exists_type?_of_linkType hinfo
  obtain ⟨hname, unit, u, entry, hu, hP, hentry⟩ := h.type key info₀ hinfo₀
  rw [heq]
  refine ⟨hname, unit, u, entry, hu, hP, ?_⟩
  rw [hentry]

theorem linkAll (names : List String) : (names.foldl Index.linkType ix).Holds P units :=
  List.foldlRecOn (motive := Holds P units) names _ h fun _ h name _ => h.linkType name

end Holds

section Build

variable {P : SourceUnit → Nat × TypeInfo → Prop} {units : List SourceUnit}
  (h : ∀ u ∈ units, ∃ entries, (∀ entry ∈ entries, P u entry)
    ∧ ∀ ix : Index, ix.addUnit u = (ix.begin u).enterAll ix.imports.size entries)

include h

theorem holds_addUnits : (units.foldl addUnit {}).Holds P units := by
  have hadded : ∀ (done : List SourceUnit) (ix : Index), ix.Holds P done →
      (units.foldl addUnit ix).Holds P (done ++ units) := by
    induction units with
    | nil => intro done ix hix; simpa using hix
    | cons u units ih =>
      intro done ix hix
      obtain ⟨entries, hP, hadd⟩ := h u List.mem_cons_self
      have hnext : (ix.addUnit u).Holds P (done ++ [u]) := by
        rw [hadd]
        exact (hix.begin u).enterAll (by simp [hix.imports_size]) hP
      simpa using ih (fun v hv => h v (List.mem_cons_of_mem u hv)) _ _ hnext
  exact hadded [] {} .empty

/-- The index of some units holds what all entries of the units are shown to be. -/
theorem holds_build : (build units).Holds P units := (holds_addUnits h).linkAll _

end Build

end Index

end Legible
