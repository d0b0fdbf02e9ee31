import Legible.Proofs.Binding.Standing
import Legible.Proofs.Index.Declared
import Mathlib.Data.List.Pairwise

/-!
# The types of a unit

The walk of a unit makes an entry for every type that it comes by (`recorded?`). No place gets two
entries, the key of a type follows from where it stands (`Place.seat`), and types without names are
told apart by their numbers. What the index of some units holds of one of them is therefore settled
by its tree: `typeAt?_seat` and `typeAt?_unnamed` say which keys types have, and
`exists_entry_of_type?` says where a type that the index knows comes from.
-/

namespace Legible

variable {u : SourceUnit} {body q name : Place} {info : TypeInfo} {unit : Nat} {imports : Imports}
  {e : Entry} {kind : TypeKind}

/-! ## Seats -/

/-- Where a place stands: in the body of which type, and in which member there. -/
structure Seat where
  owner : Option Place := none
  member : Option Place := none

namespace Place

def isTypeBody (p : Place) : Bool := p.parent?.any fun q => q.typeBody?.any p.same

def seatBelow : (above : List Node) → Node → Seat
  | [], n => if isMember ⟨n, []⟩ then { member := some ⟨n, []⟩ } else {}
  | m :: above, n =>
    if isTypeBody ⟨n, m :: above⟩ then { owner := some ⟨m, above⟩ }
    else if isMember ⟨n, m :: above⟩ then
      { seatBelow above m with member := some ⟨n, m :: above⟩ }
    else seatBelow above m

def seat (p : Place) : Seat :=
  match p.above with
  | [] => {}
  | m :: above => seatBelow above m

variable {p : Place}

theorem seat_child (h : q ∈ p.children) : q.seat = seatBelow p.above p.node := by
  obtain ⟨n, -, rfl⟩ := List.mem_map.mp h
  rfl

theorem seatBelow_eq (p : Place) (h : p.isTypeBody = false) : seatBelow p.above p.node
    = if p.isMember then { p.seat with member := some p } else p.seat := by
  obtain ⟨n, above⟩ := p
  cases above with
  | nil => rfl
  | cons m above => simp [seatBelow, h, seat]

theorem typeBody?_of_isMember (h : p.isMember = true) : p.typeBody? = none := by
  unfold isMember at h
  unfold typeBody?
  split at h <;> simp_all

theorem isMember_of_typeBody? (h : p.typeBody? = some body) : p.isMember = false := by
  rw [Bool.eq_false_iff]
  intro hmember
  simp [typeBody?_of_isMember hmember] at h

theorem seat_of_child (hq : q ∈ p.children) (h : p.isTypeBody = false) :
    q.seat = if p.isMember then { p.seat with member := some p } else p.seat := by
  rw [seat_child hq, seatBelow_eq p h]

theorem seat_of_typeBody? (hbody : p.typeBody? = some body) (hq : q ∈ body.children) :
    q.seat = { owner := some p } := by
  obtain ⟨n, -, rfl⟩ := List.mem_map.mp (mem_children_of_typeBody? hbody)
  have hself : isTypeBody ⟨n, p.node :: p.above⟩ = true := by
    simp [isTypeBody, parent?, hbody, same_self]
  rw [seat_child hq, seatBelow, if_pos hself]

theorem isTypeBody_child (h : p.typeBody? = none) (hq : q ∈ p.children) : q.isTypeBody = false := by
  simp [isTypeBody, parent?_of_mem_children hq, h]

theorem isTypeBody_of_not_same (hbody : p.typeBody? = some body) (hq : q ∈ p.children)
    (hne : q.same body = false) : q.isTypeBody = false := by
  simp [isTypeBody, parent?_of_mem_children hq, hbody, hne]

end Place

def SourceUnit.aroundAt (u : SourceUnit) (types : Place → Option String) (seat : Seat) : Around where
  owner := seat.owner.bind types
  member := (seat.owner.bind types).bind fun owner => seat.member.map (u.memberKey owner)

/-- If the seat is in a type, that is a type of the unit with a key. -/
def SourceUnit.Owned (u : SourceUnit) (types : Place → Option String) (seat : Seat) : Prop :=
  ∀ q, seat.owner = some q → q ∈ u.root.places ∧ ∃ key, types q = some key

/-! ## Entries -/

namespace Indexing

/-- A type that the walk comes by. -/
structure Entry where
  place : Place
  around : Around
  number : Option Nat
  info : TypeInfo

/-- What the index holds of a type without a name. -/
def unnamedType (u : SourceUnit) (unit : Nat) (owner : String) (n : Nat) (superText : String)
    (body : Place) : TypeInfo :=
  u.addMembers
    { qualifiedName := owner ++ "." ++ ("$" ++ toString n), name := "", kind := .classType
      enclosing := some owner, isLocal := true, unit, superTexts := [superText] } body

inductive Entry.Made (u : SourceUnit) (unit : Nat) (imports : Imports) : Entry → Prop
  | named {p name body : Place} (around : Around) {kind : TypeKind}
      (hof : Construct.of p = .typeDecl kind name body) :
      Made u unit imports ⟨p, around, none, declaredType u unit imports around p kind name body⟩
  | unnamed {p body : Place} {around : Around} {owner : String} (howner : around.owner = some owner)
      (n : Nat) (superText : String) (hbody : p.typeBody? = some body)
      (hnamed : ∀ kind name body, Construct.of p ≠ .typeDecl kind name body) :
      Made u unit imports ⟨p, around, some n, unnamedType u unit owner n superText body⟩

/-- The entries do not have one number in one type. -/
def Entry.Apart (e e' : Entry) : Prop :=
  e.number.isSome → e.around.owner = e'.around.owner → e.number ≠ e'.number

instance : Std.Symm Entry.Apart :=
  ⟨fun _ _ h hsome howner hnumber => h (hnumber ▸ hsome) howner.symm hnumber.symm⟩

/-- If a type is declared by name at the place, it is among the entries, with what is around it. -/
def Entered (around : Around) (entries : List Entry) (q : Place) : Prop :=
  ∀ kind name body, Construct.of q = .typeDecl kind name body →
    ∃ e ∈ entries, e.place = q ∧ e.around = around

def recorded? (u : SourceUnit) (unit : Nat) (imports : Imports) : Task × Indexing → Option Entry
  | (.walk around p, _) =>
    match Construct.of p with
    | .typeDecl kind name body =>
      some ⟨p, around, none, declaredType u unit imports around p kind name body⟩
    | _ => none
  | (.enter owner superText p body, s) =>
    some ⟨p, { owner := some owner }, some (s.count owner + 1),
      s.anonymousType u unit owner superText body⟩

/-- The task is for a place of the unit: a walk for one that is no body of a type, and else for the
body of a type without a name. Which bodies are there the tree says only where it is shaped. -/
def Task.Stands (u : SourceUnit) : Task → Prop
  | .walk _ p => p ∈ u.root.places ∧ (u.shapedOK = true → p.isTypeBody = false)
  | .enter _ _ p body => p ∈ u.root.places ∧ p.typeBody? = some body
      ∧ ∀ kind name body, Construct.of p ≠ .typeDecl kind name body

/-- What is around the task follows from where its place stands, if types have the given keys. -/
def Task.Seated (u : SourceUnit) (types : Place → Option String) : Task → Prop
  | .walk around p => around = u.aroundAt types p.seat ∧ u.Owned types p.seat
  | .enter owner _ p _ => p.seat.owner.bind types = some owner ∧ u.Owned types p.seat

section Steps

open Place

variable {u : SourceUnit} {s : Indexing} {p : Place} {task : Task} {x y : Task × Indexing}
  {e' : Entry}

theorem typeBody?_of_typeBody? (hshaped : u.shapedOK = true) (hp : p ∈ u.root.places)
    (hbody : p.typeBody? = some body) : body.typeBody? = none := by
  have hscope := opensScope_typeBody hshaped hp hbody
  unfold typeBody?
  split <;> simp_all [Construct.opensScope]

theorem seat_of_mem_typeMembers (hshaped : u.shapedOK = true) (hp : p ∈ u.root.places)
    (hq : q ∈ p.typeMembers) : q.seat = { owner := some p } := by
  obtain ⟨body, hbody, hq⟩ := List.mem_flatMap.mp hq
  have hbody : p.typeBody? = some body := Option.mem_toList.mp hbody
  obtain ⟨child, hchild, hq⟩ := List.mem_flatMap.mp hq
  have hchild := mem_children_of_mem_namedChildren hchild
  have hseat : child.seat = { owner := some p } := seat_of_typeBody? hbody hchild
  split at hq
  · next hkind =>
      have hof : Construct.of child = .other := by
        simp [Construct.of, Construct.of?, beq_iff_eq.mp hkind]
      have hself := isTypeBody_child (typeBody?_of_typeBody? hshaped hp hbody) hchild
      rw [seat_child (mem_children_of_mem_namedChildren hq), seatBelow_eq child hself, isMember, hof,
        if_neg Bool.false_ne_true, hseat]
  · rw [List.mem_singleton.mp hq, hseat]

theorem stands_walks (hp : p ∈ u.root.places) (hself : u.shapedOK = true → p.typeBody? = none)
    (around : Around) : ∀ next ∈ walks around p.namedChildren, next.Stands u := by
  intro next hnext
  obtain ⟨q, hq, rfl⟩ := List.mem_map.mp hnext
  exact ⟨mem_places_of_mem_namedChildren hp q hq, fun hshaped =>
    isTypeBody_child (hself hshaped) (mem_children_of_mem_namedChildren hq)⟩

theorem stands_body (hp : p ∈ u.root.places) (hbody : p.typeBody? = some body) (around : Around) :
    ∀ next ∈ walks around body.namedChildren, next.Stands u :=
  stands_walks (mem_places_of_mem_children hp (mem_children_of_typeBody? hbody))
    (fun hshaped => typeBody?_of_typeBody? hshaped hp hbody) around

theorem Task.Stands.perform (h : task.Stands u) :
    ∀ next ∈ (s.perform u unit imports task).2, next.Stands u := by
  have hstep := @performs u unit imports s task
  generalize s.perform u unit imports task = done at hstep
  cases hstep with
  | named hof => exact stands_body h.1 (by simp [typeBody?, hof]) _
  | enter => exact stands_body h.1 h.2.1 _
  | member hmember => exact stands_walks h.1 (fun _ => typeBody?_of_isMember hmember) _
  | other hbody => exact stands_walks h.1 (fun _ => hbody) _
  | unnamed hbody hnamed =>
    intro next hnext
    unfold anonymousTasks at hnext
    split at hnext
    · rcases List.mem_append.mp hnext with hnext | hnext
      · obtain ⟨q, hq, rfl⟩ := List.mem_map.mp hnext
        obtain ⟨hq, hne⟩ := List.mem_filter.mp hq
        exact ⟨mem_places_of_mem_namedChildren h.1 q hq, fun _ => isTypeBody_of_not_same hbody
          (mem_children_of_mem_namedChildren hq) (by simpa using hne)⟩
      · rw [List.mem_singleton.mp hnext]
        exact ⟨h.1, hbody, hnamed⟩
    · cases hnext

theorem anonymousType_eq (s : Indexing) (owner superText : String) (body : Place) :
    s.anonymousType u unit owner superText body
      = unnamedType u unit owner (s.count owner + 1) superText body := by
  rw [anonymousType, anonymousName_eq, unnamedType, count]

/-- The entry of a step is made as the walk makes it, and what is in the body of the type is left to
be walked. -/
theorem recorded?_spec (hstands : x.1.Stands u) (h : recorded? u unit imports x = some e) :
    e.place ∈ u.root.places ∧ e.Made u unit imports ∧ ∃ body, e.place.typeBody? = some body
      ∧ (x.2.perform u unit imports x.1).2
        = walks { owner := some e.info.qualifiedName } body.namedChildren := by
  obtain ⟨task, s⟩ := x
  cases task with
  | walk around p =>
    rw [recorded?] at h
    split at h
    · next kind name body hof =>
        cases h
        exact ⟨hstands.1, .named around hof, body, by simp [typeBody?, hof], by simp [perform, hof]⟩
    · cases h
  | enter owner superText p body =>
    cases h
    refine ⟨hstands.1, ?_, body, hstands.2.1, ?_⟩
    · simp only [anonymousType_eq]
      exact .unnamed rfl _ superText hstands.2.1 hstands.2.2
    · rw [anonymousType, (addMembers_qualifiedName ..).1]
      rfl

/-- The node that a step is for follows from where it makes an entry. -/
theorem node_eq_of_place_eq (hx : x.1.Stands u) (hy : y.1.Stands u)
    (he : recorded? u unit imports x = some e) (he' : recorded? u unit imports y = some e')
    (hplace : e.place = e'.place) : x.1.node = y.1.node := by
  have hnamed : ∀ {x : Task × Indexing} {e : Entry}, x.1.Stands u →
      recorded? u unit imports x = some e →
      ((∃ kind name body, Construct.of e.place = .typeDecl kind name body) ∧ x.1.node = e.place)
        ∨ (∀ kind name body, Construct.of e.place ≠ .typeDecl kind name body)
          ∧ e.place.typeBody? = some x.1.node := by
    rintro ⟨task, s⟩ e hstands h
    cases task with
    | walk around p =>
      rw [recorded?] at h
      split at h
      · next hof =>
          cases h
          exact .inl ⟨⟨_, _, _, hof⟩, rfl⟩
      · cases h
    | enter =>
      cases h
      exact .inr ⟨hstands.2.2, hstands.2.1⟩
  rcases hnamed hx he with ⟨⟨_, _, _, hof⟩, hnode⟩ | ⟨hnot, hnode⟩ <;>
    rcases hnamed hy he' with ⟨⟨_, _, _, hof'⟩, hnode'⟩ | ⟨hnot', hnode'⟩
  · rw [hnode, hnode', hplace]
  · exact absurd (hplace ▸ hof) (hnot' _ _ _)
  · exact absurd hof' (hplace ▸ hnot _ _ _)
  · rw [hplace] at hnode
    exact Option.some.inj (hnode.symm.trans hnode')

theorem aroundAt_member (types : Place → Option String) (seat : Seat) (p : Place) :
    let around := u.aroundAt types seat
    u.aroundAt types { seat with member := some p }
      = { around with member := (around.owner.map (u.memberKey · p)).or around.member } := by
  cases howner : seat.owner.bind types <;> simp [SourceUnit.aroundAt, howner]

theorem Task.Seated.perform (hshaped : u.shapedOK = true) {types : Place → Option String}
    (hstands : task.Stands u) (h : task.Seated u types)
    (hkey : ∀ e, recorded? u unit imports (task, s) = some e →
      types e.place = some e.info.qualifiedName) :
    ∀ next ∈ (s.perform u unit imports task).2, next.Seated u types := by
  -- the body of a type with a key
  have hinside : ∀ {p body : Place} {key : String}, p ∈ u.root.places → p.typeBody? = some body →
      types p = some key → ∀ next ∈ walks { owner := some key } body.namedChildren,
        next.Seated u types := by
    intro p body key hp hbody htype next hnext
    obtain ⟨q, hq, rfl⟩ := List.mem_map.mp hnext
    have hseat := seat_of_typeBody? hbody (mem_children_of_mem_namedChildren hq)
    simp [Task.Seated, hseat, SourceUnit.aroundAt, SourceUnit.Owned, htype, hp]
  have hstep := @performs u unit imports s task
  generalize s.perform u unit imports task = done at hstep
  cases hstep with
  | @named around p name body kind hof =>
    have hbody : p.typeBody? = some body := by simp [typeBody?, hof]
    exact hinside hstands.1 hbody
      (hkey ⟨p, around, none, declaredType u unit imports around p kind name body⟩ (by rw [recorded?, hof]))
  | enter owner superText p body =>
    have htype := hkey _ rfl
    rw [anonymousType, (addMembers_qualifiedName ..).1] at htype
    exact hinside hstands.1 hstands.2.1 htype
  | @member around p hmember =>
    intro next hnext
    obtain ⟨q, hq, rfl⟩ := List.mem_map.mp hnext
    have hseat := seat_of_child (mem_children_of_mem_namedChildren hq) (hstands.2 hshaped)
    rw [if_pos hmember] at hseat
    rw [Task.Seated, hseat, aroundAt_member, ← h.1]
    exact ⟨rfl, h.2⟩
  | @other around p hbody hmember =>
    intro next hnext
    obtain ⟨q, hq, rfl⟩ := List.mem_map.mp hnext
    have hseat := seat_of_child (mem_children_of_mem_namedChildren hq) (hstands.2 hshaped)
    rw [hmember, if_neg Bool.false_ne_true] at hseat
    rwa [Task.Seated, hseat]
  | @unnamed around p body hbody hnamed =>
    intro next hnext
    unfold anonymousTasks at hnext
    split at hnext
    · next owner howner =>
        rcases List.mem_append.mp hnext with hnext | hnext
        · obtain ⟨q, hq, rfl⟩ := List.mem_map.mp hnext
          have hseat := seat_of_child (mem_children_of_mem_namedChildren
            (List.mem_of_mem_filter hq)) (hstands.2 hshaped)
          rw [isMember_of_typeBody? hbody, if_neg Bool.false_ne_true] at hseat
          rwa [Task.Seated, hseat]
        · rw [List.mem_singleton.mp hnext]
          exact ⟨(congrArg Around.owner h.1).symm.trans howner, h.2⟩
    · cases hnext

end Steps

end Indexing

/-! ## Units -/

open Indexing

section Entered

variable {ix : Index} {entries : List Entry}

/-- A type is known from an entry. -/
theorem exists_entry_of_type?_foldl {key : String}
    (h : (entries.foldl (fun ix e => ix.enter (e.place.number, e.info)) ix).type? key = some info) :
    (∃ e ∈ entries, e.info = info ∧ info.qualifiedName = key) ∨ ix.type? key = some info := by
  rw [Index.type?_foldl_enter] at h
  refine (Option.or_eq_some_iff.mp h).imp (fun h => ?_) And.right
  obtain ⟨e, he, rfl⟩ := Option.map_eq_some_iff.mp h
  exact ⟨e, List.mem_reverse.mp (List.mem_of_find?_eq_some he), rfl,
    by simpa using List.find?_some he⟩

theorem size_declared_enter (ix : Index) (entry : Nat × TypeInfo) :
    (ix.enter entry).declared.size = ix.declared.size := by
  simp [Index.enter]

/-- The key of a type is that of the entry at its place, since no place has two. -/
theorem typeAt?_foldl_enter (hunit : ∀ e ∈ entries, e.info.unit = unit)
    (hsize : unit < ix.declared.size) (hnodup : (entries.map (·.place.number)).Nodup) (p : Place) :
    (entries.foldl (fun ix e => ix.enter (e.place.number, e.info)) ix).typeAt? unit p
      = ((entries.find? (·.place.number == p.number)).map (·.info.qualifiedName)).or
        (ix.typeAt? unit p) := by
  induction entries generalizing ix with
  | nil => rfl
  | cons e entries ih =>
    obtain ⟨hself, hrest⟩ := List.forall_mem_cons.mp hunit
    rw [List.map_cons, List.nodup_cons] at hnodup
    rw [List.foldl_cons, ih hrest (by rwa [size_declared_enter]) hnodup.2, List.find?_cons]
    subst hself
    rw [Index.typeAt?_enter]
    simp only [hsize, true_and, and_true]
    by_cases hnumber : e.place.number = p.number
    · have hnone : entries.find? (·.place.number == p.number) = none := by
        rw [List.find?_eq_none]
        intro e' he' heq
        refine hnodup.1 (List.mem_map.mpr ⟨e', he', ?_⟩)
        rw [hnumber]
        simpa using heq
      simp [hnumber, hnone]
    · rw [if_neg hnumber, beq_eq_false_iff_ne.mpr hnumber]

end Entered

theorem Indexing.Entry.Made.unit_eq (h : e.Made u unit imports) : e.info.unit = unit := by
  cases h with
  | named around hof => exact (declaredType_qualifiedName ..).2
  | unnamed => exact (addMembers_qualifiedName ..).2

/-- The key of a type that is declared by name. -/
theorem Indexing.Entry.Made.qualifiedName_eq (h : e.Made u unit imports)
    (hof : Construct.of e.place = .typeDecl kind name body) :
    e.info.qualifiedName = declaredName imports e.around (u.text name) := by
  cases h with
  | named around hof' =>
    cases hof.symm.trans hof'
    exact (declaredType_qualifiedName ..).1
  | unnamed _ _ _ _ hnamed => exact absurd hof (hnamed _ _ _)

namespace Index

def stepsOf (ix : Index) (u : SourceUnit) : List (Task × Indexing) :=
  trace u ix.imports.size u.imports u.root.places.length [.walk {} u.top] { index := ix.begin u }

def entriesOf (ix : Index) (u : SourceUnit) : List Entry :=
  (ix.stepsOf u).filterMap (recorded? u ix.imports.size u.imports)

variable {ix : Index}

theorem stands_of_mem_stepsOf {x : Task × Indexing} (hx : x ∈ ix.stepsOf u) : x.1.Stands u := by
  have htop : (Task.walk {} u.top).Stands u := ⟨Place.mem_below_self u.top, fun _ => rfl⟩
  exact forall_trace (List.forall_mem_singleton.mpr htop) (fun _ _ h => h.perform) x hx

theorem addUnit_eq_foldl (ix : Index) (u : SourceUnit) :
    ix.addUnit u
      = (ix.entriesOf u).foldl (fun ix e => ix.enter (e.place.number, e.info)) (ix.begin u) := by
  have hentered : entered? u ix.imports.size u.imports
      = fun x => (recorded? u ix.imports.size u.imports x).map fun e => (e.place, e.info) := by
    funext ⟨task, s⟩
    cases task with
    | enter => rfl
    | walk around p =>
      rw [entered?, recorded?]
      cases Construct.of p <;> rfl
  have hrun := (@run_spec u ix.imports.size u.imports u.root.places.length [.walk {} u.top]
    { index := ix.begin u } "").1
  rw [hentered, ← List.map_filterMap, List.foldl_map] at hrun
  exact hrun

theorem made_of_mem_entriesOf (he : e ∈ ix.entriesOf u) :
    e.place ∈ u.root.places ∧ e.Made u ix.imports.size u.imports := by
  obtain ⟨x, hx, hrecorded⟩ := List.mem_filterMap.mp he
  exact (recorded?_spec (stands_of_mem_stepsOf hx) hrecorded).imp_right And.left

theorem entered_of_mem_entriesOf (he : e ∈ ix.entriesOf u) (hq : q ∈ e.place.typeMembers) :
    Entered { owner := some e.info.qualifiedName } (ix.entriesOf u) q := by
  obtain ⟨x, hx, hrecorded⟩ := List.mem_filterMap.mp he
  obtain ⟨-, -, body, hbody, hleft⟩ := recorded?_spec (stands_of_mem_stepsOf hx) hrecorded
  have hdone := (mem_trace (congrArg Prod.fst
    (run_walk u ix.imports.size u.imports { index := ix.begin u }).1)).2
  have hwalked : ∀ {x : Task × Indexing} {around : Around} {p : Place}, x ∈ ix.stepsOf u →
      (x.2.perform u ix.imports.size u.imports x.1).2 = walks around p.namedChildren →
      ∀ q ∈ p.namedChildren, ∃ s, (Task.walk around q, s) ∈ ix.stepsOf u :=
    fun hx hleft q hq => hdone _ hx _ (hleft ▸ List.mem_map_of_mem hq)
  have hentered : ∀ {around : Around} {q : Place} {s : Indexing},
      (Task.walk around q, s) ∈ ix.stepsOf u → Entered around (ix.entriesOf u) q :=
    fun hmem kind name body hof =>
      ⟨_, List.mem_filterMap.mpr ⟨_, hmem, by rw [recorded?, hof]⟩, rfl, rfl⟩
  simp only [Place.typeMembers, hbody, Option.toList_some, List.flatMap_singleton] at hq
  obtain ⟨child, hchild, hq⟩ := List.mem_flatMap.mp hq
  obtain ⟨s, hmem⟩ := hwalked hx hleft child hchild
  split at hq
  · next hkind =>
      have hof : Construct.of child = .other := by
        simp [Construct.of, Construct.of?, beq_iff_eq.mp hkind]
      obtain ⟨s', hmem'⟩ := hwalked hmem (by rw [perform, hof]) q hq
      exact hentered hmem'
  · rw [List.mem_singleton.mp hq]
    exact hentered hmem

theorem nodup_entriesOf (hshaped : u.shapedOK = true) :
    ((ix.entriesOf u).map (·.place.number)).Nodup := by
  have hparted := parted_of_shapedOK hshaped
  have hnodes : ((ix.stepsOf u).map (·.1.node)).Nodup := by
    obtain ⟨l, hperm, hsub⟩ := (run_walk u ix.imports.size u.imports { index := ix.begin u }).2.2
    exact hperm.nodup_iff.mp (hparted.numbers.of_map.sublist hsub)
  rw [List.Nodup, List.pairwise_map] at hnodes ⊢
  refine List.pairwise_filterMap.mpr (hnodes.imp_of_mem fun hx hy hne e he e' he' hnumber => ?_)
  have hxStands := stands_of_mem_stepsOf hx
  have hyStands := stands_of_mem_stepsOf hy
  exact hne (node_eq_of_place_eq hxStands hyStands he he' (hparted.eq_of_number_eq
    (recorded?_spec hxStands he).1 (recorded?_spec hyStands he').1 hnumber))

theorem pairwise_apart_entriesOf (ix : Index) (u : SourceUnit) :
    (ix.entriesOf u).Pairwise Entry.Apart := by
  refine List.pairwise_filterMap.mpr (List.pairwise_iff_forall_sublist.mpr fun {x y} hsub e he e' he'
    hsome howner hnumber => ?_)
  obtain ⟨task, s⟩ := x
  obtain ⟨task', s'⟩ := y
  have hnone : ∀ {task : Task} {s : Indexing} {e : Entry}, recorded? u ix.imports.size u.imports
      (task, s) = some e → e.number.isSome → ∃ owner, e.around.owner = some owner
        ∧ e.number = some (s.count owner + 1)
        ∧ numbered? owner (task, s) = some (s.anonymousName owner) := by
    intro task s e h hsome
    cases task with
    | walk around p =>
      rw [recorded?] at h
      split at h <;> cases h
      cases hsome
    | enter owner =>
      cases h
      exact ⟨owner, rfl, rfl, by simp [numbered?]⟩
  obtain ⟨owner, hx, hn, hname⟩ := hnone he hsome
  obtain ⟨owner', hy, hn', hname'⟩ := hnone he' (hnumber ▸ hsome)
  cases Option.some.inj (hx.symm.trans (howner.trans hy))
  have hnodup : ((ix.stepsOf u).filterMap (numbered? owner)).Nodup := nodup_numbered ..
  have htwo := hnodup.sublist (hsub.filterMap (numbered? owner))
  have hcount : s.count owner + 1 = s'.count owner + 1 :=
    Option.some.inj (hn.symm.trans (hnumber.trans hn'))
  have hsame : s.anonymousName owner = s'.anonymousName owner :=
    congrArg (fun n => owner ++ ".$" ++ toString n) hcount
  simp [hname, hname', hsame] at htwo

end Index

/-- What a unit on its own has in the index: the entries, one for each type. -/
structure Census (u : SourceUnit) (entries : List Entry) : Prop where
  made : ∀ e ∈ entries, e.Made u 0 u.imports
  places : ∀ e ∈ entries, e.place ∈ u.root.places
  typeAt? : ∀ e ∈ entries, (Index.ofUnit u).typeAt? 0 e.place = some e.info.qualifiedName
  /-- What is around an entry follows from its seat and the keys of the types around. -/
  around : ∀ e ∈ entries, e.around.owner = e.place.seat.owner.bind ((Index.ofUnit u).typeAt? 0)
    ∧ ∀ kind name body, Construct.of e.place = .typeDecl kind name body →
      e.around = u.aroundAt ((Index.ofUnit u).typeAt? 0) e.place.seat
  owned : ∀ e ∈ entries, e.place.seat.owner = none
    ∨ ∃ e' ∈ entries, e.place.seat.owner = some e'.place
  nested : ∀ e ∈ entries, ∀ q ∈ e.place.typeMembers,
    Entered { owner := some e.info.qualifiedName } entries q
  entry : ∀ p ∈ u.root.places, ∀ key, (Index.ofUnit u).typeAt? 0 p = some key →
    ∃ e ∈ entries, e.place = p ∧ e.info.qualifiedName = key
  type? : ∀ key info, (Index.ofUnit u).type? key = some info →
    ∃ e ∈ entries, e.info = info ∧ info.qualifiedName = key
  distinct : entries.Pairwise Entry.Apart
  nodup : (entries.map (·.place.number)).Nodup
  bySimple : ∀ name, (Index.ofUnit u).bySimple.getD name []
    = (entries.filter fun e => !e.info.isLocal && e.info.name == name).map (·.info.qualifiedName)

theorem exists_census (hshaped : u.shapedOK = true) : ∃ entries, Census u entries := by
  let entries := ({} : Index).entriesOf u
  let start : Index := ({} : Index).begin u
  have hindex : Index.ofUnit u
      = entries.foldl (fun ix e => ix.enter (e.place.number, e.info)) start :=
    Index.addUnit_eq_foldl {} u
  have hmade : ∀ e ∈ entries, e.place ∈ u.root.places ∧ e.Made u 0 u.imports := fun _ he =>
    Index.made_of_mem_entriesOf he
  have hnodup : (entries.map (·.place.number)).Nodup := Index.nodup_entriesOf hshaped
  have hat : ∀ p, (Index.ofUnit u).typeAt? 0 p
      = (entries.find? (·.place.number == p.number)).map (·.info.qualifiedName) := by
    intro p
    have hsize : 0 < start.declared.size := Nat.zero_lt_one
    rw [hindex, typeAt?_foldl_enter (fun e he => (hmade e he).2.unit_eq) hsize hnodup p]
    simp [start, Index.begin, Index.typeAt?]
  have hself : ∀ e ∈ entries, (Index.ofUnit u).typeAt? 0 e.place = some e.info.qualifiedName := by
    intro e he
    rw [hat]
    cases hfind : entries.find? (·.place.number == e.place.number) with
    | none => simpa using List.find?_eq_none.mp hfind e he
    | some e' =>
      have hnumber : e'.place.number = e.place.number := by simpa using List.find?_some hfind
      rw [List.inj_on_of_nodup_map hnodup (List.mem_of_find?_eq_some hfind) he hnumber]
      rfl
  have hentry : ∀ p ∈ u.root.places, ∀ key, (Index.ofUnit u).typeAt? 0 p = some key →
      ∃ e ∈ entries, e.place = p ∧ e.info.qualifiedName = key := by
    intro p hp key hkey
    rw [hat] at hkey
    obtain ⟨e, hfind, hname⟩ := Option.map_eq_some_iff.mp hkey
    have he := List.mem_of_find?_eq_some hfind
    have hnumber : e.place.number = p.number := by simpa using List.find?_some hfind
    exact ⟨e, he, (parted_of_shapedOK hshaped).eq_of_number_eq (hmade e he).1 hp hnumber, hname⟩
  -- all that is walked is seated by the keys of the types that are entered
  have hseated : ∀ x ∈ ({} : Index).stepsOf u, x.1.Seated u ((Index.ofUnit u).typeAt? 0) := by
    have htop : (Task.walk {} u.top).Seated u ((Index.ofUnit u).typeAt? 0) := ⟨rfl, fun _ h => by cases h⟩
    exact forall_trace (List.forall_mem_singleton.mpr htop) fun x hx h =>
      h.perform hshaped (Index.stands_of_mem_stepsOf hx) fun e he =>
        hself e (List.mem_filterMap.mpr ⟨x, hx, he⟩)
  have haround : ∀ e ∈ entries, u.Owned ((Index.ofUnit u).typeAt? 0) e.place.seat
      ∧ e.around.owner = e.place.seat.owner.bind ((Index.ofUnit u).typeAt? 0)
      ∧ ∀ kind name body, Construct.of e.place = .typeDecl kind name body →
        e.around = u.aroundAt ((Index.ofUnit u).typeAt? 0) e.place.seat := by
    intro e he
    obtain ⟨⟨task, s⟩, hx, hrecorded⟩ := List.mem_filterMap.mp he
    have hseat := hseated _ hx
    have hstands := Index.stands_of_mem_stepsOf hx
    cases task with
    | walk around p =>
      rw [recorded?] at hrecorded
      split at hrecorded <;> cases hrecorded
      exact ⟨hseat.2, congrArg Around.owner hseat.1, fun _ _ _ _ => hseat.1⟩
    | enter owner superText p body =>
      cases hrecorded
      exact ⟨hseat.2, hseat.1.symm, fun kind name body hof => absurd hof (hstands.2.2 kind name body)⟩
  refine ⟨entries, fun e he => (hmade e he).2, fun e he => (hmade e he).1, hself,
    fun e he => (haround e he).2, fun e he => ?_, fun e he q hq => Index.entered_of_mem_entriesOf he hq,
    hentry, fun key info hinfo => ?_, Index.pairwise_apart_entriesOf {} u, hnodup, fun name => ?_⟩
  · cases howner : e.place.seat.owner with
    | none => exact .inl rfl
    | some q =>
      obtain ⟨hq, key, hkey⟩ := (haround e he).1 q howner
      obtain ⟨e', he', rfl, -⟩ := hentry q hq key hkey
      exact .inr ⟨e', he', rfl⟩
  · rw [hindex] at hinfo
    rcases exists_entry_of_type?_foldl hinfo with hentry | hnone
    · exact hentry
    · simp [start, Index.begin, Index.type?] at hnone
  · rw [hindex, Index.bySimple_foldl_enter]
    simp [start, Index.begin]

/-! ## Lists of units -/

/-- Of lists that are disjoint in one that has nothing twice, only one has an element. -/
theorem eq_of_nodup_flatMap {α β : Type} {f : α → List β} {xs : List α}
    (h : (xs.flatMap f).Nodup) {x x' : α} (hx : x ∈ xs) (hx' : x' ∈ xs) {y : β} (hy : y ∈ f x)
    (hy' : y ∈ f x') : x = x' := by
  rw [List.nodup_flatMap] at h
  by_contra hne
  have hsymm : Std.Symm (Function.onFun List.Disjoint f) := ⟨fun _ _ h _ ha hb => h hb ha⟩
  exact h.2.forall hx hx' hne hy hy'

section Build

variable {units : List SourceUnit} {key : String}

theorem size_imports_foldl (units : List SourceUnit) (ix : Index) :
    (units.foldl Index.addUnit ix).imports.size = ix.imports.size + units.length := by
  induction units generalizing ix with
  | nil => rfl
  | cons u units ih =>
    rw [List.foldl_cons, ih, Index.size_imports_addUnit, List.length_cons]
    omega

theorem type?_foldl_addUnit (h : (units.foldl Index.addUnit {}).type? key = some info) :
    ∃ number u info₀, units[number]? = some u ∧ (Index.ofUnit u).type? key = some info₀
      ∧ info = info₀.inUnit number := by
  induction units using List.reverseRecOn with
  | nil => simp [Index.type?] at h
  | append_singleton units u ih =>
    rw [List.foldl_append, List.foldl_cons, List.foldl_nil, Index.type?_addUnit,
      size_imports_foldl] at h
    cases hu : (Index.ofUnit u).type? key with
    | some info₀ =>
      rw [hu] at h
      exact ⟨units.length, u, info₀, by simp, hu, by simpa using h.symm⟩
    | none =>
      rw [hu] at h
      obtain ⟨number, u', info₀, hu', hrest⟩ := ih h
      refine ⟨number, u', info₀, ?_, hrest⟩
      rw [List.getElem?_append_left (List.getElem?_eq_some_iff.mp hu').1]
      exact hu'

/-- Linking changes the supertypes of a type only. -/
theorem type?_link {ix : Index} (h : ix.link.type? key = some info) :
    ∃ info₀, ix.type? key = some info₀ ∧ info = { info₀ with supertypes := info.supertypes } := by
  unfold Index.link at h
  generalize ix.types.keys = names at h
  induction names generalizing ix with
  | nil => exact ⟨info, h, rfl⟩
  | cons name names ih =>
    obtain ⟨info₁, hinfo₁, heq⟩ := ih h
    obtain ⟨info₀, hinfo₀, heq₁⟩ := Index.exists_type?_of_linkType hinfo₁
    refine ⟨info₀, hinfo₀, heq.trans ?_⟩
    rw [heq₁]

variable {number : Nat} {u : SourceUnit} {p : Place}

section

variable (hu : units[number]? = some u) (hshaped : u.shapedOK = true) (hp : p ∈ u.root.places)

include hu hshaped hp

/-- The key of a type that is declared by name follows from where it stands. -/
theorem typeAt?_seat (hof : Construct.of p = .typeDecl kind name body)
    (hkey : (Index.build units).typeAt? number p = some key) :
    key = declaredName u.imports
      (u.aroundAt ((Index.build units).typeAt? number) p.seat) (u.text name) := by
  obtain ⟨entries, h⟩ := exists_census hshaped
  rw [(Index.held_build hu).2] at hkey ⊢
  obtain ⟨e, he, rfl, rfl⟩ := h.entry p hp key hkey
  rw [← (h.around e he).2 _ _ _ hof, (h.made e he).qualifiedName_eq hof]

/-- A type that stands in the body of another is in the index only with it. -/
theorem typeAt?_owner (hkey : (Index.build units).typeAt? number p = some key)
    (howner : p.seat.owner = some q) :
    q ∈ u.root.places ∧ ∃ outer, (Index.build units).typeAt? number q = some outer := by
  obtain ⟨entries, h⟩ := exists_census hshaped
  rw [(Index.held_build hu).2] at hkey ⊢
  obtain ⟨e, he, rfl, -⟩ := h.entry p hp key hkey
  rcases h.owned e he with hnone | ⟨e', he', hsome⟩
  · cases hnone.symm.trans howner
  · cases hsome.symm.trans howner
    exact ⟨h.places e' he', _, h.typeAt? e' he'⟩

/-- A type without a name has a number in the type around it. -/
theorem typeAt?_unnamed (hnamed : ∀ kind name body, Construct.of p ≠ .typeDecl kind name body)
    (hkey : (Index.build units).typeAt? number p = some key) :
    ∃ owner n, p.seat.owner.bind ((Index.build units).typeAt? number) = some owner
      ∧ key = owner ++ "." ++ ("$" ++ toString (n : Nat)) := by
  obtain ⟨entries, h⟩ := exists_census hshaped
  rw [(Index.held_build hu).2] at hkey ⊢
  obtain ⟨e, he, rfl, rfl⟩ := h.entry p hp key hkey
  have haround := h.around e he
  cases h.made e he with
  | named around hof => exact absurd hof (hnamed _ _ _)
  | @unnamed _ _ _ owner howner n =>
    exact ⟨owner, n, haround.1.symm.trans howner, (addMembers_qualifiedName ..).1⟩

/-- Types without names have different keys. -/
theorem eq_of_typeAt?_unnamed (hq : q ∈ u.root.places)
    (hnamed : ∀ kind name body, Construct.of p ≠ .typeDecl kind name body)
    (hnamed' : ∀ kind name body, Construct.of q ≠ .typeDecl kind name body)
    (hkey : (Index.build units).typeAt? number p = some key)
    (hkey' : (Index.build units).typeAt? number q = some key) : p = q := by
  obtain ⟨entries, h⟩ := exists_census hshaped
  rw [(Index.held_build hu).2] at hkey hkey'
  obtain ⟨e, he, rfl, rfl⟩ := h.entry p hp key hkey
  obtain ⟨e', he', rfl, heq⟩ := h.entry q hq _ hkey'
  by_contra hne
  have hdistinct := h.distinct.forall he he' fun heq => hne (heq ▸ rfl)
  cases h.made e he with
  | named around hof => exact hnamed _ _ _ hof
  | @unnamed _ _ _ owner howner n =>
    cases h.made e' he' with
    | named around hof => exact hnamed' _ _ _ hof
    | @unnamed _ _ _ owner' howner' n' =>
      rw [unnamedType, (addMembers_qualifiedName ..).1, unnamedType,
        (addMembers_qualifiedName ..).1] at heq
      obtain ⟨rfl, hn⟩ := dotted_inj heq
        (notMem_of_isPlainName (isPlainName_anonymous n') rfl)
        (notMem_of_isPlainName (isPlainName_anonymous n) rfl)
      refine hdistinct rfl (howner.trans howner'.symm) ?_
      exact congrArg some (Nat.repr_inj.mp (by simpa using hn)).symm

end

/-- A type that the index knows is entered at a place of a unit. -/
theorem exists_entry_of_type? (hunits : ∀ u ∈ units, u.shapedOK = true)
    (hinfo : (Index.build units).type? key = some info) :
    ∃ (number : Nat) (u : SourceUnit) (e : Entry), units[number]? = some u
      ∧ e.place ∈ u.root.places ∧ e.Made u 0 u.imports
      ∧ (Index.build units).typeAt? number e.place = some key ∧ e.info.qualifiedName = key
      ∧ info = { e.info with unit := number, supertypes := info.supertypes } := by
  obtain ⟨info₁, hinfo₁, hlinked⟩ := type?_link hinfo
  obtain ⟨number, u, info₀, hu, hinfo₀, rfl⟩ := type?_foldl_addUnit hinfo₁
  obtain ⟨entries, h⟩ := exists_census (hunits u (List.mem_of_getElem? hu))
  obtain ⟨e, he, rfl, hname⟩ := h.type? key info₀ hinfo₀
  refine ⟨number, u, e, hu, h.places e he, h.made e he, ?_, hname, hlinked⟩
  rw [(Index.held_build hu).2, h.typeAt? e he, hname]

end Build

end Legible
