import Legible.Index.Build
import Legible.Proofs.Grammar.KeyName

/-!
# The walk of a unit

The walk of a unit does the tasks of a stack. Read as a recursion, it does a task and then, in
order, all that the task leaves (`done`), which comes to walking a place and what is below it
(`walk`). The stack does the same steps in the same order, and no two of them are for the same node,
so it is empty after as many steps as there are nodes (`walk_eq_recursion`).
-/

namespace Legible

/-- Whether a local type inside of the place belongs to it as a member. -/
def Place.isMember (p : Place) : Bool :=
  match Construct.of p with
  | .method .. | .initializer .. | .field .. | .elementDecl .. => true
  | _ => false

namespace Indexing

/-! ## The recursive reading -/

def walkAll (walk : Around → Place → Indexing → Indexing) (around : Around) (ps : List Place)
    (s : Indexing) : Indexing :=
  ps.foldl (fun s p => walk around p s) s

/-- Walks what stands beside an anonymous body, then enters the body. -/
def walkAnonymous (walk : Around → Place → Indexing → Indexing) (u : SourceUnit) (unit : Nat)
    (around : Around) (p : Place) (owner superText : String) (body : Place) (s : Indexing) :
    Indexing :=
  let s := walkAll walk around (p.namedChildren.filter (!·.same body)) s
  walkAll walk { owner := some (s.anonymousName owner) } body.namedChildren
    (s.insertAnonymous u unit p owner superText body)

/-- Walks one place; `walk` is how the places below it are walked. -/
def step (walk : Around → Place → Indexing → Indexing) (u : SourceUnit) (unit : Nat)
    (imports : Imports) (around : Around) (p : Place) (s : Indexing) : Indexing :=
  match Construct.of p with
  | .typeDecl kind name body =>
    let info := declaredType u unit imports around p kind name body
    walkAll walk { owner := some info.qualifiedName } body.namedChildren (s.insert p info)
  | .objectCreation type (some body) =>
    match around.owner with
    | some owner => walkAnonymous walk u unit around p owner (u.typeText type) body s
    | none => s
  | .enumConstant _ (some body) =>
    match around.owner with
    | some owner => walkAnonymous walk u unit around p owner owner body s
    | none => s
  | .method .. => walkMember
  | .initializer .. => walkMember
  | .field .. => walkMember
  | .elementDecl .. => walkMember
  | _ => walkAll walk around p.namedChildren s
where
  walkMember : Indexing :=
    walkAll walk
      { around with member := (around.owner.map (u.memberKey · p)).or around.member }
      p.namedChildren s

/-- Walks a place and what is below it, for trees of at most `levels` levels. -/
def walk (u : SourceUnit) (unit : Nat) (imports : Imports) :
    (levels : Nat) → Around → Place → Indexing → Indexing
  | 0, _, _, s => s
  | levels + 1, around, p, s => step (walk u unit imports levels) u unit imports around p s

/-- Does tasks in order, and lists the steps: each task with the state in which it is done. -/
def doneAll (done : Task → Indexing → Indexing × List (Task × Indexing)) :
    List Task → Indexing → Indexing × List (Task × Indexing)
  | [], s => (s, [])
  | task :: tasks, s =>
    let first := done task s
    let rest := doneAll done tasks first.1
    (rest.1, first.2 ++ rest.2)

/-- Does a task and then the tasks that it leaves, for trees of at most `levels` levels. -/
def done (u : SourceUnit) (unit : Nat) (imports : Imports) :
    (levels : Nat) → Task → Indexing → Indexing × List (Task × Indexing)
  | 0, _, s => (s, [])
  | levels + 1, task, s =>
    let (s₁, next) := s.perform u unit imports task
    let (s₂, log) := doneAll (done u unit imports levels) next s₁
    (s₂, (task, s) :: log)

/-! ## The steps of a stack -/

/-- The steps that a stack takes. -/
def trace (u : SourceUnit) (unit : Nat) (imports : Imports) :
    (steps : Nat) → List Task → Indexing → List (Task × Indexing)
  | steps + 1, task :: stack, s =>
    let (s', next) := s.perform u unit imports task
    (task, s) :: trace u unit imports steps (next ++ stack) s'
  | _, _, _ => []

/-- The node that a task is for: a class body is entered and not walked. -/
def Task.node : Task → Place
  | .walk _ p => p
  | .enter _ _ _ body => body

/-- The type that a step enters, and where. -/
def entered? (u : SourceUnit) (unit : Nat) (imports : Imports) :
    Task × Indexing → Option (Place × TypeInfo)
  | (.walk around p, _) =>
    match Construct.of p with
    | .typeDecl kind name body => some (p, declaredType u unit imports around p kind name body)
    | _ => none
  | (.enter owner superText p body, s) => some (p, s.anonymousType u unit owner superText body)

/-- The name that a step gives to an anonymous type of `owner`. -/
def numbered? (owner : String) : Task × Indexing → Option String
  | (.enter owner' _ _ _, s) => if owner' = owner then some (s.anonymousName owner) else none
  | _ => none

/-- How many types without names a type has so far. -/
def count (s : Indexing) (owner : String) : Nat := s.anonymous.getD owner 0

/-- What one step does, by what stands at the place. A type that is declared by name is entered, and
one without a name after all that stands beside its body; else what is below the place is walked. -/
inductive Performs (u : SourceUnit) (unit : Nat) (imports : Imports) (s : Indexing) :
    Task → Indexing × List Task → Prop
  | named {around : Around} {p name body : Place} {kind : TypeKind}
      (hof : Construct.of p = .typeDecl kind name body) :
      Performs u unit imports s (.walk around p)
        (s.insert p (declaredType u unit imports around p kind name body),
          walks { owner := some (declaredType u unit imports around p kind name body).qualifiedName }
            body.namedChildren)
  | unnamed {around : Around} {p body : Place} (hbody : p.typeBody? = some body)
      (hnamed : ∀ kind name body, Construct.of p ≠ .typeDecl kind name body)
      (superText : String → String) :
      Performs u unit imports s (.walk around p) (s, anonymousTasks around p superText body)
  | member {around : Around} {p : Place} (hmember : p.isMember = true) :
      Performs u unit imports s (.walk around p)
        (s, walks { around with member := (around.owner.map (u.memberKey · p)).or around.member }
          p.namedChildren)
  | other {around : Around} {p : Place} (hbody : p.typeBody? = none) (hmember : p.isMember = false) :
      Performs u unit imports s (.walk around p) (s, walks around p.namedChildren)
  | enter (owner superText : String) (p body : Place) :
      Performs u unit imports s (.enter owner superText p body)
        (s.insertAnonymous u unit p owner superText body,
          walks { owner := some (s.anonymousName owner) } body.namedChildren)

section Steps

open Place

variable {u : SourceUnit} {unit levels steps : Nat} {imports : Imports} {s : Indexing}
  {p body : Place} {task : Task} {around : Around} {stack : List Task}

theorem performs (s : Indexing) (task : Task) :
    Performs u unit imports s task (s.perform u unit imports task) := by
  cases task with
  | enter owner superText p body => exact .enter owner superText p body
  | walk around p =>
    rw [perform]
    cases hof : Construct.of p with
    | typeDecl => exact .named hof
    | objectCreation _ body | enumConstant _ body =>
      cases body with
      | none => exact .other (by simp [typeBody?, hof]) (by simp [isMember, hof])
      | some body => exact .unnamed (by simp [typeBody?, hof]) (by simp [hof]) _
    | method | initializer | field | elementDecl => exact .member (by simp [isMember, hof])
    | _ => exact .other (by simp [typeBody?, hof]) (by simp [isMember, hof])

theorem below_walks (around : Around) (ps : List Place) :
    (walks around ps).flatMap (·.node.below) = ps.flatMap below := by
  simp [walks, List.flatMap_map, Task.node]

theorem namedChildren_below_sublist (p : Place) :
    (p.namedChildren.flatMap below).Sublist (p.children.flatMap below) :=
  p.namedChildren_sublist.flatMap below

theorem body_below_sublist (h : body ∈ p.children) :
    (body.namedChildren.flatMap below).Sublist (p.children.flatMap below) := by
  refine (namedChildren_below_sublist body).trans ?_
  refine .trans ?_ ((List.singleton_sublist.mpr h).flatMap below)
  rw [List.flatMap_singleton, body.below_eq_cons]
  exact List.sublist_cons_self ..

theorem below_anonymousTasks (around : Around) (superText : String → String)
    (h : body ∈ p.children) : ((anonymousTasks around p superText body).flatMap
      (·.node.below)).Subperm (p.children.flatMap below) := by
  unfold anonymousTasks
  split
  · have hparts := filter_append_subperm (f := (!·.same body))
      (List.singleton_subperm_iff.mpr h) (by simp [same_self])
    obtain ⟨ps, hperm, hsub⟩ := hparts
    rw [List.flatMap_append, below_walks]
    refine .trans ?_ (hsub.flatMap below).subperm
    simpa [Task.node] using (hperm.symm.flatMap_right below).subperm
  · exact List.nil_subperm

/-- What a task leaves is below its node, and for different nodes. -/
theorem below_perform (task : Task) :
    ((s.perform u unit imports task).2.flatMap (·.node.below)).Subperm
      (task.node.children.flatMap below) := by
  have h := @performs u unit imports s task
  generalize s.perform u unit imports task = done at h
  cases h with
  | @named _ p _ body _ hof =>
    have hbody : p.typeBody? = some body := by simp [typeBody?, hof]
    rw [below_walks]
    exact (body_below_sublist (mem_children_of_typeBody? hbody)).subperm
  | unnamed hbody _ superText =>
    exact below_anonymousTasks _ superText (mem_children_of_typeBody? hbody)
  | member | other | enter =>
    rw [below_walks]
    exact (namedChildren_below_sublist _).subperm

theorem height_perform {next : Task} (h : next ∈ (s.perform u unit imports task).2) :
    next.node.node.height < task.node.node.height := by
  have hmem := (below_perform task).subset (List.mem_flatMap.mpr ⟨next, h, next.node.mem_below_self⟩)
  obtain ⟨q, hq, hmem⟩ := List.mem_flatMap.mp hmem
  refine Nat.lt_of_le_of_lt ?_ (height_lt_of_mem_children hq)
  exact below_induction (motive := fun r => r.node.height ≤ q.node.height) (Nat.le_refl _)
    (fun r _ r' hr' hle => Nat.le_trans (Nat.le_of_lt (height_lt_of_mem_children hr')) hle) _ hmem

/-! ## The stack and the recursion -/

/-- Tasks on top of a stack are done before what is below them, as the recursion does them. No node
has two steps. -/
theorem doneAll_spec {tasks : List Task} (htasks : ∀ task ∈ tasks, task.node.node.height ≤ levels)
    (s : Indexing) :
    let all := doneAll (done u unit imports levels) tasks s
    (∀ steps stack, run u unit imports (all.2.length + steps) (tasks ++ stack) s
        = run u unit imports steps stack all.1
      ∧ trace u unit imports (all.2.length + steps) (tasks ++ stack) s
        = all.2 ++ trace u unit imports steps stack all.1)
      ∧ (all.2.map (·.1.node)).Subperm (tasks.flatMap (·.node.below)) := by
  induction levels generalizing tasks s with
  | zero =>
    cases tasks with
    | nil => simp [doneAll]
    | cons task tasks =>
      have hpos := task.node.node.height_pos
      have hle := htasks task List.mem_cons_self
      omega
  | succ levels ih =>
    induction tasks generalizing s with
    | nil => simp [doneAll]
    | cons task tasks ihTasks =>
      obtain ⟨htask, htasks⟩ := List.forall_mem_cons.mp htasks
      have hself : done u unit imports (levels + 1) task s
          = ((doneAll (done u unit imports levels) (s.perform u unit imports task).2
              (s.perform u unit imports task).1).1,
            (task, s) :: (doneAll (done u unit imports levels)
              (s.perform u unit imports task).2 (s.perform u unit imports task).1).2) := rfl
      obtain ⟨hnext, hnextNodes⟩ := ih (fun next h =>
        Nat.le_of_lt_succ (Nat.lt_of_lt_of_le (height_perform h) htask))
        (s.perform u unit imports task).1
      generalize doneAll (done u unit imports levels) _ _ = next at hself hnext hnextNodes
      obtain ⟨hrest, hrestNodes⟩ := ihTasks htasks next.1
      rw [doneAll, hself]
      generalize doneAll (done u unit imports (levels + 1)) tasks next.1 = rest at hrest hrestNodes
      refine ⟨fun steps stack => ?_, ?_⟩
      · have hlength : ((task, s) :: next.2 ++ rest.2).length + steps
            = next.2.length + (rest.2.length + steps) + 1 := by
          simp only [List.length_append, List.length_cons]
          omega
        obtain ⟨hrun, htrace⟩ := hnext (rest.2.length + steps) (tasks ++ stack)
        obtain ⟨hrun', htrace'⟩ := hrest steps stack
        dsimp only
        rw [hlength, List.cons_append, ← hrun', ← hrun]
        refine ⟨rfl, ?_⟩
        rw [List.cons_append, List.cons_append, List.append_assoc, ← htrace', ← htrace]
        rfl
      · rw [List.map_append, List.map_cons, List.cons_append, List.flatMap_cons,
          task.node.below_eq_cons, List.cons_append]
        exact (List.subperm_cons _).mpr ((hnextNodes.trans (below_perform task)).append hrestNodes)

theorem doneAll_walks {f : Task → Indexing → Indexing × List (Task × Indexing)}
    {g : Around → Place → Indexing → Indexing} {ps : List Place}
    (h : ∀ p ∈ ps, ∀ s, (f (.walk around p) s).1 = g around p s) (s : Indexing) :
    (doneAll f (walks around ps) s).1 = walkAll g around ps s := by
  induction ps generalizing s with
  | nil => rfl
  | cons p ps ih =>
    obtain ⟨hself, hrest⟩ := List.forall_mem_cons.mp h
    show (doneAll f (walks around ps) (f (.walk around p) s).1).1 = walkAll g around ps (g around p s)
    rw [hself, ih hrest]

theorem doneAll_append (f : Task → Indexing → Indexing × List (Task × Indexing))
    (tasks tasks' : List Task) (s : Indexing) :
    (doneAll f (tasks ++ tasks') s).1 = (doneAll f tasks' (doneAll f tasks s).1).1 := by
  induction tasks generalizing s with
  | nil => rfl
  | cons task tasks ih => exact ih (f task s).1

/-- What is done for a place and all that it leaves is to walk the place. -/
theorem done_walk {levels' : Nat} (h : p.node.height ≤ levels) (h' : p.node.height ≤ levels')
    (s : Indexing) :
    (done u unit imports levels (.walk around p) s).1 = walk u unit imports levels' around p s := by
  induction levels using Nat.strongRecOn generalizing levels' around p s with
  | _ levels ih =>
    have hpos := p.node.height_pos
    obtain ⟨levels, rfl⟩ := Nat.exists_eq_add_one_of_ne_zero (Nat.ne_of_gt (Nat.lt_of_lt_of_le hpos h))
    obtain ⟨levels', rfl⟩ := Nat.exists_eq_add_one_of_ne_zero (Nat.ne_of_gt (Nat.lt_of_lt_of_le hpos h'))
    have hall : ∀ {m : Nat} {around : Around} {ps : List Place} (s : Indexing), m ≤ levels →
        (∀ q ∈ ps, q.node.height ≤ m ∧ q.node.height ≤ levels') →
        (doneAll (done u unit imports m) (walks around ps) s).1
          = walkAll (walk u unit imports levels') around ps s := fun s hm hps =>
      doneAll_walks (fun q hq s =>
        ih _ (Nat.lt_succ_of_le hm) (hps q hq).1 (hps q hq).2 s) s
    have hchild : ∀ q ∈ p.children, q.node.height ≤ levels ∧ q.node.height ≤ levels' := by
      intro q hq
      have := height_lt_of_mem_children hq
      omega
    have hnamed : ∀ q ∈ p.namedChildren, q.node.height ≤ levels ∧ q.node.height ≤ levels' :=
      fun q hq => hchild q (mem_children_of_mem_namedChildren hq)
    -- the children of a body are two levels down
    have hbody : ∀ {body : Place} {m : Nat}, body ∈ p.children → body.node.height ≤ m + 1 →
        ∀ q ∈ body.namedChildren, q.node.height ≤ m ∧ q.node.height ≤ levels' := by
      intro body m hmem hm q hq
      have := hchild body hmem
      have := height_lt_of_mem_children (mem_children_of_mem_namedChildren hq)
      omega
    have hanonymous : ∀ {body : Place} (superText : String → String), body ∈ p.children →
        (doneAll (done u unit imports levels) (anonymousTasks around p superText body) s).1
          = match around.owner with
            | some owner => walkAnonymous (walk u unit imports levels') u unit around p owner
                (superText owner) body s
            | none => s := by
      intro body superText hmem
      unfold anonymousTasks
      cases around.owner with
      | none => rfl
      | some owner =>
        have hlevel := (hchild body hmem).1
        obtain ⟨m, rfl⟩ := Nat.exists_eq_add_one_of_ne_zero
          (Nat.ne_of_gt (Nat.lt_of_lt_of_le body.node.height_pos hlevel))
        dsimp only
        rw [doneAll_append, hall s (Nat.le_refl _) fun q hq =>
          hnamed q (List.mem_of_mem_filter hq)]
        exact hall _ (Nat.le_succ m) (hbody hmem hlevel)
    show (doneAll (done u unit imports levels) (s.perform u unit imports (.walk around p)).2
      (s.perform u unit imports (.walk around p)).1).1 = _
    rw [perform, walk, step]
    cases hof : Construct.of p with
    | typeDecl kind name body =>
      have hmem : body ∈ p.children := mem_children_of_typeBody? (by simp [typeBody?, hof])
      exact hall _ (Nat.le_refl _) (hbody hmem (Nat.le_succ_of_le (hchild body hmem).1))
    | objectCreation _ body | enumConstant _ body =>
      cases body with
      | none => exact hall s (Nat.le_refl _) hnamed
      | some body => exact hanonymous _ (mem_children_of_typeBody? (by simp [typeBody?, hof]))
    | _ => exact hall s (Nat.le_refl _) hnamed

/-- The walk of a unit empties its stack, by the steps of the recursion. -/
theorem run_walk (u : SourceUnit) (unit : Nat) (imports : Imports) (s : Indexing) :
    run u unit imports u.root.places.length [.walk {} u.top] s
        = ([], walk u unit imports u.root.height {} u.top s)
      ∧ trace u unit imports u.root.places.length [.walk {} u.top] s
        = (done u unit imports u.root.height (.walk {} u.top) s).2
      ∧ ((trace u unit imports u.root.places.length [.walk {} u.top] s).map
          (·.1.node)).Subperm u.root.places := by
  have hheight : ∀ task ∈ [Task.walk {} u.top], task.node.node.height ≤ u.root.height := by
    intro task h
    rw [List.mem_singleton.mp h]
    exact Nat.le_refl _
  have hall := @doneAll_spec u unit _ imports _ hheight s
  simp only [doneAll, List.append_nil, List.flatMap_singleton] at hall
  obtain ⟨hsteps, hnodes⟩ := hall
  have hlength := hnodes.length_le
  rw [List.length_map] at hlength
  obtain ⟨steps, hlength⟩ := Nat.exists_eq_add_of_le hlength
  obtain ⟨hrun, htrace⟩ := hsteps steps []
  have hwalk := @done_walk u unit _ imports u.top {} _ (Nat.le_refl u.root.height)
    (Nat.le_refl u.root.height) s
  have hempty : ∀ s', run u unit imports steps [] s' = ([], s')
      ∧ trace u unit imports steps [] s' = [] := by
    intro s'
    cases steps <;> exact ⟨rfl, rfl⟩
  rw [List.append_nil, (hempty _).1, hwalk] at hrun
  rw [List.append_nil, (hempty _).2, List.append_nil] at htrace
  have hplaces : u.root.places.length
      = (done u unit imports u.root.height (.walk {} u.top) s).2.length + steps := hlength
  rw [hplaces, hrun, htrace]
  exact ⟨rfl, rfl, hnodes⟩

/-! ## Runs -/

/-- What every task of the stack has and every step hands on, all tasks that are done have. -/
theorem forall_trace {Inv : Task → Prop} (hstack : ∀ task ∈ stack, Inv task)
    (hstep : ∀ x ∈ trace u unit imports steps stack s, Inv x.1 →
      ∀ next ∈ (x.2.perform u unit imports x.1).2, Inv next) :
    ∀ x ∈ trace u unit imports steps stack s, Inv x.1 := by
  induction steps generalizing stack s with
  | zero => simp [trace]
  | succ steps ih =>
    cases stack with
    | nil => simp [trace]
    | cons task stack =>
      obtain ⟨htask, hstack⟩ := List.forall_mem_cons.mp hstack
      rw [trace] at hstep ⊢
      obtain ⟨hself, hrest⟩ := List.forall_mem_cons.mp hstep
      exact List.forall_mem_cons.mpr
        ⟨htask, ih (List.forall_mem_append.mpr ⟨hself htask, hstack⟩) hrest⟩

/-- Where nothing is left to do, all has been done that was on the stack or was left by a step. -/
theorem mem_trace (hrun : (run u unit imports steps stack s).1 = []) :
    (∀ task ∈ stack, ∃ s', (task, s') ∈ trace u unit imports steps stack s)
      ∧ ∀ x ∈ trace u unit imports steps stack s, ∀ next ∈ (x.2.perform u unit imports x.1).2,
        ∃ s', (next, s') ∈ trace u unit imports steps stack s := by
  induction steps generalizing stack s with
  | zero =>
    cases (hrun : stack = [])
    simp [trace]
  | succ steps ih =>
    cases stack with
    | nil => simp [trace]
    | cons task stack =>
      obtain ⟨hstack, hleft⟩ := ih hrun
      obtain ⟨hnext, hstack⟩ := List.forall_mem_append.mp hstack
      have hlater : ∀ {task'}, (∃ s', (task', s') ∈ trace u unit imports steps
          ((s.perform u unit imports task).2 ++ stack) (s.perform u unit imports task).1) →
          ∃ s', (task', s') ∈ trace u unit imports (steps + 1) (task :: stack) s :=
        fun ⟨s', h⟩ => ⟨s', List.mem_cons_of_mem _ h⟩
      exact ⟨List.forall_mem_cons.mpr
          ⟨⟨s, List.mem_cons_self⟩, fun task' h => hlater (hstack task' h)⟩,
        List.forall_mem_cons.mpr ⟨fun next h => hlater (hnext next h),
          fun x hx next h => hlater (hleft x hx next h)⟩⟩

/-! ## What the steps do -/

theorem count_insertAnonymous (s : Indexing) (p : Place) (owner superText : String) (body : Place)
    (owner' : String) : (s.insertAnonymous u unit p owner superText body).count owner'
      = s.count owner' + if owner = owner' then 1 else 0 := by
  simp only [count, Indexing.insertAnonymous, Indexing.insert, Std.TreeMap.getD_insert]
  by_cases howner : owner = owner'
  · subst howner
    simp
  · have hcompare : compare owner owner' ≠ .eq := fun heq =>
      howner (Std.LawfulEqCmp.eq_of_compare heq)
    simp [hcompare, howner]

/-- A step enters at most one type, and counts it if it has no name. -/
theorem perform_spec (task : Task) (s : Indexing) (owner : String) :
    (s.perform u unit imports task).1.index
        = (entered? u unit imports (task, s)).elim s.index (fun e => (s.insert e.1 e.2).index)
      ∧ (s.perform u unit imports task).1.count owner
        = s.count owner + (numbered? owner (task, s)).toList.length := by
  cases task with
  | enter owner' superText p body =>
    refine ⟨rfl, (count_insertAnonymous s p owner' superText body owner).trans ?_⟩
    by_cases howner : owner' = owner <;> simp [numbered?, howner]
  | walk around p =>
    rw [perform, entered?]
    cases hof : Construct.of p with
    | objectCreation _ body | enumConstant _ body => cases body <;> exact ⟨rfl, rfl⟩
    | _ => exact ⟨rfl, rfl⟩

theorem numbered?_eq_some {owner name : String} (h : numbered? owner (task, s) = some name) :
    name = owner ++ ".$" ++ toString (s.count owner + 1) := by
  cases task with
  | walk => cases h
  | enter =>
    obtain ⟨-, h⟩ := Option.ite_none_right_eq_some.mp h
    exact (Option.some.inj h).symm

/-- What a run enters and how it numbers is what its steps enter and how they number. -/
theorem run_spec (steps : Nat) (stack : List Task) (s : Indexing) (owner : String) :
    (run u unit imports steps stack s).2.index
        = ((trace u unit imports steps stack s).filterMap (entered? u unit imports)).foldl
            (fun ix e => (Indexing.insert { index := ix } e.1 e.2).index) s.index
      ∧ ∃ n, (trace u unit imports steps stack s).filterMap (numbered? owner)
          = (List.range' (s.count owner + 1) n).map fun k => owner ++ ".$" ++ toString k := by
  induction steps generalizing stack s with
  | zero => exact ⟨rfl, 0, rfl⟩
  | succ steps ih =>
    cases stack with
    | nil => exact ⟨rfl, 0, rfl⟩
    | cons task stack =>
      obtain ⟨hindex, hcount⟩ := @perform_spec u unit imports task s owner
      obtain ⟨hindex', n, hnames⟩ := ih ((s.perform u unit imports task).2 ++ stack)
        (s.perform u unit imports task).1
      rw [run, trace, List.filterMap_cons, List.filterMap_cons]
      refine ⟨?_, n + (numbered? owner (task, s)).toList.length, ?_⟩
      · rw [hindex', hindex]
        cases entered? u unit imports (task, s) <;> rfl
      · rw [hnames, hcount]
        cases hname : numbered? owner (task, s) with
        | none => rfl
        | some name =>
          rw [numbered?_eq_some hname]
          rfl

/-- No two types without names of an owner get one name. -/
theorem nodup_numbered (steps : Nat) (stack : List Task) (s : Indexing) (owner : String) :
    ((trace u unit imports steps stack s).filterMap (numbered? owner)).Nodup := by
  obtain ⟨-, n, hnames⟩ := @run_spec u unit imports steps stack s owner
  rw [hnames]
  refine List.Nodup.map (fun k k' h => ?_) List.nodup_range'
  exact Nat.repr_inj.mp (String.append_right_inj _ |>.mp h)

/-- The walk of a unit stops with nothing left to do, and its steps are those of the recursion. No
two of them are for the same node. What the index gains is what they enter, in this order, and the
types without names of an owner are numbered from one, without gaps or repetitions. -/
theorem walk_eq_recursion (ix : Index) (u : SourceUnit) :
    let start : Indexing :=
      { index := { ix with imports := ix.imports.push u.imports, declared := ix.declared.push ∅ } }
    let steps := (done u ix.imports.size u.imports u.root.height (.walk {} u.top) start).2
    run u ix.imports.size u.imports u.root.places.length [.walk {} u.top] start
        = ([], walk u ix.imports.size u.imports u.root.height {} u.top start)
      ∧ trace u ix.imports.size u.imports u.root.places.length [.walk {} u.top] start = steps
      ∧ (steps.map (·.1.node)).Subperm u.root.places
      ∧ ix.addUnit u = (steps.filterMap (entered? u ix.imports.size u.imports)).foldl
          (fun ix e => (Indexing.insert { index := ix } e.1 e.2).index) start.index
      ∧ ∀ owner, (steps.filterMap (numbered? owner)).Nodup
        ∧ ∃ n, steps.filterMap (numbered? owner)
          = (List.range' 1 n).map fun k => owner ++ ".$" ++ toString k := by
  intro start steps
  obtain ⟨hrun, htrace, hnodes⟩ := run_walk u ix.imports.size u.imports start
  have hspec := @run_spec u ix.imports.size u.imports u.root.places.length [.walk {} u.top] start
  have hnodup := @nodup_numbered u ix.imports.size u.imports u.root.places.length
    [.walk {} u.top] start
  rw [htrace] at hnodes hspec hnodup
  exact ⟨hrun, htrace, hnodes, (hspec "").1, fun owner => ⟨hnodup owner, (hspec owner).2⟩⟩

end Steps

end Indexing

theorem Index.addUnit_eq_walk (ix : Index) (u : SourceUnit) :
    ix.addUnit u = (Indexing.walk u ix.imports.size u.imports u.root.height {} u.top
      { index := { ix with imports := ix.imports.push u.imports
                           declared := ix.declared.push ∅ } }).index :=
  congrArg (·.2.index) (Indexing.run_walk u ix.imports.size u.imports _).1

end Legible
