import Legible.Index.Basic
import Legible.Proofs.Loop
import Mathlib.Data.List.Perm.Subperm
import Mathlib.Data.Nat.Find
import Std.Data.TreeMap.Lemmas

/-!
# The types that a type inherits from

A type is `d` steps above another if `d` supertypes in a row lead to it, all of them types of the
index (`Index.Climbs`). The walk through the supertypes goes level by level: what it finds new at
level `d` are the types whose least number of steps is `d` (`Index.Level`). Nothing is above level
`Index.size`, since there is a different type at each level below (`AtDistance.lt_size`). So the
walk lists exactly the types that can be reached, each once and the nearest first, and a search
along the list ends at a type that is nearest (`hierarchy_exact`). Supertypes may form cycles.

The levels need not be kept apart: a loop that takes names from the front of a queue and puts
supertypes at its end (`Search.step`) comes through one level after the other (`mem_loop_level`) and
ends with the same list.
-/

namespace Legible.Index

/-- `name` is reached from `start` by so many steps from a type to one of its supertypes. -/
inductive Climbs (ix : Index) (start : String) : Nat → String → Prop
  | start (h : ix.types.contains start = true) : Climbs ix start 0 start
  | up {steps : Nat} {name above : String} (h : Climbs ix start steps name)
      (hsuper : above ∈ ix.supertypesOf name) (habove : ix.types.contains above = true) :
      Climbs ix start (steps + 1) above

/-- `distance` is the least number of steps from `start` to `name`. -/
def AtDistance (ix : Index) (start : String) (distance : Nat) (name : String) : Prop :=
  ix.Climbs start distance name ∧ ∀ steps < distance, ¬ ix.Climbs start steps name

/-- What a search finds in the types that can be reached from `start`. -/
inductive Nearest {α : Type} (ix : Index) (start : String) (find : TypeInfo → Option α) :
    Option α → Prop
  | nowhere (h : ∀ steps name info, ix.Climbs start steps name → ix.type? name = some info →
      find info = none) : Nearest ix start find none
  | at {distance : Nat} {name : String} {info : TypeInfo} {a : α}
      (hname : ix.AtDistance start distance name) (hinfo : ix.type? name = some info)
      (hfind : find info = some a)
      (hleast : ∀ steps name' info', ix.Climbs start steps name' → ix.type? name' = some info' →
        (find info').isSome = true → distance ≤ steps) : Nearest ix start find (some a)

variable {ix : Index} {start name : String} {distance steps : Nat} {seen names : List String}

/-! ## Distances -/

theorem contains_iff : ix.types.contains name = true ↔ ∃ info, ix.type? name = some info := by
  rw [Std.TreeMap.contains_eq_isSome_getElem?, Option.isSome_iff_exists]
  rfl

theorem Climbs.contains (h : ix.Climbs start steps name) : ix.types.contains name = true := by
  cases h with
  | start h => exact h
  | up _ _ h => exact h

theorem Climbs.exists_atDistance (h : ix.Climbs start steps name) :
    ∃ distance ≤ steps, ix.AtDistance start distance name := by
  classical
  have hex : ∃ steps, ix.Climbs start steps name := ⟨steps, h⟩
  exact ⟨Nat.find hex, Nat.find_min' hex h, Nat.find_spec hex, fun _ => Nat.find_min hex⟩

namespace AtDistance

theorem le (h : ix.AtDistance start distance name) (hsteps : ix.Climbs start steps name) :
    distance ≤ steps :=
  Nat.le_of_not_lt fun hlt => h.2 steps hlt hsteps

theorem unique {distance' : Nat} (h : ix.AtDistance start distance name)
    (h' : ix.AtDistance start distance' name) : distance = distance' :=
  Nat.le_antisymm (h.le h'.1) (h'.le h.1)

theorem exists_below (h : ix.AtDistance start (distance + 1) name) :
    ∃ below, ix.AtDistance start distance below ∧ name ∈ ix.supertypesOf below := by
  obtain ⟨hclimbs, hleast⟩ := h
  cases hclimbs with
  | up hbelow hsuper hname =>
    exact ⟨_, ⟨hbelow, fun steps hlt hsteps =>
      hleast (steps + 1) (Nat.succ_lt_succ hlt) (.up hsteps hsuper hname)⟩, hsuper⟩

theorem exists_of_le (h : ix.AtDistance start distance name) (hle : steps ≤ distance) :
    ∃ name', ix.AtDistance start steps name' := by
  induction distance generalizing name with
  | zero => exact ⟨name, Nat.le_zero.mp hle ▸ h⟩
  | succ distance ih =>
    rcases Nat.eq_or_lt_of_le hle with rfl | hlt
    · exact ⟨name, h⟩
    · obtain ⟨below, hbelow, -⟩ := h.exists_below
      exact ih hbelow (Nat.le_of_lt_succ hlt)

/-- There is a type at each distance below, so there are more types than steps. -/
theorem lt_size (h : ix.AtDistance start distance name) : distance < ix.size := by
  have hpath : ∃ path : List String, path.length = distance + 1 ∧ path.Nodup
      ∧ ∀ name ∈ path, ∃ k ≤ distance, ix.AtDistance start k name := by
    induction distance generalizing name with
    | zero => exact ⟨[name], rfl, by simp, by simpa using h⟩
    | succ distance ih =>
      obtain ⟨below, hbelow, -⟩ := h.exists_below
      obtain ⟨path, hlength, hnodup, hpath⟩ := ih hbelow
      refine ⟨name :: path, by rw [List.length_cons, hlength], List.nodup_cons.mpr ⟨fun hmem => ?_,
        hnodup⟩, List.forall_mem_cons.mpr ⟨⟨_, Nat.le_refl _, h⟩, fun name' hname' => ?_⟩⟩
      · obtain ⟨k, hle, hk⟩ := hpath name hmem
        have := h.unique hk
        omega
      · obtain ⟨k, hle, hk⟩ := hpath name' hname'
        exact ⟨k, Nat.le_succ_of_le hle, hk⟩
  obtain ⟨path, hlength, hnodup, hpath⟩ := hpath
  have hsub : path ⊆ ix.types.keys := fun name' hname' => by
    obtain ⟨k, -, hk⟩ := hpath name' hname'
    exact Std.TreeMap.mem_keys.mpr (Std.TreeMap.contains_iff_mem.mp hk.1.contains)
  have hle := (hnodup.subperm hsub).length_le
  rw [hlength, Std.TreeMap.length_keys] at hle
  exact hle

end AtDistance

/-! ## Levels -/

theorem mem_unseen : name ∈ ix.unseen seen names
    ↔ name ∈ names ∧ ix.types.contains name = true ∧ name ∉ seen := by
  induction names generalizing seen with
  | nil => simp [unseen]
  | cons q names ih =>
    unfold unseen
    split
    · next hq =>
        simp only [List.mem_cons, ih]
        by_cases hname : name = q
        · simpa [hname] using hq
        · simp [hname]
    · next hq =>
        rw [ih, List.mem_cons]
        by_cases hname : name = q
        · subst hname
          simp only [Bool.and_eq_true, Bool.not_eq_true', List.contains_eq_mem,
            decide_eq_false_iff_not] at hq
          exact ⟨fun h => absurd h.2 hq, fun h => absurd h.2 hq⟩
        · simp [hname]

theorem nodup_unseen : (ix.unseen seen names).Nodup := by
  induction names generalizing seen with
  | nil => exact List.nodup_nil
  | cons q names ih =>
    unfold unseen
    split
    · exact List.nodup_cons.mpr ⟨fun hq => (mem_unseen.mp hq).2.2 List.mem_cons_self, ih⟩
    · exact ih

/-- Where the walk stands at a level: it has seen what is nearer, and finds what is so far away. -/
structure Level (ix : Index) (start : String) (distance : Nat) (seen names : List String) : Prop where
  nearer : ∀ name, name ∈ seen ↔ ∃ steps < distance, ix.Climbs start steps name
  fresh : ∀ name, name ∈ ix.unseen seen names ↔ ix.AtDistance start distance name

theorem Level.init : ix.Level start 0 [] [start] where
  nearer name := by simp
  fresh name := by
    rw [mem_unseen]
    constructor
    · rintro ⟨hname, hcontains, -⟩
      rw [List.mem_singleton.mp hname] at hcontains ⊢
      exact ⟨.start hcontains, fun _ h => absurd h (Nat.not_lt_zero _)⟩
    · rintro ⟨hclimbs, -⟩
      cases hclimbs with
      | start h => exact ⟨List.mem_singleton_self start, h, List.not_mem_nil⟩

theorem Level.next (h : ix.Level start distance seen names) :
    let fresh := ix.unseen seen names
    ix.Level start (distance + 1) (fresh ++ seen) (fresh.flatMap ix.supertypesOf) := by
  have hseen : ∀ name, name ∈ ix.unseen seen names ++ seen
      ↔ ∃ steps < distance + 1, ix.Climbs start steps name := by
    intro name
    rw [List.mem_append, h.fresh, h.nearer]
    constructor
    · rintro (hat | ⟨steps, hlt, hsteps⟩)
      · exact ⟨distance, Nat.lt_succ_self _, hat.1⟩
      · exact ⟨steps, Nat.lt_succ_of_lt hlt, hsteps⟩
    · rintro ⟨steps, hlt, hsteps⟩
      obtain ⟨least, hle, hat⟩ := hsteps.exists_atDistance
      rcases Nat.eq_or_lt_of_le (Nat.le_trans hle (Nat.le_of_lt_succ hlt)) with rfl | hlt
      · exact .inl hat
      · exact .inr ⟨least, hlt, hat.1⟩
  refine ⟨hseen, fun name => ?_⟩
  rw [mem_unseen, hseen, List.mem_flatMap]
  constructor
  · rintro ⟨⟨below, hbelow, hsuper⟩, hname, hunseen⟩
    exact ⟨.up ((h.fresh below).mp hbelow).1 hsuper hname, fun steps hlt hsteps =>
      hunseen ⟨steps, hlt, hsteps⟩⟩
  · intro hat
    obtain ⟨below, hbelow, hsuper⟩ := hat.exists_below
    exact ⟨⟨below, (h.fresh below).mpr hbelow, hsuper⟩, hat.1.contains, fun ⟨steps, hlt, hsteps⟩ =>
      hat.2 steps hlt hsteps⟩

theorem levels_succ (ix : Index) (rounds : Nat) (seen names : List String) :
    ix.levels (rounds + 1) seen names
      = ix.unseen seen names ++ (if ix.unseen seen names = [] then []
        else ix.levels rounds (ix.unseen seen names ++ seen)
          ((ix.unseen seen names).flatMap ix.supertypesOf)) := by
  rw [levels]
  split
  · next h => simp [h]
  · next h => rw [if_neg fun hempty => h hempty]

section

variable (h : ix.Level start distance seen names)

include h

/-- A walk of some rounds finds what is at the distances that it comes by. -/
theorem Level.mem_levels (rounds : Nat) :
    name ∈ ix.levels rounds seen names ↔ ∃ k < rounds, ix.AtDistance start (distance + k) name := by
  induction rounds generalizing distance seen names with
  | zero => simp [levels]
  | succ rounds ih =>
    have hzero : (∃ k < rounds + 1, ix.AtDistance start (distance + k) name)
        ↔ ix.AtDistance start distance name
          ∨ ∃ k < rounds, ix.AtDistance start (distance + 1 + k) name := by
      rw [Nat.exists_lt_succ_left]
      simp only [Nat.add_zero, Nat.add_right_comm distance 1, Nat.add_assoc]
    rw [levels_succ, List.mem_append, h.fresh, hzero]
    refine or_congr_right ?_
    split
    · next hempty =>
        -- no type is at this distance, and so none is further away
        refine iff_of_false List.not_mem_nil fun ⟨k, _, hat⟩ => ?_
        obtain ⟨name', hat'⟩ := hat.exists_of_le (by omega : distance ≤ _)
        exact List.not_mem_nil (hempty ▸ (h.fresh name').mpr hat')
    · exact ih h.next

/-- The walk lists each type once and in the order of distances. -/
theorem Level.pairwise_levels (rounds : Nat) :
    (ix.levels rounds seen names).Pairwise fun a b => a ≠ b
      ∧ ∀ m n, ix.AtDistance start m a → ix.AtDistance start n b → m ≤ n := by
  induction rounds generalizing distance seen names with
  | zero => exact List.Pairwise.nil
  | succ rounds ih =>
    rw [levels_succ, List.pairwise_append]
    refine ⟨List.Pairwise.imp_of_mem ?_ nodup_unseen, ?_, fun a ha b hb => ?_⟩
    · intro a b ha hb hne
      refine ⟨hne, fun m n hm hn => Nat.le_of_eq ?_⟩
      rw [hm.unique ((h.fresh a).mp ha), hn.unique ((h.fresh b).mp hb)]
    · split
      · exact List.Pairwise.nil
      · exact ih h.next
    · have ha := (h.fresh a).mp ha
      split at hb
      · cases hb
      · obtain ⟨k, -, hb⟩ := (h.next.mem_levels rounds).mp hb
        refine ⟨fun heq => ?_, fun m n hm hn => ?_⟩
        · have := ha.unique (heq ▸ hb)
          omega
        · rw [hm.unique ha, hn.unique hb]
          omega

/-- Behind the last type nothing is new. -/
theorem Level.unseen_eq_nil (hall : ∀ n name, ix.AtDistance start n name → n < distance) :
    ix.unseen seen names = [] :=
  List.eq_nil_iff_forall_not_mem.mpr fun name hname =>
    Nat.lt_irrefl _ (hall distance name ((h.fresh name).mp hname))

/-- Rounds behind the last type change nothing. -/
theorem Level.levels_add {rounds : Nat}
    (hall : ∀ n name, ix.AtDistance start n name → n < distance + rounds) (more : Nat) :
    ix.levels (rounds + more) seen names = ix.levels rounds seen names := by
  induction rounds generalizing distance seen names with
  | zero =>
    cases more with
    | zero => rfl
    | succ more =>
      rw [Nat.zero_add, levels_succ, h.unseen_eq_nil hall, if_pos rfl, levels, List.append_nil]
  | succ rounds ih =>
    rw [Nat.add_right_comm, levels_succ, levels_succ,
      ih h.next fun n name hat => Nat.lt_of_lt_of_eq (hall n name hat) (by omega)]

end

/-! ## The queue -/

/-- A search through the supertypes with a queue of names. -/
structure Search where
  queue : List String
  /-- Names that were taken from the queue, of types or not. -/
  seen : List String
  out : List TypeInfo

/-- A name is taken from the queue; if it is a new one of a type, its supertypes are put behind. -/
def Search.step (ix : Index) : Search → List TypeInfo ⊕ Search
  | ⟨[], _, out⟩ => .inl out
  | ⟨q :: queue, seen, out⟩ =>
    if seen.contains q then .inr ⟨queue, seen, out⟩
    else
      match ix.type? q with
      | some info => .inr ⟨queue ++ info.knownSupertypes, q :: seen, out ++ [info]⟩
      | none => .inr ⟨queue, q :: seen, out⟩

section

variable {q : String} {queue visited : List String} {out : List TypeInfo} {info : TypeInfo}

theorem Search.step_seen (h : q ∈ visited) :
    Search.step ix ⟨q :: queue, visited, out⟩ = .inr ⟨queue, visited, out⟩ :=
  if_pos (List.contains_iff_mem.mpr h)

theorem Search.step_unknown (h : q ∉ visited) (hq : ix.type? q = none) :
    Search.step ix ⟨q :: queue, visited, out⟩ = .inr ⟨queue, q :: visited, out⟩ := by
  rw [Search.step, if_neg (by simpa using h), hq]

theorem Search.step_type (h : q ∉ visited) (hq : ix.type? q = some info) :
    Search.step ix ⟨q :: queue, visited, out⟩
      = .inr ⟨queue ++ info.knownSupertypes, q :: visited, out ++ [info]⟩ := by
  rw [Search.step, if_neg (by simpa using h), hq]

end

/-- The queue has seen the same types as the levels. -/
def SeenAlike (ix : Index) (visited seen : List String) : Prop :=
  ∀ name, ix.types.contains name = true → (name ∈ visited ↔ name ∈ seen)

/-- The queue comes through the names at its front. Then it holds the supertypes of what is new,
behind what it held behind them. -/
theorem mem_loop_names {visited next : List String} {out r : List TypeInfo}
    (halike : ix.SeenAlike visited seen)
    (h : ∀ visited', ix.SeenAlike visited' (ix.unseen seen names ++ seen) →
      r ∈ loop (Search.step ix) ⟨next ++ (ix.unseen seen names).flatMap ix.supertypesOf, visited',
        out ++ (ix.unseen seen names).filterMap ix.type?⟩) :
    r ∈ loop (Search.step ix) ⟨names ++ next, visited, out⟩ := by
  induction names generalizing visited seen next out with
  | nil => simpa [unseen] using h visited (by simpa [unseen] using halike)
  | cons q names ih =>
    rw [List.cons_append]
    by_cases hvisited : q ∈ visited
    · -- what was taken before is no type, or one that the levels have seen too
      have hold : ¬ (ix.types.contains q && !seen.contains q) = true := by
        intro hq
        rw [Bool.and_eq_true] at hq
        simpa [(halike q hq.1).mp hvisited] using hq.2
      rw [unseen, if_neg hold] at h
      exact mem_loop_of_next (Search.step_seen hvisited) (ih halike h)
    · cases hinfo : ix.type? q with
      | none =>
        have hunknown : ix.types.contains q ≠ true := by
          rw [ne_eq, contains_iff, hinfo]
          simp
        rw [unseen, if_neg (by simp [hunknown])] at h
        refine mem_loop_of_next (Search.step_unknown hvisited hinfo) (ih (fun name hname => ?_) h)
        have hne : name ≠ q := fun heq => hunknown (heq ▸ hname)
        rw [List.mem_cons, or_iff_right hne]
        exact halike name hname
      | some info =>
        have hknown : ix.types.contains q = true := contains_iff.mpr ⟨info, hinfo⟩
        have hunseen : q ∉ seen := fun hseen => hvisited ((halike q hknown).mpr hseen)
        have hsuper : ix.supertypesOf q = info.knownSupertypes := by rw [supertypesOf, hinfo]
        rw [unseen, if_pos (by simpa [hknown] using hunseen)] at h
        refine mem_loop_of_next (Search.step_type hvisited hinfo) ?_
        rw [List.append_assoc]
        refine @ih (q :: seen) _ _ _ (fun name hname => ?_) fun visited' hvisited' => ?_
        · rw [List.mem_cons, List.mem_cons, halike name hname]
        · have hnext := h visited' fun name hname => by
            rw [hvisited' name hname, List.cons_append]
            exact List.perm_middle.mem_iff
          rwa [List.flatMap_cons, hsuper, List.filterMap_cons_some hinfo, ← List.append_assoc,
            List.append_cons out] at hnext

/-- The queue goes from one level to the next. -/
theorem mem_loop_level {visited : List String} {out r : List TypeInfo}
    (halike : ix.SeenAlike visited seen)
    (h : ∀ visited', ix.SeenAlike visited' (ix.unseen seen names ++ seen) →
      r ∈ loop (Search.step ix) ⟨(ix.unseen seen names).flatMap ix.supertypesOf, visited',
        out ++ (ix.unseen seen names).filterMap ix.type?⟩) :
    r ∈ loop (Search.step ix) ⟨names, visited, out⟩ := by
  rw [← List.append_nil names]
  exact mem_loop_names halike h

/-- From a level on, the queue comes through all that are left. -/
theorem Level.mem_loop (h : ix.Level start distance seen names) {rounds : Nat}
    (hall : ∀ n name, ix.AtDistance start n name → n < distance + rounds) {visited : List String}
    (halike : ix.SeenAlike visited seen) (out : List TypeInfo) :
    out ++ (ix.levels rounds seen names).filterMap ix.type?
      ∈ loop (Search.step ix) ⟨names, visited, out⟩ := by
  induction rounds generalizing distance seen names visited out with
  | zero =>
    refine mem_loop_level halike fun visited' _ => mem_loop_of_stop ?_
    rw [h.unseen_eq_nil hall]
    rfl
  | succ rounds ih =>
    refine mem_loop_level halike fun visited' halike' => ?_
    rw [levels_succ, List.filterMap_append, ← List.append_assoc]
    split
    · next hempty =>
        refine mem_loop_of_stop ?_
        simp only [hempty, List.filterMap_nil, List.append_nil]
        rfl
    · exact ih h.next (fun n name hat => Nat.lt_of_lt_of_eq (hall n name hat) (by omega)) halike' _

/-! ## The hierarchy -/

theorem mem_hierarchyNames : name ∈ ix.hierarchyNames start ↔ ∃ steps, ix.Climbs start steps name := by
  rw [hierarchyNames, Level.init.mem_levels]
  constructor
  · rintro ⟨k, -, hat⟩
    exact ⟨_, hat.1⟩
  · rintro ⟨steps, hsteps⟩
    obtain ⟨distance, -, hat⟩ := hsteps.exists_atDistance
    exact ⟨distance, hat.lt_size, by rwa [Nat.zero_add]⟩

theorem head?_hierarchyNames (ix : Index) (start : String) : (ix.hierarchyNames start).head?
    = if ix.types.contains start then some start else none := by
  have hunseen : ix.unseen [] [start] = if ix.types.contains start then [start] else [] := by
    simp [unseen]
  rw [hierarchyNames]
  by_cases hstart : ix.types.contains start = true
  · have hsize := (show ix.AtDistance start 0 start from
      ⟨.start hstart, fun _ h => absurd h (Nat.not_lt_zero _)⟩).lt_size
    obtain ⟨rounds, hrounds⟩ := Nat.exists_eq_add_of_lt hsize
    rw [hrounds, levels_succ, hunseen, if_pos hstart, if_pos hstart]
    rfl
  · cases ix.size with
    | zero => simp [levels, hstart]
    | succ rounds => rw [levels_succ, hunseen, if_neg hstart, if_pos rfl, if_neg hstart]; rfl

theorem nearest_findSome? {α : Type} (ix : Index) (start : String) (find : TypeInfo → Option α) :
    ix.Nearest start find ((ix.hierarchy start).findSome? find) := by
  rw [hierarchy, ← List.head?_filterMap, List.filterMap_filterMap, List.head?_filterMap]
  cases hfound : (ix.hierarchyNames start).findSome? (fun name => (ix.type? name).bind find) with
  | none =>
    refine .nowhere fun steps name info hsteps hinfo => ?_
    have hnone := List.findSome?_eq_none_iff.mp hfound name (mem_hierarchyNames.mpr ⟨steps, hsteps⟩)
    rwa [hinfo] at hnone
  | some a =>
    obtain ⟨before, name, after, hlist, hname, hbefore⟩ := List.findSome?_eq_some_iff.mp hfound
    obtain ⟨info, hinfo, hfind⟩ := Option.bind_eq_some_iff.mp hname
    have hmem : name ∈ ix.hierarchyNames start := by simp [hlist]
    obtain ⟨steps, hsteps⟩ := mem_hierarchyNames.mp hmem
    obtain ⟨distance, -, hat⟩ := hsteps.exists_atDistance
    refine .at hat hinfo hfind fun steps' name' info' hsteps' hinfo' hsome => ?_
    obtain ⟨distance', hle, hat'⟩ := hsteps'.exists_atDistance
    -- a type that has it stands at the first such place or behind it
    have hmem' := mem_hierarchyNames.mpr ⟨steps', hsteps'⟩
    have hpairwise := (Level.init : ix.Level start 0 [] [start]).pairwise_levels ix.size
    rw [← hierarchyNames, hlist] at hpairwise
    rw [hlist, List.mem_append, List.mem_cons] at hmem'
    rcases hmem' with hmem' | rfl | hmem'
    · have hnone := hbefore name' hmem'
      rw [hinfo', Option.bind_some] at hnone
      rw [hnone] at hsome
      cases hsome
    · exact hat.le hsteps'
    · have hlast := (List.pairwise_cons.mp (List.pairwise_append.mp hpairwise).2.1).1 name' hmem'
      exact Nat.le_trans (hlast.2 distance distance' hat hat') hle

/-- The hierarchy of any name in any index, cyclic or not: the walk ends by itself, since further
rounds change nothing, and the search with a queue ends with the same; it lists the types that can
be reached, each once, the nearest first and the type itself in front; and a field or a member type
that a name finds is one of a type that is nearest among those that have it, where there are any. -/
theorem hierarchy_exact (ix : Index) (start : String) :
    (∀ more, ix.levels (ix.size + more) [] [start] = ix.hierarchyNames start)
      ∧ ix.hierarchy start ∈ loop (Search.step ix) ⟨[start], [], []⟩
      ∧ (ix.hierarchy start).map some = (ix.hierarchyNames start).map ix.type?
      ∧ (ix.hierarchyNames start).Nodup
      ∧ (∀ name, name ∈ ix.hierarchyNames start ↔ ∃ steps, ix.Climbs start steps name)
      ∧ (ix.hierarchyNames start).head? = (if ix.types.contains start then some start else none)
      ∧ (ix.hierarchyNames start).Pairwise (fun a b =>
        ∀ m n, ix.AtDistance start m a → ix.AtDistance start n b → m ≤ n)
      ∧ (∀ name, ix.Nearest start (fun info => info.fields[name]?.map fun f => (info, f))
        (ix.findField? start name))
      ∧ ∀ name, ix.Nearest start (fun info => info.memberTypes[name]?)
        (ix.findMemberType? start name) := by
  have hpairwise := (Level.init : ix.Level start 0 [] [start]).pairwise_levels ix.size
  have hall : ∀ n name, ix.AtDistance start n name → n < 0 + ix.size := fun n name hat =>
    Nat.lt_of_lt_of_eq hat.lt_size (Nat.zero_add _).symm
  refine ⟨Level.init.levels_add hall, Level.init.mem_loop hall (fun _ _ => Iff.rfl) [], ?_,
    hpairwise.imp fun h => h.1, fun name => mem_hierarchyNames, head?_hierarchyNames ix start,
    hpairwise.imp fun h => h.2, fun name => nearest_findSome? ix start _,
    fun name => nearest_findSome? ix start _⟩
  · -- every name of the list is that of a type
    have hall : ∀ name ∈ ix.hierarchyNames start, ∃ info, ix.type? name = some info :=
      fun name hname => (mem_hierarchyNames.mp hname).elim fun _ h => contains_iff.mp h.contains
    rw [hierarchy]
    generalize ix.hierarchyNames start = names at hall
    induction names with
    | nil => rfl
    | cons name names ih =>
      obtain ⟨⟨info, hinfo⟩, hrest⟩ := List.forall_mem_cons.mp hall
      rw [List.filterMap_cons_some hinfo, List.map_cons, List.map_cons, ih hrest, hinfo]

end Legible.Index
