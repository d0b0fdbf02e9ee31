import Legible.Proofs.Tree.Places
import Legible.Source

/-!
# The first error of a tree

The search for an error passes over subtrees without the fault mark. Where every error is marked on
all nodes above it (`Node.Marked`) this loses nothing: what is found is the first error in preorder
(`searchFault?_eq_find?`), so a text makes a unit just if its tree has none
(`parse_eq_first_fault`).
-/

namespace Legible

open Place

/-- Every error is marked on its node and on all nodes above it. -/
def Node.Marked (root : Node) : Prop :=
  ∀ p ∈ root.places, p.node.isFault = true → ∀ n ∈ p.node :: p.above, n.label.faulty = true

namespace Place

variable {p q : Place}

theorem mem_above_of_mem_below (h : q ∈ p.below) : p.node ∈ q.node :: q.above := by
  refine below_induction (motive := fun q => p.node ∈ q.node :: q.above) List.mem_cons_self ?_ q h
  intro q _ r hr hq
  obtain ⟨n, -, rfl⟩ := List.mem_map.mp hr
  exact List.mem_cons_of_mem _ hq

theorem map_node_children (p : Place) : p.children.map (·.node) = p.node.children := by
  rw [children, List.map_map]
  exact List.map_id _

end Place

variable {root : Node}

/-- A subtree without the mark has no error in it. -/
theorem Node.Marked.isFault_below (h : root.Marked) {p q : Place} (hp : p ∈ root.places)
    (hmark : p.node.label.faulty = false) (hq : q ∈ p.below) : q.node.isFault = false := by
  by_contra hfault
  have hq' : q ∈ root.places := below_subset (p := Place.top root) hp hq
  have hmarked := h q hq' (by simpa using hfault) _ (mem_above_of_mem_below hq)
  exact Bool.false_ne_true (hmark.symm.trans hmarked)

/-- The search of a stack finds the first error of its trees, if there are steps enough for all
their nodes. -/
theorem Node.Marked.searchFault?_eq_find? (h : root.Marked) {steps : Nat} {ps : List Place}
    (hps : ∀ p ∈ ps, p ∈ root.places) (hsteps : (ps.flatMap below).length ≤ steps) :
    Node.searchFault? steps (ps.map (·.node))
      = ((ps.flatMap below).map (·.node)).find? Node.isFault := by
  induction steps generalizing ps with
  | zero =>
    cases ps with
    | nil => rfl
    | cons p ps => simp [below_eq_cons p] at hsteps
  | succ steps ih =>
    cases ps with
    | nil => rfl
    | cons p ps =>
      obtain ⟨hp, hps⟩ := List.forall_mem_cons.mp hps
      rw [List.map_cons, Node.searchFault?, List.flatMap_cons, List.map_append, List.find?_append]
      rw [List.flatMap_cons, List.length_append] at hsteps
      have hbelow := congrArg List.length (below_eq_cons p)
      rw [List.length_cons] at hbelow
      by_cases hfault : p.node.isFault = true
      · simp [hfault, below_eq_cons p]
      · rw [if_neg hfault]
        cases hmark : p.node.label.faulty with
        | true =>
          -- the children go on top of the stack, in the order in which preorder has them
          have hnext := @ih (p.children ++ ps)
            (fun q hq => (List.mem_append.mp hq).elim (mem_places_of_mem_children hp) (hps q))
            (by rw [List.flatMap_append, List.length_append]; omega)
          rw [List.map_append, map_node_children, List.flatMap_append, List.map_append,
            List.find?_append] at hnext
          rw [if_pos rfl, hnext, below_eq_cons p, List.map_cons, List.find?_cons_of_neg hfault]
        | false =>
          have hnone : (p.below.map (·.node)).find? Node.isFault = none := by
            refine List.find?_eq_none.mpr fun n hn => ?_
            obtain ⟨q, hq, rfl⟩ := List.mem_map.mp hn
            simp [h.isFault_below hp hmark hq]
          rw [if_neg Bool.false_ne_true, hnone, ih hps (by omega), Option.none_or]

/-- Where errors are marked, the error that is found is the first one in preorder, and none is found
just if there is none. So a text makes a unit just if its tree has no error, and otherwise the first
one is reported. -/
theorem parse_eq_first_fault (h : root.Marked) (parser : FrontEnd) (path text : String)
    (hparser : parser (Text.normalizeLines (Text.dropByteOrderMark text)) = some root) :
    let source := Text.normalizeLines (Text.dropByteOrderMark text)
    root.firstFault? = (root.places.map (·.node)).find? Node.isFault
      ∧ (root.firstFault? = none ↔ ∀ p ∈ root.places, p.node.isFault = false)
      ∧ (SourceUnit.parse parser path text = .ok { path, source, root }
        ↔ ∀ p ∈ root.places, p.node.isFault = false)
      ∧ ∀ before p after, root.places = before ++ p :: after → p.node.isFault = true →
        (∀ q ∈ before, q.node.isFault = false) → root.firstFault? = some p.node
          ∧ SourceUnit.parse parser path text = .error (SourceUnit.fault path source p.node) := by
  intro source
  have hfirst : root.firstFault? = (root.places.map (·.node)).find? Node.isFault := by
    have htop : ∀ p ∈ [Place.top root], p ∈ root.places := fun p hp =>
      List.mem_singleton.mp hp ▸ mem_below_self (Place.top root)
    have hsteps : ([Place.top root].flatMap below).length ≤ root.places.length := by
      rw [List.flatMap_singleton]
      exact Nat.le_refl _
    have hsearch := h.searchFault?_eq_find? htop hsteps
    rwa [List.flatMap_singleton] at hsearch
  have hnone : root.firstFault? = none ↔ ∀ p ∈ root.places, p.node.isFault = false := by
    simp [hfirst]
  have herror : ∀ bad, root.firstFault? = some bad →
      SourceUnit.parse parser path text = .error (SourceUnit.fault path source bad) := by
    intro bad hbad
    simp only [SourceUnit.parse, hparser, hbad, source]
  refine ⟨hfirst, hnone, ⟨fun hok => hnone.mp ?_, fun hclean => ?_⟩, ?_⟩
  · cases hbad : root.firstFault? with
    | none => rfl
    | some bad => cases hok.symm.trans (herror bad hbad)
  · simp only [SourceUnit.parse, hparser, hnone.mpr hclean, source]
  · intro before p after hplaces hfault hbefore
    have hfound : root.firstFault? = some p.node := by
      rw [hfirst, hplaces, List.map_append, List.find?_append, List.map_cons,
        List.find?_cons_of_pos hfault, List.find?_eq_none.mpr (by simpa using hbefore),
        Option.none_or]
    exact ⟨hfound, herror p.node hfound⟩

/-- A tree with an error inside of a block that follows a block without errors, and a token that was
supplied after it. -/
def Sample.broken : Node :=
  .mk ⟨0, "program", true, false, true, ⟨0, 4⟩, none⟩
    [.mk ⟨1, "block", true, false, false, ⟨0, 1⟩, none⟩
        [.mk ⟨2, ";", false, false, false, ⟨0, 1⟩, none⟩ []],
      .mk ⟨3, "block", true, false, true, ⟨1, 4⟩, none⟩
        [.mk ⟨4, ";", false, false, false, ⟨1, 2⟩, none⟩ [],
          .mk ⟨5, "ERROR", true, false, true, ⟨2, 4⟩, none⟩ [],
          .mk ⟨6, ";", false, true, true, ⟨4, 4⟩, none⟩ []]]

theorem parse_eq_first_fault_broken :
    Sample.broken.Marked ∧ ∃ bad : Node, bad.number = 5
      ∧ Sample.broken.firstFault? = some bad
      ∧ SourceUnit.parse (fun _ => some Sample.broken) "A.java" ";;+;"
        = .error (SourceUnit.fault "A.java"
          (Text.normalizeLines (Text.dropByteOrderMark ";;+;")) bad) := by
  have hmarked : Sample.broken.Marked := by
    unfold Node.Marked
    decide
  obtain ⟨before, p, after, hplaces, hnumber, hfault, hbefore⟩ :
      ∃ before p after, Sample.broken.places = before ++ p :: after ∧ p.number = 5
        ∧ p.node.isFault = true ∧ ∀ q ∈ before, q.node.isFault = false :=
    ⟨Sample.broken.places.take 5, _, _, rfl, rfl, rfl, by decide⟩
  obtain ⟨-, -, -, hearliest⟩ :=
    parse_eq_first_fault hmarked (fun _ => some Sample.broken) "A.java" ";;+;" rfl
  exact ⟨hmarked, p.node, hnumber, hearliest before p after hplaces hfault hbefore⟩

end Legible
