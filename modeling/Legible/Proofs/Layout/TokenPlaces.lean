import Legible.Layout.Token
import Legible.Proofs.Tree.Places
import Mathlib.Algebra.GroupWithZero.Nat

/-!
# Where the tokens stand

The tokens of a tree stand at its topmost leaves and atomic nodes, in source order. `tokenPlaces`
says so without the walk, and `tokens_eq_map` reads the tokens off the places that span text: what
is written for the place, the nodes above it, and its indentation.
-/

namespace Legible

variable {p q : Place}

theorem Place.above_subset (h : q ∈ p.below) : p.above ⊆ q.above := by
  refine below_induction (motive := fun q => p.above ⊆ q.above) (List.Subset.refl _)
    (fun r _ q hq ih => ?_) q h
  obtain ⟨m, -, rfl⟩ := List.mem_map.mp hq
  exact fun a ha => List.mem_cons_of_mem _ (ih ha)

namespace Layout

/-- Whether a token stands at the place: it is one token, and nothing above it is. -/
def isTokenPlace (p : Place) : Bool := isToken p.node && p.above.all (!isToken ·)

def tokenPlaces (root : Node) : List Place := root.places.filter isTokenPlace

theorem tokensIn_eq_flatMap (write : Place → String) (above : List Node) (depth : Nat)
    (parent : Node) (ns : List Node) :
    tokensIn write above depth parent ns
      = ns.flatMap fun n => tokensBelow write (parent :: above) (depth + depthStep parent n) n := by
  induction ns with
  | nil => rfl
  | cons n ns ih => rw [tokensIn, ih, List.flatMap_cons]

/-- The token places of a subtree that no token holds. -/
theorem filter_below_eq (p : Place) (habove : ∀ n ∈ p.above, isToken n = false) :
    p.below.filter isTokenPlace
      = if isToken p.node then [p]
        else p.children.flatMap fun q => q.below.filter isTokenPlace := by
  have hall : (p.above.all fun n => !isToken n) = true := by
    rw [List.all_eq_true]
    exact fun n hn => by rw [habove n hn]; rfl
  rw [Place.below_eq_cons, List.filter_cons, List.filter_flatMap]
  cases htoken : isToken p.node with
  | false => simp [isTokenPlace, htoken]
  | true =>
    have hbelow : ∀ q ∈ p.children, q.below.filter isTokenPlace = [] := by
      intro q hq
      obtain ⟨n, _, rfl⟩ := List.mem_map.mp hq
      rw [List.filter_eq_nil_iff]
      intro r hr hplace
      have hmem : p.node ∈ r.above := Place.above_subset hr (List.mem_cons_self ..)
      simp only [isTokenPlace, Bool.and_eq_true, List.all_eq_true] at hplace
      have := hplace.2 p.node hmem
      rw [htoken] at this
      cases this
    have hnil : (p.children.flatMap fun q => q.below.filter isTokenPlace) = [] :=
      List.flatMap_eq_nil_iff.mpr hbelow
    simp [isTokenPlace, htoken, hall, hnil]

/-- The places that are written, in source order: token places that span text. -/
def writtenPlaces (root : Node) : List Place :=
  (tokenPlaces root).filter fun p => p.span.start < p.span.stop

theorem mem_places_of_mem_writtenPlaces {root : Node} {p : Place} (h : p ∈ writtenPlaces root) :
    p ∈ root.places :=
  List.mem_of_mem_filter (List.mem_of_mem_filter h)

/-- The indentation of a place: the steps along its path from the root, added up. -/
def indentation (p : Place) : Nat := (List.zipWith depthStep p.above (p.node :: p.above)).sum

theorem indentation_cons (n m : Node) (above : List Node) :
    indentation ⟨n, m :: above⟩ = indentation ⟨m, above⟩ + depthStep m n := by
  rw [indentation, List.zipWith_cons_cons, List.sum_cons, Nat.add_comm]
  rfl

theorem indentation_of_mem_children (h : q ∈ p.children) :
    indentation q = indentation p + depthStep p.node q.node := by
  obtain ⟨n, -, rfl⟩ := List.mem_map.mp h
  exact indentation_cons n p.node p.above

/-- The tokens of a subtree are those of its token places that span text, each with what is written
for it and the indentation of its place. -/
theorem tokensBelow_eq_map (write : Place → String) (n : Node) (above : List Node)
    (habove : ∀ m ∈ above, isToken m = false) :
    tokensBelow write above (indentation ⟨n, above⟩) n
      = (((Place.mk n above).below.filter isTokenPlace).filter fun p =>
          p.span.start < p.span.stop).map fun p => tokenAt p (write p) (indentation p) := by
  induction n using Node.induction generalizing above with
  | mk label children ih =>
    rw [filter_below_eq _ habove]
    rw [tokensBelow]
    cases htoken : isToken (.mk label children) with
    | true =>
      by_cases hspan : (Node.mk label children).span.start < (Node.mk label children).span.stop
      · simp [hspan, Place.span]
      · simp [hspan, Place.span]
    | false =>
      have habove' : ∀ m ∈ Node.mk label children :: above, isToken m = false := by
        simpa [htoken] using habove
      have hdepth : ∀ m ∈ children,
          indentation ⟨.mk label children, above⟩ + depthStep (.mk label children) m
            = indentation ⟨m, .mk label children :: above⟩ := fun m hm =>
        (indentation_of_mem_children (p := ⟨.mk label children, above⟩)
          (List.mem_map.mpr ⟨m, hm, rfl⟩)).symm
      simp only [tokensIn_eq_flatMap, List.filter_flatMap, Place.children, List.flatMap_map,
        List.map_flatMap, Node.children, if_false, Bool.false_eq_true]
      exact List.flatMap_congr fun m hm => by rw [hdepth m hm, ih m hm _ habove']

/-- The tokens of a unit are those of its written places. -/
theorem tokens_eq_map (u : SourceUnit) (t : Symbols) (d : Dictionary) :
    tokens u t d
      = (writtenPlaces u.root).map fun p => tokenAt p (writtenText u t d p) (indentation p) :=
  tokensBelow_eq_map (writtenText u t d) u.root [] (by simp)

theorem map_text_tokens (u : SourceUnit) (t : Symbols) (d : Dictionary) :
    (tokens u t d).map Token.text = (writtenPlaces u.root).map (writtenText u t d) := by
  rw [tokens_eq_map, List.map_map]
  rfl

end Layout

end Legible
