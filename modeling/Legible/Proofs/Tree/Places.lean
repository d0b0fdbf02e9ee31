import Legible.Tree.Place
import Mathlib.Data.List.Flatten
import Mathlib.Data.List.Nodup
import Mathlib.Data.List.Perm.Subperm

/-!
# The places below a place

`Place.below` is the subtree at a place as a list of places. It unfolds along the children
(`below_eq_cons`), it is contained in every subtree that holds the place (`below_subset`), and its
numbers are what a traversal of the subtree may touch: different children have different numbers
when no number of the tree occurs twice.
-/

namespace Legible

variable {ns : List Node} {root : Node} {p q : Place}

/-- Trees by induction: a property that a node has when its children have it. -/
theorem Node.induction {motive : Node → Prop}
    (mk : ∀ label children, (∀ n ∈ children, motive n) → motive (.mk label children)) :
    ∀ n, motive n
  | .mk label children => mk label children fun n _ => Node.induction mk n

theorem Node.placesIn_eq_flatMap (above : List Node) (ns : List Node) :
    Node.placesIn above ns = ns.flatMap (Node.placesBelow above) := by
  induction ns with
  | nil => rfl
  | cons n ns ih => rw [Node.placesIn, ih, List.flatMap_cons]

namespace Place

variable {p q : Place} {role : String}

def below (p : Place) : List Place := p.node.placesBelow p.above

def numbers (p : Place) : List Nat := p.below.map number

theorem below_eq_cons (p : Place) : p.below = p :: p.children.flatMap below := by
  obtain ⟨⟨label, children⟩, above⟩ := p
  rw [below, Node.placesBelow, Node.placesIn_eq_flatMap, Place.children, List.flatMap_map]
  rfl

theorem numbers_eq_cons (p : Place) : p.numbers = p.number :: p.children.flatMap numbers := by
  rw [numbers, below_eq_cons, List.map_cons, List.map_flatMap]
  rfl

theorem mem_below_self (p : Place) : p ∈ p.below := by
  rw [below_eq_cons]
  exact List.mem_cons_self ..

theorem mem_below_of_mem_children (h : q ∈ p.children) : q ∈ p.below := by
  rw [below_eq_cons]
  exact List.mem_cons_of_mem _ (List.mem_flatMap.mpr ⟨q, h, q.mem_below_self⟩)

/-- What a place has and its children take from it, everything below it has. -/
theorem below_induction {motive : Place → Prop} (self : motive p)
    (child : ∀ r ∈ p.below, ∀ q ∈ r.children, motive r → motive q) : ∀ q ∈ p.below, motive q := by
  obtain ⟨n, above⟩ := p
  induction n using Node.induction generalizing above with
  | mk label children ih =>
    intro q hq
    rw [below_eq_cons, List.mem_cons, List.mem_flatMap] at hq
    rcases hq with rfl | ⟨r, hr, hq⟩
    · exact self
    · have hbelow : ∀ s ∈ r.below, s ∈ below ⟨.mk label children, above⟩ := by
        intro s hs
        rw [below_eq_cons]
        exact List.mem_cons_of_mem _ (List.mem_flatMap.mpr ⟨r, hr, hs⟩)
      have hmotive := child _ (mem_below_self _) r hr self
      obtain ⟨m, hm, rfl⟩ := List.mem_map.mp hr
      exact ih m hm _ hmotive (fun s hs => child s (hbelow s hs)) q hq

theorem below_subset (h : q ∈ p.below) : q.below ⊆ p.below := by
  refine below_induction (motive := fun q => q.below ⊆ p.below) (List.Subset.refl _)
    (fun r _ q hq ih s hs => ih ?_) q h
  rw [below_eq_cons]
  exact List.mem_cons_of_mem _ (List.mem_flatMap.mpr ⟨q, hq, hs⟩)

theorem mem_places_of_mem_children (hp : p ∈ root.places) (hq : q ∈ p.children) : q ∈ root.places :=
  below_subset (p := Place.top root) hp (mem_below_of_mem_children hq)

theorem eq_or_mem_children_of_mem_below (h : q ∈ p.below) : q = p ∨ ∃ r ∈ p.below, q ∈ r.children :=
  below_induction (motive := fun q => q = p ∨ ∃ r ∈ p.below, q ∈ r.children) (.inl rfl)
    (fun r hr _ hq _ => .inr ⟨r, hr, hq⟩) q h

theorem mem_places_of_parent? (hp : p ∈ root.places) (hq : p.parent? = some q) :
    q ∈ root.places ∧ p ∈ q.children := by
  rcases eq_or_mem_children_of_mem_below (p := Place.top root) hp with rfl | ⟨r, hr, hmem⟩
  · cases hq
  · have hparent : p.parent? = some r := by
      obtain ⟨n, _, rfl⟩ := List.mem_map.mp hmem
      rfl
    cases hparent.symm.trans hq
    exact ⟨hr, hmem⟩

theorem numbers_sublist (h : q ∈ p.below) : q.numbers.Sublist p.numbers := by
  refine below_induction (motive := fun q => q.numbers.Sublist p.numbers) (List.Sublist.refl _)
    (fun r _ q hq ih => List.Sublist.trans ?_ ih) q h
  rw [numbers_eq_cons r]
  exact (List.sublist_flatten_of_mem (List.mem_map.mpr ⟨q, hq, rfl⟩)).cons _

/-! ## Children -/

theorem mem_children_of_child? (h : p.child? role = some q) : q ∈ p.children :=
  List.mem_of_find?_eq_some h

theorem role_of_child? (h : p.child? role = some q) : q.role = some role := by
  simpa using List.find?_some h

theorem mem_children_of_mem_namedChildren (h : q ∈ p.namedChildren) : q ∈ p.children :=
  List.mem_of_mem_filter h

theorem mem_namedChildren_of_firstNamed? {kind : String} (h : p.firstNamed? kind = some q) :
    q ∈ p.namedChildren :=
  List.mem_of_find?_eq_some h

theorem kind_of_firstNamed? {kind : String} (h : p.firstNamed? kind = some q) : q.kind = kind := by
  simpa using List.find?_some h

theorem parent?_of_mem_children (h : q ∈ p.children) : q.parent? = some p := by
  obtain ⟨n, _, rfl⟩ := List.mem_map.mp h
  rfl

theorem parentKind?_eq (p : Place) : p.parentKind? = p.parent?.map kind := by
  obtain ⟨n, _ | ⟨m, above⟩⟩ := p <;> rfl

theorem notMem_children_self (p : Place) : p ∉ p.children := by
  intro h
  obtain ⟨n, _, hself⟩ := List.mem_map.mp h
  have hlength := congrArg (·.above.length) hself
  simp at hlength

theorem same_self (p : Place) : p.same p = true := by simp [same]

theorem namedChildren_sublist (p : Place) : p.namedChildren.Sublist p.children :=
  List.filter_sublist

/-- The named children with a property, and children without it. -/
theorem filter_append_subperm {f : Place → Bool} {qs : List Place} (hqs : qs.Subperm p.children)
    (hf : ∀ q ∈ qs, f q = false) : (p.namedChildren.filter f ++ qs).Subperm p.children := by
  have hrest : qs.Subperm (p.children.filter (!f ·)) := by
    have hself : qs.filter (!f ·) = qs := List.filter_eq_self.mpr fun q hq => by simp [hf q hq]
    rw [← hself]
    exact hqs.filter _
  exact (List.Subperm.append (p.namedChildren_sublist.filter f).subperm hrest).trans
    (List.filter_append_perm f p.children).subperm

theorem isIn_eq_true_iff {ps : List Place} : p.isIn ps = true ↔ ∃ q ∈ ps, p.number = q.number := by
  simp [isIn, same]

end Place

/-! ## Heights -/

theorem Node.heights_map {f : Node → Node} (h : ∀ n ∈ ns, (f n).height = n.height) :
    heights (ns.map f) = heights ns := by
  induction ns with
  | nil => rfl
  | cons n ns ih =>
    rw [List.map_cons, heights, heights, h n (List.mem_cons_self ..),
      ih fun m hm => h m (List.mem_cons_of_mem _ hm)]

theorem Node.height_le_heights {n : Node} (h : n ∈ ns) : n.height ≤ Node.heights ns := by
  induction ns with
  | nil => cases h
  | cons m ns ih =>
    rw [Node.heights]
    rcases List.mem_cons.mp h with rfl | h
    · omega
    · have := ih h
      omega

theorem Node.height_pos (n : Node) : 0 < n.height := by
  obtain ⟨label, children⟩ := n
  rw [Node.height]
  omega

theorem Place.height_lt_of_mem_children (h : q ∈ p.children) : q.node.height < p.node.height := by
  obtain ⟨⟨label, children⟩, above⟩ := p
  obtain ⟨n, hn, rfl⟩ := List.mem_map.mp h
  rw [Node.height]
  exact Nat.lt_succ_of_le (Node.height_le_heights hn)

/-! ## Numbers of a tree -/

/-- The number identifies a place of a tree in which no number occurs twice. -/
theorem Node.eq_of_number_eq (hnodup : (root.places.map Place.number).Nodup) (hp : p ∈ root.places)
    (hq : q ∈ root.places) (h : p.number = q.number) : p = q :=
  List.inj_on_of_nodup_map hnodup hp hq h

end Legible
