import Legible.Proofs.Tree.Redrawing

/-!
# Trees without comments

Comments are named nodes, and stand among the children of any node. Some rules count the named
children of a node, take the first of them, or join the tokens below it, and there a comment does
count. `Place.heedsComments` says of a place that its comments may be read in this way. `Node.bare`
is the tree without the comments at all other places, and a redrawing of it (`redrawing_bare`).

A unit of comments only has nothing left of it (`SourceUnit.uncommented`). When no comment stands
where it may be read (`SourceUnit.commentsAside`), what is left is the unit without any comments
(`withoutComments_eq_uncommented`).
-/

namespace Legible

open Place

variable {p : Place} {ns above : List Node} {n : Node}

/-! ## Where comments are read -/

namespace Place

/-- Whether the node `n` below the nodes `above` is in a text that may be asked for. -/
def quotedBelow : (above : List Node) → (n : Node) → Bool
  | [], n => startsQuote ⟨n, []⟩
  | m :: above, n =>
    startsQuote ⟨n, m :: above⟩ || (quotedBelow above m && !outsideTypeText m.kind)

def isQuoted (p : Place) : Bool := quotedBelow p.above p.node

theorem isQuoted_of_startsQuote (h : p.startsQuote = true) : p.isQuoted = true := by
  obtain ⟨n, _ | ⟨m, above⟩⟩ := p
  · exact h
  · rw [isQuoted, quotedBelow, h, Bool.true_or]

/-- Whether the comments among the children of the place may be read. A place with nothing but
comments is not left bare. -/
def heedsComments (p : Place) : Bool :=
  p.countsComments || (p.isQuoted && !outsideTypeText p.kind)
    || (p.findsFirst && p.namedChildren.head?.any isRemark)
    || (p.isParameter && (p.child? "type").isNone && (p.namedChildren.find? isTypePart).any isRemark)
    || p.children.all isRemark

end Place

/-! ## Bare trees -/

mutual

/-- The tree below the nodes `above` without the comments that are not read. -/
def Node.bare (above : List Node) : Node → Node
  | n@(.mk label children) =>
    .mk label (Node.bareIn (n :: above) (heedsComments ⟨n, above⟩) children)

/-- The trees, with or without the comments among them. -/
def Node.bareIn (above : List Node) (keep : Bool) : List Node → List Node
  | [] => []
  | n :: ns =>
    if keep || !n.isRemark then n.bare above :: Node.bareIn above keep ns
    else Node.bareIn above keep ns

end

namespace Node

theorem bareIn_eq (above : List Node) (keep : Bool) (ns : List Node) :
    Node.bareIn above keep ns = (ns.filter (keep || !·.isRemark)).map (Node.bare above) := by
  induction ns with
  | nil => rfl
  | cons n ns ih =>
    rw [Node.bareIn, ih, List.filter_cons]
    split <;> rfl

theorem bare_eq (above : List Node) (n : Node) :
    n.bare above = .mk n.label
      ((n.children.filter (heedsComments ⟨n, above⟩ || !·.isRemark)).map (Node.bare (n :: above))) := by
  obtain ⟨label, children⟩ := n
  rw [bare, bareIn_eq]
  rfl

theorem label_bare (above : List Node) (n : Node) : (n.bare above).label = n.label := by
  rw [bare_eq]
  rfl

theorem heights_le {k : Nat} (h : ∀ n ∈ ns, n.height ≤ k) : heights ns ≤ k := by
  induction ns with
  | nil => exact Nat.zero_le k
  | cons n ns ih =>
    have hn := h n (List.mem_cons_self ..)
    have hns := ih fun m hm => h m (List.mem_cons_of_mem _ hm)
    rw [heights]
    omega

theorem heights_filter (h : ns.all isRemark = false) :
    heights (ns.filter (!·.isRemark)) = heights ns := by
  refine Nat.le_antisymm (heights_le fun n hn => height_le_heights (List.mem_of_mem_filter hn))
    (heights_le fun n hn => ?_)
  obtain ⟨m, hm, hremark⟩ := List.all_eq_false.mp h
  have hbeside : m.height ≤ heights (ns.filter (!·.isRemark)) :=
    height_le_heights (List.mem_filter.mpr ⟨hm, by simpa using hremark⟩)
  cases hn' : n.isRemark with
  | false => exact height_le_heights (List.mem_filter.mpr ⟨hn, by simp [hn']⟩)
  | true =>
    have hleaf : n.height = 1 := by
      simp only [isRemark, Bool.and_eq_true, isLeaf_eq_height, beq_iff_eq] at hn'
      exact hn'.2
    have hpos := m.height_pos
    omega

theorem height_bare (above : List Node) (n : Node) : (n.bare above).height = n.height := by
  induction n using Node.induction generalizing above with
  | mk label children ih =>
    rw [bare, bareIn_eq, height, height, heights_map fun m hm => ih m (List.mem_of_mem_filter hm) _]
    cases hkeep : heedsComments ⟨.mk label children, above⟩ with
    | true => simp only [Bool.true_or, List.filter_true]
    | false =>
      have hall : children.all isRemark = false := by
        simp only [heedsComments, Bool.or_eq_false_iff] at hkeep
        have hchildren := hkeep.2
        rwa [Place.children, List.all_map] at hchildren
      simp only [Bool.false_or, heights_filter hall]

end Node

namespace Place

def bareAbove : List Node → List Node
  | [] => []
  | m :: above => m.bare above :: bareAbove above

def bare (p : Place) : Place := ⟨p.node.bare p.above, bareAbove p.above⟩

def bareChildren (p : Place) : List Place := p.children.filter (p.heedsComments || !·.isRemark)

theorem children_bare (p : Place) : p.bare.children = p.bareChildren.map bare := by
  obtain ⟨n, above⟩ := p
  have hchildren := congrArg Node.children (Node.bare_eq above n)
  rw [bareChildren, children, children, List.filter_map, List.map_map]
  show (n.bare above).children.map _ = _
  rw [hchildren, Node.children, List.map_map]
  rfl

end Place

theorem find?_filter_of_any {α : Type} {f g : α → Bool} {l : List α}
    (h : (l.find? f).any (!g ·) = false) : (l.filter g).find? f = l.find? f := by
  induction l with
  | nil => rfl
  | cons a l ih =>
    rw [List.find?_cons] at h ⊢
    cases hf : f a with
    | true =>
      rw [hf] at h
      have hg : g a = true := by simpa using h
      rw [List.filter_cons_of_pos hg, List.find?_cons, hf]
    | false =>
      rw [hf] at h
      rw [List.filter_cons]
      split
      · rw [List.find?_cons, hf]
        exact ih h
      · exact ih h

/-- Leaving comments out where they are not read draws the tree anew. -/
theorem redrawing_bare : Redrawing Place.bare bareChildren where
  number p := congrArg Label.number (Node.label_bare p.above p.node)
  kind p := congrArg Label.kind (Node.label_bare p.above p.node)
  role p := congrArg Label.role (Node.label_bare p.above p.node)
  named p := congrArg Label.named (Node.label_bare p.above p.node)
  height p := Node.height_bare p.above p.node
  parent? := by rintro ⟨n, _ | ⟨m, above⟩⟩ <;> rfl
  children := children_bare
  kept_subset p _ hq := List.mem_of_mem_filter hq
  remarks p := by
    rw [bareChildren, List.filter_filter]
    refine List.filter_congr fun q _ => ?_
    cases q.isRemark <;> simp
  counted p hp := by
    have hheeds : p.heedsComments = true := by simp only [heedsComments, hp, Bool.true_or]
    simp [bareChildren, hheeds]
  first p hp := by
    rw [Place.namedChildren, List.head?_filter, List.head?_filter]
    refine find?_filter_of_any ?_
    cases hheeds : p.heedsComments with
    | true => cases p.children.find? (·.node.named) <;> rfl
    | false =>
      simp only [heedsComments, Bool.or_eq_false_iff, hp, Bool.true_and] at hheeds
      have hhead := hheeds.1.1.2
      rw [Place.namedChildren, List.head?_filter] at hhead
      simpa using hhead
  typePart p hp htype := by
    have hcomm : p.bareChildren.filter (·.node.named)
        = p.namedChildren.filter (p.heedsComments || !·.isRemark) := by
      rw [bareChildren, Place.namedChildren, List.filter_filter, List.filter_filter]
      exact List.filter_congr fun q _ => Bool.and_comm _ _
    rw [hcomm]
    refine find?_filter_of_any ?_
    cases hheeds : p.heedsComments with
    | true => cases p.namedChildren.find? isTypePart <;> rfl
    | false =>
      simp only [heedsComments, Bool.or_eq_false_iff, hp, htype, Option.isNone_none,
        Bool.true_and] at hheeds
      simpa using hheeds.1.2

/-! ## Texts -/

/-- What is quoted keeps its comments. -/
theorem Node.bare_of_quotedBelow (h : quotedBelow above n = true)
    (hkind : outsideTypeText n.kind = false) :
    n.bare above = .mk n.label (n.children.map (Node.bare (n :: above))) := by
  have hquoted : isQuoted ⟨n, above⟩ = true := h
  have houtside : outsideTypeText (Place.kind ⟨n, above⟩) = false := hkind
  have hheeds : heedsComments ⟨n, above⟩ = true := by
    simp [heedsComments, hquoted, houtside]
  rw [bare_eq, hheeds]
  simp

theorem Node.quotedBelow_child {m : Node} (h : quotedBelow above n = true)
    (hkind : outsideTypeText n.kind = false) : quotedBelow (n :: above) m = true := by
  rw [quotedBelow, h, hkind]
  simp

theorem Node.typeTokens_bare (source : String) (h : quotedBelow above n = true) :
    (n.bare above).typeTokens source = n.typeTokens source := by
  induction n using Node.induction generalizing above with
  | mk label children ih =>
    cases hkind : outsideTypeText label.kind with
    | true =>
      rw [bare, typeTokens, typeTokens, hkind]
      rfl
    | false =>
      have hchildren := typeTokensIn_map fun m hm => ih m hm (quotedBelow_child h hkind)
      rw [bare_of_quotedBelow h hkind, typeTokens, typeTokens]
      simp only [Node.label, Node.children, List.isEmpty_map, hchildren]

theorem Node.typeText_bare (source : String) (h : quotedBelow above n = true) :
    (n.bare above).typeText source = n.typeText source := by
  induction n using Node.induction generalizing above with
  | mk label children ih =>
    by_cases hcatch : (label.kind == "catch_type") = true
    · have hkind : outsideTypeText label.kind = false := by
        rw [beq_iff_eq.mp hcatch]
        decide
      have hchildren := firstTypeText_map (fun m => congrArg Label.named (label_bare _ m))
        fun m hm => ih m hm (quotedBelow_child h hkind)
      rw [bare_of_quotedBelow h hkind, typeText, typeText]
      simp only [Node.label, Node.children, hcatch, if_true, hchildren]
    · have htokens := typeTokens_bare source h
      rw [bare_eq] at htokens ⊢
      rw [typeText, typeText]
      simp only [Node.label, hcatch, Bool.false_eq_true, if_false]
      exact htokens

namespace SourceUnit

def bare (u : SourceUnit) : SourceUnit := { u with root := u.root.bare [] }

variable (u : SourceUnit) (p : Place)

theorem text_bare : u.bare.text p.bare = u.text p :=
  congrArg (fun label : Label => Text.slice u.source label.span) (Node.label_bare p.above p.node)

theorem typeText_bare {p : Place} (h : p.isQuoted = true) : u.bare.typeText p.bare = u.typeText p :=
  Node.typeText_bare u.source h

end SourceUnit

/-! ## Trees without comments at all -/

mutual

def Node.withoutComments : Node → Node
  | .mk label children => .mk label (Node.withoutCommentsIn children)

def Node.withoutCommentsIn : List Node → List Node
  | [] => []
  | n :: ns =>
    if isCommentKind n.kind then Node.withoutCommentsIn ns
    else n.withoutComments :: Node.withoutCommentsIn ns

end

/-- The comments among the children of a place are what the grammar makes them, and not read. -/
def Place.commentsAside (p : Place) : Bool :=
  p.children.all fun q => !isCommentKind q.kind || (q.isRemark && !p.heedsComments)

namespace SourceUnit

def withoutComments (u : SourceUnit) : SourceUnit := { u with root := u.root.withoutComments }

def isRemark (u : SourceUnit) : Bool := u.top.children.all Place.isRemark

def uncommented (u : SourceUnit) : SourceUnit :=
  if u.isRemark then { u with root := .mk u.root.label [] } else u.bare

/-- No comment stands where it may be read. -/
def commentsAside (u : SourceUnit) : Bool :=
  u.isRemark || u.root.places.all Place.commentsAside

end SourceUnit

theorem Node.withoutCommentsIn_eq (ns : List Node) : withoutCommentsIn ns
    = (ns.filter (!isCommentKind ·.kind)).map withoutComments := by
  induction ns with
  | nil => rfl
  | cons n ns ih =>
    rw [withoutCommentsIn, ih, List.filter_cons]
    cases isCommentKind n.kind <;> rfl

theorem Node.withoutComments_eq_bare (h : ∀ p ∈ Place.below ⟨n, above⟩, p.commentsAside = true) :
    n.withoutComments = n.bare above := by
  induction n using Node.induction generalizing above with
  | mk label children ih =>
    have hself := h _ (mem_below_self _)
    have hplace : ∀ m ∈ children, (⟨m, .mk label children :: above⟩ : Place)
        ∈ Place.children ⟨.mk label children, above⟩ := fun m hm => List.mem_map.mpr ⟨m, hm, rfl⟩
    have hleft : ∀ m ∈ children, (!isCommentKind m.kind)
        = (heedsComments ⟨.mk label children, above⟩ || !m.isRemark) := by
      intro m hm
      have haside := List.all_eq_true.mp hself _ (hplace m hm)
      cases hkind : isCommentKind m.kind with
      | true =>
        have hkind' : isCommentKind (Place.kind ⟨m, .mk label children :: above⟩) = true := hkind
        simp only [hkind', Bool.not_true, Bool.false_or, Bool.and_eq_true,
          Bool.not_eq_true'] at haside
        have hremark : m.isRemark = true := haside.1
        rw [haside.2, hremark]
        rfl
      | false => simp [Node.isRemark, hkind]
    rw [withoutComments, bare, withoutCommentsIn_eq, bareIn_eq, List.filter_congr hleft]
    refine congrArg (Node.mk label) (List.map_congr_left fun m hm => ?_)
    have hm := List.mem_of_mem_filter hm
    exact ih m hm fun p hp => h p (below_subset (mem_below_of_mem_children (hplace m hm)) hp)

theorem Node.withoutCommentsIn_of_isRemark (h : ns.all isRemark = true) :
    withoutCommentsIn ns = [] := by
  rw [withoutCommentsIn_eq, List.map_eq_nil_iff, List.filter_eq_nil_iff]
  intro n hn
  have hremark := List.all_eq_true.mp h n hn
  simp only [isRemark, Bool.and_eq_true] at hremark
  simp [hremark.1.1]

theorem SourceUnit.withoutComments_eq_uncommented {u : SourceUnit} (h : u.commentsAside = true) :
    u.withoutComments = u.uncommented := by
  cases hremark : u.isRemark with
  | true =>
    have hchildren : u.root.children.all Node.isRemark = true := by
      rwa [isRemark, Place.children, List.all_map] at hremark
    have hroot : u.root.withoutComments = .mk u.root.label [] := by
      obtain ⟨path, source, ⟨label, children⟩⟩ := u
      exact congrArg (Node.mk label) (Node.withoutCommentsIn_of_isRemark hchildren)
    rw [withoutComments, hroot, uncommented, if_pos hremark]
  | false =>
    rw [commentsAside, hremark, Bool.false_or] at h
    have hroot := Node.withoutComments_eq_bare (List.all_eq_true.mp h)
    rw [withoutComments, hroot, uncommented, if_neg (by simp [hremark]), bare]

end Legible
