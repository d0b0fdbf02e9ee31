import Legible.Proofs.Grammar.Tidy
import Legible.Proofs.Layout.Cursor

/-!
# The token stream

The tokens of a unit against its tree. A place is written just if it spans text, is a leaf or
atomic, and stands in nothing atomic (`isWritten`); the tokens are the written places one by one, in
the order of the tree, each with the nodes above it and its indentation (`Token.IsAt`). The walk of
a cursor through the tree ends with the same tokens (`tokens_mem_loop`).

Indentation never shrinks on the way down (`indentation_le_of_mem_below`), and the one step that a
body adds is not added for its braces. So the braces of a body stand at one level, and everything
between them deeper (`tokens_complete_nested`).
-/

namespace Legible

open Layout

variable {p : Place}

/-- The token is the one of the place: it has the node, the nodes above it and the indentation. -/
structure Token.IsAt (t : Token) (p : Place) : Prop where
  label : t.label = p.node.label
  parent : t.parent = p.parent?.map (·.node.label)
  grandparent : t.grandparent = (p.parent?.bind Place.parent?).map (·.node.label)
  depth : t.depth = indentation p

theorem Token.isAt_tokenAt (p : Place) (text : String) :
    (tokenAt p text (indentation p)).IsAt p := by
  obtain ⟨n, _ | ⟨m, _ | ⟨m', above⟩⟩⟩ := p <;> exact ⟨rfl, rfl, rfl, rfl⟩

theorem Place.isLeaf_of_mem_above {root : Node} (hp : p ∈ root.places) :
    ∀ n ∈ p.above, n.isLeaf = false := by
  obtain ⟨n, above⟩ := p
  induction above generalizing n with
  | nil => exact fun n hn => absurd hn List.not_mem_nil
  | cons m above ih =>
    obtain ⟨hparent, hchild⟩ := mem_places_of_parent? hp (q := ⟨m, above⟩) rfl
    intro k hk
    rcases List.mem_cons.mp hk with rfl | hk
    · obtain ⟨n', hn', -⟩ := List.mem_map.mp hchild
      rw [Node.isLeaf, List.isEmpty_eq_false_iff]
      exact List.ne_nil_of_mem hn'
    · exact ih m hparent k hk

namespace Layout

variable {q : Place}

def isAtomic (n : Node) : Bool := atomicKinds.contains n.kind

/-- Whether the place is written: it spans text, is a leaf or atomic, and nothing atomic is above
it. -/
def isWritten (p : Place) : Bool :=
  p.span.start < p.span.stop && (p.node.isLeaf || isAtomic p.node) && p.above.all (!isAtomic ·)

def isBrace (n : Node) : Bool := n.kind == "\x7b" || n.kind == "\x7d"

theorem writtenPlaces_eq_filter (root : Node) : writtenPlaces root = root.places.filter isWritten := by
  rw [writtenPlaces, tokenPlaces, List.filter_filter]
  refine List.filter_congr fun p hp => ?_
  have habove : p.above.all (!isToken ·) = p.above.all (!isAtomic ·) := by
    rw [Bool.eq_iff_iff, List.all_eq_true, List.all_eq_true]
    refine forall₂_congr fun n hn => ?_
    rw [isToken, Place.isLeaf_of_mem_above hp n hn, Bool.false_or, isAtomic]
  rw [isTokenPlace, habove, isWritten, ← Bool.and_assoc]
  rfl

/-! ## Indentation -/

theorem indentation_le_of_mem_below (h : q ∈ p.below) : indentation p ≤ indentation q := by
  refine Place.below_induction (motive := fun q => indentation p ≤ indentation q) (Nat.le_refl _)
    (fun r _ q hq ih => ?_) q h
  have hstep := indentation_of_mem_children hq
  omega

/-- A body indents what stands in it, its braces apart. -/
theorem indentation_in_body {body child : Place} (hbody : bodyKinds.contains body.kind = true)
    (hchild : child ∈ body.children) :
    indentation child = indentation body + if isBrace child.node then 0 else 1 := by
  have hgroup : (body.node.kind == "switch_block_statement_group") = false := by
    rw [beq_eq_false_iff_ne]
    intro hkind
    rw [Place.kind, hkind] at hbody
    revert hbody
    decide
  have hmem : bodyKinds.contains body.node.kind = true := hbody
  rw [indentation_of_mem_children hchild, depthStep, hmem, hgroup, isBrace]
  cases hopens : child.node.kind == "\x7b" <;> cases hcloses : child.node.kind == "\x7d" <;>
    simp [bne, hopens, hcloses]

/-- A leaf has nothing below it but itself. -/
theorem eq_of_mem_below_of_isLeaf (hleaf : p.node.isLeaf = true) (h : q ∈ p.below) : q = p := by
  rw [Node.isLeaf, List.isEmpty_iff] at hleaf
  rw [Place.below_eq_cons, Place.children, hleaf] at h
  simpa using h

end Layout

/-- The walk through the tree of a unit ends, and with the tokens of the unit. These are its written
places, each once and in the order of the tree, with their parents, grandparents and indentation.
The tokens of the braces of a body have the indentation of the body, and all the other tokens of the
body are deeper; a brace without parts is one token. -/
theorem tokens_complete_nested (u : SourceUnit) (t : Symbols) (d : Dictionary) :
    tokens u t d ∈ loop (Walk.step (writtenText u t d)) (Walk.start u.root)
      ∧ List.Forall₂ Token.IsAt (tokens u t d) (u.root.places.filter isWritten)
      ∧ ∀ body ∈ u.root.places, bodyKinds.contains body.kind = true →
        ∀ s p, (s, p) ∈ (tokens u t d).zip (u.root.places.filter isWritten) →
          ∀ child ∈ body.children, p ∈ child.below →
            if isBrace child.node then
              (p = child → s.depth = indentation body) ∧ (child.node.isLeaf = true → p = child)
            else indentation body + 1 ≤ s.depth := by
  have hat : List.Forall₂ Token.IsAt (tokens u t d) (u.root.places.filter isWritten) := by
    rw [tokens_eq_map, ← writtenPlaces_eq_filter, List.forall₂_map_left_iff]
    exact List.forall₂_same.mpr fun p _ => Token.isAt_tokenAt p _
  refine ⟨tokens_mem_loop u t d, hat, fun body _ hbody s p hzip child hchild hp => ?_⟩
  have hdepth : s.depth = indentation p := ((List.forall₂_iff_zip.mp hat).2 hzip).depth
  have hstep := indentation_in_body hbody hchild
  split
  · next hbrace =>
      rw [if_pos hbrace, Nat.add_zero] at hstep
      exact ⟨fun hself => by rw [hdepth, hself, hstep],
        fun hleaf => eq_of_mem_below_of_isLeaf hleaf hp⟩
  · next hbrace =>
      rw [if_neg hbrace] at hstep
      have := indentation_le_of_mem_below hp
      omega

/-- A switch with a call in its only group; the argument of the call is a literal with parts. -/
def Sample.switched : SourceUnit where
  path := "A.java"
  source := "class A\x7bvoid f()\x7bswitch(x)\x7bcase 1:g(\"a\");\x7d\x7d\x7d"
  root := open Sample in
    node 0 "program" 0 44 none [
     node 1 "class_declaration" 0 44 none [mark 2 "class" 0 5, name 3 6 7 "name",
      node 4 "class_body" 7 44 (some "body") [mark 5 "\x7b" 7 8,
       node 6 "method_declaration" 8 43 none [node 7 "void_type" 8 12 (some "type") [],
        name 8 13 14 "name",
        node 9 "formal_parameters" 14 16 (some "parameters") [mark 10 "(" 14 15, mark 11 ")" 15 16],
        node 12 "block" 16 43 (some "body") [mark 13 "\x7b" 16 17,
         node 14 "switch_expression" 17 42 none [mark 15 "switch" 17 23,
          node 16 "parenthesized_expression" 23 26 (some "condition") [mark 17 "(" 23 24,
           node 18 "identifier" 24 25 none [], mark 19 ")" 25 26],
          node 20 "switch_block" 26 42 (some "body") [mark 21 "\x7b" 26 27,
           node 22 "switch_block_statement_group" 27 41 none [
            node 23 "switch_label" 27 33 none [mark 24 "case" 27 31,
             node 25 "decimal_integer_literal" 32 33 none []], mark 26 ":" 33 34,
            node 27 "expression_statement" 34 41 none [
             node 28 "method_invocation" 34 40 none [name 29 34 35 "name",
              node 30 "argument_list" 35 40 (some "arguments") [mark 31 "(" 35 36,
               node 32 "string_literal" 36 39 none [mark 33 "\"" 36 37,
                node 34 "string_fragment" 37 38 none [], mark 35 "\"" 38 39], mark 36 ")" 39 40]],
             mark 37 ";" 40 41]], mark 38 "\x7d" 41 42]], mark 39 "\x7d" 42 43]],
       mark 40 "\x7d" 43 44]]]

/-- The literal is one token. The block of the method is indented by one, and what stands in its
statement deeper. -/
theorem tokens_complete_nested_switched :
    let u := Sample.switched
    let ts := tokens u {} .empty
    let block := u.root.places.get ⟨12, by decide⟩
    let statement := block.children.get ⟨1, by decide⟩
    ts ∈ loop (Walk.step (writtenText u {} .empty)) (Walk.start u.root)
      ∧ List.Forall₂ Token.IsAt ts (u.root.places.filter isWritten)
      ∧ (ts.drop 15).map (fun t => (t.text, t.depth)) = [(":", 3), ("g", 4), ("(", 4),
        ("\"a\"", 4), (")", 4), (";", 4), ("\x7d", 2), ("\x7d", 1), ("\x7d", 0)]
      ∧ indentation block = 1
      ∧ ∀ s p, (s, p) ∈ ts.zip (u.root.places.filter isWritten) → p ∈ statement.below →
        2 ≤ s.depth := by
  intro u ts block statement
  obtain ⟨hends, hat, hnested⟩ := tokens_complete_nested u {} .empty
  have hblock : indentation block = 1 := by decide +kernel
  refine ⟨hends, hat, by decide +kernel, hblock, fun s p hzip hp => ?_⟩
  have hdeeper := hnested block (List.get_mem _ _) (by decide +kernel) s p hzip statement
    (List.get_mem _ _) hp
  rwa [if_neg (by decide +kernel), hblock] at hdeeper

end Legible
