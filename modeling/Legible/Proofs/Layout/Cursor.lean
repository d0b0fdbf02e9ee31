import Legible.Proofs.Layout.TokenPlaces
import Legible.Proofs.Loop

/-!
# Tokens by a cursor

The tokens of a tree can be had without recursion: a cursor goes through the tree, down to the first
child, on to the next sibling and up to the parent, and the nodes above it are kept on a stack, with
their indentation on a second one. `Walk.step` is one turn of that loop.

Both stacks are in step with the cursor from turn to turn: every turn leads from a state `Walk.on`,
whose stacks are those of the cursor's place, to another one. So a turn that goes down into a
subtree comes back to its root with the tokens of the subtree (`Walk.passes`), and the loop ends
with the tokens of the tree (`tokens_mem_loop`).
-/

namespace Legible

/-- A node of a tree with the siblings after it, and each node above it, from the parent up, with
the siblings after that. -/
structure Cursor where
  node : Node
  later : List Node
  above : List (Node × List Node)

namespace Cursor

def firstChild? (c : Cursor) : Option Cursor :=
  match c.node.children with
  | [] => none
  | n :: ns => some ⟨n, ns, (c.node, c.later) :: c.above⟩

def nextSibling? (c : Cursor) : Option Cursor :=
  match c.later with
  | [] => none
  | n :: ns => some ⟨n, ns, c.above⟩

def parent? (c : Cursor) : Option Cursor :=
  match c.above with
  | [] => none
  | (n, ns) :: above => some ⟨n, ns, above⟩

def place (c : Cursor) : Place := ⟨c.node, c.above.map Prod.fst⟩

end Cursor

namespace Layout

structure Walk where
  cursor : Cursor
  /-- The nodes above the cursor, from the parent up. -/
  ancestors : List Node
  /-- The indentation of each of them. -/
  depths : List Nat
  /-- The node of the cursor is met on the way down. -/
  descend : Bool
  out : List Token

namespace Walk

def start (root : Node) : Walk :=
  { cursor := ⟨root, [], []⟩, ancestors := [], depths := [], descend := true, out := [] }

def depth (w : Walk) : Nat :=
  match w.ancestors, w.depths with
  | parent :: _, depth :: _ => depth + depthStep parent w.cursor.node
  | _, _ => 0

/-- A token that is met on the way down is written if it spans text, and nothing below it is met. -/
def note (write : Place → String) (w : Walk) : Walk :=
  let node := w.cursor.node
  let here : Place := ⟨node, w.ancestors⟩
  if w.descend && isToken node then
    { w with
      out :=
        if node.span.start < node.span.stop then w.out ++ [tokenAt here (write here) w.depth]
        else w.out
      descend := false }
  else w

/-- The cursor goes down, else on, else up; from the root it goes nowhere, and all is written. -/
def move (w : Walk) : List Token ⊕ Walk :=
  match if w.descend then w.cursor.firstChild? else none with
  | some cursor =>
    .inr { w with
      cursor, ancestors := w.cursor.node :: w.ancestors, depths := w.depth :: w.depths }
  | none =>
    match w.cursor.nextSibling? with
    | some cursor => .inr { w with cursor, descend := true }
    | none =>
      match w.cursor.parent? with
      | some cursor =>
        .inr { w with
          cursor, ancestors := w.ancestors.tail, depths := w.depths.tail, descend := false }
      | none => .inl w.out

def step (write : Place → String) (w : Walk) : List Token ⊕ Walk := (w.note write).move

def depthsOf : List Node → List Nat
  | [] => []
  | n :: above => indentation ⟨n, above⟩ :: depthsOf above

/-- The state with both stacks as the place of the cursor has them. -/
def on (cursor : Cursor) (descend : Bool) (out : List Token) : Walk :=
  { cursor, ancestors := cursor.place.above, depths := depthsOf cursor.place.above, descend, out }

variable {write : Place → String} {n m : Node} {ns ms later : List Node}
  {above : List (Node × List Node)} {c : Cursor} {out r : List Token}

theorem depth_on (c : Cursor) (descend : Bool) (out : List Token) :
    (on c descend out).depth = indentation c.place := by
  obtain ⟨n, later, _ | ⟨⟨m, ms⟩, above⟩⟩ := c
  · rfl
  · exact (indentation_cons n m (above.map Prod.fst)).symm

/-! ## The turns -/

theorem tokensBelow_of_isToken (h : isToken n = true) (path : List Node) (depth : Nat) :
    tokensBelow write path depth n
      = if n.span.start < n.span.stop then [tokenAt ⟨n, path⟩ (write ⟨n, path⟩) depth] else [] := by
  obtain ⟨label, children⟩ := n
  rw [tokensBelow, if_pos h]

/-- A token is left as if it had been met on the way up, when it is written. -/
theorem step_token (h : isToken c.node = true) :
    step write (on c true out)
      = step write (on c false
          (out ++ tokensBelow write c.place.above (indentation c.place) c.node)) := by
  have hmet : ((on c true out).descend && isToken (on c true out).cursor.node) = true := h
  have hnote : (on c true out).note write
      = on c false (out ++ tokensBelow write c.place.above (indentation c.place) c.node) := by
    rw [note, if_pos hmet, depth_on, tokensBelow_of_isToken h]
    by_cases hspan : c.node.span.start < c.node.span.stop
    · simp only [on, hspan, if_true]
    · simp only [on, hspan, if_false, List.append_nil]
  rw [step, hnote]
  rfl

/-- On the way down, from what is no token to the first child. -/
theorem step_down (h : isToken n = false) (hchildren : n.children = m :: ms) :
    step write (on ⟨n, later, above⟩ true out)
      = .inr (on ⟨m, ms, (n, later) :: above⟩ true out) := by
  have hfirst : (Cursor.mk n later above).firstChild? = some ⟨m, ms, (n, later) :: above⟩ := by
    rw [Cursor.firstChild?, hchildren]
  have hnote : (on ⟨n, later, above⟩ true out).note write = on ⟨n, later, above⟩ true out :=
    if_neg (by simp [on, h])
  rw [step, hnote, move, depth_on]
  simp only [on, hfirst, if_true]
  rfl

theorem step_next :
    step write (on ⟨n, m :: ms, above⟩ false out) = .inr (on ⟨m, ms, above⟩ true out) := rfl

theorem step_up :
    step write (on ⟨n, [], (m, later) :: above⟩ false out)
      = .inr (on ⟨m, later, above⟩ false out) := rfl

/-! ## The loop -/

/-- The loop comes through the subtree: from its root on the way down it gets, with the tokens of
the subtree, to its root on the way up. -/
def Passes (write : Place → String) (n : Node) : Prop :=
  ∀ later above out r,
    r ∈ loop (step write) (on ⟨n, later, above⟩ false
      (out ++ tokensBelow write (above.map Prod.fst) (indentation ⟨n, above.map Prod.fst⟩) n)) →
    r ∈ loop (step write) (on ⟨n, later, above⟩ true out)

/-- From the first of the siblings that are left the loop gets up to their parent. -/
theorem mem_loop_siblings (hpass : ∀ k ∈ m :: ms, Passes write k)
    (h : r ∈ loop (step write) (on ⟨n, later, above⟩ false
      (out ++ tokensIn write (above.map Prod.fst) (indentation ⟨n, above.map Prod.fst⟩) n
        (m :: ms)))) :
    r ∈ loop (step write) (on ⟨m, ms, (n, later) :: above⟩ true out) := by
  induction ms generalizing m out with
  | nil =>
    refine hpass m List.mem_cons_self _ _ _ _ (mem_loop_of_next step_up ?_)
    rwa [tokensIn, tokensIn, List.append_nil, ← indentation_cons] at h
  | cons m' ms ih =>
    refine hpass m List.mem_cons_self _ _ _ _ (mem_loop_of_next step_next ?_)
    rw [tokensIn, ← List.append_assoc, ← indentation_cons] at h
    exact ih (fun k hk => hpass k (List.mem_cons_of_mem _ hk)) h

theorem passes (write : Place → String) (n : Node) : Passes write n := by
  induction n using Node.induction with
  | mk label children ih =>
    intro later above out r h
    cases htoken : isToken (.mk label children) with
    | true => exact mem_loop_of_step_eq (step_token htoken) h
    | false =>
      rw [tokensBelow, if_neg (by rw [htoken]; exact Bool.false_ne_true)] at h
      cases children with
      | nil => cases htoken
      | cons m ms => exact mem_loop_of_next (step_down htoken rfl) (mem_loop_siblings ih h)

end Walk

/-- The walk through the tree of a unit ends, and with the tokens of the unit. -/
theorem tokens_mem_loop (u : SourceUnit) (t : Symbols) (d : Dictionary) :
    tokens u t d ∈ loop (Walk.step (writtenText u t d)) (Walk.start u.root) :=
  Walk.passes (writtenText u t d) u.root [] [] [] _ (mem_loop_of_stop rfl)

end Layout

end Legible
