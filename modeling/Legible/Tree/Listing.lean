import Legible.Source
import Legible.Text.Dotted

/-!
# Listings of trees as text

A parser hands its trees over as lines. The lines of a source come first, each behind a bar; then
the nodes of its tree follow in preorder, one a line, with tabs between the parts: the kind, the
sum of 1 for a named, 2 for a supplied and 4 for a faulty node, start and stop of the span, the
number of children, and the role if there is one.
-/

namespace Legible

namespace Listing

inductive Line where
  | source (text : List Char)
  | node (entry : Listed)
deriving Repr, DecidableEq

def node? (line : List Char) : Option Listed :=
  let parts := (Text.pieces '\t' line).map String.ofList
  match parts with
  | kind :: flags :: start :: stop :: count :: role => do
      let flags ← flags.toNat?
      some
        { kind
          named := flags % 2 = 1
          missing := flags / 2 % 2 = 1
          faulty := flags / 4 % 2 = 1
          span := ⟨← start.toNat?, ← stop.toNat?⟩
          childCount := ← count.toNat?
          role := role.head? }
  | _ => none

def line? : List Char → Option Line
  | '|' :: text => some (.source text)
  | cs => (node? cs).map .node

/-- The sources and nodes of lines, in order. A line of source after a node begins another
source. -/
def blocks : List Line → List (List (List Char) × List Listed)
  | [] => []
  | .source text :: rest =>
    match rest, blocks rest with
    | .source _ :: _, (texts, nodes) :: more => (text :: texts, nodes) :: more
    | .node _ :: _, (_, nodes) :: more => ([text], nodes) :: more
    | _, more => ([text], []) :: more
  | .node entry :: rest =>
    match rest, blocks rest with
    | .node _ :: _, (_, nodes) :: more => ([], entry :: nodes) :: more
    | _, more => ([], [entry]) :: more

def sourceText (lines : List (List Char)) : String :=
  "\n".intercalate (lines.map String.ofList)

/-- The sources of a listing, each with its tree. Lines that hold nothing are passed over. -/
def trees (text : String) : List (String × Node) :=
  (blocks ((Text.pieces '\n' text.toList).filterMap line?)).filterMap fun (source, nodes) =>
    (Node.ofListing? nodes).map fun root => (sourceText source, root)

def frontEnd (text : String) : FrontEnd :=
  let known := trees text
  fun source => known.lookup source

end Listing

end Legible
