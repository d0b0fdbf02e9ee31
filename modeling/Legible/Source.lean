import Legible.Error
import Legible.Text.LineEnding
import Legible.Tree.Place

/-!
# Source units

A source unit is one Java file: where it was read from, its text with line feeds only, and the
syntax tree of that text. The grammar is not part of the library: a front end hands over the tree
of a normalized text. A tree with an error in it makes no unit; the first error is reported.
-/

namespace Legible

structure SourceUnit where
  path : String
  /-- The text, with line feeds as its only terminators. -/
  source : String
  root : Node

def Text.slice (source : String) (span : Span) : String :=
  String.Pos.Raw.extract source ⟨span.start⟩ ⟨span.stop⟩

namespace SourceUnit

def text (u : SourceUnit) (p : Place) : String := Text.slice u.source p.span

def top (u : SourceUnit) : Place := Place.top u.root

end SourceUnit

/-- A parser: the syntax tree of a text whose terminators are line feeds. -/
abbrev FrontEnd := String → Option Node

/-- Line and column of the byte at `offset`, counted from one; columns are bytes. -/
def Text.position (source : String) (offset : Nat) : Nat × Nat :=
  let before := (Text.slice source ⟨0, offset⟩).toList
  let line := before.reverse.takeWhile (· ≠ '\n')
  (before.count '\n' + 1, (String.ofList line).utf8ByteSize + 1)

/-- The error that reports the node `bad`: where it starts and how its text begins, or its kind
when it has no text. -/
def SourceUnit.fault (path source : String) (bad : Node) : Error :=
  let (line, column) := Text.position source bad.span.start
  let snippet := Text.firstLine 40 (Text.slice source bad.span)
  .malformed path line column (if snippet.isEmpty then bad.kind else snippet)

/-- The unit of a text, or the first error of its tree. -/
def SourceUnit.parse (parser : FrontEnd) (path text : String) : Except Error SourceUnit :=
  let source := Text.normalizeLines (Text.dropByteOrderMark text)
  match parser source with
  | none => .error (.unparsed path)
  | some root =>
    match root.firstFault? with
    | some bad => .error (SourceUnit.fault path source bad)
    | none => .ok { path, source, root }

def SourceUnit.ofBytes (parser : FrontEnd) (path : String) (bytes : ByteArray) :
    Except Error SourceUnit :=
  match Text.decode bytes with
  | .ok text => SourceUnit.parse parser path text
  | .error fault => .error (.undecodable fault)

end Legible
