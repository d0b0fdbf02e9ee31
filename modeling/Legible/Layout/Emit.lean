import Legible.Layout.Gap

/-!
# Writing tokens

Tokens are written one after the other with their gaps between them. Two things of the source
survive: an empty line between statements or members, and whether a comment stands on a line of its
own. No line ends in blanks, and the text ends in one terminator.
-/

namespace Legible.Layout

def lineBreaks (source : String) (prev next : Token) : Nat :=
  (Text.slice source ⟨prev.label.span.stop, next.label.span.start⟩).toList.count '\n'

/-- The gap where a line ends: an empty line of the source stays where one may stand. -/
def lineGap (breaks : Nat) (prev next : Token) : Gap :=
  if 2 ≤ breaks && allowsBlank prev next then .blank else .newline

/-- The gap before a comment: it stays on its line. -/
def gapBeforeComment (breaks : Nat) (prev next : Token) : Gap :=
  if breaks = 0 then
    if prev.isComment then .space
    else if gapBetween prev next == .glue then .glue
    else .space
  else lineGap breaks prev next

/-- The gap after a comment. `code` is the last token before it that is not a comment, and `gap`
the gap before it: a comment within a line touches one side at most. -/
def gapAfterComment (breaks : Nat) (code : Option Token) (gap : Gap) (prev next : Token) : Gap :=
  if prev.kind == "line_comment" || 0 < breaks then lineGap breaks prev next
  else
    match code with
    | none => .newline
    | some code =>
      let own := gapBetween code next
      if own == .glue && gap == .glue then .space else own

/-- What was written so far. -/
structure Emission where
  /-- The text, its last character first. -/
  out : List Char := []
  last : Option Token := none
  code : Option Token := none
  gap : Gap := .newline

def Emission.gapBefore (source : String) (e : Emission) (prev next : Token) : Gap :=
  let breaks := lineBreaks source prev next
  if next.isComment then gapBeforeComment breaks prev next
  else if prev.isComment then gapAfterComment breaks e.code e.gap prev next
  else
    let gap := gapBetween prev next
    if gap == .newline then lineGap breaks prev next else gap

def isLineBlank (c : Char) : Bool := c == ' ' || c == '\t'

def isLayoutChar (c : Char) : Bool := isLineBlank c || c == '\n' || c == '\r'

/-- Ends the line: blanks at its end go. -/
def endLine (eol : List Char) (out : List Char) : List Char :=
  eol.reverse ++ out.dropWhile isLineBlank

/-- Writes a gap before a token that is indented by `depth` if it starts a line. -/
def writeGap (eol : List Char) (gap : Gap) (depth : Nat) (out : List Char) : List Char :=
  match gap with
  | .glue => out
  | .space => ' ' :: out
  | .newline => List.replicate depth '\t' ++ endLine eol out
  | .blank => List.replicate depth '\t' ++ (eol.reverse ++ endLine eol out)

/-- Writes the text of a token; its own line feeds become terminators. -/
def writeText (eol : List Char) (text : List Char) (out : List Char) : List Char :=
  text.foldl (fun out c => if c = '\n' then eol.reverse ++ out else c :: out) out

def Emission.push (source : String) (eol : List Char) (e : Emission) (t : Token) : Emission :=
  let code := if t.isComment then e.code else some t
  match e.last with
  | none => { out := writeText eol t.text.toList e.out, last := some t, code, gap := e.gap }
  | some prev =>
    let gap := e.gapBefore source prev t
    { out := writeText eol t.text.toList (writeGap eol gap t.depth e.out)
      last := some t
      code
      gap }

def emit (source : String) (ending : LineEnding) (tokens : List Token) : String :=
  let eol := ending.terminator.toList
  let written := tokens.foldl (Emission.push source eol) {}
  String.ofList ((written.out.dropWhile isLayoutChar).reverse ++ eol)

/-- The text of a unit with its names replaced and its layout regular. -/
def render (u : SourceUnit) (t : Symbols) (d : Dictionary) (ending : LineEnding) : String :=
  emit u.source ending (tokens u t d)

end Legible.Layout
