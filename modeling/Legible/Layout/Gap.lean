import Legible.Layout.Token
import Legible.Text.Alphabetic

/-!
# Gaps between tokens

Every pair of neighbouring tokens has a gap. The token before and the token after each may state a
wish; a new line wins, then no gap at all, and anything else is one space. The braces of an empty
body stand together, and tokens that would read as one token get a space.
-/

namespace Legible

inductive Gap where
  | glue
  | space
  | newline
  /-- A new line after an empty one. -/
  | blank
deriving Repr, DecidableEq

namespace Token

def isBodyBrace (t : Token) (brace : String) : Bool :=
  t.kind == brace && t.parentKind?.any Layout.bodyKinds.contains

def opensBody (t : Token) : Bool := t.isBodyBrace "\x7b"

def closesBody (t : Token) : Bool := t.isBodyBrace "\x7d"

def isInitializerBrace (t : Token) (brace : String) : Bool :=
  t.kind == brace
    && (t.isUnder "array_initializer" || t.isUnder "element_value_array_initializer")

/-- Whether the token delimits type arguments or type parameters. -/
def isAngle (t : Token) : Bool :=
  (t.kind == "<" || t.kind == ">") && (t.isUnder "type_arguments" || t.isUnder "type_parameters")

/-- Whether the token counts up or down. -/
def isStep (t : Token) : Bool := t.kind == "++" || t.kind == "--"

/-- Whether the token is an operator before its operand. -/
def isPrefixOperator (t : Token) : Bool :=
  t.leads && (t.isUnder "unary_expression" || (t.isUnder "update_expression" && t.isStep))

def isPostfixOperator (t : Token) : Bool :=
  t.isStep && t.isUnder "update_expression" && !t.leads

/-- Whether an argument list attaches to the token. -/
def isCallee (t : Token) : Bool :=
  ["identifier", "type_identifier", "this", "super"].contains t.kind
    || (t.kind == ">" && t.isAngle)

/-- Whether the token separates the parts of a for header or the resources of a try statement. -/
def isInlineSemicolon (t : Token) : Bool :=
  t.isUnder "for_statement" || t.isUnder "resource_specification"
    || (t.isUnder "local_variable_declaration"
      && t.grandparent.any (·.kind == "for_statement"))

end Token

namespace Layout

def isWordChar (c : Char) : Bool := Text.isAlphanumeric c || c == '_' || c == '$'

def isOperatorChar (c : Char) : Bool := "+-*/&|<>=!".toList.contains c

/-- Whether two texts would read as one token when nothing stands between them. -/
def wouldFuse (left right : String) : Bool :=
  match left.toList.getLast?, right.toList.head? with
  | some last, some first =>
    (isWordChar last && isWordChar first) || (isOperatorChar last && isOperatorChar first)
  | _, _ => false

/-- The wish of the brace that closes a body, before `next`. -/
def afterBody (next : Token) : Option Gap :=
  if ["else", "catch", "finally"].contains next.kind then some .space
  else if next.kind == "while" && next.isUnder "do_statement" then some .space
  else if [";", ")", ",", "."].contains next.kind then none
  else some .newline

/-- The wish of the token on the left. -/
def after (prev next : Token) : Option Gap :=
  if prev.kind == "line_comment" then some .newline
  else if prev.opensBody then some .newline
  else if prev.closesBody then afterBody next
  else if prev.isInitializerBrace "\x7b" then some .glue
  else if prev.kind == ";" then some (if prev.isInlineSemicolon then .space else .newline)
  else if prev.kind == ":" && prev.isUnder "switch_block_statement_group" then some .newline
  else if ["(", "[", ".", "@", "::"].contains prev.kind then some .glue
  else if prev.isAngle then
    if prev.kind == "<" || prev.grandparent.any (·.kind == "method_invocation") then some .glue
    else none
  else if prev.isPrefixOperator then some .glue
  else if prev.annotationEnd then some .newline
  else none

/-- The wish of the token on the right. -/
def before (prev next : Token) : Option Gap :=
  if next.closesBody then some .newline
  else if next.isInitializerBrace "\x7d" then some .glue
  else if [")", "]", ",", ";", ".", "::", "...", "["].contains next.kind then some .glue
  else if next.kind == "(" && prev.isCallee then some .glue
  else if next.isAngle && (next.kind == ">" || prev.isCallee) then some .glue
  else if next.kind == ":"
      && (next.isUnder "switch_block_statement_group" || next.isUnder "labeled_statement") then
    some .glue
  else if next.isPostfixOperator then some .glue
  else none

/-- The stronger of two wishes: a new line, then no gap, then a space. -/
def stronger (left right : Option Gap) : Gap :=
  if left == some .newline || right == some .newline then .newline
  else if left == some .glue || right == some .glue then .glue
  else .space

def isEmptyBody (prev next : Token) : Bool :=
  prev.opensBody && next.closesBody
    && prev.parent.map (·.number) == next.parent.map (·.number)

/-- The gap between two tokens, empty lines of the source left aside. -/
def gapBetween (prev next : Token) : Gap :=
  if isEmptyBody prev next then .glue
  else
    let gap := stronger (after prev next) (before prev next)
    if gap == .glue && !prev.isAngle && !next.isAngle && wouldFuse prev.text next.text then .space
    else gap

/-- Whether an empty line may stand between two tokens: not at the ends of a body. -/
def allowsBlank (prev next : Token) : Bool := !prev.opensBody && !next.closesBody

end Layout

end Legible
