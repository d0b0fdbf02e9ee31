/-!
# Names that say nothing

Machine-made sources call their variables `a`, `b2`, `var12`, `arg0` or `lIl1`: a letter with an
optional number, a stock word with a number, or a string of characters that look alike.
-/

namespace Legible

/-- Words that generators put a number behind. -/
def stockWords : List String := ["var", "arg", "param", "local", "tmp", "obj"]

/-- A letter, underscore or dollar sign of the ASCII range. -/
def isPlainStart (c : Char) : Bool := c.isAlpha || c == '_' || c == '$'

def isLookalikeStart (c : Char) : Bool :=
  c == 'l' || c == 'I' || c == 'O' || c == '_' || c == '$'

/-- Characters that a reader mistakes for each other. -/
def isLookalike (c : Char) : Bool := isLookalikeStart c || c == '0' || c == '1'

def isNumberedLetter : List Char → Bool
  | [] => false
  | c :: rest => isPlainStart c && rest.all Char.isDigit

def isNumberedWord (cs : List Char) : Bool :=
  stockWords.any fun word =>
    match cs.drop word.length with
    | [] => false
    | digits => cs.take word.length == word.toList && digits.all Char.isDigit

/-- Two or more characters that look alike. -/
def isConfusable : List Char → Bool
  | c :: d :: rest => isLookalikeStart c && (d :: rest).all isLookalike
  | _ => false

def isMeaningless (name : String) : Bool :=
  let cs := name.toList
  isNumberedLetter cs || isNumberedWord cs || isConfusable cs

end Legible
