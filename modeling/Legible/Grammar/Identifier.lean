import Legible.Text.Letter
import Legible.Text.Numeral

/-!
# Identifiers

A name that may be written for a symbol starts with a letter, an underscore or a dollar sign, goes
on with these and numerals, and is not a word that the language keeps for itself.
-/

namespace Legible

def keywords : List String :=
  ["abstract", "assert", "boolean", "break", "byte", "case", "catch", "char", "class", "const",
   "continue", "default", "do", "double", "else", "enum", "extends", "final", "finally", "float",
   "for", "goto", "if", "implements", "import", "instanceof", "int", "interface", "long", "native",
   "new", "package", "private", "protected", "public", "return", "short", "static", "strictfp",
   "super", "switch", "synchronized", "this", "throw", "throws", "transient", "try", "void",
   "volatile", "while", "true", "false", "null", "_"]

def isKeyword (name : String) : Bool := keywords.contains name

def startsIdentifier (c : Char) : Bool :=
  Text.isLetter c || c == '_' || c == '$'

def continuesIdentifier (c : Char) : Bool :=
  startsIdentifier c || Text.isNumeral c

def isIdentifier (name : String) : Bool :=
  match name.toList with
  | [] => false
  | c :: rest => startsIdentifier c && rest.all continuesIdentifier && !isKeyword name

end Legible
