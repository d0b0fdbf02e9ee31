/-!
# Line endings

Sources arrive with any mix of line feeds, carriage returns and pairs of them. They are read with
line feeds only and written with one terminator throughout.
-/

namespace Legible

inductive LineEnding where
  | lf
  | cr
  | crlf
deriving Repr, DecidableEq

namespace LineEnding

def terminator : LineEnding → String
  | .lf => "\n"
  | .cr => "\r"
  | .crlf => "\r\n"

def name : LineEnding → String
  | .lf => "lf"
  | .cr => "cr"
  | .crlf => "crlf"

def ofName? : String → Option LineEnding
  | "lf" => some .lf
  | "cr" => some .cr
  | "crlf" => some .crlf
  | _ => none

end LineEnding

namespace Text

/-- Every terminator turned into a line feed: a carriage return together with the line feed that
follows it, or alone. -/
def lineFeeds : List Char → List Char
  | [] => []
  | '\r' :: '\n' :: rest => '\n' :: lineFeeds rest
  | c :: rest => (if c = '\r' then '\n' else c) :: lineFeeds rest

def normalizeLines (s : String) : String :=
  String.ofList (lineFeeds s.toList)

def dropByteOrderMark (s : String) : String :=
  match s.toList with
  | c :: rest => if c.toNat = 0xFEFF then String.ofList rest else s
  | [] => s

/-- The first line of a text whose terminators are line feeds, cut to `width` characters. -/
def firstLine (width : Nat) (s : String) : String :=
  String.ofList ((s.toList.takeWhile (· ≠ '\n')).take width)

end Text

end Legible
