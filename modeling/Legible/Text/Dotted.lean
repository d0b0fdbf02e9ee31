/-!
# Dotted names

A qualified name is a text whose segments are divided by dots. Dividing never fails: a text
without a dot is its own only segment, and two dots in a row hold an empty one.
-/

namespace Legible.Text

/-- The pieces of a text between the occurrences of `sep`; there is always at least one. -/
def pieces (sep : Char) : List Char → List (List Char)
  | [] => [[]]
  | c :: cs =>
    if c = sep then [] :: pieces sep cs
    else
      match pieces sep cs with
      | [] => [[c]]
      | p :: ps => (c :: p) :: ps

def segments (name : String) : List String :=
  (pieces '.' name.toList).map String.ofList

def dotted (segs : List String) : String :=
  ".".intercalate segs

def simpleName (name : String) : String :=
  String.ofList (name.toList.reverse.takeWhile (· ≠ '.')).reverse

/-- What stands before and after the first dot. -/
def splitFirst (name : String) : Option (String × String) :=
  let cs := name.toList
  match cs.dropWhile (· ≠ '.') with
  | [] => none
  | _ :: rest => some (String.ofList (cs.takeWhile (· ≠ '.')), String.ofList rest)

/-- What stands before and after the last dot. -/
def splitLast (name : String) : Option (String × String) :=
  let back := name.toList.reverse
  match back.dropWhile (· ≠ '.') with
  | [] => none
  | _ :: rest =>
    some (String.ofList rest.reverse, String.ofList (back.takeWhile (· ≠ '.')).reverse)

end Legible.Text
