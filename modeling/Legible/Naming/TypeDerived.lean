import Legible.Binding.Symbol
import Legible.Grammar.Identifier
import Legible.Grammar.TypeText
import Legible.Naming.Meaningless
import Legible.Text.Dotted
import Legible.Text.LetterCase

/-!
# Names derived from types

A variable whose name says nothing can be named after its type: a `StringBuilder` becomes
`stringBuilder`, an `int` becomes `num`, a `String[]` becomes `strArray`. A name that is taken gets
the least number from two on that makes it free.
-/

namespace Legible

/-- How variables get names that the dictionary does not give. -/
inductive NamingPolicy where
  | preserve
  | typeDerived
deriving Repr, DecidableEq

namespace Naming

/-- How many characters of an upper case run turn to lower case: all of it at the end of the name,
otherwise all but the one that starts the next word. -/
def loweredCount (run length : Nat) : Nat :=
  if run = length then run else if run = 1 then 1 else run - 1

/-- The name with its first word in lower case: `HTTPClient` becomes `httpClient`, `URL` becomes
`url`. -/
def lowerCamel (name : String) : String :=
  let cs := name.toList
  let split := loweredCount (cs.takeWhile Text.isUppercase).length cs.length
  String.ofList ((cs.take split).flatMap Text.lowercase ++ cs.drop split)

/-- The name for a variable of the given simple type, if the type says anything. -/
def wordFor : String → Option String
  | "" => none
  | "var" => none
  | "int" => some "num"
  | "long" => some "num"
  | "short" => some "num"
  | "byte" => some "num"
  | "char" => some "ch"
  | "boolean" => some "flag"
  | "float" => some "value"
  | "double" => some "value"
  | "String" => some "str"
  | "Object" => some "obj"
  | "Class" => some "clazz"
  | other => if isMeaningless other then none else some (lowerCamel other)

/-- The name for a variable of the declared type, if the type says anything. -/
def baseName (declaredType : String) : Option String :=
  let (element, dims) := Text.splitDims declaredType
  (wordFor (Text.simpleName element)).map fun word =>
    let name := if dims > 0 then word ++ "Array" else word
    if isKeyword name then name ++ "Value" else name

/-- The `k`-th name of the sequence `base`, `base2`, `base3`, …, counted from zero. -/
def candidate (base : String) (k : Nat) : String :=
  if k = 0 then base else base ++ toString (k + 1)

/-- The first of the candidates `k`, `k + 1`, … that is not taken, looking at `tries` of them. -/
def searchFree (taken : List String) (base : String) : (tries k : Nat) → Option String
  | 0, _ => none
  | tries + 1, k =>
    if taken.contains (candidate base k) then searchFree taken base tries (k + 1)
    else some (candidate base k)

/-- The first name of the sequence `base`, `base2`, `base3`, … that is not taken. The sequence
repeats nothing, so one more candidate than there are taken names is enough. -/
def freeName (taken : List String) (base : String) : Option String :=
  searchFree taken base (taken.length + 1) 0

end Naming

/-- The name that the policy proposes for a symbol; `taken` are the names it may not use. -/
def NamingPolicy.suggest (policy : NamingPolicy) (taken : List String) (s : Symbol) :
    Option String :=
  match policy with
  | .preserve => none
  | .typeDerived =>
    if !s.kind.isVariable || !isMeaningless s.declaredName then none
    else (s.declaredType.bind Naming.baseName).bind (Naming.freeName taken)

end Legible
