import Legible.Dictionary.Json
import Legible.Settings.Basic

/-!
# Settings files

A settings file is a TOML document with the keys `symbols`, `line_ending` and `rename_locals` and
no others. It is read in two steps: its lines into statements, and the statements into settings.

Of TOML's values only those are read that can stand in such a file: strings in all four forms,
truth values, and for `line_ending`, besides a string, a table with the line ending as its only
key, whose value is an empty table or array. A reader of some part of a document takes the text from
there on and gives what it read together with the text after it.
-/

namespace Legible

namespace Toml

inductive Value where
  | text (content : String)
  | truth (value : Bool)
  | nothing
  /-- A table with one key, whose value is empty. -/
  | tagged (key : List String)
deriving Repr, DecidableEq

inductive Statement where
  /-- `[key]`: what follows belongs to the table of this name. -/
  | header (key : List String)
  | entry (key : List String) (value : Value)
deriving Repr, DecidableEq

/-! ## Blanks and comments -/

def isSpace (c : Char) : Bool := c == ' ' || c == '\t'

def skipSpace (cs : List Char) : List Char := cs.dropWhile isSpace

/-- A character that may stand in a comment or a literal string: no control character but the
tab. -/
def isPlain (c : Char) : Bool := c == '\t' || (0x20 ≤ c.toNat && c.toNat ≠ 0x7F)

def skipComment : List Char → List Char
  | '#' :: rest => rest.dropWhile isPlain
  | cs => cs

/-- The text after the line feed at its front, alone or behind a carriage return. -/
def newline? : List Char → Option (List Char)
  | '\n' :: rest => some rest
  | '\r' :: '\n' :: rest => some rest
  | _ => none

/-- The text after the end of a line: blanks, a comment, and a line feed or the end of the
text. -/
def endOfLine? (cs : List Char) : Option (List Char) :=
  match skipComment (skipSpace cs) with
  | [] => some []
  | rest => newline? rest

/-! ## Strings -/

def hexNumber? (digits : List Char) : Option Nat :=
  digits.foldl (fun n c => do some ((← n) * 16 + (← Json.hexValue? c))) (some 0)

/-- The character of a given number; the halves of surrogate pairs are none. -/
def scalar? (n : Nat) : Option Char :=
  if n < 0xD800 || (0xE000 ≤ n && n < 0x110000) then some (Char.ofNat n) else none

def unicodeEscape? (digits : List Char) : Option Char := (hexNumber? digits).bind scalar?

/-- The character that a backslash and `c` stand for. -/
def shortEscape? : Char → Option Char
  | 'b' => some (Char.ofNat 0x8)
  | 't' => some '\t'
  | 'n' => some '\n'
  | 'f' => some (Char.ofNat 0xC)
  | 'r' => some '\r'
  | '"' => some '"'
  | '\\' => some '\\'
  | _ => none

/-- The rest of a string in double quotes; `read` is what was read of it, backwards. -/
def basicString (read : List Char) : List Char → Option (String × List Char)
  | [] => none
  | '"' :: rest => some (String.ofList read.reverse, rest)
  | '\\' :: 'u' :: a :: b :: c :: d :: rest =>
    (unicodeEscape? [a, b, c, d]).bind fun e => basicString (e :: read) rest
  | '\\' :: 'U' :: a :: b :: c :: d :: e :: f :: g :: h :: rest =>
    (unicodeEscape? [a, b, c, d, e, f, g, h]).bind fun e => basicString (e :: read) rest
  | '\\' :: c :: rest => (shortEscape? c).bind fun e => basicString (e :: read) rest
  | c :: rest => if isPlain c && c ≠ '\\' then basicString (c :: read) rest else none

/-- The rest of a string in single quotes. -/
def literalString (cs : List Char) : Option (String × List Char) :=
  let content := cs.takeWhile fun c => isPlain c && c ≠ '\x27'
  match cs.drop content.length with
  | '\x27' :: rest => some (String.ofList content, rest)
  | _ => none

/-- The end of a string in triple quotes, whose content so far is `read` backwards: up to two
quotes may stand before the three that close it. -/
def closing? (quote : Char) (read : List Char) (cs : List Char) : Option (String × List Char) :=
  let count := (cs.takeWhile (· = quote)).length
  if 3 ≤ count && count ≤ 5 then
    some (String.ofList (List.replicate (count - 3) quote ++ read).reverse, cs.drop count)
  else none

def endsLine (cs : List Char) : Bool := (newline? (skipSpace cs)).isSome

/-- The rest of a string in triple double quotes. With `skip`, blanks and line feeds are passed
over, as after a backslash at the end of a line. -/
def longBasicString (skip : Bool) (read : List Char) : List Char → Option (String × List Char)
  | [] => none
  | '"' :: rest =>
    if rest.take 2 = ['"', '"'] then closing? '"' read ('"' :: rest)
    else longBasicString false ('"' :: read) rest
  | '\\' :: 'u' :: a :: b :: c :: d :: rest =>
    (unicodeEscape? [a, b, c, d]).bind fun e => longBasicString false (e :: read) rest
  | '\\' :: 'U' :: a :: b :: c :: d :: e :: f :: g :: h :: rest =>
    (unicodeEscape? [a, b, c, d, e, f, g, h]).bind fun e =>
      longBasicString false (e :: read) rest
  | '\\' :: c :: rest =>
    if endsLine (c :: rest) then longBasicString true read (c :: rest)
    else (shortEscape? c).bind fun e => longBasicString false (e :: read) rest
  | '\r' :: '\n' :: rest => longBasicString skip (if skip then read else '\n' :: read) rest
  | '\n' :: rest => longBasicString skip (if skip then read else '\n' :: read) rest
  | c :: rest =>
    if skip && isSpace c then longBasicString true read rest
    else if isPlain c && c ≠ '\\' then longBasicString false (c :: read) rest
    else none

/-- The rest of a string in triple single quotes. -/
def longLiteralString (read : List Char) : List Char → Option (String × List Char)
  | [] => none
  | '\x27' :: rest =>
    if rest.take 2 = ['\x27', '\x27'] then closing? '\x27' read ('\x27' :: rest)
    else longLiteralString ('\x27' :: read) rest
  | '\r' :: '\n' :: rest => longLiteralString ('\n' :: read) rest
  | '\n' :: rest => longLiteralString ('\n' :: read) rest
  | c :: rest => if isPlain c then longLiteralString (c :: read) rest else none

/-- The text without a line feed at its front, which a string in triple quotes may start with. -/
def dropNewline (cs : List Char) : List Char := (newline? cs).getD cs

/-! ## Keys -/

def isBare (c : Char) : Bool := c.isAlphanum || c == '_' || c == '-'

def simpleKey : List Char → Option (String × List Char)
  | '"' :: rest => basicString [] rest
  | '\x27' :: rest => literalString rest
  | cs =>
    let name := cs.takeWhile isBare
    if name.isEmpty then none else some (String.ofList name, cs.drop name.length)

/-- A key whose parts are divided by dots, of at most `parts` parts. -/
def dottedKey : (parts : Nat) → List Char → Option (List String × List Char)
  | 0, _ => none
  | parts + 1, cs => do
      let (first, rest) ← simpleKey cs
      match skipSpace rest with
      | '.' :: rest =>
        let (more, rest) ← dottedKey parts (skipSpace rest)
        some (first :: more, rest)
      | rest => some ([first], rest)

/-- A key; each of its parts takes a character. -/
def key (cs : List Char) : Option (List String × List Char) := dottedKey cs.length cs

/-! ## Values -/

/-- The text after blanks, line feeds and comments, of which there are at most `count`. -/
def skipLines : (count : Nat) → List Char → List Char
  | 0, cs => cs
  | count + 1, cs =>
    match newline? (skipComment (skipSpace cs)) with
    | some rest => skipLines count rest
    | none => skipSpace cs

def emptyArray (cs : List Char) : Option (Value × List Char) :=
  match skipLines cs.length cs with
  | ']' :: rest => some (.nothing, rest)
  | _ => none

def emptyValue : List Char → Option (Value × List Char)
  | '[' :: rest => emptyArray rest
  | '\x7b' :: rest =>
    match skipSpace rest with
    | '\x7d' :: rest => some (.nothing, rest)
    | _ => none
  | _ => none

/-- A table of at most one key, of which the brace was read. -/
def inlineTable (cs : List Char) : Option (Value × List Char) :=
  match skipSpace cs with
  | '\x7d' :: rest => some (.nothing, rest)
  | cs => do
      let (name, rest) ← key cs
      match rest with
      | '=' :: rest =>
        let (_, rest) ← emptyValue (skipSpace rest)
        match skipSpace rest with
        | '\x7d' :: rest => some (.tagged name, rest)
        | _ => none
      | _ => none

def value : List Char → Option (Value × List Char)
  | '"' :: '"' :: '"' :: rest =>
    (longBasicString false [] (dropNewline rest)).map fun (s, rest) => (.text s, rest)
  | '\x27' :: '\x27' :: '\x27' :: rest =>
    (longLiteralString [] (dropNewline rest)).map fun (s, rest) => (.text s, rest)
  | '"' :: rest => (basicString [] rest).map fun (s, rest) => (.text s, rest)
  | '\x27' :: rest => (literalString rest).map fun (s, rest) => (.text s, rest)
  | 't' :: 'r' :: 'u' :: 'e' :: rest => some (.truth true, rest)
  | 'f' :: 'a' :: 'l' :: 's' :: 'e' :: rest => some (.truth false, rest)
  | '\x7b' :: rest => inlineTable rest
  | '[' :: rest => emptyArray rest
  | _ => none

/-! ## Documents -/

/-- A header, of which the bracket was read. -/
def header (cs : List Char) : Option (Statement × List Char) := do
  let (name, rest) ← key (skipSpace cs)
  match rest with
  | ']' :: rest => some (.header name, rest)
  | _ => none

def entry (cs : List Char) : Option (Statement × List Char) := do
  let (name, rest) ← key cs
  match rest with
  | '=' :: rest =>
    let (v, rest) ← value (skipSpace rest)
    some (.entry name v, rest)
  | _ => none

def statement : List Char → Option (Statement × List Char)
  | '[' :: rest => header rest
  | cs => entry cs

def statements : (lines : Nat) → List Char → Option (List Statement)
  | 0, _ => none
  | lines + 1, cs =>
    match endOfLine? cs with
    | some [] => some []
    | some rest => statements lines rest
    | none => do
        let (s, rest) ← statement (skipSpace cs)
        match ← endOfLine? rest with
        | [] => some [s]
        | rest => (statements lines rest).map (s :: ·)

/-- The statements of a document, which may start with a byte order mark. -/
def read (text : String) : Option (List Statement) :=
  let cs := (Text.dropByteOrderMark text).toList
  statements (cs.length + 1) cs

end Toml

namespace FileSettings

open Toml

/-- How far the line ending is given. -/
inductive EndingState where
  | absent
  | settled (ending : LineEnding)
  /-- By a table with a header of its own, or with only one for its key. -/
  | table (headed : Bool) (ending : Option LineEnding)
deriving Repr, DecidableEq

/-- What the statements read so far say. -/
structure Draft where
  symbols : Option String := none
  ending : EndingState := .absent
  renameLocals : Option Bool := none
  current : List String := []

/-- The draft after a header. A table may be opened once, and its own header may come after that
of its key. -/
def Draft.header (d : Draft) : List String → Option Draft
  | ["line_ending"] =>
    match d.ending with
    | .absent => some { d with ending := .table true none, current := ["line_ending"] }
    | .table false ending =>
      some { d with ending := .table true ending, current := ["line_ending"] }
    | _ => none
  | ["line_ending", name] => do
      let ending ← LineEnding.ofName? name
      match d.ending with
      | .absent =>
        some { d with ending := .table false (some ending), current := ["line_ending", name] }
      | .table true none =>
        some { d with ending := .table true (some ending), current := ["line_ending", name] }
      | _ => none
  | _ => none

/-- The draft after an entry; no key may be given twice. -/
def Draft.entry (d : Draft) (key : List String) (value : Value) : Option Draft :=
  match d.current, key, value with
  | [], ["symbols"], .text path =>
    if d.symbols.isNone then some { d with symbols := some path } else none
  | [], ["rename_locals"], .truth b =>
    if d.renameLocals.isNone then some { d with renameLocals := some b } else none
  | [], ["line_ending"], .text name => settle name
  | [], ["line_ending"], .tagged [name] => settle name
  | [], ["line_ending", name], .nothing => settle name
  | ["line_ending"], [name], .nothing => do
      let ending ← LineEnding.ofName? name
      if d.ending = .table true none then some { d with ending := .table true (some ending) }
      else none
  | _, _, _ => none
where
  /-- The draft with the line ending of a given name. -/
  settle (name : String) : Option Draft := do
    let ending ← LineEnding.ofName? name
    if d.ending = .absent then some { d with ending := .settled ending } else none

def Draft.add (d : Draft) : Statement → Option Draft
  | .header key => d.header key
  | .entry key value => d.entry key value

/-- The settings of a draft at the end of the document. -/
def Draft.finish (d : Draft) : Option FileSettings :=
  let settings (ending : Option LineEnding) : FileSettings :=
    { symbols := d.symbols, lineEnding := ending, renameLocals := d.renameLocals }
  match d.ending with
  | .absent => some (settings none)
  | .settled ending => some (settings (some ending))
  | .table _ (some ending) => some (settings (some ending))
  | .table _ none => none

def ofStatements (statements : List Statement) : Option FileSettings :=
  (statements.foldlM Draft.add {}).bind Draft.finish

/-- The settings that a file holds; `origin` says in an error where the text is from. -/
def ofToml (origin text : String) : Except Error FileSettings :=
  match (Toml.read text).bind ofStatements with
  | some settings => .ok settings
  | none => .error (.settings origin "expected symbols, line_ending and rename_locals only")

end FileSettings

end Legible
