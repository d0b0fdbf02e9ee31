import Legible.Dictionary.Basic
import Legible.Error

/-!
# The dictionary as JSON

The saved form is a JSON object whose values are strings or `null`, indented by two spaces, with
the keys in order. Reading accepts any JSON text of such an object: blanks where JSON allows them,
every escape, and a key given twice, of which the last counts.

A text is read in two steps: into tokens, then the tokens into entries.
-/

namespace Legible

namespace Json

/-- A token of the texts that are read. -/
inductive Token where
  | openBrace
  | closeBrace
  | colon
  | comma
  | null
  | text (content : String)
deriving Repr, DecidableEq

/-- The value of a hexadecimal digit. -/
def hexValue? (c : Char) : Option Nat :=
  if '0' ≤ c && c ≤ '9' then some (c.toNat - '0'.toNat)
  else if 'a' ≤ c && c ≤ 'f' then some (c.toNat - 'a'.toNat + 10)
  else if 'A' ≤ c && c ≤ 'F' then some (c.toNat - 'A'.toNat + 10)
  else none

/-- The value of four hexadecimal digits. -/
def hexUnit? (a b c d : Char) : Option Nat := do
  some ((← hexValue? a) * 4096 + (← hexValue? b) * 256 + (← hexValue? c) * 16 + (← hexValue? d))

def isHighSurrogate (n : Nat) : Bool := 0xD800 ≤ n && n ≤ 0xDBFF

def isLowSurrogate (n : Nat) : Bool := 0xDC00 ≤ n && n ≤ 0xDFFF

/-- The character that a pair of units stands for. -/
def joinSurrogates (high low : Nat) : Char :=
  Char.ofNat (0x10000 + (high - 0xD800) * 0x400 + (low - 0xDC00))

/-- The character that a backslash and `c` stand for. -/
def shortEscape? : Char → Option Char
  | '"' => some '"'
  | '\\' => some '\\'
  | '/' => some '/'
  | 'b' => some (Char.ofNat 0x8)
  | 'f' => some (Char.ofNat 0xC)
  | 'n' => some '\n'
  | 'r' => some '\r'
  | 't' => some '\t'
  | _ => none

def isJsonBlank (c : Char) : Bool := c == ' ' || c == '\n' || c == '\r' || c == '\t'

/-- The tokens of a text, behind those in `done`, which stand backwards. `inside` holds, backwards
too, what has been read of a string that is still open. A control character, an unknown escape, or
half of a surrogate pair in a string makes the text unreadable. -/
def scan (inside : Option (List Char)) (done : List Token) : List Char → Option (List Token)
  | [] =>
    match inside with
    | none => some done.reverse
    | some _ => none
  | c :: rest =>
    match inside with
    | some content =>
      if c = '"' then scan none (.text (String.ofList content.reverse) :: done) rest
      else if c = '\\' then
        match rest with
        | 'u' :: h₁ :: h₂ :: h₃ :: h₄ :: rest₁ =>
          match hexUnit? h₁ h₂ h₃ h₄ with
          | none => none
          | some unit =>
            if isHighSurrogate unit then
              match rest₁ with
              | '\\' :: 'u' :: l₁ :: l₂ :: l₃ :: l₄ :: rest₂ =>
                match hexUnit? l₁ l₂ l₃ l₄ with
                | none => none
                | some low =>
                  if isLowSurrogate low then
                    scan (some (joinSurrogates unit low :: content)) done rest₂
                  else none
              | _ => none
            else if isLowSurrogate unit then none
            else scan (some (Char.ofNat unit :: content)) done rest₁
        | e :: rest₁ =>
          match shortEscape? e with
          | some d => scan (some (d :: content)) done rest₁
          | none => none
        | [] => none
      else if c.toNat < 0x20 then none
      else scan (some (c :: content)) done rest
    | none =>
      if isJsonBlank c then scan none done rest
      else if c = '"' then scan (some []) done rest
      else if c = '\x7b' then scan none (.openBrace :: done) rest
      else if c = '\x7d' then scan none (.closeBrace :: done) rest
      else if c = ':' then scan none (.colon :: done) rest
      else if c = ',' then scan none (.comma :: done) rest
      else if c = 'n' then
        match rest with
        | 'u' :: 'l' :: 'l' :: rest₁ => scan none (.null :: done) rest₁
        | _ => none
      else none

def Token.value? : Token → Option (Option String)
  | .null => some none
  | .text content => some (some content)
  | _ => none

/-- The map with the entries from the first key up to the closing brace, which ends the text. -/
def members (map : NameMap) : List Token → Option NameMap
  | [.text key, .colon, value, .closeBrace] =>
    match value.value? with
    | some v => some (map.insert key v)
    | none => none
  | .text key :: .colon :: value :: .comma :: rest =>
    match value.value? with
    | some v => members (map.insert key v) rest
    | none => none
  | _ => none

def object : List Token → Option NameMap
  | [.openBrace, .closeBrace] => some ∅
  | .openBrace :: rest => members ∅ rest
  | _ => none

def read (text : String) : Option NameMap :=
  (scan none [] text.toList).bind object

/-! ## Writing -/

def hexDigit (n : Nat) : Char :=
  if n < 10 then Char.ofNat ('0'.toNat + n) else Char.ofNat ('a'.toNat + (n - 10))

/-- A character as a string holds it: quotes, backslashes and control characters are escaped. -/
def escape (c : Char) : List Char :=
  if c = '"' then ['\\', '"']
  else if c = '\\' then ['\\', '\\']
  else if c.toNat = 0x8 then ['\\', 'b']
  else if c.toNat = 0xC then ['\\', 'f']
  else if c = '\n' then ['\\', 'n']
  else if c = '\r' then ['\\', 'r']
  else if c = '\t' then ['\\', 't']
  else if c.toNat < 0x20 then
    ['\\', 'u', '0', '0', hexDigit (c.toNat / 16), hexDigit (c.toNat % 16)]
  else [c]

def quote (s : String) : String :=
  String.ofList ('"' :: (s.toList.flatMap escape ++ ['"']))

def writeValue : Option String → String
  | some name => quote name
  | none => "null"

def writeEntry (entry : String × Option String) : String :=
  quote entry.1 ++ ": " ++ writeValue entry.2

/-- An object with the given entries, one a line. -/
def write (entries : List (String × Option String)) : String :=
  match entries with
  | [] => "\x7b\x7d"
  | _ => "\x7b\n  " ++ ",\n  ".intercalate (entries.map writeEntry) ++ "\n\x7d"

end Json

namespace Dictionary

/-- The dictionary that a text holds; `origin` says in an error where the text is from. -/
def ofJson (origin text : String) : Except Error Dictionary :=
  match Json.read text with
  | some loaded => .ok { loaded }
  | none => .error (.dictionary origin "expected an object of names and nulls")

def toJson (d : Dictionary) : String :=
  Json.write d.merged.toList ++ "\n"

end Dictionary

end Legible
