/-!
# Decoding bytes

A file is a sequence of bytes. One that is not UTF-8 is described by its first fault: the index of
the byte where the faulty character starts, and how many bytes of it were read before the fault
was certain, or that the bytes ended before the character did.
-/

namespace Legible.Text

/-- The first place where bytes are not UTF-8. -/
inductive Utf8Fault where
  /-- The `length` bytes from `index` on start no character. -/
  | invalid (index length : Nat)
  | incomplete (index : Nat)
deriving Repr, DecidableEq

def Utf8Fault.message : Utf8Fault → String
  | .invalid index length =>
    "invalid utf-8 sequence of " ++ toString length ++ " bytes from index " ++ toString index
  | .incomplete index => "incomplete utf-8 byte sequence from index " ++ toString index

/-- The ranges that the bytes after a first byte `b` have to lie in; `none` if no character
starts with `b`. -/
def continuation (b : Nat) : Option (List (Nat × Nat)) :=
  if b ≤ 0x7F then some []
  else if b < 0xC2 then none
  else if b ≤ 0xDF then some [(0x80, 0xBF)]
  else if b = 0xE0 then some [(0xA0, 0xBF), (0x80, 0xBF)]
  else if b = 0xED then some [(0x80, 0x9F), (0x80, 0xBF)]
  else if b ≤ 0xEF then some [(0x80, 0xBF), (0x80, 0xBF)]
  else if b = 0xF0 then some [(0x90, 0xBF), (0x80, 0xBF), (0x80, 0xBF)]
  else if b ≤ 0xF3 then some [(0x80, 0xBF), (0x80, 0xBF), (0x80, 0xBF)]
  else if b = 0xF4 then some [(0x80, 0x8F), (0x80, 0xBF), (0x80, 0xBF)]
  else none

/-- The first fault of `bytes`, of which the first stands at `index`. `start` is where the
character being read began and `owed` the ranges of the bytes it still lacks. -/
def utf8FaultFrom (start index : Nat) (owed : List (Nat × Nat)) : List UInt8 → Option Utf8Fault
  | [] => if owed.isEmpty then none else some (.incomplete start)
  | b :: rest =>
    match owed with
    | (lo, hi) :: more =>
      if lo ≤ b.toNat && b.toNat ≤ hi then utf8FaultFrom start (index + 1) more rest
      else some (.invalid start (index - start))
    | [] =>
      match continuation b.toNat with
      | some more => utf8FaultFrom index (index + 1) more rest
      | none => some (.invalid index 1)

def utf8Fault? (bytes : ByteArray) : Option Utf8Fault :=
  utf8FaultFrom 0 0 [] bytes.toList

def decode (bytes : ByteArray) : Except Utf8Fault String :=
  match String.fromUTF8? bytes with
  | some s => .ok s
  | none => .error ((utf8Fault? bytes).getD (.incomplete 0))

end Legible.Text
