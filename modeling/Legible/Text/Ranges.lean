/-!
# Sets of code points as sorted ranges

A character class is given by the inclusive ranges of its code points, in increasing order. The
membership test stops at the first range that starts beyond the point asked for.
-/

namespace Legible.Text

/-- Inclusive ranges of code points, in increasing order. -/
abbrev Ranges := List (Nat × Nat)

def Ranges.contains : Ranges → Nat → Bool
  | [], _ => false
  | (lo, hi) :: rest, n => if n < lo then false else if n ≤ hi then true else contains rest n

end Legible.Text
