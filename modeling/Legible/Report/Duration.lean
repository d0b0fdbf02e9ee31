/-!
# Durations

A duration is shown in the largest unit of which it has at least one, with two decimals. The unit
is chosen first, so that just under one millisecond is a thousand microseconds; a half is rounded
to the even neighbour.
-/

namespace Legible.Report

/-- The quotient rounded to the nearest number, a half to the even one. -/
def roundDiv (num den : Nat) : Nat :=
  let q := num / den
  let r := num % den
  if den < 2 * r || (den = 2 * r && q % 2 = 1) then q + 1 else q

/-- The unit for a duration: how many nanoseconds it has, and its sign. -/
def unitFor (nanos : Nat) : Nat × String :=
  if 1000000000 ≤ nanos then (1000000000, "s")
  else if 1000000 ≤ nanos then (1000000, "ms")
  else if 1000 ≤ nanos then (1000, "µs")
  else (1, "ns")

/-- A number of hundredths as a decimal. -/
def hundredths (n : Nat) : String :=
  let rest := n % 100
  toString (n / 100) ++ "." ++ (if rest < 10 then "0" else "") ++ toString rest

def duration (nanos : Nat) : String :=
  let (unit, sign) := unitFor nanos
  hundredths (roundDiv (nanos * 100) unit) ++ sign

end Legible.Report
