import Legible.Binding.Names
import Legible.Index.Build

/-!
# Analysis of a set of units

All units are indexed together; then each gets its symbols, so that a name may refer to what
another unit declares.
-/

namespace Legible

structure AnalyzedUnit where
  unit : SourceUnit
  symbols : Symbols

def analyze (d : Dictionary) (policy : NamingPolicy) (units : List SourceUnit) :
    List AnalyzedUnit :=
  let index := Index.build units
  units.zipIdx.map fun (unit, number) =>
    { unit, symbols := Symbols.ofUnit d policy { unit, number, index } }

end Legible
