import Legible.Binding.Symbols
import Legible.Naming.TypeDerived
import Legible.Text.LineEnding

/-!
# Settings of a run

Settings come from three layers: defaults, a settings file, and the command line. Of two layers
that give a value the later one counts; renaming is on when any layer turns it on.
-/

namespace Legible

inductive RunMode where
  | fix
  | dump (wanted : Found)
deriving Repr, DecidableEq

def Found.word : Found → String
  | .valid => "valid"
  | .missing => "missing"

structure FileSettings where
  symbols : Option String := none
  lineEnding : Option LineEnding := none
  renameLocals : Option Bool := none
deriving Repr, DecidableEq

/-- What the command line says. -/
structure Overrides where
  paths : List String := []
  symbols : Option String := none
  lineEnding : Option LineEnding := none
  renameLocals : Bool := false
  mode : RunMode := .fix
deriving Repr, DecidableEq

structure Settings where
  paths : List String
  symbols : String
  lineEnding : LineEnding
  mode : RunMode
  renameLocals : Bool
deriving Repr, DecidableEq

namespace Settings

/-- The settings that the layers give together; `symbols` is the default path of the
dictionary. -/
def resolve (symbols : String) (file : Option FileSettings) (o : Overrides) : Settings :=
  let file := file.getD {}
  { paths := o.paths
    symbols := (o.symbols.or file.symbols).getD symbols
    lineEnding := (o.lineEnding.or file.lineEnding).getD .lf
    mode := o.mode
    renameLocals := o.renameLocals || file.renameLocals.getD false }

def policy (s : Settings) : NamingPolicy :=
  if s.renameLocals then .typeDerived else .preserve

end Settings

end Legible
