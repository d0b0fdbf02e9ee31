import Legible.Main
import Legible.Proofs.Binding.Blanks
import Legible.Proofs.Binding.Comments
import Legible.Proofs.Binding.DistinctKeys
import Legible.Proofs.Binding.FileOrder
import Legible.Proofs.Binding.LocalVariables
import Legible.Proofs.Layout.LineEndings
import Legible.Proofs.Survey.Dumps
import Legible.Proofs.Survey.Stable
import Legible.Proofs.Workspace.Runs
import Legible.Proofs.Binding.UnqualifiedCalls
import Legible.Proofs.Index.LocalTypes
import Legible.Proofs.Index.Resolution
import Legible.Proofs.Binding.CaseLabels
import Legible.Proofs.Binding.VariableMembers
import Legible.Proofs.Naming.Stability
import Legible.Proofs.Layout.Separators
import Legible.Proofs.Layout.TokenStream
import Legible.Proofs.Naming.Counting
import Legible.Proofs.Binding.Consistency
import Legible.Proofs.Tree.Faults
import Legible.Proofs.Index.Enclosing
import Legible.Proofs.Binding.BinaryChains
import Legible.Proofs.Binding.Fields
