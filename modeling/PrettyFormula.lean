import PrettyFormula.FileTree
import PrettyFormula.Main
import PrettyFormula.Proofs.Scanning
import PrettyFormula.Proofs.Filling
import PrettyFormula.Proofs.Matching
import PrettyFormula.Proofs.Nesting
import PrettyFormula.Proofs.Placement
import PrettyFormula.Proofs.RoundTrip
import PrettyFormula.Proofs.Rows
import PrettyFormula.Proofs.Formatting
import PrettyFormula.Proofs.Grammar
import PrettyFormula.Proofs.Spacing
import PrettyFormula.Proofs.Printing
import PrettyFormula.Proofs.Closing
import PrettyFormula.Proofs.Partners
import PrettyFormula.Proofs.Groups
import PrettyFormula.Proofs.Cramming
import PrettyFormula.Proofs.Standing
import PrettyFormula.Proofs.Appending
import PrettyFormula.Proofs.Joining
import PrettyFormula.Proofs.Clumps
import PrettyFormula.Proofs.Easing
import PrettyFormula.Proofs.Dividing
import PrettyFormula.Proofs.Listings
import PrettyFormula.Proofs.OneLine
import PrettyFormula.Proofs.Strictness
import PrettyFormula.Proofs.Blocks
import PrettyFormula.Proofs.Greedy
import PrettyFormula.Proofs.Fences
import PrettyFormula.Proofs.Padding
import PrettyFormula.Proofs.Running
