import Straightline.Cause
import Straightline.Directory
import Straightline.Main
import Straightline.Proofs.DenseSet
import Straightline.Proofs.Graph
import Straightline.Proofs.Simplify
import Straightline.Proofs.Coloring
import Straightline.Proofs.Liveness
import Straightline.Proofs.LivePoints
import Straightline.Proofs.Interference
import Straightline.Proofs.Allocation
import Straightline.Proofs.MoreRegisters
import Straightline.Proofs.Rounds
import Straightline.Proofs.Execution
import Straightline.Proofs.Pressure
import Straightline.Proofs.GraphRuns
import Straightline.Proofs.Rune
import Straightline.Proofs.Overlap
import Straightline.Proofs.Reading
import Straightline.Proofs.Written
import Straightline.Proofs.Printed
import Straightline.Proofs.Program
import Straightline.Proofs.Bounds
import Straightline.Proofs.Lexical
import Straightline.Proofs.Derivation
import Straightline.Proofs.Acceptance
import Straightline.Proofs.Interning
import Straightline.Proofs.SetRuns
import Straightline.Proofs.Signature
import Straightline.Proofs.Lowering
import Straightline.Proofs.Loading
import Straightline.Proofs.Errors
import Straightline.Proofs.Listing
import Straightline.Proofs.Arity
import Straightline.Proofs.Renaming
import Straightline.Proofs.Renumbering
import Straightline.Proofs.Scanning
import Straightline.Proofs.Building
import Straightline.Proofs.RoundTrip
import Straightline.Proofs.RegisterListing
import Straightline.Proofs.Reprinting
import Straightline.Proofs.Wording
import Straightline.Proofs.Concatenation
import Straightline.Proofs.Nesting
import Straightline.Proofs.Boundary
import Straightline.Proofs.LineBreaks
import Straightline.Proofs.Position
import Straightline.Proofs.BlockRuns
import Straightline.Proofs.Verification
import Straightline.Proofs.EdgeList
import Straightline.Proofs.Pieces
import Straightline.Proofs.RegisterFile
