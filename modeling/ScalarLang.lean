import ScalarLang.Main
import ScalarLang.Proofs.Layout
import ScalarLang.Proofs.Verified
import ScalarLang.Proofs.TypeSafety
import ScalarLang.Proofs.Reading
import ScalarLang.Proofs.Typed
import ScalarLang.Proofs.Building
import ScalarLang.Proofs.Construction
import ScalarLang.Proofs.Lowered
import ScalarLang.Proofs.Generated
import ScalarLang.Proofs.Sessions
import ScalarLang.Proofs.Evaluator
import ScalarLang.Proofs.Simulation
import ScalarLang.Proofs.Correctness
import ScalarLang.Proofs.Closed
import ScalarLang.Proofs.Literals
import ScalarLang.Proofs.Lexing
import ScalarLang.Proofs.Concrete
import ScalarLang.Proofs.Moves
import ScalarLang.Proofs.Grouping
import ScalarLang.Proofs.Fuel
import ScalarLang.Proofs.Printing
import ScalarLang.Proofs.Parsing
import ScalarLang.Proofs.RoundTrip
import ScalarLang.Proofs.Progress
import ScalarLang.Proofs.Evaluation
import ScalarLang.Proofs.Programs
import ScalarLang.Proofs.Places
import ScalarLang.Proofs.Tracking
import ScalarLang.Proofs.Seams
import ScalarLang.Proofs.Histories
import ScalarLang.Proofs.Edges
import ScalarLang.Proofs.Dominance
import ScalarLang.Proofs.Acceptance
import ScalarLang.Proofs.Derivation
import ScalarLang.Proofs.Additions
import ScalarLang.Proofs.Faults
import ScalarLang.Proofs.Recursion
import ScalarLang.Proofs.Counting
import ScalarLang.Proofs.Depth
import ScalarLang.Proofs.Availability
import ScalarLang.Proofs.Wiring
import ScalarLang.Proofs.ControlFlow
import ScalarLang.Proofs.SingleAssignment
import ScalarLang.Proofs.Activations
import ScalarLang.Proofs.Phis
import ScalarLang.Proofs.Spacing
import ScalarLang.Proofs.Stretches
import ScalarLang.Proofs.Nesting
import ScalarLang.Proofs.Lines
import ScalarLang.Proofs.Rendering
import ScalarLang.Proofs.Consumption
import ScalarLang.Proofs.Naming
import ScalarLang.Proofs.Constants
import ScalarLang.Proofs.PlainNames
import ScalarLang.Proofs.ListingWords
import ScalarLang.Proofs.Listings
import ScalarLang.Proofs.Permutation
