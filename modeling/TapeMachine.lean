import TapeMachine.Definition.Writer
import TapeMachine.Infinite
import TapeMachine.Machine.Operation
import TapeMachine.Main
import TapeMachine.Proofs.Stepping
import TapeMachine.Proofs.Textbook
import TapeMachine.Proofs.Ceiling
import TapeMachine.Proofs.Consistency
import TapeMachine.Proofs.Rewinding
import TapeMachine.Proofs.Resuming
import TapeMachine.Proofs.Splitting
import TapeMachine.Proofs.Fields
import TapeMachine.Proofs.Defects
import TapeMachine.Proofs.LastWritten
import TapeMachine.Proofs.Reading
import TapeMachine.Proofs.Contents
import TapeMachine.Proofs.Interleaving
import TapeMachine.Proofs.Placing
import TapeMachine.Proofs.FirstDefect
import TapeMachine.Proofs.Trimming
import TapeMachine.Proofs.Written
import TapeMachine.Proofs.RoundTrip
import TapeMachine.Proofs.StepCount
import TapeMachine.Proofs.Modes
import TapeMachine.Proofs.Spelling
import TapeMachine.Proofs.Bracketed
import TapeMachine.Proofs.Resetting
import TapeMachine.Proofs.Tracing
import TapeMachine.Proofs.Padding
import TapeMachine.Proofs.Renumbering
import TapeMachine.Proofs.Layout
import TapeMachine.Proofs.WellFormed
import TapeMachine.Proofs.RuleOrder
import TapeMachine.Proofs.Showing
import TapeMachine.Proofs.Sources
import TapeMachine.Proofs.Sweeping
import TapeMachine.Proofs.Building
import TapeMachine.Proofs.Incrementing
import TapeMachine.Proofs.Operands
import TapeMachine.Proofs.Palindromes
import TapeMachine.Proofs.Copying
import TapeMachine.Proofs.Windowing
import TapeMachine.Proofs.Handling
import TapeMachine.Proofs.Indexing
import TapeMachine.Proofs.Loading
import TapeMachine.Proofs.Parsing
