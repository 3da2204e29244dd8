import TimeTape.Command
import TimeTape.Files.Tree
import TimeTape.Json.Defect
import TimeTape.Main
import TimeTape.Server.Conversation
import TimeTape.Proofs.Breakpoints
import TimeTape.Proofs.Diagnostics
import TimeTape.Proofs.Loops.Simulation
import TimeTape.Proofs.Recurrence
import TimeTape.Proofs.Termination
import TimeTape.Proofs.Undoing
import TimeTape.Proofs.Records
import TimeTape.Proofs.Debugging
import TimeTape.Proofs.Nesting
import TimeTape.Proofs.Delays
import TimeTape.Proofs.Documents
import TimeTape.Proofs.Partners
import TimeTape.Proofs.Positions
import TimeTape.Proofs.Lookup
import TimeTape.Proofs.Definitions
import TimeTape.Proofs.Unmatched
import TimeTape.Proofs.Limits
import TimeTape.Proofs.Ranges
import TimeTape.Proofs.Arithmetic
import TimeTape.Proofs.EndlessMemory
import TimeTape.Proofs.Erasing
import TimeTape.Proofs.Profile
import TimeTape.Proofs.Accounting
import TimeTape.Proofs.Lines
import TimeTape.Proofs.Excess
import TimeTape.Proofs.Exchange
import TimeTape.Proofs.BreakpointTable
import TimeTape.Proofs.SingleSteps
import TimeTape.Proofs.Cancellation
import TimeTape.Proofs.Loading
import TimeTape.Proofs.Inversion
import TimeTape.Proofs.Text
import TimeTape.Proofs.BreakpointLists
import TimeTape.Proofs.Manifests
import TimeTape.Proofs.Console
