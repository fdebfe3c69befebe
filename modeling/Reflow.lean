import Reflow.Check.Run
import Reflow.CommandLine
import Reflow.Main
import Reflow.Proofs.Analysis.Exits
import Reflow.Proofs.Analysis.Liveness
import Reflow.Proofs.Analysis.Order
import Reflow.Proofs.Check.Directives
import Reflow.Proofs.Check.Matching
import Reflow.Proofs.Copies.Scopes
import Reflow.Proofs.Copies.Temporaries
import Reflow.Proofs.Emit.Nesting
import Reflow.Proofs.Emit.Termination
import Reflow.Proofs.Program.Joining
import Reflow.Proofs.Program.Positions
import Reflow.Proofs.Program.SwitchArms
import Reflow.Proofs.Structured.Blocks
import Reflow.Proofs.Structured.Constructs
import Reflow.Proofs.Structured.Recovery
import Reflow.Proofs.Trace.Configurations
import Reflow.Proofs.Trace.Dominators
import Reflow.Proofs.Trace.Passes
import Reflow.Proofs.Trace.Statistics
import Reflow.Proofs.Trace.Throughout
