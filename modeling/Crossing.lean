import Crossing.Log
import Crossing.Main
import Crossing.Script.Fidelity
import Crossing.Wire.Batch
import Crossing.Proofs.Log.RoundTrip
import Crossing.Proofs.Log.Routes
import Crossing.Proofs.Scan.Recorded
import Crossing.Proofs.Stamp.Additive
import Crossing.Proofs.Stamp.Candidate
import Crossing.Proofs.Stamp.Failure
import Crossing.Proofs.Stamp.Reread
import Crossing.Proofs.Stamp.Settled
import Crossing.Proofs.Glob.Match
import Crossing.Proofs.Glob.Pattern
import Crossing.Proofs.Scan.Ignored
import Crossing.Proofs.Path.Below
import Crossing.Proofs.FileTree.Proper
import Crossing.Proofs.Scan.Walk
import Crossing.Proofs.Scan.Analysis
import Crossing.Proofs.Scan.Subtree
import Crossing.Proofs.FileTree.Holds
import Crossing.Proofs.Scan.Relocation
import Crossing.Proofs.Report.Groups
import Crossing.Proofs.Report.Ranking
import Crossing.Proofs.Scan.Ordered
import Crossing.Proofs.Options.Atomic
import Crossing.Proofs.FileTree.Write
import Crossing.Proofs.Command.Scan
import Crossing.Proofs.Options.Growth
import Crossing.Proofs.Options.Pending
import Crossing.Proofs.Stamp.Overlap
import Crossing.Proofs.Stamp.Lines
import Crossing.Proofs.Stamp.Denoted
import Crossing.Proofs.Call.Segments
import Crossing.Proofs.Call.Expression
import Crossing.Proofs.Wire.Agreed
import Crossing.Proofs.Wire.History
import Crossing.Proofs.Log.Parts
import Crossing.Proofs.Report.Counts
import Crossing.Proofs.Report.Painted
import Crossing.Proofs.Report.Printed
import Crossing.Proofs.Report.Coloured
import Crossing.Proofs.Report.Detail
import Crossing.Proofs.Stamp.Ordered
