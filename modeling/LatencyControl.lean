import LatencyControl.Flow.Operation
import LatencyControl.Flow.Plan
import LatencyControl.Flow.Snapshot
import LatencyControl.Flow.Transform
import LatencyControl.Main
import LatencyControl.Monitor.Model
import LatencyControl.Proofs.Control.Stream
import LatencyControl.Proofs.Flow.LineRun
import LatencyControl.Proofs.Flow.Arriving
import LatencyControl.Proofs.Flow.States
import LatencyControl.Proofs.Monitor.Deployed
import LatencyControl.Proofs.Monitor.Interleaving
import LatencyControl.Proofs.Monitor.Reporting
import LatencyControl.Proofs.Monitor.Staleness
import LatencyControl.Proofs.Monitor.Watching
import LatencyControl.Proofs.Path.Twins
import LatencyControl.Proofs.Role.Sampling
import LatencyControl.Report.Center
import LatencyControl.Role.Document
import LatencyControl.Text.Quoted
import LatencyControl.Proofs.Control.Canonical
import LatencyControl.Proofs.Monitor.Staffing
import LatencyControl.Proofs.Role.Partition
import LatencyControl.Proofs.Role.Rearranged
import LatencyControl.Proofs.Report.Spreading
import LatencyControl.Proofs.Report.Spacing
import LatencyControl.Proofs.Topology.Indexed
import LatencyControl.Proofs.Monitor.Placing
import LatencyControl.Proofs.Monitor.Channels
import LatencyControl.Proofs.Flow.Parking
import LatencyControl.Proofs.Flow.Passing
import LatencyControl.Proofs.Role.Choosing
import LatencyControl.Proofs.Role.Sharing
import LatencyControl.Proofs.Role.Counting
import LatencyControl.Proofs.Topology.Kept
import LatencyControl.Proofs.Monitor.Breakdown
import LatencyControl.Proofs.Monitor.Capacity
import LatencyControl.Proofs.Report.Probing
import LatencyControl.Proofs.Report.Enlisting
import LatencyControl.Proofs.Flow.Flushing
import LatencyControl.Proofs.Flow.Dispatching
import LatencyControl.Proofs.Flow.Repeating
import LatencyControl.Proofs.Flow.Reusing
import LatencyControl.Proofs.Role.Entries
import LatencyControl.Proofs.Report.Overflow
import LatencyControl.Proofs.Flow.InTurn
