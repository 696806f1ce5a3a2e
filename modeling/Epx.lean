import Epx.Proofs.Lifecycle
import Epx.Proofs.Proposals
import Epx.Proofs.Promises
import Epx.Proofs.Majority
import Epx.Proofs.Owners
import Epx.Proofs.SlowPath
import Epx.Proofs.Ballots
import Epx.Proofs.Nacks
import Epx.Proofs.Arrays
import Epx.Execute
import Epx.Proofs.Components
import Epx.Proofs.Execution
import Epx.Proofs.Executor
import Epx.Proofs.Buffers
import Epx.Proofs.ExecOrder
import Epx.Node
import Epx.Proofs.Nodes
import Epx.Proofs.Once
import Epx.Proofs.Seen
import Epx.Proofs.Newest
import Epx.Proofs.FreshIds
import Epx.Proofs.Timers
import Epx.Io
import Epx.Wire
import Epx.Proofs.Broadcasts
import Epx.Proofs.RoundTrip
import Epx.Proofs.Reads
import Epx.Access
import Epx.Proofs.Accesses
import Epx.Clients
import Epx.Proofs.Watches
import Epx.Proofs.Coverage
import Epx.Proofs.Misses
import Epx.Absent
import Epx.Proofs.Absences
import Epx.Proofs.Supplies
import Epx.Proofs.Clearing
import Epx.Refs
import Epx.Uses
import Epx.Proofs.Sharing
import Epx.Proofs.Overlaps
import Epx.Proofs.Slots
import Epx.Proofs.Order
import Epx.Proofs.Checkpoints
import Epx.Proofs.Dominance
import Epx.Proofs.Frames
import Epx.Proofs.Agreement
import Epx.Proofs.Tallies
import Epx.Proofs.ReadOnly
import Epx.Proofs.EarlyExits
import Epx.Proofs.Conflicts
import Epx.Proofs.Headers
import Epx.Decode
import Epx.Proofs.Decodes
import Epx.Proofs.Receipts
import Epx.Proofs.Recovery
import Epx.Proofs.Consensus
import Epx.Proofs.Origins
import Epx.Proofs.Known
import Epx.Proofs.InOrder
import Epx.Proofs.Waiting
import Epx.Proofs.Passes
import Epx.Proofs.Alike
import Epx.Proofs.Completion
import Epx.Proofs.Streams
import Epx.Proofs.SimpleChannels
import Epx.Proofs.Links
