import FiberMachine.Assembler
import FiberMachine.Execution.Snapshot
import FiberMachine.Proofs.Calls
import FiberMachine.Proofs.Order
import FiberMachine.Proofs.Registrations
import FiberMachine.Proofs.Exhaustion
import FiberMachine.Proofs.Safety
import FiberMachine.Proofs.Invisible
import FiberMachine.Proofs.Ideal.Grouping
import FiberMachine.Proofs.Isolation
import FiberMachine.Proofs.Constancy
import FiberMachine.Proofs.Limits
import FiberMachine.Proofs.Positions
import FiberMachine.Proofs.WaitGroups
import FiberMachine.Proofs.Ideal.Exchanging
import FiberMachine.Proofs.Ideal.Selecting
import FiberMachine.Proofs.Renaming
import FiberMachine.Proofs.Origins
import FiberMachine.Proofs.Selection
import FiberMachine.Proofs.Verdict
import FiberMachine.Proofs.Values
import FiberMachine.Proofs.Comparison
import FiberMachine.Proofs.Parking
import FiberMachine.Proofs.Naming
import FiberMachine.Proofs.Graph.Basic
import FiberMachine.Proofs.Graph.Chains
import FiberMachine.Proofs.Graph.Channels
import FiberMachine.Proofs.Graph.Copies
import FiberMachine.Proofs.Graph.Operations
import FiberMachine.Proofs.Reslicing
import FiberMachine.Proofs.Integers
import FiberMachine.Proofs.RoundRobin
import FiberMachine.Proofs.TimeSlices
import FiberMachine.Proofs.Harmless
import FiberMachine.Proofs.Fifo
import FiberMachine.Proofs.Lifo
import FiberMachine.Proofs.Chaining
import FiberMachine.Proofs.Variables
import FiberMachine.Proofs.BitStream
import FiberMachine.Proofs.ListEdits
import FiberMachine.Proofs.Incremental
