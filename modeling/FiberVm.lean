import FiberVm.Files.Tree
import FiberVm.Instr.Builder
import FiberVm.Main
import FiberVm.Proofs.Heap.Cell
import FiberVm.Proofs.Heap.Mark
import FiberVm.Proofs.Heap.Sweep
import FiberVm.Proofs.Heap.Collection
import FiberVm.Proofs.Heap.Access
import FiberVm.Proofs.Heap.Queue
import FiberVm.Proofs.Heap.Allocation
import FiberVm.Proofs.Heap.Initial
import FiberVm.Proofs.Machine.Rename
import FiberVm.Proofs.Machine.Scheduling
import FiberVm.Proofs.Heap.Pins
import FiberVm.Proofs.Heap.Taking
import FiberVm.Proofs.Machine.Alike
import FiberVm.Proofs.Machine.Simulation
import FiberVm.Proofs.Machine.Operators
import FiberVm.Proofs.Machine.Communication
import FiberVm.Proofs.Machine.Builtins
import FiberVm.Proofs.Machine.Calls
import FiberVm.Proofs.Machine.Instructions
import FiberVm.Proofs.Machine.Cycle
import FiberVm.Proofs.Machine.Turn
import FiberVm.Proofs.Machine.Play
import FiberVm.Proofs.Machine.WellTyped
import FiberVm.Proofs.Machine.Unobservable
import FiberVm.Proofs.Heap.FreeStack
import FiberVm.Proofs.Machine.Variables
import FiberVm.Proofs.Heap.Drift
import FiberVm.Proofs.Heap.Wiring
import FiberVm.Proofs.Machine.Deeds
import FiberVm.Proofs.Machine.Execution
import FiberVm.Proofs.Machine.Outcome
import FiberVm.Proofs.Machine.Channels
import FiberVm.Proofs.Machine.Orderly
import FiberVm.Proofs.Machine.Parking
import FiberVm.Proofs.Machine.Census
import FiberVm.Proofs.Machine.Fibers
import FiberVm.Proofs.Machine.Ledger
import FiberVm.Proofs.Cbor.Items
import FiberVm.Proofs.Program.Cbor
import FiberVm.Proofs.Program.Records
import FiberVm.Proofs.Json.Reader
import FiberVm.Proofs.Json.Text
import FiberVm.Proofs.Json.Object
import FiberVm.Proofs.Json.Value
import FiberVm.Proofs.Program.Json
import FiberVm.Proofs.Program.Ranges
import FiberVm.Proofs.Program.RoundTrip
import FiberVm.Proofs.Heap.Shape
import FiberVm.Proofs.Heap.Building
import FiberVm.Proofs.Heap.Orders
import FiberVm.Proofs.Machine.Reorder
import FiberVm.Proofs.Machine.Sturdy
import FiberVm.Proofs.Machine.Level
import FiberVm.Proofs.Machine.Footing
import FiberVm.Proofs.Machine.Travel
import FiberVm.Proofs.Machine.CallReturn
import FiberVm.Proofs.Program.Checked
import FiberVm.Proofs.Machine.Keeps
import FiberVm.Proofs.Machine.Counters
import FiberVm.Proofs.Debugger
import FiberVm.Proofs.Stepping
import FiberVm.Proofs.Machine.Decoded
import FiberVm.Proofs.Machine.Deadlock
import FiberVm.Proofs.Machine.WaitGroups
import FiberVm.Proofs.Machine.Slices
import FiberVm.Proofs.Machine.Stages
import FiberVm.Proofs.Machine.RoundRobin
import FiberVm.Proofs.Machine.Visits
import FiberVm.Proofs.Machine.Conduct
import FiberVm.Proofs.Machine.Effects
import FiberVm.Proofs.Machine.Sleepers
import FiberVm.Proofs.Machine.Naps
import FiberVm.Proofs.Machine.Sums
import FiberVm.Proofs.Machine.Constructors
import FiberVm.Proofs.Machine.Bindings
import FiberVm.Proofs.Heap.Scopes
import FiberVm.Proofs.Machine.Arithmetic
import FiberVm.Proofs.Machine.Overlooks
import FiberVm.Proofs.Machine.Gaps
import FiberVm.Proofs.Commands
import FiberVm.Proofs.Instr.Labels
import FiberVm.Proofs.Machine.Bodies
import FiberVm.Proofs.Heap.Boxing
import FiberVm.Proofs.Machine.StackEffects
import FiberVm.Proofs.Config
import FiberVm.Proofs.Heap.Rings
import FiberVm.Proofs.Profiler
