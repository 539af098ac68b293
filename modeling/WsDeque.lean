import WsDeque.FiniteUpdate
import WsDeque.MachineWord
import WsDeque.TransitionSystem
import WsDeque.IndexWindow
import WsDeque.IndexProtocol
import WsDeque.Provenance
import WsDeque.Common
import WsDeque.ChaseLev.Model
import WsDeque.ChaseLev.Steps
import WsDeque.ChaseLev.Spec
import WsDeque.ChaseLev.Storage
import WsDeque.ChaseLev.StorageFrames
import WsDeque.ChaseLev.ResizeSteps
import WsDeque.ChaseLev.OwnerSteps
import WsDeque.ChaseLev.StealSteps
import WsDeque.ChaseLev.Refinement
import WsDeque.ChaseLev.Handles
import WsDeque.ChaseLev.Reclaim
import WsDeque.ChaseLev.Reclamation
import WsDeque.Bwos.Block
import WsDeque.Bwos.BlockProtocol
import WsDeque.Bwos.Chain
import WsDeque.Bwos.Account
import WsDeque.Bwos.Bounded
import WsDeque.Bwos.BoundedHistory
import WsDeque.Bwos.BoundedRuns
import WsDeque.Bwos.BoundedDrain
import WsDeque.Bwos.Unbounded
import WsDeque.Bwos.UnboundedSteal
import WsDeque.Bwos.UnboundedDrain
import WsDeque.Grouping
import WsDeque.RaceDetection.Model
import WsDeque.RaceDetection.Determinacy
import WsDeque.Persistent.Crashes
import WsDeque.Persistent.Calls
import WsDeque.Multiplicity.Protocol
import WsDeque.Multiplicity.Coverage
import WsDeque.Multiplicity.Order
import WsDeque.Multiplicity.Claims
import WsDeque.Multiplicity.Contract
import WsDeque.Idempotent.Model
import WsDeque.Idempotent.Storage
import WsDeque.Idempotent.Runs
import WsDeque.Idempotent.Calls
import WsDeque.Idempotent.AtLeastOnce
import WsDeque.Multiplicity.Repeats
import WsDeque.Idempotent.Exclusive
import WsDeque.Linked.Model
import WsDeque.Linked.Storage
import WsDeque.Linked.Runs
import WsDeque.Inline.Model
import WsDeque.Inline.Twin
import WsDeque.Inline.TwinSteps
import WsDeque.Inline.Refinement
import WsDeque.ChaseLev.Alone
import WsDeque.Inline.Imitation
import WsDeque.Priority.Model
import WsDeque.Priority.Scan
import WsDeque.Priority.Refinement
import WsDeque.Priority.Pool
import WsDeque.Bwos.BoundedFull
import WsDeque.Bwos.UnboundedFree
import WsDeque.Bwos.WaitFree
import WsDeque.TaskPool
import WsDeque.Xorshift
import WsDeque.Scheduler.Victims
import WsDeque.Scheduler.Model
import WsDeque.Scheduler.Steps
import WsDeque.Scheduler.Tasks
import WsDeque.Scheduler.Termination
import WsDeque.Scheduler.Panic
import WsDeque.Scheduler.Parking
import WsDeque.Scheduler.Sleep
import WsDeque.Scheduler.Snapshot
import WsDeque.Distributed.Model
import WsDeque.Distributed.Steps
import WsDeque.Distributed.Tasks
import WsDeque.Distributed.Termination
import WsDeque.Distributed.Requests
import WsDeque.Distributed.Panic
import WsDeque.Distributed.Progress
import WsDeque.Scheduler.Statistics
import WsDeque.Scheduler.Probing
import WsDeque.BitFlips
import WsDeque.Scheduler.Lifelines
import WsDeque.Scheduler.Rounds
import WsDeque.IntervalCounter
import WsDeque.Scheduler.Heartbeat
import WsDeque.SerialCalls
import WsDeque.Multiplicity.Fifo
import WsDeque.Idempotent.Serial
import WsDeque.Linked.Serial
import WsDeque.Linked.Agreement
import WsDeque.Inline.Retention
import WsDeque.ChaseLev.Sequential
import WsDeque.ChaseLev.Wraparound
import WsDeque.ChaseLev.Batch
import WsDeque.Jiffy.Model
import WsDeque.Jiffy.Storage
import WsDeque.Jiffy.Slots
import WsDeque.Jiffy.Runs
import WsDeque.Bwos.BoundedFrontier
import WsDeque.ChaseLev.Capacity
import WsDeque.ChaseLev.Backlog
import WsDeque.ChaseLev.StalledThief
import WsDeque.Jiffy.Producers
import WsDeque.Jiffy.Consumer
import WsDeque.Jiffy.Locating
import WsDeque.Jiffy.Dropping
import WsDeque.Jiffy.Fifo
import WsDeque.RaceDetection.Observability
import WsDeque.ChaseLev.Contention
import WsDeque.ChaseLev.Observers
import WsDeque.ChaseLev.BatchPool
import WsDeque.ChaseLev.BatchAccount
import WsDeque.Jiffy.Dequeue
import WsDeque.Bwos.Stack
import WsDeque.Bwos.StackRefinement
import WsDeque.Bwos.HandleOrder
import WsDeque.Scheduler.Leaving
import WsDeque.Distributed.Returning
import WsDeque.Priority.Account
import WsDeque.Priority.Reports
import WsDeque.Idempotent.Dropping
import WsDeque.Linked.Dropping
import WsDeque.DynamicTable
import WsDeque.ChaseLev.ResizeCost
import WsDeque.Linked.Walking
