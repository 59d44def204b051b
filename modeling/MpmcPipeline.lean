import MpmcPipeline.Machine.Basic
import MpmcPipeline.Machine.Exclusive
import MpmcPipeline.Machine.History
import MpmcPipeline.Machine.Rotation
import MpmcPipeline.Machine.Requeue
import MpmcPipeline.Machine.Ledger
import MpmcPipeline.Machine.Program
import MpmcPipeline.Machine.Recorded
import MpmcPipeline.Machine.Loop
import MpmcPipeline.Machine.Parallel
import MpmcPipeline.Machine.Progress
import MpmcPipeline.Mpmc.Ring
import MpmcPipeline.Mpmc.Steps
import MpmcPipeline.Mpmc.Conservation
import MpmcPipeline.Mpmc.Fifo
import MpmcPipeline.Mpmc.Spsc
import MpmcPipeline.Mpmc.Search
import MpmcPipeline.Mpmc.Scan
import MpmcPipeline.Mpmc.Cursors
import MpmcPipeline.Wire.Codec
import MpmcPipeline.Wire.Memory
import MpmcPipeline.Wire.Text
import MpmcPipeline.Wire.Double
import MpmcPipeline.Wire.Splitter
import MpmcPipeline.Wire.Alignment
import MpmcPipeline.Proto.Message
import MpmcPipeline.Proto.Layouts
import MpmcPipeline.Proto.Record
import MpmcPipeline.Proto.Sbe
import MpmcPipeline.Proto.Reencode
import MpmcPipeline.Proto.Eti
import MpmcPipeline.Mem.Pool
import MpmcPipeline.Mem.Handoff
import MpmcPipeline.Mem.Exclusivity
import MpmcPipeline.Mem.Sequential
import MpmcPipeline.Mem.Writes
import MpmcPipeline.Mem.Worker
import MpmcPipeline.Mem.Knowledge
import MpmcPipeline.Mem.Copies
import MpmcPipeline.Mem.Alone
import MpmcPipeline.Mem.Coherence
import MpmcPipeline.Mem.StaleBytes
import MpmcPipeline.Mem.Usage
import MpmcPipeline.Mem.Contract
import MpmcPipeline.Mem.Accounts
import MpmcPipeline.Mem.Slots
import MpmcPipeline.Mem.Mapping
import MpmcPipeline.Mpmc.Runtime
import MpmcPipeline.Mpmc.Shutdown
import MpmcPipeline.Mpmc.Accounting
import MpmcPipeline.Net.Socket
import MpmcPipeline.Net.Holding
import MpmcPipeline.Feed.Inlet
import MpmcPipeline.Feed.Delivery
import MpmcPipeline.Feed.Discipline
import MpmcPipeline.Feed.Writers
import MpmcPipeline.Feed.Quiet
import MpmcPipeline.Feed.SoleWriter
import MpmcPipeline.Feed.Stopping
import MpmcPipeline.Feed.Counters
import MpmcPipeline.Host.Process
import MpmcPipeline.Host.Descriptors
import MpmcPipeline.Host.Lifecycle
import MpmcPipeline.Host.Turns
import MpmcPipeline.Host.Datagrams
import MpmcPipeline.Host.Programs
import MpmcPipeline.Host.Delivery
import MpmcPipeline.Host.Watch
import MpmcPipeline.Host.Ends
import MpmcPipeline.Trading.Strategy
import MpmcPipeline.Trading.Exact
import MpmcPipeline.Trading.Messages
import MpmcPipeline.Trading.Producer
import MpmcPipeline.Trading.Consumer
import MpmcPipeline.Trading.Gateway
import MpmcPipeline.Trading.Ingress
import MpmcPipeline.Trading.ItchFrames
import MpmcPipeline.Trading.MtbtFrames
import MpmcPipeline.Trading.Pipeline
import MpmcPipeline.Trading.Moves
import MpmcPipeline.Trading.Ingestion
import MpmcPipeline.Trading.Ownership
import MpmcPipeline.Trading.Fidelity
import MpmcPipeline.Trading.Orders
import MpmcPipeline.Trading.Identity
import MpmcPipeline.Trading.Interference
import MpmcPipeline.Trading.Drain
import MpmcPipeline.Trading.SharedMarket
import MpmcPipeline.Trading.Routing
import MpmcPipeline.Trading.Schedule
import MpmcPipeline.Trading.Routines
import MpmcPipeline.Trading.TagCoherence
import MpmcPipeline.Trading.Refinement
import MpmcPipeline.Trading.Scaling
import MpmcPipeline.Trading.Book
import MpmcPipeline.Trading.Reference
import MpmcPipeline.Trading.Symbols
import MpmcPipeline.Trading.Echo
import MpmcPipeline.Trading.Backlog
import MpmcPipeline.Trading.Compressed
import MpmcPipeline.Trading.Dataflow
import MpmcPipeline.Trading.Conservation
