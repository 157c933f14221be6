import MatchRust.Lib.Decimal
import MatchRust.Lib.SortedSet
import MatchRust.Lib.Sweep
import MatchRust.Protocol.Order
import MatchRust.Core.Order
import MatchRust.Core.Book
import MatchRust.Core.Limit
import MatchRust.Core.Height
import MatchRust.Core.Engine
import MatchRust.Core.Taker
import MatchRust.Core.Invariant
import MatchRust.Core.Sweeps
import MatchRust.Core.FillOrKill
import MatchRust.Core.Settle
import MatchRust.Core.Reachable
import MatchRust.Core.Outcomes
import MatchRust.Core.Reference
import MatchRust.Core.Depth
import MatchRust.Lib.Grouping
import MatchRust.Lib.Slab
import MatchRust.Lib.SortedMap
import MatchRust.Hp.Types
import MatchRust.Hp.LevelIndex
import MatchRust.Hp.Book
import MatchRust.Hp.Engine
import MatchRust.Hp.Frames
import MatchRust.Hp.Queue
import MatchRust.Hp.Represents
import MatchRust.Hp.Matching
import MatchRust.Hp.Settle
import MatchRust.Hp.Reachable
import MatchRust.Hp.Reference
import MatchRust.Hp.ClientIndex
import MatchRust.Hp.Scale
import MatchRust.Lib.Numeral
import MatchRust.Hp.ScaleExact
import MatchRust.Hp.Format
import MatchRust.Contract.Outbound
import MatchRust.Hp.Adapter
import MatchRust.Hp.Revoke
import MatchRust.Hp.ArtIndex
import MatchRust.Hp.ArtTree
import MatchRust.Hp.IndexSim
import MatchRust.Hp.ArtParity
import MatchRust.Lib.Bytes
import MatchRust.Lib.Log
import MatchRust.Raft.Fsm
import MatchRust.Raft.Replica
import MatchRust.Raft.Codec
import MatchRust.Lib.Runs
import MatchRust.Lib.Numbered
import MatchRust.Udp.Session
import MatchRust.Udp.World
import MatchRust.Udp.Calls
import MatchRust.Udp.Orders
import MatchRust.Udp.Reports
import MatchRust.Udp.Server
import MatchRust.Mold.Wire
import MatchRust.Mold.Ring
import MatchRust.Mold.Endpoints
import MatchRust.Mold.Hostile
import MatchRust.Mold.Overflow
import MatchRust.Mold.Sessions
import MatchRust.Mold.Batch
import MatchRust.Mold.Feed
import MatchRust.Mold.Threads
import MatchRust.Mold.Repair
import MatchRust.Lib.Text
import MatchRust.Lib.Utf8
import MatchRust.Lib.Framing
import MatchRust.Soup.Packet
import MatchRust.Soup.Stream
import MatchRust.Soup.Ouch
import MatchRust.Soup.Session
import MatchRust.Soup.World
import MatchRust.Soup.Resume
import MatchRust.Cross.Lines
import MatchRust.Cross.Agreement
import MatchRust.Lib.Storage
import MatchRust.Hp.Journal
import MatchRust.Hp.JournalCrash
import MatchRust.Hp.JournalReads
import MatchRust.Hp.Totals
import MatchRust.Hp.CancelFrame
import MatchRust.Wal.Flusher
import MatchRust.Wal.Fidelity
import MatchRust.Wal.Retries
import MatchRust.Lib.Counter
import MatchRust.Hp.Spsc
import MatchRust.Hp.Worker
import MatchRust.Core.Levels
import MatchRust.Core.Market
import MatchRust.Core.Statuses
import MatchRust.Lib.Paired
import MatchRust.Core.Simulation
import MatchRust.Core.Mirror
import MatchRust.Core.Resting
import MatchRust.Core.Restore
import MatchRust.Core.Average
import MatchRust.Lib.DecimalText
import MatchRust.Lib.DecimalDisplay
import MatchRust.Hp.Accepts
import MatchRust.Spot.Depth
import MatchRust.Lib.SearchTree
import MatchRust.Core.Keys
import MatchRust.Core.Work
import MatchRust.Hp.TextValue
import MatchRust.Cross.Pushes
import MatchRust.Core.Symbols
import MatchRust.Lib.Workers
import MatchRust.Lib.Outbox
import MatchRust.Protocol.Validate
import MatchRust.Contract.Service
import MatchRust.Contract.Routing
import MatchRust.Contract.Delivery
import MatchRust.Contract.Startup
import MatchRust.Contract.MemoryMq
import MatchRust.Spot.Service
import MatchRust.Spot.Delivery
import MatchRust.Spot.Shutdown
import MatchRust.Spot.Feed
