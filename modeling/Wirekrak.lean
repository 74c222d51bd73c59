import Wirekrak.Flashstrike.Addressing
import Wirekrak.Flashstrike.Crossing
import Wirekrak.Flashstrike.Ledger
import Wirekrak.Flashstrike.Levels
import Wirekrak.Flashstrike.LimitPrice
import Wirekrak.Flashstrike.ExactBests
import Wirekrak.Flashstrike.Partitions
import Wirekrak.Flashstrike.Priority
import Wirekrak.Flashstrike.Reprice
import Wirekrak.Flashstrike.TradesRing
import Wirekrak.Flashstrike.Notional
import Wirekrak.Flashstrike.OrderIdTable
import Wirekrak.Lockfree.Refinement
import Wirekrak.Protocol.Agreement
import Wirekrak.Protocol.PacedReplay
import Wirekrak.Protocol.Reconnect
import Wirekrak.Protocol.Recovery
import Wirekrak.Transport.Backpressure
import Wirekrak.Transport.History
import Wirekrak.Transport.Oversized
import Wirekrak.Wal.RoundTrip
import Wirekrak.Buffer.Conservation
import Wirekrak.Lockfree.BlockPool
import Wirekrak.Protocol.Lifecycle
import Wirekrak.Protocol.Limits
import Wirekrak.Protocol.Paced
import Wirekrak.Transport.Liveness
import Wirekrak.Transport.Isolation
import Wirekrak.Protocol.Quiescence
import Wirekrak.Lockfree.TaskRing
import Wirekrak.Lockfree.FanoutRing
import Wirekrak.Lockfree.Snapshot
import Wirekrak.Wal.Continuity
import Wirekrak.Wal.Meta
import Wirekrak.Wal.Retention
import Wirekrak.Wal.Mapping
import Wirekrak.Wal.Resume
import Wirekrak.Wal.Integrity
import Wirekrak.Flashstrike.Instrument
import Wirekrak.Protocol.Confluence
import Wirekrak.Protocol.Intent
import Wirekrak.Protocol.Channels
import Wirekrak.Protocol.Lite
import Wirekrak.Protocol.Atomicity
import Wirekrak.Protocol.Containers
import Wirekrak.Lockfree.TryLoad
import Wirekrak.Protocol.TimestampText
import Wirekrak.Protocol.Capacity
import Wirekrak.Flashstrike.Status
import Wirekrak.Protocol.MarketData
import Wirekrak.Protocol.Partitioner
import Wirekrak.Metrics.AtomicStats
import Wirekrak.Metrics.LatencyHistogram
import Wirekrak.Metrics.MonotonicClock
import Wirekrak.Metrics.Stats
import Wirekrak.Transport.Retry
import Wirekrak.Transport.UrlGrammar
import Wirekrak.Transport.Idleness
import Wirekrak.Transport.Hysteresis
import Wirekrak.Flashstrike.NativePools
import Wirekrak.Flashstrike.Textbook
import Wirekrak.Flashstrike.Async
import Wirekrak.Lib.Race
import Wirekrak.Lib.Reach
import Wirekrak.Buffer.LocalRing
import Wirekrak.Protocol.Scheduler
import Wirekrak.Wal.Preparer
import Wirekrak.Wal.Coordinator
import Wirekrak.Protocol.ControlPlane
import Wirekrak.Protocol.InternTable
