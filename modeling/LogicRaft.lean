import LogicRaft.Common.Codec
import LogicRaft.Common.Reach
import LogicRaft.Raft.Log
import LogicRaft.Raft.State
import LogicRaft.Raft.Election
import LogicRaft.Raft.Replication
import LogicRaft.Cluster.System
import LogicRaft.Cluster.Inversion
import LogicRaft.Cluster.Persistence
import LogicRaft.Cluster.Votes
import LogicRaft.Cluster.Leaders
import LogicRaft.Cluster.Commit
import LogicRaft.Common.LeaderLogs
import LogicRaft.Cluster.History
import LogicRaft.Cluster.NodeLog
import LogicRaft.Cluster.Safety
import LogicRaft.Cluster.ApplyStream
import LogicRaft.Common.FinmapCodec
import LogicRaft.KV.StateMachine
import LogicRaft.KV.Server
import LogicRaft.Common.FirstCopies
import LogicRaft.KV.ExactlyOnce
import LogicRaft.KV.Snapshots
import LogicRaft.KV.Requests
import LogicRaft.KV.Rewind
import LogicRaft.KV.Answers
import LogicRaft.Cluster.Matching
import LogicRaft.Cluster.LogSteps
import LogicRaft.Cluster.Pairing
import LogicRaft.Cluster.LeaderPeriod
import LogicRaft.Cluster.TermDiscipline
import LogicRaft.Cluster.WakeUps
import LogicRaft.Cluster.IndexSafety
import LogicRaft.Raft.Compaction
import LogicRaft.Cluster.DeliveryOrder
import LogicRaft.KV.Threads
import LogicRaft.Common.Slices
import LogicRaft.KV.DiskStore
import LogicRaft.Raft.MajorityIndex
import LogicRaft.Cluster.Backup
import LogicRaft.Cluster.Numbering
import LogicRaft.Cluster.Progress
import LogicRaft.KV.Channels
import LogicRaft.KV.Serving
import LogicRaft.Common.DancingLinks
import LogicRaft.Common.Linearizability
import LogicRaft.Common.MemoSearch
import LogicRaft.Porcupine.Bitset
import LogicRaft.Porcupine.CheckHistory
import LogicRaft.Cluster.AppliedLog
import LogicRaft.KV.Books
import LogicRaft.KV.Linearizable
import LogicRaft.Labrpc.Network
