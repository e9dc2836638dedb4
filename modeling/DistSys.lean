import DistSys.Lib.Transition
import DistSys.Lib.Majority
import DistSys.Lib.LeaderLog
import DistSys.Lib.LeaderLogInv
import DistSys.Lib.LeaderLogStep
import DistSys.Lib.LeaderLogSafety
import DistSys.Lib.FinMap
import DistSys.Lib.Counter
import DistSys.Lib.Grouping
import DistSys.Lib.Balance
import DistSys.Lib.Linearizable
import DistSys.Lib.Messages
import DistSys.Raft1.Node
import DistSys.Raft1.Cluster
import DistSys.Raft1.Events
import DistSys.Raft1.Compact
import DistSys.Raft1.Coupling
import DistSys.Raft1.Frame
import DistSys.Raft1.Peer
import DistSys.Raft1.ElectionStep
import DistSys.Raft1.AppendStep
import DistSys.Raft1.SnapshotStep
import DistSys.Raft1.ApplyStep
import DistSys.Raft1.CrashStep
import DistSys.Raft1.Held
import DistSys.Raft1.Simulation
import DistSys.Raft1.Incarnation
import DistSys.Raft1.Shape
import DistSys.Raft1.NextIndex
import DistSys.Raft1.Leading
import DistSys.Raft1.Checked
import DistSys.Raft1.Representation
import DistSys.Raft1.CommitRule
import DistSys.Raft1.Backup
import DistSys.Raft1.Bounds
import DistSys.Raft1.Safety
import DistSys.Raft1.Commit
import DistSys.Raft1.Persisted
import DistSys.Raft1.Redelivery
import DistSys.Raft1.MatchIndex
import DistSys.Raft1.Plain
import DistSys.Raft1.Twin
import DistSys.Raft1.Settled
import DistSys.Raft1.CrashFree
import DistSys.Raft1.Tracked
import DistSys.Raft1.PlainStep
import DistSys.Raft1.Compaction
import DistSys.Raft1.Progress
import DistSys.Raft1.Durability
import DistSys.Labrpc.Network
import DistSys.Labrpc.Calls
import DistSys.Tester1.Group
import DistSys.Tester1.UnderWay
import DistSys.Tester1.Refinement
import DistSys.Kvsrv1.Rpc
import DistSys.Kvsrv1.Server
import DistSys.Kvsrv1.Clerk
import DistSys.Kvsrv1.History
import DistSys.Kvsrv1.Linear
import DistSys.Kvsrv1.Definite
import DistSys.Kvsrv1.Lock
import DistSys.Kvsrv1.Exclusion
import DistSys.Rsm.Node
import DistSys.Rsm.Cases
import DistSys.Rsm.SafeRaft
import DistSys.Rsm.Abstraction
import DistSys.Rsm.System
import DistSys.Rsm.Calls
import DistSys.Rsm.Replay
import DistSys.Rsm.Steps
import DistSys.Rsm.Submit
import DistSys.Rsm.WakeUp
import DistSys.Rsm.Removal
import DistSys.Rsm.OpIds
import DistSys.Rsm.Deployed
import DistSys.Rsm.Alignment
import DistSys.Rsm.Requests
import DistSys.Kvraft1.Server
import DistSys.Kvraft1.Snapshot
import DistSys.Kvraft1.Effects
import DistSys.Kvraft1.Duplicates
import DistSys.Models1.Kv
import DistSys.Kvraft1.Checker
import DistSys.Kvraft1.Clerk
import DistSys.Kvraft1.Replicas
import DistSys.Kvraft1.Invariant
import DistSys.Kvraft1.Truthful
import DistSys.Kvtest1.OpLog
import DistSys.Kvraft1.Linearizable
import DistSys.Kvraft1.Service
import DistSys.Kvraft1.Backing
import DistSys.Kvraft1.Requests
import DistSys.Kvraft1.ServerStep
import DistSys.Kvraft1.Refinement
import DistSys.Kvraft1.EndToEnd
import DistSys.Mr.Coordinator
import DistSys.Mr.Tasks
import DistSys.Mr.Conservation
import DistSys.Mr.Worker
import DistSys.Mr.Output
import DistSys.Mr.Batch
import DistSys.Shardkv1.ShardCfg
import DistSys.Shardkv1.Rebalance
import DistSys.Shardkv1.Refusal
