import Cs426.Lib.Machine
import Cs426.Lib.Logs
import Cs426.Lib.Majority
import Cs426.Lib.Expiry
import Cs426.Lib.Batches
import Cs426.Lib.Scan
import Cs426.Lib.Counting
import Cs426.Lib.Striping
import Cs426.Lib.InPlace
import Cs426.Lib.Walkers
import Cs426.Lib.Draws
import Cs426.Consensus.Basic
import Cs426.Consensus.Cluster
import Cs426.Consensus.LogMatching
import Cs426.Consensus.Term
import Cs426.Consensus.Commit
import Cs426.Consensus.CommitRule
import Cs426.Consensus.Indices
import Cs426.Consensus.Repair
import Cs426.Consensus.Elections
import Cs426.Consensus.Completeness
import Cs426.Consensus.Safety
import Cs426.Rpc.Network
import Cs426.Rpc.Calls
import Cs426.Rpc.Harness
import Cs426.Rpc.Restart
import Cs426.Rpc.Wiring
import Cs426.Rpc.Labgob
import Cs426.Kv.Shard
import Cs426.Kv.ExpiringMap
import Cs426.Kv.ShardMap
import Cs426.Kv.Validity
import Cs426.Kv.FileShardMap
import Cs426.Kv.MakeShardmap
import Cs426.Kv.Server
import Cs426.Kv.Effects
import Cs426.Kv.Requests
import Cs426.Kv.Copying
import Cs426.Kv.Drift
import Cs426.Kv.Cluster
import Cs426.Kv.Placement
import Cs426.Kv.Migration
import Cs426.Kv.Provenance
import Cs426.Kv.ShardCopy
import Cs426.Kv.Client
import Cs426.Kv.Failover
import Cs426.Kv.ReadYourWrites
import Cs426.Kv.Workflow
import Cs426.Kv.Replicas
import Cs426.Kv.MoveShard
import Cs426.Kv.DrainNode
import Cs426.VideoRec.Basic
import Cs426.VideoRec.Backends
import Cs426.VideoRec.Ranking
import Cs426.VideoRec.Ranker
import Cs426.VideoRec.HashFormat
import Cs426.VideoRec.Service
import Cs426.VideoRec.Batching
import Cs426.VideoRec.Stats
import Cs426.VideoRec.Trending
import Cs426.VideoRec.RoundRobin
import Cs426.VideoRec.Databases
import Cs426.VideoRec.LoadTest
import Cs426.Checker.Basic
import Cs426.Checker.Overlap
import Cs426.Checker.Detection
import Cs426.Checker.FalseAlarm
import Cs426.Checker.Stress
import Cs426.Kv.Deadlock
import Cs426.Kv.System
import Cs426.Kv.Routing
import Cs426.Kv.Snapshot
import Cs426.Kv.Startup
import Cs426.Kv.ClientPool
