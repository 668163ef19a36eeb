import Mit6824.Lib.Runs
import Mit6824.Lib.TermLog
import Mit6824.Lib.Consensus
import Mit6824.Lib.Linearizable
import Mit6824.Lib.Grouping
import Mit6824.Lib.Directory
import Mit6824.Lib.Locality
import Mit6824.Lib.Links
import Mit6824.Lib.Loops
import Mit6824.Lib.Backtrack
import Mit6824.Raft.Server
import Mit6824.Raft.Cluster
import Mit6824.Raft.Frames
import Mit6824.Raft.Steps
import Mit6824.Raft.Persist
import Mit6824.Raft.Durable
import Mit6824.Raft.Terms
import Mit6824.Raft.Votes
import Mit6824.Raft.Casts
import Mit6824.Raft.Align
import Mit6824.Raft.Tenure
import Mit6824.Raft.Entries
import Mit6824.Raft.Whole
import Mit6824.Raft.Mirror
import Mit6824.Raft.Handler
import Mit6824.Raft.Acknowledge
import Mit6824.Raft.Backup
import Mit6824.Raft.Behind
import Mit6824.Raft.Stale
import Mit6824.Raft.Stream
import Mit6824.Raft.OnBoard
import Mit6824.Raft.SimVotes
import Mit6824.Raft.SimLog
import Mit6824.Raft.Safety
import Mit6824.Raft.Granular
import Mit6824.Raft.Origin
import Mit6824.Raft.Slots
import Mit6824.Raft.Sequence
import Mit6824.Kv.Server
import Mit6824.Kv.Replay
import Mit6824.Kv.Service
import Mit6824.Kv.Books
import Mit6824.Kv.Linear
import Mit6824.Kv.Snapshots
import Mit6824.Kv.Channel
import Mit6824.Kv.Stack
import Mit6824.Mr.Master
import Mit6824.Mr.MapPhase
import Mit6824.Mr.ReducePhase
import Mit6824.Mr.Output
import Mit6824.Mr.Finish
import Mit6824.Mr.Orderly
import Mit6824.Mr.Job
import Mit6824.Mr.JobOutput
import Mit6824.Mr.Apps
import Mit6824.Mr.Recover
import Mit6824.Lin.Bitset
import Mit6824.Lin.Linked
import Mit6824.Lin.Single
import Mit6824.Lin.Lifts
import Mit6824.Lin.History
import Mit6824.Lin.Check
import Mit6824.Lin.KvModel
import Mit6824.Lin.Events
import Mit6824.Kv.Tested
import Mit6824.Lib.Rpc
import Mit6824.Labrpc.Network
import Mit6824.Labrpc.Refine
import Mit6824.Labrpc.RaftServer
