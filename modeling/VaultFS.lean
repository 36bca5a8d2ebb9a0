import VaultFS.ReplicatedLog.Preserve
import VaultFS.Transition.Basic
import VaultFS.Raft.Cluster.Configured
import VaultFS.Raft.Cluster.Campaign
import VaultFS.Raft.Cluster.ElectionSafety
import VaultFS.Raft.Cluster.OneVote
import VaultFS.Raft.Node.Quorum
import VaultFS.Raft.Cluster.LogIndex
import VaultFS.Raft.Log.Represents
import VaultFS.Raft.Cluster.Simulation
import VaultFS.Raft.Cluster.LeaderSim
import VaultFS.Raft.Cluster.FollowerSim
import VaultFS.Raft.Cluster.Refinement
import VaultFS.Raft.Cluster.Uncompacted
import VaultFS.Raft.Cluster.Safety
import VaultFS.Raft.Cluster.CommitSoundness
import VaultFS.Raft.Cluster.Pace
import VaultFS.Raft.Cluster.Delivery
import VaultFS.Raft.Cluster.SnapshotTail
import VaultFS.Raft.Cluster.CatchUp
import VaultFS.Raft.Cluster.Leadership
import VaultFS.Raft.Cluster.ReportedLeader
import VaultFS.Raft.Cluster.BackUp
import VaultFS.Raft.Cluster.Acknowledged
import VaultFS.Raft.Cluster.NextIndex
import VaultFS.KeyValue.Basic
import VaultFS.Metadata.Namespace
import VaultFS.Master.Server
import VaultFS.Master.View
import VaultFS.Cell.Basic
import VaultFS.Master.Tree
import VaultFS.Master.Replay
import VaultFS.Master.Clocks
import VaultFS.Master.Leases
import VaultFS.Traversal.Basic
import VaultFS.Master.Inodes
import VaultFS.Master.Times
import VaultFS.Master.Listing
import VaultFS.Master.Rename
import VaultFS.Interaction.Serial
import VaultFS.Metadata.Concurrent
import VaultFS.Metadata.Exclusive
import VaultFS.Master.Cluster.Basic
import VaultFS.Master.Cluster.Sound
import VaultFS.Master.Cluster.Acknowledged
import VaultFS.Master.Cluster.Wedge
import VaultFS.Client.Basic
import VaultFS.Client.Network
import VaultFS.Client.ReadYourWrites
import VaultFS.Client.Transfer
import VaultFS.Client.Integrity
import VaultFS.Causality.Basic
import VaultFS.Clock.Causality
import VaultFS.Clock.Vector
import VaultFS.Master.Liveness
import VaultFS.Decimal.Basic
import VaultFS.Framing.Basic
import VaultFS.Interaction.Crash
import VaultFS.LittleEndian.Basic
import VaultFS.Wal.Damage
import VaultFS.Chunk.Grace
import VaultFS.Wal.ReadBack
import VaultFS.Wal.ConcurrentRead
import VaultFS.Metadata.ChunkSlices
import VaultFS.Metadata.Sweep
import VaultFS.Chunk.Confinement
import VaultFS.Chunk.Collector
import VaultFS.Chunk.Pipeline
import VaultFS.Clock.Lamport
import VaultFS.Metadata.Version
import VaultFS.SlashPath.Clean
import VaultFS.Wal.Bookkeeping
import VaultFS.Wal.SegmentOrder
import VaultFS.Raft.Cluster.Proposals
import VaultFS.Raft.Cluster.Wakeup
import VaultFS.Transition.Recording
import VaultFS.Master.Replicated.Basic
import VaultFS.Master.Replicated.Refinement
import VaultFS.Chunk.Presence
import VaultFS.Chunk.Servers.Basic
import VaultFS.Chunk.Servers.Durability
import VaultFS.Client.Availability
import VaultFS.Client.System
import VaultFS.Client.Durability
