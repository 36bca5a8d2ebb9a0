import VaultFS.Raft.Node.Election
import VaultFS.Raft.Node.Replication
import VaultFS.Raft.Node.Snapshot
import Mathlib.Logic.Function.Basic

/-!
# A cluster of Raft nodes and its network

A `World` holds one `Host` for each node and the list of all calls ever made
over the transport. A host is a node together with the goroutines that work on
it: the main loop `run`, the replication goroutines of one heartbeat round, the
vote goroutines (through the shared variables of each election) and the apply
loop.

A call is one RPC. Its request is handled at most once, at any time after it was
made; its reply, once there is one, is received at most once; and the caller may
give up at any time. Loss, delay and reordering of requests and of replies are
therefore all just choices of which step comes next.
-/

namespace VaultFS

namespace Raft

/-- A cluster configuration: distinct, non-empty identifiers, and for each node
a peer list that names every other node exactly once. -/
structure Cluster where
  ids : List String
  peers : String → List String
  commitCh : String → Bool
  nodup : ids.Nodup
  ne_empty : ∀ i ∈ ids, i ≠ ""
  peers_perm : ∀ i ∈ ids, (peers i).Perm (ids.erase i)

/-- The number of nodes. -/
def Cluster.size (cl : Cluster) : ℕ := cl.ids.length

/-- One RPC, with the reply of its handler once the request has been handled. -/
inductive Rpc where
  | requestVote (args : RequestVoteArgs) (reply : Option RequestVoteReply)
  | appendEntries (args : AppendEntriesArgs) (reply : Option AppendEntriesReply)
  | installSnapshot (args : InstallSnapshotArgs) (reply : Option InstallSnapshotReply)
  deriving DecidableEq, Repr

/-- A call from `src` to `dst`; `waiting` says that the goroutine that made it
has neither received the reply nor given up. -/
structure Call where
  src : String
  dst : String
  rpc : Rpc
  waiting : Bool
  deriving DecidableEq, Repr

/-- A replication goroutine of the current heartbeat round. -/
inductive Worker where
  /-- Spawned for a peer, before `replicateTo` takes the lock. -/
  | start (peer : String)
  /-- In `replicateTo`, about to call `sendSnapshot`. -/
  | snapshot (peer : String)
  /-- Blocked on the call with this number. -/
  | waiting (call : ℕ)
  deriving DecidableEq, Repr

/-- Where the apply loop stands. -/
inductive ApplyLoop where
  /-- Blocked on `applySig`. -/
  | idle
  /-- In `applyCommitted`, with the two indices read and the lock released. -/
  | read (applied commit : ℕ)
  /-- At the head of the loop, with these entries left. -/
  | batch (entries : List Entry)
  /-- The entry is delivered, `lastApplied` not yet set. -/
  | sent (e : Entry) (rest : List Entry)
  /-- The log was found to be over the threshold. -/
  | oversized
  /-- About to call `SetSnapshot`, without the lock. -/
  | compact (c : Compaction)
  deriving DecidableEq, Repr

/-- A node and its goroutines. `electing` is the term of an election of a
cluster without peers whose second critical section is still to come,
`elections` the shared variables of the election of each term, and `delivered`
what was sent on `CommitCh`. -/
structure Host where
  node : Node
  electing : Option ℕ
  workers : List Worker
  elections : ℕ → Option Election
  applyLoop : ApplyLoop
  delivered : List Entry

/-- The main loop is at its `select`: no election half done, and every
replication goroutine of the last round has returned. -/
def Host.free (h : Host) : Prop := h.electing = none ∧ h.workers = []

instance (h : Host) : Decidable h.free := inferInstanceAs (Decidable (_ ∧ _))

structure World where
  hosts : String → Host
  calls : List Call

namespace World

/-- The world in which every node of the cluster has just been started. -/
def init (cl : Cluster) : World where
  hosts i :=
    { node := Node.new i (cl.peers i) (cl.commitCh i), electing := none, workers := [],
      elections := fun _ => none, applyLoop := .idle, delivered := [] }
  calls := []

/-- The world after one host moved and the calls changed. -/
def put (w : World) (i : String) (h : Host) (calls : List Call) : World :=
  { hosts := Function.update w.hosts i h, calls := calls }

end World

/-- What a host does on its own. Each action is one critical section of the
source, or one action of a goroutine between two of them. -/
inductive Action where
  /-- The election timer fires: the first section of `maybeStartElection`. -/
  | electionTimeout
  /-- The second section of `maybeStartElection` in a cluster without peers. -/
  | winAlone
  /-- `maybeSendHeartbeats` spawns its goroutines. -/
  | heartbeat
  /-- The first section of `replicateTo`; `cut` says that the `SetSnapshot` of
  the apply loop falls into it. -/
  | replicateTo (peer : String) (cut : Bool)
  /-- The first section of `sendSnapshot`; `cut` says that the `SetSnapshot` of the
  apply loop falls into it. -/
  | sendSnapshot (peer : String) (cut : Bool)
  | propose (command : List UInt8)
  | takeSnapshot (data : List UInt8)
  /-- `applyCommitted` reads its two indices. -/
  | applyRead
  /-- `applyCommitted` slices the log, without the lock. -/
  | applySlice
  /-- `applyCommitted` sends the next entry on `CommitCh`. -/
  | applySend
  /-- `applyCommitted` sets `lastApplied`. -/
  | applyMark
  /-- `applyCommitted` compares the log length with the threshold. -/
  | applyCheck
  /-- `applyCommitted` reads what to compact. -/
  | applyMeasure
  /-- `applyCommitted` calls `SetSnapshot`, without the lock. -/
  | applyCompact
  deriving DecidableEq, Repr

/-- The steps of a run. -/
inductive Event where
  /-- A host acts on its own. -/
  | act (i : String) (a : Action)
  /-- The request of a call is handled; `cut` says before which lookup of
  `handleAppendEntries` the `SetSnapshot` of the apply loop falls. -/
  | deliver (c : ℕ) (cut : Option ℕ)
  /-- The reply of a call is handled by the goroutine that made it. -/
  | receive (c : ℕ)
  /-- The goroutine that made a call gives up. -/
  | giveUp (c : ℕ)
  deriving DecidableEq, Repr

end Raft

end VaultFS
