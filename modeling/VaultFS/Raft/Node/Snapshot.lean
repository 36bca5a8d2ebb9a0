import VaultFS.Raft.Node.Replication

/-!
# Snapshots

`internal/raft/snapshot.go`: compacting a node's own log, and moving a snapshot
to a lagging peer. The request carries no state-machine data: `sendSnapshot`
fills in neither `Data` nor `Offset`, and `HandleInstallSnapshot` reads neither
of them nor `Done`.

`sendSnapshot` reads `snapIndex` and `snapTerm` one after the other, without the
lock of the log. A `SetSnapshot` of the apply loop can fall between the two, and
the request then carries the old index with the new term.
-/

namespace VaultFS

namespace Raft

structure InstallSnapshotArgs where
  term : ℕ
  leaderID : String
  lastIncludedIndex : ℕ
  lastIncludedTerm : ℕ
  deriving DecidableEq, Repr

structure InstallSnapshotReply where
  term : ℕ
  deriving DecidableEq, Repr

/-- The state-machine state up to `lastIncludedIndex`, as the caller serialised
it. -/
structure Snapshot where
  lastIncludedIndex : ℕ
  lastIncludedTerm : ℕ
  data : List UInt8
  deriving DecidableEq, Repr

namespace Node

/-- Compact the log up to `lastApplied`. -/
def takeSnapshot (n : Node) (data : List UInt8) : Except LogError (Node × Snapshot) :=
  match n.log.term n.lastApplied with
  | .error e => .error e
  | .ok term =>
      .ok ({ n with log := n.log.setSnapshot n.lastApplied term },
        { lastIncludedIndex := n.lastApplied, lastIncludedTerm := term, data := data })

/-- The request that `sendSnapshot` sends, with the term from the log as the second
read finds it. -/
def snapshotArgs (n : Node) (log : RaftLog) : InstallSnapshotArgs :=
  { term := n.currentTerm
    leaderID := n.id
    lastIncludedIndex := n.log.snapIndex
    lastIncludedTerm := log.snapTerm }

/-- The first critical section of `sendSnapshot`; no request when the node no longer
leads. When `cut` is given, that `SetSnapshot` falls between the read of `snapIndex`
and that of `snapTerm`. -/
def sendSnapshot (n : Node) (cut : Option Compaction) : Node × Option InstallSnapshotArgs :=
  if n.state ≠ .leader then (n, none)
  else
    let log := match cut with
      | none => n.log
      | some c => n.log.setSnapshot c.index c.term
    ({ n with log := log }, some (n.snapshotArgs log))

/-- The critical section of `sendSnapshot` that handles the reply. It does not
compare the term of the request with the current one. -/
def handleSnapshotReply (n : Node) (peer : String) (args : InstallSnapshotArgs)
    (reply : InstallSnapshotReply) : Node :=
  if reply.term > n.currentTerm then n.becomeFollower reply.term
  else if n.state ≠ .leader then n
  else
    { n with
      matchIndex :=
        if args.lastIncludedIndex > n.matchIndex.get peer then
          n.matchIndex.set peer args.lastIncludedIndex
        else n.matchIndex
      nextIndex := n.nextIndex.set peer (args.lastIncludedIndex + 1) }

/-- `HandleInstallSnapshot`. A node of the same term keeps its role. -/
def handleInstallSnapshot (n : Node) (args : InstallSnapshotArgs) :
    Node × InstallSnapshotReply :=
  if args.term < n.currentTerm then (n, { term := n.currentTerm })
  else
    let n := { n.observe args.term with leaderID := args.leaderID }
    if args.lastIncludedIndex ≤ n.log.snapIndex then (n, { term := n.currentTerm })
    else
      ({ n with
          log := n.log.setSnapshot args.lastIncludedIndex args.lastIncludedTerm
          commitIndex :=
            if args.lastIncludedIndex > n.commitIndex then args.lastIncludedIndex
            else n.commitIndex
          lastApplied :=
            if args.lastIncludedIndex > n.lastApplied then args.lastIncludedIndex
            else n.lastApplied },
        { term := n.currentTerm })

end Node

end Raft

end VaultFS
