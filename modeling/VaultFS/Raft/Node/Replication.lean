import VaultFS.Raft.Node.Basic
import Mathlib.Algebra.Group.Nat.Defs

/-!
# Log replication

`internal/raft/replication.go`: building an AppendEntries request, handling it
on the receiving side, and handling the reply.

All of this runs with `n.mu` held, but the apply loop calls `SetSnapshot`
without that lock, so one such call can fall between two log operations of a
critical section. Where the position matters, the section takes the call as a
parameter: `replicateTo` between its `Term` and its `Slice`,
`handleAppendEntries` before any one of the lookups of its loop, and
`sendSnapshot` between its two reads. In the scans of `handleAppendReply` and
`conflictHint` a `SetSnapshot` in the middle can only change which hint or which
`nextIndex` comes out.

One access to the log is taken as atomic beside `SetSnapshot`. The source ensures
this for the methods that take `l.mu`. It does not ensure it for `lastIndex()`,
`lastTerm()` and the plain reads of `snapIndex`, which `propose`, `becomeLeader`,
`maybeStartElection`, `logUpToDate` and the sections here make without `l.mu`: a
`SetSnapshot` inside such a read is a data race, which is not modelled.
-/

namespace VaultFS

namespace Raft

structure AppendEntriesArgs where
  term : ℕ
  leaderID : String
  prevLogIndex : ℕ
  prevLogTerm : ℕ
  entries : List Entry
  leaderCommit : ℕ
  deriving DecidableEq, Repr

structure AppendEntriesReply where
  term : ℕ
  success : Bool
  conflictIndex : ℕ
  conflictTerm : ℕ
  deriving DecidableEq, Repr

/-- The arguments of a `SetSnapshot` call that the apply loop is about to make. -/
structure Compaction where
  index : ℕ
  term : ℕ
  deriving DecidableEq, Repr

/-- A `SetSnapshot` call that falls before the lookup number `before`. -/
structure Intrusion extends Compaction where
  before : ℕ
  deriving DecidableEq, Repr

/-- The log as lookup number `k` finds it. -/
def RaftLog.intrude (l : RaftLog) (x : Option Intrusion) (k : ℕ) : RaftLog :=
  match x with
  | none => l
  | some x => if x.before = k then l.setSnapshot x.index x.term else l

/-- `nextIdx - 1` on `uint64`. -/
def prevIndex (nextIdx : ℕ) : ℕ := if nextIdx = 0 then 2 ^ 64 - 1 else nextIdx - 1

/-- What the first part of `replicateTo` decides to do. -/
inductive Replication where
  | done
  | snapshot
  | send (args : AppendEntriesArgs)
  deriving DecidableEq, Repr

namespace Node

/-- The request that `replicateTo` sends, from the term found at the previous
index and the log as the slice finds it. -/
def appendArgs (n : Node) (peer : String) (prevTerm : ℕ) (log : RaftLog) : AppendEntriesArgs :=
  { term := n.currentTerm
    leaderID := n.id
    prevLogIndex := prevIndex (n.nextIndex.get peer)
    prevLogTerm := prevTerm
    entries := log.slice (n.nextIndex.get peer) (log.lastIndex + 1)
    leaderCommit := n.commitIndex }

/-- The critical section of `replicateTo` that builds the request. When `cut` is
given, that `SetSnapshot` falls between the lookup of the previous term and the
slice of the entries to send. -/
def replicateTo (n : Node) (peer : String) (cut : Option Compaction) : Node × Replication :=
  if n.state ≠ .leader then (n, .done)
  else
    match n.log.term (prevIndex (n.nextIndex.get peer)) with
    | .error _ => (n, .snapshot)
    | .ok prevTerm =>
        let log := match cut with
          | none => n.log
          | some c => n.log.setSnapshot c.index c.term
        ({ n with log := log }, .send (n.appendArgs peer prevTerm log))

/-- The backward scan for the last entry of the conflicting term; `fallback` is
the index that the reply suggests. -/
def scanConflict (l : RaftLog) (conflictTerm fallback : ℕ) : ℕ → ℕ
  | 0 => fallback
  | i + 1 =>
      if i + 1 > l.snapIndex then
        match l.term (i + 1) with
        | .error _ => fallback
        | .ok t =>
            if t = conflictTerm then i + 1 + 1
            else if t < conflictTerm then fallback
            else scanConflict l conflictTerm fallback i
      else fallback

/-- The critical section of `replicateTo` that handles the reply to `args`. -/
def handleAppendReply (n : Node) (peer : String) (args : AppendEntriesArgs)
    (reply : AppendEntriesReply) : Node :=
  if reply.term > n.currentTerm then n.becomeFollower reply.term
  else if n.state ≠ .leader ∨ n.currentTerm ≠ args.term then n
  else if reply.success then
    let newMatch := args.prevLogIndex + args.entries.length
    let matchIndex : IndexMap :=
      if newMatch > n.matchIndex.get peer then n.matchIndex.set peer newMatch
      else n.matchIndex
    let nextIndex := n.nextIndex.set peer (matchIndex.get peer + 1)
    advanceCommitIndex { n with matchIndex := matchIndex, nextIndex := nextIndex }
  else if reply.conflictTerm ≠ 0 then
    let newNext := scanConflict n.log reply.conflictTerm reply.conflictIndex n.log.lastIndex
    { n with nextIndex := n.nextIndex.set peer newNext }
  else if reply.conflictIndex > 0 then
    { n with nextIndex := n.nextIndex.set peer reply.conflictIndex }
  else if n.nextIndex.get peer > 1 then
    { n with nextIndex := n.nextIndex.set peer (n.nextIndex.get peer - 1) }
  else n

/-- The scan of `conflictHint` for the first index of the conflicting term. -/
def scanHint (l : RaftLog) (conflictTerm : ℕ) : ℕ → ℕ
  | 0 => 0
  | i + 1 =>
      if i + 1 > l.snapIndex + 1 then
        match l.term i with
        | .error _ => i + 1
        | .ok t => if t ≠ conflictTerm then i + 1 else scanHint l conflictTerm i
      else i + 1

/-- `conflictHint`: the conflict index and term of a rejection. -/
def conflictHint (n : Node) (prevLogIndex prevTerm : ℕ) : ℕ × ℕ :=
  if prevLogIndex > n.log.lastIndex then (n.log.lastIndex + 1, 0)
  else (scanHint n.log prevTerm prevLogIndex, prevTerm)

/-- The term step of `HandleAppendEntries`. A node that is not a follower steps
down also when the term does not change. -/
def acceptLeader (n : Node) (term : ℕ) (leaderID : String) : Node :=
  let n := if term > n.currentTerm ∨ n.state ≠ .follower then n.becomeFollower term else n
  { n with leaderID := leaderID }

/-- The log check of `HandleAppendEntries`: the term found at `PrevLogIndex` when
the check fails (zero when there is none), and nothing when it passes. -/
def checkPrev (n : Node) (args : AppendEntriesArgs) : Option ℕ :=
  if args.prevLogIndex > 0 then
    match n.log.term args.prevLogIndex with
    | .error _ => some 0
    | .ok prevTerm => if prevTerm ≠ args.prevLogTerm then some prevTerm else none
  else none

/-- The loop of `HandleAppendEntries` over the entries of the request, at lookup
number `k`: an entry that cannot be looked up has the rest appended, an entry of
another term has the tail replaced, and a matching one is skipped. -/
def appendNew (x : Option Intrusion) : ℕ → RaftLog → List Entry → RaftLog
  | _, l, [] => l
  | k, l, e :: es =>
      match (l.intrude x k).term e.index with
      | .error _ => (l.intrude x k).append (e :: es)
      | .ok existingTerm =>
          if existingTerm ≠ e.term then
            ((l.intrude x k).truncateAfter e.index).append (e :: es)
          else appendNew x (k + 1) (l.intrude x k) es

/-- The commit update of `HandleAppendEntries`. -/
def followCommit (n : Node) (leaderCommit : ℕ) : Node :=
  if leaderCommit > n.commitIndex then
    { n with
      commitIndex := if leaderCommit < n.log.lastIndex then leaderCommit else n.log.lastIndex
      applySig := true }
  else n

/-- `HandleAppendEntries`. A `SetSnapshot` that reaches none of the lookups of
the loop falls after them. -/
def handleAppendEntries (n : Node) (args : AppendEntriesArgs) (x : Option Intrusion) :
    Node × AppendEntriesReply :=
  if args.term < n.currentTerm then
    (n, { term := n.currentTerm, success := false, conflictIndex := 0, conflictTerm := 0 })
  else
    let n := n.acceptLeader args.term args.leaderID
    match n.checkPrev args with
    | some prevTerm =>
        let hint := n.conflictHint args.prevLogIndex prevTerm
        (n, { term := n.currentTerm, success := false,
              conflictIndex := hint.1, conflictTerm := hint.2 })
    | none =>
        let log := appendNew x 0 n.log args.entries
        let log := match x with
          | none => log
          | some x => log.setSnapshot x.index x.term
        (followCommit { n with log := log } args.leaderCommit,
          { term := n.currentTerm, success := true, conflictIndex := 0, conflictTerm := 0 })

end Node

end Raft

end VaultFS
