import VaultFS.Raft.Log.Basic
import Mathlib.Data.List.AList
import Mathlib.Data.List.Sort

/-!
# A Raft node

The fields of `Node` in `internal/raft/node.go` that decide what a node does,
and the role changes `becomeFollower` and `becomeLeader`. The election timer,
the heartbeat ticker and their two wake-up channels only choose *when* the main
loop acts; a run may take those steps at any time, so they carry no field.
`applySig` is kept: the apply loop does nothing without it.

`nextIndex` and `matchIndex` are Go maps. Reading a key that is not present
gives zero, and ranging over a map visits every key once in some order.
-/

namespace VaultFS

namespace Raft

/-- The Raft consensus role. -/
inductive NodeState where
  | follower
  | candidate
  | leader
  deriving DecidableEq, Repr

/-- A Go `map[string]uint64`. -/
abbrev IndexMap := AList fun _ : String => ℕ

namespace IndexMap

def get (m : IndexMap) (p : String) : ℕ := (m.lookup p).getD 0

def set (m : IndexMap) (p : String) (v : ℕ) : IndexMap := AList.insert p v m

/-- The values of the map, one for each key. -/
def values (m : IndexMap) : List ℕ := m.entries.map fun s => s.2

end IndexMap

/-- One Raft participant. `commitCh` says whether `cfg.CommitCh` is set. -/
structure Node where
  id : String
  peers : List String
  commitCh : Bool
  currentTerm : ℕ
  votedFor : String
  log : RaftLog
  state : NodeState
  leaderID : String
  commitIndex : ℕ
  lastApplied : ℕ
  nextIndex : IndexMap
  matchIndex : IndexMap
  applySig : Bool

/-- The log length that triggers a snapshot. -/
def compactThreshold : ℕ := 10000

namespace Node

/-- `New`: an empty log, term zero, no vote. -/
def new (id : String) (peers : List String) (commitCh : Bool) : Node :=
  { id := id, peers := peers, commitCh := commitCh, currentTerm := 0, votedFor := "",
    log := .newRaftLog, state := .follower, leaderID := "", commitIndex := 0,
    lastApplied := 0, nextIndex := ∅, matchIndex := ∅, applySig := false }

/-- Move to the follower role in `term`. The vote is cleared whether or not the
term changes. -/
def becomeFollower (n : Node) (term : ℕ) : Node :=
  { n with state := .follower, currentTerm := term, votedFor := "" }

/-- A request of a later term makes the node a follower of that term. -/
def observe (n : Node) (term : ℕ) : Node :=
  if term > n.currentTerm then n.becomeFollower term else n

/-- Move from candidate to leader, with fresh replication indices. -/
def becomeLeader (n : Node) : Node :=
  if n.state ≠ .candidate then n
  else
    let lastIdx := n.log.lastIndex
    { n with
      state := .leader
      leaderID := n.id
      nextIndex := n.peers.foldl (fun (m : IndexMap) p => m.set p (lastIdx + 1)) ∅
      matchIndex := (n.peers.foldl (fun (m : IndexMap) p => m.set p 0) ∅).set n.id lastIdx }

/-- Advance `commitIndex` to the index at the quorum position of the match
indices in descending order, provided that index carries the current term. -/
def advanceCommitIndex (n : Node) : Node :=
  let indices := n.matchIndex.values.insertionSort (· ≥ ·)
  let quorum := (n.peers.length + 1 + 1) / 2
  if quorum > indices.length then n
  else
    let newCommit := indices.getD (quorum - 1) 0
    if newCommit > n.commitIndex then
      match n.log.term newCommit with
      | .ok t =>
          if t = n.currentTerm then { n with commitIndex := newCommit, applySig := true }
          else n
      | .error _ => n
    else n

/-- The text of `ErrNotLeader`. -/
def errNotLeader : String := "raft: not the leader"

/-- Append a command to the leader's log; a node that is not the leader refuses. -/
def propose (n : Node) (command : List UInt8) : Except String Node :=
  if n.state ≠ .leader then .error errNotLeader
  else
    let nextIndex := n.log.lastIndex + 1
    let e : Entry := { index := nextIndex, term := n.currentTerm, command := command }
    let n := { n with log := n.log.append [e],
                      matchIndex := n.matchIndex.set n.id nextIndex }
    .ok n.advanceCommitIndex

end Node

end Raft

end VaultFS
