import VaultFS.Raft.Node.Basic

/-!
# Elections

`internal/raft/election.go`. An election is started in one critical section of
`maybeStartElection`, which fixes the request sent to every peer; the replies
are counted one at a time, each in a critical section of its own. `votes` and
`once` are the variables the goroutines of one election share.
-/

namespace VaultFS

namespace Raft

structure RequestVoteArgs where
  term : ℕ
  candidateID : String
  lastLogIndex : ℕ
  lastLogTerm : ℕ
  deriving DecidableEq, Repr

structure RequestVoteReply where
  term : ℕ
  voteGranted : Bool
  deriving DecidableEq, Repr

/-- The shared variables of one election: the vote counter, and whether `once`
has fired. -/
structure Election where
  votes : ℕ
  once : Bool
  deriving DecidableEq, Repr

namespace Node

/-- The votes needed to win: `(len(peers)+1)/2 + 1`. -/
def electionQuorum (n : Node) : ℕ := (n.peers.length + 1) / 2 + 1

/-- The first critical section of `maybeStartElection`: unless it already leads,
the node becomes a candidate of the next term and votes for itself. The request
carries the last index and term of the log at this moment. -/
def maybeStartElection (n : Node) : Option (Node × RequestVoteArgs) :=
  if n.state = .leader then none
  else
    let n := { n with state := .candidate, currentTerm := n.currentTerm + 1,
                      votedFor := n.id, leaderID := "" }
    some (n, { term := n.currentTerm, candidateID := n.id,
               lastLogIndex := n.log.lastIndex, lastLogTerm := n.log.lastTerm })

/-- `once.Do(becomeLeader)`. -/
def onceBecomeLeader (n : Node) (el : Election) : Node × Election :=
  (if el.once then n else n.becomeLeader, { el with once := true })

/-- The second critical section of `maybeStartElection` in a cluster without
peers, where the node's own vote is a quorum. -/
def winAlone (n : Node) (el : Election) (term : ℕ) : Node × Election :=
  if n.state = .candidate ∧ n.currentTerm = term then n.onceBecomeLeader el else (n, el)

/-- The critical section of a vote goroutine whose request for `term` was
answered by `reply`. -/
def countVote (n : Node) (el : Election) (term : ℕ) (reply : RequestVoteReply) :
    Node × Election :=
  if reply.term > n.currentTerm then (n.becomeFollower reply.term, el)
  else if reply.voteGranted = false ∨ n.state ≠ .candidate ∨ n.currentTerm ≠ term then (n, el)
  else
    let el := { el with votes := el.votes + 1 }
    if el.votes ≥ n.electionQuorum then n.onceBecomeLeader el else (n, el)

/-- The log comparison rule of a vote. -/
def logUpToDate (n : Node) (candidateLastIndex candidateLastTerm : ℕ) : Bool :=
  if candidateLastTerm ≠ n.log.lastTerm then decide (candidateLastTerm > n.log.lastTerm)
  else decide (candidateLastIndex ≥ n.log.lastIndex)

/-- `HandleRequestVote`. -/
def handleRequestVote (n : Node) (args : RequestVoteArgs) : Node × RequestVoteReply :=
  if args.term < n.currentTerm then (n, { term := n.currentTerm, voteGranted := false })
  else
    let n := n.observe args.term
    if n.votedFor ≠ "" ∧ n.votedFor ≠ args.candidateID then
      (n, { term := n.currentTerm, voteGranted := false })
    else if n.logUpToDate args.lastLogIndex args.lastLogTerm = false then
      (n, { term := n.currentTerm, voteGranted := false })
    else
      ({ n with votedFor := args.candidateID }, { term := n.currentTerm, voteGranted := true })

end Node

end Raft

end VaultFS
