import VaultFS.Raft.Node.Election
import VaultFS.Raft.Node.Replication
import VaultFS.Raft.Node.Snapshot

/-!
# What the operations of a node leave alone

Three views of a node are followed through all operations: `static`, the
configuration that never changes, `role`, the part that elections are about, and
`progress`, the rest but for the replication indices. Elections keep the last one, and
operations on the log and on the replication indices keep the other two.
-/

namespace VaultFS

namespace Raft

/-- The fields of a node that are set once. -/
structure Static where
  id : String
  peers : List String
  commitCh : Bool

/-- The fields of a node that elections read and write. -/
structure Role where
  currentTerm : ℕ
  votedFor : String
  state : NodeState

/-- The part of a node that elections do not touch. -/
structure Progress where
  static : Static
  log : RaftLog
  commitIndex : ℕ
  lastApplied : ℕ
  applySig : Bool

namespace Node

def static (n : Node) : Static := ⟨n.id, n.peers, n.commitCh⟩

def role (n : Node) : Role := ⟨n.currentTerm, n.votedFor, n.state⟩

def progress (n : Node) : Progress :=
  ⟨n.static, n.log, n.commitIndex, n.lastApplied, n.applySig⟩

theorem electionQuorum_congr {n n' : Node} (h : n'.static = n.static) :
    n'.electionQuorum = n.electionQuorum := by
  have hp : n'.peers = n.peers := congrArg Static.peers h
  simp [electionQuorum, hp]

theorem becomeLeader_role (n : Node) (h : n.state = .candidate) :
    n.becomeLeader.role = ⟨n.currentTerm, n.votedFor, .leader⟩ := by
  simp [becomeLeader, h, role]

/-- What `advanceCommitIndex` can do. -/
theorem advanceCommitIndex_cases (n : Node) :
    n.advanceCommitIndex = n ∨
      ∃ newCommit, n.advanceCommitIndex = { n with commitIndex := newCommit, applySig := true } ∧
        n.commitIndex < newCommit ∧ n.log.term newCommit = .ok n.currentTerm ∧
        (n.peers.length + 1 + 1) / 2 ≤ n.matchIndex.values.length ∧
        newCommit = (n.matchIndex.values.insertionSort (· ≥ ·)).getD
          ((n.peers.length + 1 + 1) / 2 - 1) 0 := by
  unfold advanceCommitIndex
  simp only [List.length_insertionSort]
  split
  · exact Or.inl rfl
  · rename_i hq
    split
    · rename_i hlt
      cases ht : n.log.term ((n.matchIndex.values.insertionSort (· ≥ ·)).getD
          ((n.peers.length + 1 + 1) / 2 - 1) 0) with
      | error e => exact Or.inl rfl
      | ok t =>
          simp only
          split
          · rename_i heq
            subst heq
            exact Or.inr ⟨_, rfl, hlt, ht, Nat.le_of_not_lt hq, rfl⟩
          · exact Or.inl rfl
    · exact Or.inl rfl

@[simp] theorem advanceCommitIndex_role (n : Node) : n.advanceCommitIndex.role = n.role := by
  rcases n.advanceCommitIndex_cases with h | ⟨c, h, -⟩
  · rw [h]
  · rw [h]
    rfl

theorem propose_ok {n n' : Node} {command : List UInt8} (h : n.propose command = .ok n') :
    n.state = .leader ∧ n' = advanceCommitIndex
      { n with
        log := n.log.append [⟨n.log.lastIndex + 1, n.currentTerm, command⟩]
        matchIndex := n.matchIndex.set n.id (n.log.lastIndex + 1) } := by
  unfold propose at h
  split at h
  · cases h
  · rename_i hl
    simp only [Except.ok.injEq] at h
    exact ⟨not_not.mp hl, h.symm⟩

theorem maybeStartElection_some {n n' : Node} {args : RequestVoteArgs}
    (h : n.maybeStartElection = some (n', args)) :
    n.state ≠ .leader ∧
      n' = { n with state := .candidate, currentTerm := n.currentTerm + 1, votedFor := n.id,
                    leaderID := "" } ∧
      args = ⟨n.currentTerm + 1, n.id, n.log.lastIndex, n.log.lastTerm⟩ := by
  unfold maybeStartElection at h
  split at h
  · cases h
  · rename_i hl
    simp only [Option.some.injEq, Prod.mk.injEq] at h
    exact ⟨hl, h.1.symm, h.2.symm⟩

/-- What counting a vote can do: step down to a later term, nothing, add a vote
without reaching the quorum, or add the deciding vote. -/
theorem countVote_cases (n : Node) (el : Election) (term : ℕ) (reply : RequestVoteReply) :
    (n.currentTerm < reply.term ∧
      n.countVote el term reply = (n.becomeFollower reply.term, el)) ∨
    n.countVote el term reply = (n, el) ∨
    (reply.voteGranted = true ∧ n.state = .candidate ∧ n.currentTerm = term ∧
      n.countVote el term reply = (n, { el with votes := el.votes + 1 })) ∨
    (reply.voteGranted = true ∧ n.state = .candidate ∧ n.currentTerm = term ∧
      n.electionQuorum ≤ el.votes + 1 ∧
      n.countVote el term reply = n.onceBecomeLeader { el with votes := el.votes + 1 }) := by
  unfold countVote
  split
  · rename_i hgt
    exact Or.inl ⟨hgt, rfl⟩
  · split
    · exact Or.inr (Or.inl rfl)
    · rename_i hno
      simp only [not_or, not_not, Bool.not_eq_false] at hno
      obtain ⟨hg, hs, ht⟩ := hno
      simp only
      split
      · rename_i hq
        exact Or.inr (Or.inr (Or.inr ⟨hg, hs, ht, hq, rfl⟩))
      · exact Or.inr (Or.inr (Or.inl ⟨hg, hs, ht, rfl⟩))

theorem observe_currentTerm {n : Node} {term : ℕ} (h : n.currentTerm ≤ term) :
    (n.observe term).currentTerm = term := by
  unfold observe
  split
  · rfl
  · omega

/-- What handling a vote request can do: refuse a stale one, refuse, or grant. -/
theorem handleRequestVote_cases (n : Node) (args : RequestVoteArgs) :
    (args.term < n.currentTerm ∧ n.handleRequestVote args = (n, ⟨n.currentTerm, false⟩)) ∨
    (n.currentTerm ≤ args.term ∧
      n.handleRequestVote args = (n.observe args.term, ⟨args.term, false⟩)) ∨
    (n.currentTerm ≤ args.term ∧
      ((n.observe args.term).votedFor = "" ∨
        (n.observe args.term).votedFor = args.candidateID) ∧
      (n.observe args.term).logUpToDate args.lastLogIndex args.lastLogTerm = true ∧
      n.handleRequestVote args =
        ({ n.observe args.term with votedFor := args.candidateID }, ⟨args.term, true⟩)) := by
  unfold handleRequestVote
  by_cases hlt : args.term < n.currentTerm
  · exact Or.inl ⟨hlt, by rw [if_pos hlt]⟩
  · have hle : n.currentTerm ≤ args.term := Nat.le_of_not_lt hlt
    have ht := observe_currentTerm hle
    rw [if_neg hlt]
    simp only [ht]
    split
    · exact Or.inr (Or.inl ⟨hle, rfl⟩)
    · rename_i hv
      split
      · exact Or.inr (Or.inl ⟨hle, rfl⟩)
      · rename_i hup
        refine Or.inr (Or.inr ⟨hle, ?_, by simpa using hup, rfl⟩)
        by_contra hno
        exact hv (not_or.mp hno)

theorem handleAppendReply_cases (n : Node) (peer : String) (args : AppendEntriesArgs)
    (reply : AppendEntriesReply) :
    (n.currentTerm < reply.term ∧
      n.handleAppendReply peer args reply = n.becomeFollower reply.term) ∨
    n.handleAppendReply peer args reply = n ∨
    (n.state = .leader ∧ n.currentTerm = args.term ∧ reply.success = true ∧
      ∃ matchIndex nextIndex, n.handleAppendReply peer args reply =
        advanceCommitIndex { n with matchIndex := matchIndex, nextIndex := nextIndex } ∧
      (matchIndex = n.matchIndex ∨
        matchIndex = n.matchIndex.set peer (args.prevLogIndex + args.entries.length)) ∧
      nextIndex = n.nextIndex.set peer (IndexMap.get matchIndex peer + 1)) ∨
    (n.state = .leader ∧ n.currentTerm = args.term ∧ reply.success = false ∧
      ∃ next, n.handleAppendReply peer args reply =
        { n with nextIndex := n.nextIndex.set peer next } ∧
      (next = scanConflict n.log reply.conflictTerm reply.conflictIndex n.log.lastIndex ∧
          reply.conflictTerm ≠ 0 ∨
        next = reply.conflictIndex ∧ 0 < reply.conflictIndex ∨
        next + 1 = n.nextIndex.get peer ∧ 0 < next)) := by
  unfold handleAppendReply
  split
  · rename_i hgt
    exact Or.inl ⟨hgt, rfl⟩
  split
  · exact Or.inr (Or.inl rfl)
  rename_i hlead
  simp only [not_or, not_not] at hlead
  split
  · rename_i hsucc
    refine Or.inr (Or.inr (Or.inl ⟨hlead.1, hlead.2, hsucc, _, _, rfl, ?_, rfl⟩))
    split
    · exact Or.inr rfl
    · exact Or.inl rfl
  rename_i hsucc
  have hfail : reply.success = false := by simpa using hsucc
  split
  · rename_i hct
    exact Or.inr (Or.inr (Or.inr ⟨hlead.1, hlead.2, hfail, _, rfl, Or.inl ⟨rfl, hct⟩⟩))
  split
  · rename_i hci
    exact Or.inr (Or.inr (Or.inr ⟨hlead.1, hlead.2, hfail, _, rfl,
      Or.inr (Or.inl ⟨rfl, hci⟩)⟩))
  split
  · rename_i hnext
    exact Or.inr (Or.inr (Or.inr ⟨hlead.1, hlead.2, hfail, _, rfl,
      Or.inr (Or.inr ⟨by omega, by omega⟩)⟩))
  · exact Or.inr (Or.inl rfl)

theorem handleSnapshotReply_cases (n : Node) (peer : String) (args : InstallSnapshotArgs)
    (reply : InstallSnapshotReply) :
    (n.currentTerm < reply.term ∧
      n.handleSnapshotReply peer args reply = n.becomeFollower reply.term) ∨
    n.handleSnapshotReply peer args reply = n ∨
    (n.state = .leader ∧ ∃ matchIndex, n.handleSnapshotReply peer args reply =
        { n with matchIndex := matchIndex,
                 nextIndex := n.nextIndex.set peer (args.lastIncludedIndex + 1) } ∧
      (matchIndex = n.matchIndex ∨
        matchIndex = n.matchIndex.set peer args.lastIncludedIndex)) := by
  unfold handleSnapshotReply
  split
  · rename_i hgt
    exact Or.inl ⟨hgt, rfl⟩
  split
  · exact Or.inr (Or.inl rfl)
  · rename_i hlead
    refine Or.inr (Or.inr ⟨not_not.mp hlead, _, rfl, ?_⟩)
    split
    · exact Or.inr rfl
    · exact Or.inl rfl

section Progress

variable (n : Node)

section View

variable {n n' : Node} (h : n'.progress = n.progress)
include h

theorem static_of_progress : n'.static = n.static := congrArg Progress.static h

theorem log_of_progress : n'.log = n.log := congrArg Progress.log h

theorem commitIndex_of_progress : n'.commitIndex = n.commitIndex := congrArg Progress.commitIndex h

theorem lastApplied_of_progress : n'.lastApplied = n.lastApplied := congrArg Progress.lastApplied h

theorem applySig_of_progress : n'.applySig = n.applySig := congrArg Progress.applySig h

end View

theorem observe_progress (term : ℕ) : (n.observe term).progress = n.progress := by
  unfold observe
  split <;> rfl

theorem becomeLeader_progress : n.becomeLeader.progress = n.progress := by
  unfold becomeLeader
  split <;> rfl

theorem onceBecomeLeader_progress (el : Election) :
    (n.onceBecomeLeader el).1.progress = n.progress := by
  unfold onceBecomeLeader
  split
  · rfl
  · exact n.becomeLeader_progress

theorem winAlone_progress (el : Election) (term : ℕ) :
    (n.winAlone el term).1.progress = n.progress := by
  unfold winAlone
  split
  · exact n.onceBecomeLeader_progress el
  · rfl

theorem countVote_progress (el : Election) (term : ℕ) (reply : RequestVoteReply) :
    (n.countVote el term reply).1.progress = n.progress := by
  rcases n.countVote_cases el term reply with ⟨-, h⟩ | h | ⟨-, -, -, h⟩ | ⟨-, -, -, -, h⟩
  · rw [h]
    rfl
  · rw [h]
  · rw [h]
  · rw [h]
    exact n.onceBecomeLeader_progress _

theorem handleRequestVote_progress (args : RequestVoteArgs) :
    (n.handleRequestVote args).1.progress = n.progress := by
  rcases n.handleRequestVote_cases args with ⟨-, h⟩ | ⟨-, h⟩ | ⟨-, -, -, h⟩
  · rw [h]
  · rw [h]
    exact n.observe_progress args.term
  · rw [h]
    exact n.observe_progress args.term

theorem acceptLeader_progress (term : ℕ) (leaderID : String) :
    (n.acceptLeader term leaderID).progress = n.progress := by
  unfold acceptLeader
  split <;> rfl

theorem handleSnapshotReply_progress (peer : String) (args : InstallSnapshotArgs)
    (reply : InstallSnapshotReply) :
    (n.handleSnapshotReply peer args reply).progress = n.progress := by
  rcases n.handleSnapshotReply_cases peer args reply with ⟨-, h⟩ | h | ⟨-, m, h, -⟩
  · rw [h]
    rfl
  · rw [h]
  · rw [h]
    rfl

/-- At most the commit index has changed, and then the apply loop is signalled. -/
def Advances (n n' : Node) : Prop :=
  n'.progress = n.progress ∨
    ∃ c, n'.progress = { n.progress with commitIndex := c, applySig := true }

namespace Advances

variable {n n' : Node}

theorem static (h : n.Advances n') : n'.static = n.static := by
  rcases h with h | ⟨c, h⟩
  · exact static_of_progress h
  · exact congrArg Progress.static h

theorem log (h : n.Advances n') : n'.log = n.log := by
  rcases h with h | ⟨c, h⟩
  · exact log_of_progress h
  · exact congrArg Progress.log h

theorem lastApplied (h : n.Advances n') : n'.lastApplied = n.lastApplied := by
  rcases h with h | ⟨c, h⟩
  · exact lastApplied_of_progress h
  · exact congrArg Progress.lastApplied h

end Advances

theorem advanceCommitIndex_advances : n.Advances n.advanceCommitIndex := by
  rcases n.advanceCommitIndex_cases with h | ⟨c, h, -⟩
  · rw [h]
    exact Or.inl rfl
  · rw [h]
    exact Or.inr ⟨c, rfl⟩

@[simp] theorem advanceCommitIndex_log : n.advanceCommitIndex.log = n.log :=
  n.advanceCommitIndex_advances.log

theorem handleAppendReply_advances (peer : String) (args : AppendEntriesArgs)
    (reply : AppendEntriesReply) : n.Advances (n.handleAppendReply peer args reply) := by
  rcases n.handleAppendReply_cases peer args reply with
    ⟨-, h⟩ | h | ⟨-, -, -, m, x, h, -⟩ | ⟨-, -, -, x, h, -⟩
  · rw [h]
    exact Or.inl rfl
  · rw [h]
    exact Or.inl rfl
  · rw [h]
    exact advanceCommitIndex_advances { n with matchIndex := m, nextIndex := x }
  · rw [h]
    exact Or.inl rfl

end Progress

/-- What handling an InstallSnapshot request can do: refuse a stale one, keep a
log that reaches further already, or install. -/
theorem handleInstallSnapshot_cases (n : Node) (args : InstallSnapshotArgs) :
    (args.term < n.currentTerm ∧ n.handleInstallSnapshot args = (n, ⟨n.currentTerm⟩)) ∨
    (n.currentTerm ≤ args.term ∧ args.lastIncludedIndex ≤ n.log.snapIndex ∧
      n.handleInstallSnapshot args =
        ({ n.observe args.term with leaderID := args.leaderID }, ⟨args.term⟩)) ∨
    (n.currentTerm ≤ args.term ∧ n.log.snapIndex < args.lastIncludedIndex ∧
      n.handleInstallSnapshot args =
        ({ n.observe args.term with
            leaderID := args.leaderID
            log := n.log.setSnapshot args.lastIncludedIndex args.lastIncludedTerm
            commitIndex := max n.commitIndex args.lastIncludedIndex
            lastApplied := max n.lastApplied args.lastIncludedIndex }, ⟨args.term⟩)) := by
  have hlog := log_of_progress (n.observe_progress args.term)
  have hcommit := commitIndex_of_progress (n.observe_progress args.term)
  have happlied := lastApplied_of_progress (n.observe_progress args.term)
  have hmax : ∀ x y : ℕ, (if y > x then y else x) = max x y := by
    intro x y
    split
    · omega
    · omega
  unfold handleInstallSnapshot
  by_cases hlt : args.term < n.currentTerm
  · exact Or.inl ⟨hlt, by rw [if_pos hlt]⟩
  · have hle : n.currentTerm ≤ args.term := Nat.le_of_not_lt hlt
    have ht := observe_currentTerm hle
    rw [if_neg hlt]
    simp only [hlog, ht, hmax, hcommit, happlied]
    split
    · rename_i hsnap
      exact Or.inr (Or.inl ⟨hle, hsnap, rfl⟩)
    · rename_i hsnap
      exact Or.inr (Or.inr ⟨hle, Nat.lt_of_not_le hsnap, rfl⟩)

theorem handleInstallSnapshot_static (n : Node) (args : InstallSnapshotArgs) :
    (n.handleInstallSnapshot args).1.static = n.static := by
  have hobserve := static_of_progress (n.observe_progress args.term)
  rcases n.handleInstallSnapshot_cases args with ⟨-, h⟩ | ⟨-, -, h⟩ | ⟨-, -, h⟩
  · rw [h]
  · rw [h]
    exact hobserve
  · rw [h]
    exact hobserve

theorem acceptLeader_role {n : Node} {term : ℕ} (leaderID : String)
    (h : n.currentTerm ≤ term) :
    (n.currentTerm = term ∧ n.state = .follower ∧ (n.acceptLeader term leaderID).role = n.role) ∨
    ((n.currentTerm < term ∨ n.state ≠ .follower) ∧
      (n.acceptLeader term leaderID).role = ⟨term, "", .follower⟩) := by
  unfold acceptLeader
  split
  · rename_i hc
    exact Or.inr ⟨hc, rfl⟩
  · rename_i hc
    simp only [not_or, not_not] at hc
    exact Or.inl ⟨by omega, hc.2, rfl⟩

theorem followCommit_static (n : Node) (leaderCommit : ℕ) :
    (n.followCommit leaderCommit).static = n.static := by
  unfold followCommit
  split <;> rfl

theorem followCommit_role (n : Node) (leaderCommit : ℕ) :
    (n.followCommit leaderCommit).role = n.role := by
  unfold followCommit
  split <;> rfl

/-- The log after the loop of `handleAppendEntries` and an intruding
`SetSnapshot`. -/
def mergedLog (n : Node) (args : AppendEntriesArgs) (x : Option Intrusion) : RaftLog :=
  match x with
  | none => appendNew x 0 n.log args.entries
  | some y => (appendNew x 0 n.log args.entries).setSnapshot y.index y.term

/-- What handling an AppendEntries request can do: refuse a stale one, reject it
by the log check, or take the entries over. -/
theorem handleAppendEntries_cases (n : Node) (args : AppendEntriesArgs) (x : Option Intrusion) :
    (args.term < n.currentTerm ∧
      n.handleAppendEntries args x = (n, ⟨n.currentTerm, false, 0, 0⟩)) ∨
    (n.currentTerm ≤ args.term ∧ ∃ prevTerm,
      (n.acceptLeader args.term args.leaderID).checkPrev args = some prevTerm ∧
      n.handleAppendEntries args x =
        (n.acceptLeader args.term args.leaderID, ⟨args.term, false,
          ((n.acceptLeader args.term args.leaderID).conflictHint args.prevLogIndex prevTerm).1,
          ((n.acceptLeader args.term args.leaderID).conflictHint args.prevLogIndex prevTerm).2⟩)) ∨
    (n.currentTerm ≤ args.term ∧
      (n.acceptLeader args.term args.leaderID).checkPrev args = none ∧
      n.handleAppendEntries args x =
        (followCommit { n.acceptLeader args.term args.leaderID with
            log := (n.acceptLeader args.term args.leaderID).mergedLog args x } args.leaderCommit,
          ⟨args.term, true, 0, 0⟩)) := by
  unfold handleAppendEntries
  by_cases hlt : args.term < n.currentTerm
  · exact Or.inl ⟨hlt, by rw [if_pos hlt]⟩
  · have hle : n.currentTerm ≤ args.term := Nat.le_of_not_lt hlt
    have ht : (n.acceptLeader args.term args.leaderID).currentTerm = args.term := by
      rcases acceptLeader_role args.leaderID hle with ⟨heq, -, hr⟩ | ⟨-, hr⟩
      · exact (congrArg Role.currentTerm hr).trans heq
      · exact congrArg Role.currentTerm hr
    rw [if_neg hlt]
    simp only
    cases hc : (n.acceptLeader args.term args.leaderID).checkPrev args with
    | some prevTerm => exact Or.inr (Or.inl ⟨hle, prevTerm, rfl, by simp only [ht]⟩)
    | none =>
        refine Or.inr (Or.inr ⟨hle, rfl, ?_⟩)
        simp only [ht]
        rfl

theorem handleAppendEntries_term {n : Node} {args : AppendEntriesArgs}
    (h : n.currentTerm ≤ args.term) (x : Option Intrusion) :
    (n.handleAppendEntries args x).1.currentTerm = args.term ∧
      (n.handleAppendEntries args x).2.term = args.term := by
  have haccept : (n.acceptLeader args.term args.leaderID).currentTerm = args.term := by
    rcases acceptLeader_role args.leaderID h with ⟨heq, -, hrole⟩ | ⟨-, hrole⟩
    · exact (congrArg Role.currentTerm hrole).trans heq
    · exact congrArg Role.currentTerm hrole
  rcases n.handleAppendEntries_cases args x with ⟨hlt, -⟩ | ⟨-, t, -, heq⟩ | ⟨-, -, heq⟩
  · omega
  · rw [heq]
    exact ⟨haccept, rfl⟩
  · rw [heq]
    exact ⟨(congrArg Role.currentTerm (followCommit_role _ _)).trans haccept, rfl⟩

theorem handleAppendEntries_static (n : Node) (args : AppendEntriesArgs)
    (x : Option Intrusion) : (n.handleAppendEntries args x).1.static = n.static := by
  have haccept := static_of_progress (n.acceptLeader_progress args.term args.leaderID)
  rcases n.handleAppendEntries_cases args x with ⟨-, h⟩ | ⟨-, t, -, h⟩ | ⟨-, -, h⟩
  · rw [h]
  · rw [h, haccept]
  · rw [h]
    exact (followCommit_static _ _).trans haccept

theorem followCommit_log (n : Node) (leaderCommit : ℕ) :
    (n.followCommit leaderCommit).log = n.log := by
  unfold followCommit
  split <;> rfl

theorem handleAppendEntries_lastApplied (n : Node) (args : AppendEntriesArgs)
    (x : Option Intrusion) : (n.handleAppendEntries args x).1.lastApplied = n.lastApplied := by
  have hold := lastApplied_of_progress (n.acceptLeader_progress args.term args.leaderID)
  rcases n.handleAppendEntries_cases args x with ⟨-, h⟩ | ⟨-, t, -, h⟩ | ⟨-, -, h⟩
  · rw [h]
  · rw [h, hold]
  · rw [h]
    unfold followCommit
    split
    · exact hold
    · exact hold

/-- What `replicateTo` can decide: the node does not lead, the peer needs a
snapshot, or a request is built. -/
theorem replicateTo_cases (n : Node) (peer : String) (cut : Option Compaction) :
    (n.state ≠ .leader ∧ n.replicateTo peer cut = (n, .done)) ∨
    (n.state = .leader ∧ n.replicateTo peer cut = (n, .snapshot)) ∨
    (n.state = .leader ∧ ∃ prevTerm log,
      n.log.term (prevIndex (n.nextIndex.get peer)) = .ok prevTerm ∧
      log = (match cut with
        | none => n.log
        | some c => n.log.setSnapshot c.index c.term) ∧
      n.replicateTo peer cut =
        ({ n with log := log }, .send (n.appendArgs peer prevTerm log))) := by
  unfold replicateTo
  split
  · rename_i hs
    exact Or.inl ⟨hs, rfl⟩
  · rename_i hs
    have hlead := not_not.mp hs
    simp only
    cases ht : n.log.term (prevIndex (n.nextIndex.get peer)) with
    | error e => exact Or.inr (Or.inl ⟨hlead, rfl⟩)
    | ok prevTerm => exact Or.inr (Or.inr ⟨hlead, prevTerm, _, rfl, rfl, rfl⟩)

end Node

end Raft

end VaultFS
