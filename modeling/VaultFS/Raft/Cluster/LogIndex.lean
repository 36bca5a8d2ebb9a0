import VaultFS.Raft.Cluster.Configured
import VaultFS.Raft.Log.Contiguous

/-!
# Log indices in every run

The entries of a log, and of every AppendEntries request, carry consecutive
indices. A step can break this in one way only: a request reaches a node that has
compacted an entry which the request carries, and the handler takes the failed
lookup for a missing entry.
-/

namespace VaultFS

namespace Raft

open Transition

/-- The `SetSnapshot` that falls into the handling of a request. -/
def Host.intrusion (h : Host) (cut : Option ℕ) : Option Intrusion :=
  match cut with
  | none => none
  | some k => h.pending.map fun c => { c with before := k }

theorem Host.intrusion_of_compact {h : Host} {d : Compaction} (ha : h.applyLoop = .compact d)
    (k : ℕ) : h.intrusion (some k) = some { d with before := k } := by
  simp [Host.intrusion, Host.pending, ha]

theorem Host.mem_intrusion {h : Host} {cut : Option ℕ} {y : Intrusion}
    (hy : y ∈ h.intrusion cut) : h.applyLoop = .compact y.toCompaction := by
  unfold Host.intrusion at hy
  split at hy
  · cases hy
  · obtain ⟨d, hd, rfl⟩ := Option.map_eq_some_iff.mp hy
    unfold Host.pending at hd
    split at hd
    · rename_i ha
      rwa [← Option.some.inj hd]
    · cases hd

/-- Handling a request to append entries, with or without an intruding
`SetSnapshot`. -/
theorem Delivered.append_inv {h h' : Host} {cut : Option ℕ} {args : AppendEntriesArgs}
    {rpc : Rpc} (hd : Delivered h cut (.appendEntries args none) h' rpc) :
    h'.node = (h.node.handleAppendEntries args (h.intrusion cut)).1 ∧
      rpc = .appendEntries args (some (h.node.handleAppendEntries args (h.intrusion cut)).2) := by
  cases hd with
  | append => exact ⟨rfl, rfl⟩
  | appendCut _ k d ha hs =>
      rw [Host.intrusion_of_compact ha]
      exact ⟨rfl, rfl⟩

/-- Where the `SetSnapshot` of a step falls in the handler's loop. -/
def Event.cut : Event → Option ℕ
  | .deliver _ cut => cut
  | _ => none

/-- A request to append entries that passes the checks of the handler carries
only entries that the receiver has not compacted, except for one at the end of
the snapshot and of its term. -/
def appendsAboveSnapshot (w : World) (e : Event) : Prop :=
  ∀ call ∈ w.handled e, ∀ args ∈ call.rpc.appendRequest,
    (w.hosts call.dst).node.currentTerm ≤ args.term →
    (w.hosts call.dst).node.checkPrev args = none →
    Node.clearLookups ((w.hosts call.dst).intrusion e.cut) 0
      (w.hosts call.dst).node.log args.entries = true

instance (w : World) (e : Event) : Decidable (appendsAboveSnapshot w e) :=
  inferInstanceAs (Decidable (∀ call ∈ w.handled e, _))

structure Indexed (w : World) : Prop where
  log : ∀ i, (w.hosts i).node.log.Contiguous
  request : ∀ call ∈ w.calls, ∀ args reply, call.rpc = .appendEntries args reply →
    Consecutive (args.prevLogIndex + 1) args.entries

namespace Indexed

variable {w : World}

theorem init (cl : Cluster) : Indexed (World.init cl) where
  log _ := Consecutive.nil 1
  request call hc := by simp [World.init] at hc

theorem consecutive_appendArgs {n : Node} (peer : String) (prevTerm : ℕ) {log : RaftLog}
    (h : log.Contiguous) : Consecutive ((n.appendArgs peer prevTerm log).prevLogIndex + 1)
      (n.appendArgs peer prevTerm log).entries := by
  simp only [Node.appendArgs, prevIndex]
  by_cases h0 : n.nextIndex.get peer = 0
  · rw [h0, RaftLog.slice, if_pos (by omega)]
    exact .nil _
  · rw [if_neg h0, Nat.sub_add_cancel (by omega)]
    exact h.slice _ _

theorem log_acted {h h' : Host} {c : ℕ} {a : Action} {cs : List Call}
    (ha : Acted h c a h' cs) (hl : h.node.log.Contiguous) : h'.node.log.Contiguous := by
  cases ha with
  | stand n args _ hn =>
      obtain ⟨-, rfl, -⟩ := Node.maybeStartElection_some hn
      exact hl
  | standAlone n args _ hn =>
      obtain ⟨-, rfl, -⟩ := Node.maybeStartElection_some hn
      exact hl
  | winAlone term el =>
      simp only [Node.log_of_progress (h.node.winAlone_progress el term)]
      exact hl
  | propose command n hn =>
      obtain ⟨-, rfl⟩ := Node.propose_ok hn
      simp only [Node.advanceCommitIndex_log]
      refine hl.append ?_
      rw [← hl.lastIndex]
      intro k e he
      obtain ⟨rfl, rfl⟩ : k = 0 ∧ _ := by simpa [List.getElem?_cons] using he
      rfl
  | appendCut | snapshotCut | takeSnapshot | applyCompact => exact hl.setSnapshot _ _
  | _ => exact hl

theorem request_acted {h h' : Host} {c : ℕ} {a : Action} {cs : List Call}
    (ha : Acted h c a h' cs) (hl : h.node.log.Contiguous) {call : Call} (hc : call ∈ cs)
    {args : AppendEntriesArgs} {reply : Option AppendEntriesReply}
    (hrpc : call.rpc = .appendEntries args reply) :
    Consecutive (args.prevLogIndex + 1) args.entries := by
  cases ha with
  | stand n args' _ hn =>
      obtain ⟨p, -, rfl⟩ := List.mem_map.mp hc
      cases hrpc
  | append peer prevTerm =>
      rw [List.mem_singleton.mp hc] at hrpc
      cases hrpc
      exact consecutive_appendArgs peer prevTerm hl
  | appendCut peer prevTerm d =>
      rw [List.mem_singleton.mp hc] at hrpc
      cases hrpc
      exact consecutive_appendArgs peer prevTerm (hl.setSnapshot _ _)
  | snapshot | snapshotCut =>
      rw [List.mem_singleton.mp hc] at hrpc
      cases hrpc
  | _ => simp at hc

theorem checkPrev_acceptLeader (n : Node) (term : ℕ) (leaderID : String)
    (args : AppendEntriesArgs) :
    (n.acceptLeader term leaderID).checkPrev args = n.checkPrev args := by
  unfold Node.checkPrev
  rw [Node.log_of_progress (n.acceptLeader_progress term leaderID)]

theorem term_of_checkPrev {n : Node} {args : AppendEntriesArgs} (h : n.checkPrev args = none) :
    args.prevLogIndex = 0 ∨ n.log.term args.prevLogIndex = .ok args.prevLogTerm := by
  unfold Node.checkPrev at h
  split at h
  · cases ht : n.log.term args.prevLogIndex with
    | error err => simp [ht] at h
    | ok t =>
        simp only [ht, ite_eq_right_iff, reduceCtorEq, imp_false, not_not] at h
        exact Or.inr (h ▸ rfl)
  · exact Or.inl (by omega)

/-- The request continues the log or overlaps it. -/
theorem prev_le_of_checkPrev {n : Node} {args : AppendEntriesArgs}
    (h : n.checkPrev args = none) :
    args.prevLogIndex ≤ n.log.snapIndex + n.log.entries.length := by
  rcases term_of_checkPrev h with h0 | ht
  · omega
  · exact RaftLog.le_end_of_term ht

theorem log_append {n : Node} {args : AppendEntriesArgs} {x : Option Intrusion}
    (hl : n.log.Contiguous) (hes : Consecutive (args.prevLogIndex + 1) args.entries)
    (hclear : n.currentTerm ≤ args.term → n.checkPrev args = none →
      Node.clearLookups x 0 n.log args.entries = true) :
    (n.handleAppendEntries args x).1.log.Contiguous := by
  have hlog := Node.log_of_progress (n.acceptLeader_progress args.term args.leaderID)
  rcases n.handleAppendEntries_cases args x with ⟨-, h⟩ | ⟨hle, t, -, h⟩ | ⟨hle, hprev, h⟩
  · rw [h]
    exact hl
  · rw [h]
    simp only [hlog]
    exact hl
  · rw [h, Node.followCommit_log]
    rw [checkPrev_acceptLeader] at hprev
    have hmerged := Node.contiguous_appendNew hl hes (Nat.succ_pos _)
      (Nat.succ_le_succ (prev_le_of_checkPrev hprev)) (hclear hle hprev)
    rw [← hlog] at hmerged
    cases x with
    | none => exact hmerged
    | some y => exact hmerged.setSnapshot _ _

theorem log_delivered {h h' : Host} {cut : Option ℕ} {rpc rpc' : Rpc}
    (hd : Delivered h cut rpc h' rpc') (hl : h.node.log.Contiguous)
    (hes : ∀ args reply, rpc = .appendEntries args reply →
      Consecutive (args.prevLogIndex + 1) args.entries)
    (hclear : ∀ args ∈ rpc.appendRequest, h.node.currentTerm ≤ args.term →
      h.node.checkPrev args = none →
      Node.clearLookups (h.intrusion cut) 0 h.node.log args.entries = true) :
    h'.node.log.Contiguous := by
  cases hd with
  | vote args =>
      simp only [Node.log_of_progress (h.node.handleRequestVote_progress args)]
      exact hl
  | snapshot args =>
      rcases h.node.handleInstallSnapshot_cases args with ⟨-, hr⟩ | ⟨-, -, hr⟩ | ⟨-, -, hr⟩
      · rw [hr]
        exact hl
      · rw [hr]
        simp only [Node.log_of_progress (h.node.observe_progress args.term)]
        exact hl
      · rw [hr]
        exact hl.setSnapshot _ _
  | append args => exact log_append hl (hes args none rfl) (hclear args rfl)
  | appendCut args k d ha hs =>
      have hx := Host.intrusion_of_compact ha k
      exact log_append hl (hes args none rfl) (hx ▸ hclear args rfl)

theorem log_received {h h' : Host} {c : ℕ} {dst : String} {rpc : Rpc}
    (hr : Received h c dst rpc h') : h'.node.log = h.node.log := by
  cases hr with
  | vote args reply el =>
      exact Node.log_of_progress (h.node.countVote_progress el args.term reply)
  | append args reply => exact (h.node.handleAppendReply_advances dst args reply).log
  | snapshot args reply =>
      exact Node.log_of_progress (h.node.handleSnapshotReply_progress dst args reply)

theorem put {i : String} {h' : Host} {calls : List Call} (h : Indexed w)
    (hl : h'.node.log.Contiguous)
    (hc : ∀ call ∈ calls, ∀ args reply, call.rpc = .appendEntries args reply →
      Consecutive (args.prevLogIndex + 1) args.entries) : Indexed (w.put i h' calls) where
  log := World.put_hosts (P := fun _ x => x.node.log.Contiguous) hl fun j _ => h.log j
  request := hc

theorem step {cl : Cluster} {w' : World} {e : Event} (h : Indexed w)
    (hok : appendsAboveSnapshot w e) (hs : Raft.step cl w e = some w') : Indexed w' := by
  -- a call that changes keeps its request
  have hset : ∀ {c : ℕ} {call call' : Call}, w.calls[c]? = some call →
      (∀ args reply, call'.rpc = .appendEntries args reply →
        ∃ reply', call.rpc = .appendEntries args reply') →
      ∀ x ∈ w.calls.set c call', ∀ args reply, x.rpc = .appendEntries args reply →
        Consecutive (args.prevLogIndex + 1) args.entries := by
    intro c call call' hc hsame x hx args reply hrpc
    rcases List.mem_or_eq_of_mem_set hx with hold | rfl
    · exact h.request x hold args reply hrpc
    · obtain ⟨reply', hrpc'⟩ := hsame args reply hrpc
      exact h.request call (List.mem_of_getElem? hc) args reply' hrpc'
  cases step_moved hs with
  | act i a h' cs hi hact =>
      have ha := Host.act_acted hact
      refine h.put (log_acted ha (h.log i)) ?_
      intro call hcall args reply hrpc
      rcases List.mem_append.mp hcall with hold | hnew
      · exact h.request call hold args reply hrpc
      · exact request_acted ha (h.log i) hnew hrpc
  | deliver c cut call h' rpc hc hdel =>
      have hd := Host.deliver_delivered hdel
      refine h.put (log_delivered hd (h.log call.dst) ?_ (hok call hc)) (hset hc ?_)
      · exact fun args reply => h.request call (List.mem_of_getElem? hc) args reply
      · intro args reply hrpc
        generalize hreq : call.rpc = req at hd
        cases hd with
        | vote args' => cases hrpc
        | snapshot args' => cases hrpc
        | append args' =>
            cases hrpc
            exact ⟨none, rfl⟩
        | appendCut args' k d ha hsucc =>
            cases hrpc
            exact ⟨none, rfl⟩
  | receive c call h' hc hw hrec =>
      refine h.put ?_ (hset hc fun args reply hrpc => ⟨reply, hrpc⟩)
      rw [log_received (Host.receive_received hrec)]
      exact h.log call.src
  | giveUp c call hc hw =>
      exact h.put (h.log call.src) (hset hc fun args reply hrpc => ⟨reply, hrpc⟩)

end Indexed

theorem Reach.indexed {cl : Cluster} {ok : World → Event → Prop} {w : World}
    (h : Reach cl ok w) (himp : ∀ w e, ok w e → appendsAboveSnapshot w e) : Indexed w :=
  Path.invariant h (Indexed.init cl) fun w e _ hi hok hs => hi.step (himp w e hok) hs

/-- In a run in which no node is sent an entry that it has compacted, every log is
contiguous. -/
theorem log_contiguous {cl : Cluster} {w : World} (h : Reach cl appendsAboveSnapshot w)
    (i : String) : (w.hosts i).node.log.Contiguous :=
  (h.indexed fun _ _ hok => hok).log i

/-- Node `a` sends two entries to `b`, gives up waiting and sends them again; `b`
gets only the second request, applies both entries and compacts its log. -/
def compactedB : List Event :=
  [.act "a" .electionTimeout, .deliver 0 none, .receive 0, .act "a" (.propose [1]),
    .act "a" (.propose [2]), .act "a" .heartbeat, .act "a" (.replicateTo "b" false),
    .act "a" (.replicateTo "c" false), .giveUp 2, .giveUp 3, .act "a" .heartbeat,
    .act "a" (.replicateTo "b" false), .deliver 4 none, .receive 4,
    .act "a" (.replicateTo "c" false), .giveUp 5, .act "a" .heartbeat,
    .act "a" (.replicateTo "b" false), .deliver 6 none] ++
  applies "b" 2 ++ [.act "b" (.takeSnapshot [])]

theorem log_contiguous_compactedB : ∃ w : World, (w.hosts "b").node.log.snapIndex = 2 ∧
    (w.hosts "b").node.log.Contiguous := by
  have hw : Runs trio appendsAboveSnapshot compactedB := by decide
  exact ⟨run trio appendsAboveSnapshot compactedB, by decide, log_contiguous (Reach.run hw) "b"⟩

/-- The first request then reaches `b`, which appends both entries once more. -/
theorem log_not_contiguous : ∃ w : World, Reach trio anyStep w ∧
    (w.hosts "b").node.log = ⟨[⟨1, 1, [1]⟩, ⟨2, 1, [2]⟩], 2, 1⟩ ∧
    ¬ (w.hosts "b").node.log.Contiguous := by
  have hw : Runs trio anyStep (compactedB ++ [.deliver 2 none]) := by decide
  have hlog : ((run trio anyStep (compactedB ++ [.deliver 2 none])).hosts "b").node.log =
      ⟨[⟨1, 1, [1]⟩, ⟨2, 1, [2]⟩], 2, 1⟩ := by decide
  refine ⟨_, Reach.run hw, hlog, fun hc => ?_⟩
  rw [hlog] at hc
  exact absurd (hc 0 ⟨1, 1, [1]⟩ rfl) (by decide)

end Raft

end VaultFS
