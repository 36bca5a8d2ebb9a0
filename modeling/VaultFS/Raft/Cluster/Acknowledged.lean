import VaultFS.Raft.Cluster.BackUp

/-!
# Acknowledged entries stay

A leader records in `matchIndex` what a follower has acknowledged. In a run without
compaction the follower keeps these entries as long as it stays in the leader's term: any
request it accepts in that term carries a piece of the leader's log, which only grows, so the
handler finds the acknowledged entries where they are and truncates nothing of them.

`Keeps a q T m` says this of the abstract state; an acknowledged request and a match index
both stand for it.
-/

namespace ReplicatedLog

section Keeps

variable {ν ε : Type*}

/-- The node has the first `m` entries of the leader of `T`, unless it has left the term. -/
def State.Keeps (a : State ν ε) (q : ν) (T m : ℕ) : Prop :=
  m = 0 ∨ (T ≤ a.term q ∧ ∃ L, a.lead T = some L ∧ m ≤ L.length ∧
    (a.term q = T → Agree 0 m (a.log q) L))

/-- A node that stays in its term loses nothing that it has of the log of its leader. -/
def LogKept (a b : State ν ε) (q : ν) : Prop :=
  b.term q = a.term q → ∀ L n, a.lead (a.term q) = some L → n ≤ L.length →
    Agree 0 n (a.log q) L → Agree 0 n (b.log q) L

variable {a b : State ν ε} {q : ν} {T m : ℕ} {L : List ε}

theorem State.Keeps.mono (h : a.Keeps q T m) (hab : a ≤ b) (hkept : LogKept a b q) :
    b.Keeps q T m := by
  rcases h with rfl | ⟨hT, L, hL, hm, hag⟩
  · exact Or.inl rfl
  · obtain ⟨L', hL', hpre⟩ := hab.lead_le T L hL
    have hterm := hab.term_le q
    refine Or.inr ⟨hT.trans hterm, L', hL', hm.trans hpre.length_le, fun hb => ?_⟩
    have ha : a.term q = T := by omega
    exact (hkept (hb.trans ha.symm) L m (ha ▸ hL) hm (hag ha)).extend hm hpre

theorem State.Keeps.le_length (h : a.Keeps q T m) (hL : a.lead T = some L) : m ≤ L.length := by
  rcases h with rfl | ⟨-, L', hL', hm, -⟩
  · exact Nat.zero_le _
  · exact Option.some.inj (hL.symm.trans hL') ▸ hm

theorem State.Keeps.agree (h : a.Keeps q T m) (hL : a.lead T = some L) (hq : a.term q = T) :
    Agree 0 m (a.log q) L := by
  rcases h with rfl | ⟨-, L', hL', -, hag⟩
  · exact Agree.empty le_rfl
  · exact Option.some.inj (hL.symm.trans hL') ▸ hag hq

end Keeps

end ReplicatedLog

namespace VaultFS

namespace Raft

open ReplicatedLog Transition

section Logs

variable {cl : Cluster} {a b : State String Entry} {i : String} {h h' : Host}

/-- Without compaction a node that acts on its own only appends to its log. -/
theorem Acted.entries_isPrefix {c : ℕ} {x : Action} {cs : List Call} (ha : Acted h c x h' cs)
    (hu : h.Uncompacted) (hsnap : ∀ data, x ≠ .takeSnapshot data) :
    h.node.log.entries <+: h'.node.log.entries := by
  cases ha with
  | stand n args hfree hn =>
      obtain ⟨-, rfl, -⟩ := Node.maybeStartElection_some hn
      exact List.prefix_rfl
  | standAlone n args hfree hn =>
      obtain ⟨-, rfl, -⟩ := Node.maybeStartElection_some hn
      exact List.prefix_rfl
  | winAlone term el =>
      rw [Node.log_of_progress (h.node.winAlone_progress el term)]
  | propose command n hn =>
      obtain ⟨-, rfl⟩ := Node.propose_ok hn
      rw [Node.advanceCommitIndex_log]
      exact List.prefix_append _ _
  | takeSnapshot data => exact absurd rfl (hsnap data)
  | appendCut _ _ d _ _ _ happ | snapshotCut _ d _ _ happ | applyCompact d happ =>
      exact absurd happ (hu.ne_compact d)
  | _ => exact List.prefix_rfl

/-- The log after an accepted request of the node's own term: what it had of the leader's log
is still there. -/
theorem HostSim.agree_appendNew {F L : List Entry} {n : ℕ} {args : AppendEntriesArgs}
    (hs : HostSim a i h) (hu : h.Uncompacted) (hr : Reachable (quorums cl) a)
    (hF : Consecutive 1 F) (hlead : a.lead args.term = some L) (hpre : F <+: L)
    (hprev : a.Stamped F args.prevLogIndex args.prevLogTerm args.term)
    (hes : args.entries = F.drop args.prevLogIndex)
    (hterm : h.node.currentTerm = args.term) (hcheck : h.node.checkPrev args = none)
    (hag : Agree 0 n h.node.log.entries L) :
    Agree 0 n (Node.appendNew none 0 h.node.log args.entries).entries L := by
  have hclear : Node.clearLookups none 0 h.node.log args.entries = true := by
    refine Node.clearLookups_of_lt 0 fun e he => ?_
    obtain ⟨k, hk⟩ := List.mem_iff_getElem?.mp (hes ▸ he)
    rw [List.getElem?_drop] at hk
    rw [hu.snapIndex, hF _ e hk]
    omega
  obtain ⟨c, -, -, -, -, hmerged, hrep, -⟩ := hs.merge hr hterm hlead hF hpre hprev hes hcheck
    hclear (by simp)
  have hsnap : (Node.appendNew none 0 h.node.log args.entries).snapIndex = 0 :=
    ((Node.snapFrom_appendNew none 0 h.node.log args.entries).resolve_right (by simp)).1.trans
      hu.snapIndex
  rw [hrep.entries, hsnap, List.drop_zero]
  exact hmerged.agree ((hs.log_eq hu).1 ▸ hag) (Agree.refl 0 n L)

/-- Handling a request keeps what the node has of the log of its leader. -/
theorem HostSim.agree_of_delivered {cut : Option ℕ} {src dst : String} {rpc rpc' : Rpc}
    {F L : List Entry} {n : ℕ} (hs : HostSim a i h) (hu : h.Uncompacted)
    (hr : Reachable (quorums cl) a) (hcall : CallSim a src dst F rpc) (hrpc : rpc.Uncompacted)
    (hd : Delivered h cut rpc h' rpc') (hterm : h'.node.currentTerm = h.node.currentTerm)
    (hlead : a.lead h.node.currentTerm = some L) (hag : Agree 0 n h.node.log.entries L) :
    Agree 0 n h'.node.log.entries L := by
  cases hd with
  | vote args =>
      rw [Node.log_of_progress (h.node.handleRequestVote_progress args)]
      exact hag
  | snapshot args =>
      rcases h.node.handleInstallSnapshot_cases args with ⟨-, hr⟩ | ⟨-, -, hr⟩ | ⟨-, hlt, -⟩
      · rwa [hr]
      · rw [hr]
        exact (Node.log_of_progress (h.node.observe_progress args.term)).symm ▸ hag
      · rw [show args.lastIncludedIndex = 0 from hrpc] at hlt
        omega
  | append args =>
      obtain ⟨⟨hF, L', hL', hpre⟩, hprev, hes, -⟩ := hcall
      have hlog := Node.log_of_progress (h.node.acceptLeader_progress args.term args.leaderID)
      rcases h.node.handleAppendEntries_cases args none with
        ⟨-, heq⟩ | ⟨hle, t, -, heq⟩ | ⟨hle, hcheck, heq⟩
      · rwa [heq]
      · rw [heq, hlog]
        exact hag
      · have hargs : h.node.currentTerm = args.term := by
          rw [← hterm]
          exact (Node.handleAppendEntries_term hle none).1
        obtain rfl := Option.some.inj ((hargs ▸ hlead).symm.trans hL')
        rw [heq, Node.followCommit_log]
        simp only [Node.mergedLog, hlog]
        exact hs.agree_appendNew hu hr hF hL' hpre hprev.stamped hes hargs
          (Indexed.checkPrev_acceptLeader .. ▸ hcheck) hag
  | appendCut args k d happ => exact absurd happ (hu.ne_compact d)

end Logs

theorem noCompaction.ne_takeSnapshot {cl : Cluster} {w : World} {i : String} {x : Action}
    (hok : noCompaction cl w (.act i x)) (data : List UInt8) : x ≠ .takeSnapshot data := by
  rintro rfl
  cases hok.1

/-- Along a step of a run without compaction, a node that stays in its term loses nothing that it
has of the log of its leader. -/
theorem Simulated.logKept {cl : Cluster} {w w' : World} {e : Event} {a b : State String Entry}
    (h : Simulated cl w a) (h' : Simulated cl w' b) (hu : Uncompacted w) (hu' : Uncompacted w')
    (hok : noCompaction cl w e) (hs : Raft.step cl w e = some w') (q : String) :
    LogKept a b q := by
  intro hterm L n hL hn hag
  rw [(h.host q).term] at hL hterm
  rw [(h'.host q).term] at hterm
  rw [((h.host q).log_eq (hu.host q)).1] at hag
  rw [((h'.host q).log_eq (hu'.host q)).1]
  -- only the host that moved has to be looked at
  have hput : ∀ {i : String} {x : Host} {calls : List Call}, w' = w.put i x calls →
      (q = i → x.node.currentTerm = (w.hosts i).node.currentTerm →
        Agree 0 n (w.hosts i).node.log.entries L → Agree 0 n x.node.log.entries L) →
      Agree 0 n (w'.hosts q).node.log.entries L := by
    rintro i x calls rfl himp
    by_cases hq : q = i
    · subst hq
      rw [World.put_hosts_self] at hterm ⊢
      exact himp rfl hterm hag
    · rwa [World.put_hosts_ne hq]
  cases step_moved hs with
  | act i x h₁ cs hi hact =>
      refine hput rfl fun _ _ hag => ?_
      have hpre := (Host.act_acted hact).entries_isPrefix (hu.host i) hok.ne_takeSnapshot
      exact (hag.symm.extend (hag.symm.length_le hn) hpre).symm
  | deliver c cut call h₁ rpc hc hdel =>
      refine hput rfl fun hq hterm hag => ?_
      obtain ⟨-, -, sh, hsim⟩ := h
      obtain ⟨F, -, hcall⟩ := hsim.exists_sent hc
      exact (hsim.host call.dst).agree_of_delivered (hu.host call.dst) hsim.reachable hcall
        (hu.call call (List.mem_of_getElem? hc)) (Host.deliver_delivered hdel) hterm (hq ▸ hL) hag
  | receive c call h₁ hc hwait hrec =>
      refine hput rfl fun _ _ hag => ?_
      rwa [Indexed.log_received (Host.receive_received hrec)]
  | giveUp c call hc hwait => exact hput rfl fun _ _ hag => hag

/-- A successful reply acknowledges everything up to the last entry of the request. -/
theorem Simulated.keeps_of_success {cl : Cluster} {w w' : World} {a b : State String Entry}
    {c : ℕ} {src dst : String} {args : AppendEntriesArgs} {waiting : Bool} {calls : List Call}
    (h : Simulated cl w a) (hu : Uncompacted w) (hidx : Indexed w)
    (hc : w.calls[c]? = some ⟨src, dst, .appendEntries args none, waiting⟩)
    (hw' : w' = w.put dst { w.hosts dst with
      node := ((w.hosts dst).node.handleAppendEntries args none).1 } calls)
    (h' : Simulated cl w' b) (hu' : Uncompacted w') (hab : a ≤ b)
    (hsucc : ((w.hosts dst).node.handleAppendEntries args none).2.success = true) :
    b.Keeps dst args.term (args.prevLogIndex + args.entries.length) := by
  obtain ⟨-, -, sh, hsim⟩ := h
  obtain ⟨F, -, hcall⟩ := hsim.exists_sent hc
  have hclear : (w.hosts dst).node.currentTerm ≤ args.term →
      (w.hosts dst).node.checkPrev args = none →
      Node.clearLookups none 0 (w.hosts dst).node.log args.entries = true :=
    hu.appendsAboveSnapshot hidx (.deliver c none) _ hc args rfl
  obtain ⟨b₁, -, -, hs₁, -, -, -, hacc⟩ := (hsim.host dst).handleAppendEntries hsim.reachable hcall
    hclear (by simp)
  obtain ⟨-, hag⟩ := hacc hsucc
  obtain ⟨⟨-, L, hL, hpre⟩, hprev, hes, -⟩ := hcall
  have hhost : w'.hosts dst = { w.hosts dst with
      node := ((w.hosts dst).node.handleAppendEntries args none).1 } := by
    rw [hw', World.put_hosts_self]
  have hu₁ := hu'.host dst
  have hlog := ((h'.host dst).log_eq hu₁).1
  rw [hhost] at hu₁ hlog
  rw [(hs₁.log_eq hu₁).1, ← hlog] at hag
  have hlen : args.prevLogIndex + args.entries.length = F.length := by
    have := hprev.stamped.le_length
    rw [hes, List.length_drop]
    omega
  obtain ⟨L', hL', hpre'⟩ := hab.lead_le _ L hL
  have hF := hpre.trans hpre'
  have hterm : b.term dst = args.term := by
    rw [(h'.host dst).term, hhost]
    rcases (w.hosts dst).node.handleAppendEntries_cases args none with
      ⟨-, heq⟩ | ⟨hle, -⟩ | ⟨hle, -⟩
    · rw [heq] at hsucc
      cases hsucc
    · exact (Node.handleAppendEntries_term hle none).1
    · exact (Node.handleAppendEntries_term hle none).1
  rw [hlen]
  exact Or.inr ⟨hterm.ge, L', hL', hF.length_le, fun _ => hag.trans (Agree.of_isPrefix hF)⟩

/-- What a leader goes by. -/
structure Steering where
  state : NodeState
  currentTerm : ℕ
  log : RaftLog
  nextIndex : IndexMap
  matchIndex : IndexMap

def Node.steering (n : Node) : Steering :=
  ⟨n.state, n.currentTerm, n.log, n.nextIndex, n.matchIndex⟩

/-- How a leader's view of a peer comes about when no reply of that peer is handled: it is
that of before, or that of a new leader. -/
inductive Host.Steers (h h' : Host) (p : String) : Prop where
  | same (hl : h.node.state = .leader) (hterm : h'.node.currentTerm = h.node.currentTerm)
      (hmatch : h'.node.matchIndex.get p = h.node.matchIndex.get p)
      (hnext : h'.node.nextIndex.get p = h.node.nextIndex.get p)
      (hlog : h.node.log.lastIndex ≤ h'.node.log.lastIndex) : Steers h h' p
  | elected (hcand : h.node.state = .candidate) (hmatch : h'.node.matchIndex.get p = 0)
      (hnext : h'.node.nextIndex.get p = h'.node.log.lastIndex + 1) : Steers h h' p

section Steers

variable {h h' : Host} {p : String}

theorem Host.Steers.of_steering (hsame : h'.node.steering = h.node.steering)
    (hl : h'.node.state = .leader) : h.Steers h' p := by
  have hstate : h'.node.state = h.node.state := congrArg Steering.state hsame
  have hterm : h'.node.currentTerm = h.node.currentTerm := congrArg Steering.currentTerm hsame
  have hlog : h'.node.log = h.node.log := congrArg Steering.log hsame
  have hnext : h'.node.nextIndex = h.node.nextIndex := congrArg Steering.nextIndex hsame
  have hmatch : h'.node.matchIndex = h.node.matchIndex := congrArg Steering.matchIndex hsame
  exact .same (hstate ▸ hl) hterm (by rw [hmatch]) (by rw [hnext]) (by rw [hlog])

theorem Host.Steers.of_outcome {el : Election} {term : ℕ} {r : Node × Election}
    (hr : h.node.Outcome el term r) (hnode : h'.node = r.1) (hnodup : h.node.members.Nodup)
    (hp : p ∈ h.node.peers) (hl : h'.node.state = .leader) : h.Steers h' p := by
  cases hr with
  | kept el' => exact .of_steering (by rw [hnode]) hl
  | later t =>
      rw [hnode] at hl
      cases hl
  | won el' hcand =>
      obtain ⟨-, -, hmatch, hnext⟩ := Node.becomeLeader_indices hnodup hcand
      refine .elected hcand (by rw [hnode]; exact hmatch p hp) ?_
      rw [hnode, Node.log_of_progress h.node.becomeLeader_progress]
      exact hnext p hp

theorem Acted.steers {c : ℕ} {x : Action} {cs : List Call} (ha : Acted h c x h' cs)
    (hu : h.Uncompacted) (hsnap : ∀ data, x ≠ .takeSnapshot data)
    (hnodup : h.node.members.Nodup) (hp : p ∈ h.node.peers) (hl : h'.node.state = .leader) :
    h.Steers h' p := by
  cases ha with
  | stand n args hfree hn =>
      obtain ⟨-, rfl, -⟩ := Node.maybeStartElection_some hn
      cases hl
  | standAlone n args hfree hn =>
      obtain ⟨-, rfl, -⟩ := Node.maybeStartElection_some hn
      cases hl
  | winAlone term el => exact .of_outcome (h.node.winAlone_outcome el term) rfl hnodup hp hl
  | propose command n hn =>
      obtain ⟨hlead, rfl⟩ := Node.propose_ok hn
      have hne : p ≠ h.node.id := fun heq => (List.nodup_cons.mp hnodup).1 (heq ▸ hp)
      obtain ⟨hnext, hmatch⟩ := Node.advanceCommitIndex_indices _
      refine .same hlead (congrArg Role.currentTerm (Node.advanceCommitIndex_role _)) ?_ ?_ ?_
      · rw [hmatch]
        exact IndexMap.get_set_ne _ hne _
      · rw [hnext]
      · rw [Node.advanceCommitIndex_log]
        simp [RaftLog.lastIndex, RaftLog.append]
  | takeSnapshot data => exact absurd rfl (hsnap data)
  | appendCut _ _ d _ _ _ happ | snapshotCut _ d _ _ happ | applyCompact d happ =>
      exact absurd happ (hu.ne_compact d)
  | _ => exact .of_steering rfl hl

theorem Node.observe_steering (n : Node) (t : ℕ) :
    (n.observe t).steering = n.steering ∨ (n.observe t).state = .follower := by
  unfold observe
  split
  · exact Or.inr rfl
  · exact Or.inl rfl

theorem Delivered.steering {cut : Option ℕ} {rpc rpc' : Rpc} (hd : Delivered h cut rpc h' rpc')
    (hu : h.Uncompacted) (hrpc : rpc.Uncompacted) :
    h'.node.steering = h.node.steering ∨ h'.node.state = .follower := by
  cases hd with
  | vote args =>
      rcases h.node.handleRequestVote_cases args with ⟨-, hr⟩ | ⟨-, hr⟩ | ⟨-, -, -, hr⟩
      · exact Or.inl (by rw [hr])
      · simp only [hr]
        exact h.node.observe_steering args.term
      · simp only [hr]
        exact h.node.observe_steering args.term
  | snapshot args =>
      rcases h.node.handleInstallSnapshot_cases args with ⟨-, hr⟩ | ⟨-, -, hr⟩ | ⟨-, hlt, -⟩
      · exact Or.inl (by rw [hr])
      · simp only [hr]
        exact h.node.observe_steering args.term
      · rw [show args.lastIncludedIndex = 0 from hrpc] at hlt
        omega
  | append args =>
      have hacc : h.node.currentTerm ≤ args.term →
          (h.node.acceptLeader args.term args.leaderID).state = .follower := by
        intro hle
        rcases Node.acceptLeader_role args.leaderID hle with ⟨-, hf, hrole⟩ | ⟨-, hrole⟩
        · exact (congrArg Role.state hrole).trans hf
        · exact congrArg Role.state hrole
      rcases h.node.handleAppendEntries_cases args none with
        ⟨-, hr⟩ | ⟨hle, t, -, hr⟩ | ⟨hle, -, hr⟩
      · exact Or.inl (by rw [hr])
      · exact Or.inr (by simp only [hr]; exact hacc hle)
      · refine Or.inr ?_
        simp only [hr]
        exact (congrArg Role.state (Node.followCommit_role _ _)).trans (hacc hle)
  | appendCut args k d happ => exact absurd happ (hu.ne_compact d)

theorem Delivered.steers {cut : Option ℕ} {rpc rpc' : Rpc} (hd : Delivered h cut rpc h' rpc')
    (hu : h.Uncompacted) (hrpc : rpc.Uncompacted) (hl : h'.node.state = .leader) :
    h.Steers h' p := by
  rcases hd.steering hu hrpc with hsame | hf
  · exact .of_steering hsame hl
  · rw [hf] at hl
    cases hl

theorem Received.steers {c : ℕ} {dst : String} {rpc : Rpc} (hr : Received h c dst rpc h')
    (hnodup : h.node.members.Nodup) (hp : p ∈ h.node.peers) (hl : h'.node.state = .leader)
    (hne : rpc.isVote = false → p ≠ dst) : h.Steers h' p := by
  cases hr with
  | vote args reply el =>
      exact .of_outcome (h.node.countVote_outcome el args.term reply) rfl hnodup hp hl
  | append args reply =>
      rcases h.node.handleAppendReply_cases dst args reply with
        ⟨-, heq⟩ | heq | ⟨hlead, -, -, m, x, heq, hm, rfl⟩ | ⟨hlead, -, -, x, heq, -⟩
      · simp only [heq] at hl
        cases hl
      · exact .of_steering (by simp only [heq]) hl
      · obtain ⟨hnext, hmatch⟩ := Node.advanceCommitIndex_indices
          { h.node with matchIndex := m, nextIndex := h.node.nextIndex.set dst (m.get dst + 1) }
        refine .same hlead ?_ ?_ ?_ ?_
        · simp only [heq]
          exact congrArg Role.currentTerm (Node.advanceCommitIndex_role _)
        · simp only [heq, hmatch]
          rcases hm with rfl | rfl
          · rfl
          · exact IndexMap.get_set_ne _ (hne rfl) _
        · simp only [heq, hnext]
          exact IndexMap.get_set_ne _ (hne rfl) _
        · simp only [heq, Node.advanceCommitIndex_log]
          exact le_rfl
      · refine .same hlead ?_ ?_ ?_ ?_
        · simp only [heq]
        · simp only [heq]
        · simp only [heq]
          exact IndexMap.get_set_ne _ (hne rfl) _
        · simp only [heq]
          exact le_rfl
  | snapshot args reply =>
      rcases h.node.handleSnapshotReply_cases dst args reply with
        ⟨-, heq⟩ | heq | ⟨hlead, m, heq, hm⟩
      · simp only [heq] at hl
        cases hl
      · exact .of_steering (by simp only [heq]) hl
      · refine .same hlead ?_ ?_ ?_ ?_
        · simp only [heq]
        · simp only [heq]
          rcases hm with rfl | rfl
          · rfl
          · exact IndexMap.get_set_ne _ (hne rfl) _
        · simp only [heq]
          exact IndexMap.get_set_ne _ (hne rfl) _
        · simp only [heq]
          exact le_rfl

end Steers

/-- A call that is just made has no reply. -/
theorem Acted.unanswered {h h' : Host} {c : ℕ} {x : Action} {cs : List Call}
    (ha : Acted h c x h' cs) {call : Call} (hc : call ∈ cs) : call.rpc.answered = false := by
  cases ha with
  | stand n args =>
      obtain ⟨p, -, rfl⟩ := List.mem_map.mp hc
      rfl
  | append | appendCut | snapshot | snapshotCut =>
      rw [List.mem_singleton.mp hc]
      rfl
  | _ => cases hc

/-- What match indices and successful replies stand for. -/
structure Acknowledged (cl : Cluster) (w : World) (a : State String Entry) : Prop where
  synced : ∀ i, (w.hosts i).node.state = .leader → ∀ p ∈ cl.peers i,
    a.Keeps p (w.hosts i).node.currentTerm ((w.hosts i).node.matchIndex.get p)
  acked : ∀ call ∈ w.calls, ∀ args reply, call.rpc = .appendEntries args (some reply) →
    reply.success = true → a.Keeps call.dst args.term (args.prevLogIndex + args.entries.length)

/-- A world of a run without compaction, with a history that it represents. -/
structure Tracked (cl : Cluster) (w : World) (a : State String Entry) : Prop where
  simulated : Simulated cl w a
  uncompacted : Uncompacted w
  indexed : Indexed w
  acknowledged : Acknowledged cl w a

namespace Tracked

variable {cl : Cluster} {w w' : World} {a b : State String Entry} {e : Event}

theorem init (cl : Cluster) : Tracked cl (World.init cl) State.init where
  simulated := Simulated.init cl
  uncompacted := Uncompacted.init cl
  indexed := Indexed.init cl
  acknowledged :=
    { synced := fun i hl => by cases hl
      acked := fun call hc => by simp [World.init] at hc }

theorem configured (h : Tracked cl w a) : Configured cl w := h.simulated.1

/-- The next world, apart from what the replies stand for. -/
theorem exists_next (h : Tracked cl w a) (hok : noCompaction cl w e)
    (hs : Raft.step cl w e = some w') :
    ∃ b, Simulated cl w' b ∧ Uncompacted w' ∧ Indexed w' ∧ a ≤ b ∧ ∀ q, LogKept a b q := by
  have happ := h.uncompacted.appendsAboveSnapshot h.indexed e
  have hu' := h.uncompacted.step h.configured hok hs
  obtain ⟨b, hb, hab⟩ := h.simulated.step
    ⟨h.uncompacted.sendsAboveSnapshot h.configured hs, happ⟩ hs
  exact ⟨b, hb, hu', h.indexed.step happ hs, hab, h.simulated.logKept hb h.uncompacted hu' hok hs⟩

theorem acked_step (h : Tracked cl w a) (hs : Raft.step cl w e = some w')
    (hb : Simulated cl w' b) (hu' : Uncompacted w') (hab : a ≤ b)
    (hkept : ∀ q T m, a.Keeps q T m → b.Keeps q T m) :
    ∀ call ∈ w'.calls, ∀ args reply, call.rpc = .appendEntries args (some reply) →
      reply.success = true →
      b.Keeps call.dst args.term (args.prevLogIndex + args.entries.length) := by
  have hold := fun call hc args reply hrpc hsucc =>
    hkept _ _ _ (h.acknowledged.acked call hc args reply hrpc hsucc)
  cases step_moved hs with
  | act i x h' cs hi hact =>
      intro call hc args reply hrpc hsucc
      rcases List.mem_append.mp hc with hc | hnew
      · exact hold call hc args reply hrpc hsucc
      · have hans := (Host.act_acted hact).unanswered hnew
        rw [hrpc] at hans
        cases hans
  | deliver c cut call h' rpc hc hdel =>
      intro x hx args reply hrpc hsucc
      rcases List.mem_or_eq_of_mem_set hx with hx | rfl
      · exact hold x hx args reply hrpc hsucc
      · obtain ⟨src, dst, request, waiting⟩ := call
        have hd := Host.deliver_delivered hdel
        simp only at hd hrpc ⊢
        cases hd with
        | append args' =>
            simp only [Rpc.appendEntries.injEq, Option.some.injEq] at hrpc
            obtain ⟨rfl, rfl⟩ := hrpc
            exact h.simulated.keeps_of_success h.uncompacted h.indexed hc rfl hb hu' hab hsucc
        | appendCut args' k d happ => exact absurd happ ((h.uncompacted.host dst).ne_compact d)
        | vote | snapshot => cases hrpc
  | receive c call h' hc | giveUp c call hc =>
      exact World.set_calls hold (hold call (List.mem_of_getElem? hc))

/-- A view that is not due to a reply of the peer. -/
theorem keeps_of_steers (h : Tracked cl w a) (hkept : ∀ q T m, a.Keeps q T m → b.Keeps q T m)
    {i p : String} {h' : Host} (hp : p ∈ cl.peers i) (hst : (w.hosts i).Steers h' p) :
    b.Keeps p h'.node.currentTerm (h'.node.matchIndex.get p) := by
  cases hst with
  | same hl hterm hmatch =>
      rw [hterm, hmatch]
      exact hkept _ _ _ (h.acknowledged.synced i hl p hp)
  | elected hcand hmatch => exact Or.inl hmatch

/-- The match index after the reply of the peer. -/
theorem keeps_of_reply (h : Tracked cl w a) (hkept : ∀ q T m, a.Keeps q T m → b.Keeps q T m)
    {c : ℕ} {call : Call} {h' : Host} (hc : w.calls[c]? = some call)
    (hr : Received (w.hosts call.src) c call.dst call.rpc h') (hvote : call.rpc.isVote = false)
    (hl : h'.node.state = .leader) :
    b.Keeps call.dst h'.node.currentTerm (h'.node.matchIndex.get call.dst) := by
  have hmem := List.mem_of_getElem? hc
  have hpeer := (h.configured.call call hmem).2.1
  have hold := fun hl => hkept _ _ _ (h.acknowledged.synced call.src hl call.dst hpeer)
  have hrpc := h.uncompacted.call call hmem
  have hack := h.acknowledged.acked call hmem
  generalize call.rpc = rpc at hr hvote hrpc hack
  cases hr with
  | vote => cases hvote
  | append args reply =>
      rcases (w.hosts call.src).node.handleAppendReply_cases call.dst args reply with
        ⟨-, heq⟩ | heq | ⟨hlead, hterm, hsucc, m, x, heq, hm, -⟩ | ⟨hlead, -, -, x, heq, -⟩
      · simp only [heq] at hl
        cases hl
      · simp only [heq] at hl ⊢
        exact hold hl
      · obtain ⟨-, hmatch⟩ := Node.advanceCommitIndex_indices
          { (w.hosts call.src).node with matchIndex := m, nextIndex := x }
        have hsame := congrArg Role.currentTerm (Node.advanceCommitIndex_role
          { (w.hosts call.src).node with matchIndex := m, nextIndex := x })
        simp only [Node.role] at hsame
        simp only [heq, hmatch, hsame]
        rcases hm with rfl | rfl
        · exact hold hlead
        · rw [IndexMap.get_set_self, hterm]
          exact hkept _ _ _ (hack args reply rfl hsucc)
      · simp only [heq]
        exact hold hlead
  | snapshot args reply =>
      rcases (w.hosts call.src).node.handleSnapshotReply_cases call.dst args reply with
        ⟨-, heq⟩ | heq | ⟨hlead, m, heq, hm⟩
      · simp only [heq] at hl
        cases hl
      · simp only [heq] at hl ⊢
        exact hold hl
      · simp only [heq]
        rcases hm with rfl | rfl
        · exact hold hlead
        · exact Or.inl ((IndexMap.get_set_self ..).trans hrpc)

/-- A property of leaders' views of their peers holds after a step if it holds of every view that
is not due to a reply of the peer and of every view that is. -/
theorem view_step (h : Tracked cl w a) (hok : noCompaction cl w e)
    (hs : Raft.step cl w e = some w') {P : String → Host → Prop}
    (hsteers : ∀ i p h', p ∈ cl.peers i → (w.hosts i).Steers h' p → P p h')
    (hreply : ∀ c call h', w.calls[c]? = some call → call.Replicates →
      Received (w.hosts call.src) c call.dst call.rpc h' → h'.node.state = .leader →
      P call.dst h') :
    ∀ i, (w'.hosts i).node.state = .leader → ∀ p ∈ cl.peers i, P p (w'.hosts i) := by
  have hput : ∀ {i : String} {x : Host} {calls : List Call},
      (x.node.state = .leader → ∀ p ∈ cl.peers i, P p x) →
      ∀ j, ((w.put i x calls).hosts j).node.state = .leader → ∀ p ∈ cl.peers j,
        P p ((w.put i x calls).hosts j) := by
    intro i x calls hx
    refine World.put_hosts (P := fun j x => x.node.state = .leader → ∀ p ∈ cl.peers j, P p x) hx ?_
    exact fun j _ hl p hp => hsteers j p _ hp (.of_steering rfl hl)
  cases step_moved hs with
  | act i x h' cs hi hact =>
      refine hput fun hl p hp => hsteers i p h' hp ?_
      exact (Host.act_acted hact).steers (h.uncompacted.host i) hok.ne_takeSnapshot
        (h.configured.members hi).1 (h.configured.peers i ▸ hp) hl
  | deliver c cut call h' rpc hc hdel =>
      refine hput fun hl p hp => hsteers call.dst p h' hp ?_
      exact (Host.deliver_delivered hdel).steers (h.uncompacted.host call.dst)
        (h.uncompacted.call call (List.mem_of_getElem? hc)) hl
  | receive c call h' hc hwait hrec =>
      have hr := Host.receive_received hrec
      refine hput fun hl p hp => ?_
      by_cases hdst : call.rpc.isVote = false ∧ p = call.dst
      · obtain ⟨hvote, rfl⟩ := hdst
        exact hreply c call h' hc ⟨hwait, hvote⟩ hr hl
      · refine hsteers call.src p h' hp (hr.steers ?_ (h.configured.peers call.src ▸ hp) hl
          fun hvote heq => hdst ⟨hvote, heq⟩)
        exact (h.configured.members (h.configured.call call (List.mem_of_getElem? hc)).1).1
  | giveUp c call hc hwait =>
      exact hput fun hl p hp => hsteers call.src p _ hp (.of_steering rfl hl)

theorem synced_step (h : Tracked cl w a) (hok : noCompaction cl w e)
    (hs : Raft.step cl w e = some w') (hkept : ∀ q T m, a.Keeps q T m → b.Keeps q T m) :
    ∀ i, (w'.hosts i).node.state = .leader → ∀ p ∈ cl.peers i,
      b.Keeps p (w'.hosts i).node.currentTerm ((w'.hosts i).node.matchIndex.get p) :=
  h.view_step hok hs (P := fun p x => b.Keeps p x.node.currentTerm (x.node.matchIndex.get p))
    (fun _ _ _ hp hst => h.keeps_of_steers hkept hp hst)
    fun _ _ _ hc hrep hr hl => h.keeps_of_reply hkept hc hr hrep.2 hl

theorem step (h : Tracked cl w a) (hok : noCompaction cl w e)
    (hs : Raft.step cl w e = some w') :
    ∃ b, Tracked cl w' b ∧ a ≤ b ∧ ∀ q T m, a.Keeps q T m → b.Keeps q T m := by
  obtain ⟨b, hb, hu', hidx', hab, hlog⟩ := h.exists_next hok hs
  have hkept : ∀ q T m, a.Keeps q T m → b.Keeps q T m := fun q T m hk => hk.mono hab (hlog q)
  exact ⟨b, ⟨hb, hu', hidx', h.synced_step hok hs hkept,
    h.acked_step hs hb hu' hab hkept⟩, hab, hkept⟩

/-- What a node keeps it keeps along a run. -/
theorem path (h : Tracked cl w a) (hp : Transition.Path (Raft.step cl) (noCompaction cl) w w')
    {q : String} {T m : ℕ} (hk : a.Keeps q T m) :
    ∃ b, (Tracked cl w' b ∧ b.Keeps q T m) ∧ a ≤ b := by
  refine hp.simulate (R := fun w a => Tracked cl w a ∧ a.Keeps q T m) ⟨h, hk⟩ ?_
  rintro t e t' c ⟨hc, hkc⟩ hok hs
  obtain ⟨d, hd, hcd, hkept⟩ := hc.step hok hs
  exact ⟨d, ⟨hd, hkept q T m hkc⟩, hcd⟩

end Tracked

theorem Reach.tracked {cl : Cluster} {w : World} (hw : Reach cl (noCompaction cl) w) :
    ∃ a, Tracked cl w a := by
  obtain ⟨a, ha, -⟩ := hw.simulate (R := Tracked cl) (Tracked.init cl) fun t e t' a ha hok hs => by
    obtain ⟨b, hb, hab, -⟩ := ha.step hok hs
    exact ⟨b, hb, hab⟩
  exact ⟨a, ha⟩

/-- A leader's match index for any node. -/
theorem Tracked.keeps {cl : Cluster} {w : World} {a : State String Entry} (h : Tracked cl w a)
    {i : String} (hl : (w.hosts i).node.state = .leader) (p : String) :
    a.Keeps p (w.hosts i).node.currentTerm ((w.hosts i).node.matchIndex.get p) := by
  have hhost := h.simulated.host i
  by_cases hkey : p ∈ (w.hosts i).node.matchIndex.keys
  · rcases List.mem_cons.mp ((hhost.tracking hl).2.mem_iff.mp hkey) with rfl | hp
    · -- its own log
      have hlead := hhost.leader hl
      rw [hhost.own hl, h.configured.id i, ← hhost.term]
      exact Or.inr ⟨le_rfl, a.log i, hhost.term ▸ hlead, le_rfl, fun _ => Agree.refl _ _ _⟩
    · exact h.acknowledged.synced i hl p (h.configured.peers i ▸ hp)
  · refine Or.inl ?_
    rw [IndexMap.get, AList.lookup_eq_none.mpr hkey]
    rfl

/-- **Acknowledged entries stay.** In a run without compaction, what the leader of a term has
recorded as the match index of a node is part of the log of that node, in every later world in
which the node is still in the term. -/
theorem acknowledged_entries_kept {cl : Cluster} {w w' : World} {i p : String}
    (hw : Reach cl (noCompaction cl) w) (hl : (w.hosts i).node.state = .leader)
    (hp : Path (step cl) (noCompaction cl) w w')
    (hterm : (w'.hosts p).node.currentTerm = (w.hosts i).node.currentTerm) :
    (w.hosts i).node.matchIndex.get p ≤ (w.hosts i).node.log.entries.length ∧
    (w'.hosts p).node.log.entries.take ((w.hosts i).node.matchIndex.get p) =
      (w.hosts i).node.log.entries.take ((w.hosts i).node.matchIndex.get p) := by
  obtain ⟨a, ha⟩ := hw.tracked
  have hk := ha.keeps hl p
  have hlead := (ha.simulated.host i).leader hl
  rw [((ha.simulated.host i).log_eq (ha.uncompacted.host i)).1] at hlead
  have hlen := hk.le_length hlead
  refine ⟨hlen, ?_⟩
  obtain ⟨b, ⟨hb, hkb⟩, hab⟩ := ha.path hp hk
  obtain ⟨L, hL, hpre⟩ := hab.lead_le _ _ hlead
  have hag := hkb.agree hL ((hb.simulated.host p).term.trans hterm)
  rw [((hb.simulated.host p).log_eq (hb.uncompacted.host p)).1] at hag
  rw [hag.take_eq]
  exact ((Agree.of_isPrefix hpre).mono le_rfl hlen).take_eq.symm

/-- Node `b` acknowledges an entry of `a`; a heartbeat that `a` sent before is still under
way to it. -/
def heartbeatUnderWay : List Event :=
  electA ++ [.act "a" .heartbeat, .act "a" (.replicateTo "b" false), .giveUp 2,
    .act "a" (.replicateTo "c" false), .giveUp 3, .act "a" (.propose [1]), .act "a" .heartbeat,
    .act "a" (.replicateTo "b" false), .deliver 4 none, .receive 4]

theorem acknowledged_entries_kept_trio : ∃ w w' : World,
    (w.hosts "a").node.matchIndex.get "b" = 1 ∧
    (w.hosts "a").node.matchIndex.get "b" ≤ (w.hosts "a").node.log.entries.length ∧
    (w'.hosts "b").node.log.entries.take ((w.hosts "a").node.matchIndex.get "b") =
      (w.hosts "a").node.log.entries.take ((w.hosts "a").node.matchIndex.get "b") := by
  have hw : Runs trio (noCompaction trio) heartbeatUnderWay := by decide +kernel
  have hw' : Runs trio (noCompaction trio) (heartbeatUnderWay ++ [.deliver 2 none]) := by
    decide +kernel
  have hmatch : ((run trio (noCompaction trio) heartbeatUnderWay).hosts
      "a").node.matchIndex.get "b" = 1 := by decide +kernel
  exact ⟨_, _, hmatch, acknowledged_entries_kept (Reach.run hw) (by decide +kernel)
    (path_run hw') (by decide +kernel)⟩

end Raft

end VaultFS
