import VaultFS.Raft.Cluster.Pace
import VaultFS.Raft.Cluster.Refinement

/-!
# The order of the indices of a node

The apply loop copies a batch of entries, delivers them one at a time and sets
`lastApplied` after each of them, releasing the lock in between. Its own work keeps
the indices of a node in order; a snapshot that is installed meanwhile need not. If
the snapshot reaches beyond the entry that the loop marks next, `lastApplied` goes
back with that entry, and then lies behind the snapshot. The condition `orderly`
excludes this.
-/

namespace VaultFS

namespace Raft

open ReplicatedLog Transition

/-- The entry to whose index the apply loop sets `lastApplied` next. -/
def ApplyLoop.next : ApplyLoop → Option Entry
  | .batch (e :: _) => some e
  | .sent e _ => some e
  | _ => none

/-- A snapshot that is installed while the apply loop works on a batch ends before
what is left of the batch, or with its first entry. -/
def installsBeforeBatch (w : World) (e : Event) : Prop :=
  ∀ r ∈ w.installs e, ∀ x ∈ (w.hosts r.1).applyLoop.next, r.2 ≤ x.index

instance (w : World) (e : Event) : Decidable (installsBeforeBatch w e) :=
  inferInstanceAs (Decidable (∀ r ∈ w.installs e, _))

def orderly (w : World) (e : Event) : Prop := aboveSnapshot w e ∧ installsBeforeBatch w e

instance (w : World) (e : Event) : Decidable (orderly w e) := inferInstanceAs (Decidable (_ ∧ _))

/-- Node `c` of three gets and commits the first of two entries; the leader `a` and
node `b` have both, and `a` applies and compacts them, so that `c` is sent a snapshot. -/
def snapshotToC : List Event :=
  commitTwo ++ applies "a" 2 ++ [.act "a" (.takeSnapshot []), .act "a" (.replicateTo "c" false),
    .act "a" (.sendSnapshot "c" false)]

section Commit

variable {h h' : Host} {c : ℕ}

theorem Node.le_advanceCommitIndex {n : Node} {k : ℕ} (hk : k ≤ n.commitIndex) :
    k ≤ n.advanceCommitIndex.commitIndex := by
  rcases n.advanceCommitIndex_cases with h | ⟨c, h, hlt, -⟩
  · rwa [h]
  · rw [h]
    exact hk.trans hlt.le

theorem Acted.commitIndex_le {x : Action} {cs : List Call} (ha : Acted h c x h' cs) :
    h.node.commitIndex ≤ h'.node.commitIndex := by
  cases ha with
  | stand n args hfree hn =>
      obtain ⟨-, rfl, -⟩ := Node.maybeStartElection_some hn
      exact le_rfl
  | standAlone n args hfree hn =>
      obtain ⟨-, rfl, -⟩ := Node.maybeStartElection_some hn
      exact le_rfl
  | winAlone term el => exact (Node.commitIndex_of_progress (h.node.winAlone_progress el term)).ge
  | propose command n hn =>
      obtain ⟨-, rfl⟩ := Node.propose_ok hn
      exact Node.le_advanceCommitIndex le_rfl
  | _ => exact le_rfl

theorem Received.commitIndex_le {dst : String} {rpc : Rpc} (hr : Received h c dst rpc h') :
    h.node.commitIndex ≤ h'.node.commitIndex := by
  cases hr with
  | vote args reply el =>
      exact (Node.commitIndex_of_progress (h.node.countVote_progress el args.term reply)).ge
  | append args reply =>
      rcases h.node.handleAppendReply_cases dst args reply with
        ⟨-, hr⟩ | hr | ⟨-, -, -, m, x, hr, -⟩ | ⟨-, -, -, x, hr, -⟩
      · rw [hr]
        exact le_rfl
      · rw [hr]
      · rw [hr]
        exact Node.le_advanceCommitIndex le_rfl
      · rw [hr]
  | snapshot args reply =>
      exact (Node.commitIndex_of_progress
        (h.node.handleSnapshotReply_progress dst args reply)).ge

variable {cl : Cluster} {w w' : World} {sh : Shadow} {a : State String Entry}

/-- For a request to append entries this needs that the leader has what the node
committed. -/
theorem Sim.commitIndex_le_of_delivered (hsim : Sim cl w sh a) {cut : Option ℕ} {call : Call}
    {rpc : Rpc} (hc : w.calls[c]? = some call) (hok : appendsAboveSnapshot w (.deliver c cut))
    (hd : Delivered (w.hosts call.dst) cut call.rpc h' rpc) :
    (w.hosts call.dst).node.commitIndex ≤ h'.node.commitIndex := by
  obtain ⟨src, dst, request, waiting⟩ := call
  have hs := hsim.host dst
  obtain ⟨F, -, hcall⟩ := hsim.exists_sent hc
  simp only at hd hcall ⊢
  cases hd with
  | vote args =>
      exact (Node.commitIndex_of_progress
        ((w.hosts dst).node.handleRequestVote_progress args)).ge
  | snapshot args =>
      rcases (w.hosts dst).node.handleInstallSnapshot_cases args with
        ⟨-, hr⟩ | ⟨-, -, hr⟩ | ⟨-, -, hr⟩
      · rw [hr]
      · rw [hr]
        exact (Node.commitIndex_of_progress ((w.hosts dst).node.observe_progress args.term)).ge
      · rw [hr]
        exact Nat.le_max_left _ _
  | append args =>
      obtain ⟨-, -, -, -, -, -, hle, -⟩ := hs.handleAppendEntries hsim.reachable hcall
        (hok _ hc args rfl) fun _ hy => hs.intrusion hy
      exact hle
  | appendCut args k d ha hsucc =>
      obtain ⟨-, -, -, -, -, -, hle, -⟩ := hs.handleAppendEntries
        (x := (w.hosts dst).intrusion (some k)) hsim.reachable hcall (hok _ hc args rfl)
        fun _ hy => hs.intrusion hy
      rwa [Host.intrusion_of_compact ha] at hle

/-- The commit index of a node never goes back. -/
theorem Sim.commitIndex_le (hsim : Sim cl w sh a) {e : Event} (hok : aboveSnapshot w e)
    (hs : Raft.step cl w e = some w') (j : String) :
    (w.hosts j).node.commitIndex ≤ (w'.hosts j).node.commitIndex := by
  have hput : ∀ {i : String} {h' : Host} {calls : List Call},
      (w.hosts i).node.commitIndex ≤ h'.node.commitIndex →
        (w.hosts j).node.commitIndex ≤ ((w.put i h' calls).hosts j).node.commitIndex := by
    intro i h' calls hle
    exact World.put_hosts (P := fun j x => (w.hosts j).node.commitIndex ≤ x.node.commitIndex) hle
      (fun _ _ => le_rfl) j
  cases step_moved hs with
  | act i x h' cs hi hact => exact hput (Host.act_acted hact).commitIndex_le
  | deliver c cut call h' rpc hc hdel =>
      exact hput (hsim.commitIndex_le_of_delivered hc hok.2 (Host.deliver_delivered hdel))
  | receive c call h' hc hw hrec => exact hput (Host.receive_received hrec).commitIndex_le
  | giveUp c call hc hw => exact hput le_rfl

end Commit

/-- What the apply loop has still to mark does not lie behind `lastApplied`; indices
that it read before a snapshot was installed give an empty batch. -/
def Ahead (snapIndex lastApplied : ℕ) : ApplyLoop → Prop
  | .idle => True
  | .read applied _ => applied ≤ lastApplied ∧ (applied < lastApplied → applied < snapIndex)
  | .batch es => ∃ s, lastApplied ≤ s ∧ Consecutive s es
  | .sent e es => ∃ s, lastApplied ≤ s ∧ Consecutive s (e :: es)
  | .oversized => True
  | .compact d => d.index ≤ lastApplied

namespace Ahead

variable {snapIndex lastApplied s : ℕ} {x : ApplyLoop}

/-- The log is compacted. -/
theorem compact (h : Ahead snapIndex lastApplied x) (hs : snapIndex ≤ s) :
    Ahead s lastApplied x := by
  cases x with
  | read applied commit => exact ⟨h.1, fun hlt => (h.2 hlt).trans_le hs⟩
  | _ => exact h

/-- A snapshot is installed that does not reach beyond what is marked next. -/
theorem install (h : Ahead snapIndex lastApplied x) (hs : snapIndex < s)
    (hnext : ∀ e ∈ x.next, s ≤ e.index) : Ahead s (max lastApplied s) x := by
  cases x with
  | idle => trivial
  | oversized => trivial
  | read applied commit =>
      obtain ⟨hle, himp⟩ := h
      refine ⟨hle.trans (Nat.le_max_left _ _), fun hlt => ?_⟩
      by_cases hbehind : applied < lastApplied
      · exact (himp hbehind).trans hs
      · omega
  | batch es =>
      obtain ⟨t, ht, hes⟩ := h
      cases es with
      | nil => exact ⟨_, le_rfl, Consecutive.nil _⟩
      | cons e rest =>
          have hle := hnext e rfl
          rw [hes.head] at hle
          exact ⟨t, Nat.max_le.mpr ⟨ht, hle⟩, hes⟩
  | sent e rest =>
      obtain ⟨t, ht, hes⟩ := h
      have hle := hnext e rfl
      rw [hes.head] at hle
      exact ⟨t, Nat.max_le.mpr ⟨ht, hle⟩, hes⟩
  | compact d => exact Nat.le_trans h (Nat.le_max_left _ _)

end Ahead

namespace Pace

structure Ordered (p : Pace) : Prop where
  snap_le : p.snapIndex ≤ p.lastApplied
  loop : Ahead p.snapIndex p.lastApplied p.applyLoop

variable {w : World} {e : Event} {j : String} {h : Host} {p : Pace}

theorem Ordered.step (ho : h.pace.Ordered) (hlog : h.node.log.Contiguous)
    (hok : ∀ s, w.installs e = some (j, s) → ∀ x ∈ h.applyLoop.next, s ≤ x.index)
    (hp : Paced w e j h p) :
    p.Ordered ∧ h.node.log.snapIndex ≤ p.snapIndex ∧ h.node.lastApplied ≤ p.lastApplied := by
  obtain ⟨hsnap, hloop⟩ := ho
  simp only [Host.pace] at hsnap hloop
  cases hp with
  | kept s hs hle => exact ⟨⟨by simp only; omega, hloop.compact hs⟩, hs, le_rfl⟩
  | installed s hs hin =>
      exact ⟨⟨Nat.le_max_right _ _, hloop.install hs (hok s hin)⟩, hs.le, Nat.le_max_left _ _⟩
  | read ha => exact ⟨⟨hsnap, le_rfl, fun hlt => absurd hlt (Nat.lt_irrefl _)⟩, le_rfl, le_rfl⟩
  | sliced applied commit ha =>
      rw [ha] at hloop
      refine ⟨⟨hsnap, ?_⟩, le_rfl, le_rfl⟩
      by_cases heq : applied < h.node.lastApplied
      · have hnil : h.node.log.slice (applied + 1) (commit + 1) = [] := by
          have := hloop.2 heq
          rw [RaftLog.slice, if_pos (by omega)]
        exact ⟨_, le_rfl, hnil ▸ Consecutive.nil _⟩
      · exact ⟨applied + 1, by simp only; omega, hlog.slice _ _⟩
  | sent x rest ha =>
      rw [ha] at hloop
      exact ⟨⟨hsnap, hloop⟩, le_rfl, le_rfl⟩
  | marked x rest ha =>
      rw [ha] at hloop
      obtain ⟨t, ht, hes⟩ := hloop
      have hx := hes.head
      refine ⟨⟨by simp only; omega, t + 1, by simp only; omega, hes.tail⟩, le_rfl, ?_⟩
      simp only
      omega
  | checked x ha hx =>
      rcases hx with rfl | rfl
      · exact ⟨⟨hsnap, trivial⟩, le_rfl, le_rfl⟩
      · exact ⟨⟨hsnap, trivial⟩, le_rfl, le_rfl⟩
  | dropped ha => exact ⟨⟨hsnap, trivial⟩, le_rfl, le_rfl⟩
  | measured term ha => exact ⟨⟨hsnap, show _ ≤ _ from le_rfl⟩, le_rfl, le_rfl⟩
  | compacted d s ha hs hle =>
      rw [ha] at hloop
      have hd : d.index ≤ h.node.lastApplied := hloop
      exact ⟨⟨by simp only; omega, trivial⟩, hs, le_rfl⟩

end Pace

section Order

variable {cl : Cluster} {w w' : World}

/-- The invariant of the runs whose steps are all `orderly`. -/
def OrderlyWorld (cl : Cluster) (w : World) : Prop :=
  (∃ a, Simulated cl w a) ∧ ∀ i, (w.hosts i).pace.Ordered

theorem OrderlyWorld.init (cl : Cluster) : OrderlyWorld cl (World.init cl) :=
  ⟨⟨_, Simulated.init cl⟩, fun _ => ⟨le_rfl, trivial⟩⟩

theorem OrderlyWorld.step {e : Event} (h : OrderlyWorld cl w) (hok : orderly w e)
    (hs : Raft.step cl w e = some w') : OrderlyWorld cl w' ∧ ∀ i,
      (w.hosts i).node.log.snapIndex ≤ (w'.hosts i).node.log.snapIndex ∧
      (w.hosts i).node.lastApplied ≤ (w'.hosts i).node.lastApplied ∧
      (w.hosts i).node.commitIndex ≤ (w'.hosts i).node.commitIndex := by
  obtain ⟨⟨a, hsim⟩, hord⟩ := h
  obtain ⟨b, hsim', -⟩ := hsim.step hok.1 hs
  obtain ⟨-, -, sh, hrel⟩ := hsim
  have hstep := fun i => (hord i).step (hrel.host i).represents.contiguous
    (fun s hin => hok.2 (i, s) hin) (step_paced hs i)
  refine ⟨⟨⟨b, hsim'⟩, fun i => (hstep i).1⟩, fun i => ⟨(hstep i).2.1, (hstep i).2.2, ?_⟩⟩
  exact hrel.commitIndex_le hok.1 hs i

/-- **Index ordering.** In a run whose steps are all `orderly`, the indices of a node
are in order in every world, and none of them ever goes back. -/
theorem index_order (hw : Reach cl orderly w) (hw' : Path (Raft.step cl) orderly w w')
    (i : String) :
    ((w'.hosts i).node.log.snapIndex ≤ (w'.hosts i).node.lastApplied ∧
      (w'.hosts i).node.lastApplied ≤ (w'.hosts i).node.commitIndex ∧
      (w'.hosts i).node.commitIndex ≤ (w'.hosts i).node.log.lastIndex) ∧
    (w.hosts i).node.log.snapIndex ≤ (w'.hosts i).node.log.snapIndex ∧
      (w.hosts i).node.lastApplied ≤ (w'.hosts i).node.lastApplied ∧
      (w.hosts i).node.commitIndex ≤ (w'.hosts i).node.commitIndex := by
  have hstart : OrderlyWorld cl w := Path.invariant hw (OrderlyWorld.init cl)
    fun _ _ _ hi hok hs => (hi.step hok hs).1
  have hend := Path.invariant (I := fun t => OrderlyWorld cl t ∧
      (w.hosts i).node.log.snapIndex ≤ (t.hosts i).node.log.snapIndex ∧
      (w.hosts i).node.lastApplied ≤ (t.hosts i).node.lastApplied ∧
      (w.hosts i).node.commitIndex ≤ (t.hosts i).node.commitIndex) hw'
    ⟨hstart, le_rfl, le_rfl, le_rfl⟩ (by
      rintro t e t' ⟨hord, hsnap, happ, hcom⟩ hok hs
      obtain ⟨hord', hmono⟩ := hord.step hok hs
      obtain ⟨hsnap', happ', hcom'⟩ := hmono i
      exact ⟨hord', hsnap.trans hsnap', happ.trans happ', hcom.trans hcom'⟩)
  obtain ⟨⟨⟨a, -, -, sh, hsim⟩, hord⟩, hmono⟩ := hend
  have hs := hsim.host i
  refine ⟨⟨(hord i).snap_le, hs.applied_le, ?_⟩, hmono⟩
  rw [hs.represents.lastIndex]
  exact hs.commit_le

theorem index_order_trio : ∃ w w' : World,
    (w.hosts "c").node.log.snapIndex = 0 ∧ (w'.hosts "c").node.log.snapIndex = 2 ∧
    ((w'.hosts "c").node.log.snapIndex ≤ (w'.hosts "c").node.lastApplied ∧
      (w'.hosts "c").node.lastApplied ≤ (w'.hosts "c").node.commitIndex ∧
      (w'.hosts "c").node.commitIndex ≤ (w'.hosts "c").node.log.lastIndex) ∧
    (w.hosts "c").node.log.snapIndex ≤ (w'.hosts "c").node.log.snapIndex ∧
      (w.hosts "c").node.lastApplied ≤ (w'.hosts "c").node.lastApplied ∧
      (w.hosts "c").node.commitIndex ≤ (w'.hosts "c").node.commitIndex := by
  have hw : Runs trio orderly snapshotToC := by decide +kernel
  have hw' : Runs trio orderly (snapshotToC ++ [.deliver 5 none]) := by decide +kernel
  have hold : ((run trio orderly snapshotToC).hosts "c").node.log.snapIndex = 0 := by
    decide +kernel
  have hnew : ((run trio orderly (snapshotToC ++ [.deliver 5 none])).hosts
      "c").node.log.snapIndex = 2 := by decide +kernel
  exact ⟨_, _, hold, hnew, index_order (Reach.run hw) (path_run hw') "c"⟩

/-- Node `c` installs the snapshot after it delivered the first entry and before it
set `lastApplied`. -/
def installWhileApplying : List Event :=
  snapshotToC ++ [.act "c" .applyRead, .act "c" .applySlice, .act "c" .applySend,
    .deliver 5 none]

/-- Setting `lastApplied` then takes it back behind the snapshot. -/
theorem applied_behind_snapshot : ∃ w w' : World,
    Reach trio aboveSnapshot w ∧ Path (step trio) aboveSnapshot w w' ∧
    (w.hosts "c").node.lastApplied = 2 ∧ (w'.hosts "c").node.lastApplied = 1 ∧
    (w'.hosts "c").node.log.snapIndex = 2 := by
  have hw : Runs trio aboveSnapshot installWhileApplying := by decide +kernel
  have hw' : Runs trio aboveSnapshot (installWhileApplying ++ [.act "c" .applyMark]) := by
    decide +kernel
  have hold : ((run trio aboveSnapshot installWhileApplying).hosts "c").node.lastApplied = 2 := by
    decide +kernel
  have hnew : ((run trio aboveSnapshot (installWhileApplying ++
      [.act "c" .applyMark])).hosts "c").node.lastApplied = 1 := by decide +kernel
  have hsnap : ((run trio aboveSnapshot (installWhileApplying ++
      [.act "c" .applyMark])).hosts "c").node.log.snapIndex = 2 := by decide +kernel
  exact ⟨_, _, Reach.run hw, path_run hw', hold, hnew, hsnap⟩

end Order

end Raft

end VaultFS
