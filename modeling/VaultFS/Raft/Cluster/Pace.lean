import VaultFS.Raft.Cluster.FollowerSim

/-!
# Steps as the apply loop sees them

What is delivered depends on the snapshot index, on `lastApplied`, on where the
apply loop stands, and on what was delivered before. `Paced` lists what a step can
do to these, and `step_paced` shows that every step of a cluster is one of its
cases.

The case to look at is `installed`. A snapshot moves `lastApplied` without the apply
loop, at whatever point of its work the loop is.
-/

namespace VaultFS

namespace Raft

/-- The part of a host that the apply loop reads and writes. -/
structure Pace where
  snapIndex : ℕ
  lastApplied : ℕ
  applyLoop : ApplyLoop
  delivered : List Entry

def Host.pace (h : Host) : Pace :=
  ⟨h.node.log.snapIndex, h.node.lastApplied, h.applyLoop, h.delivered⟩

/-- The node that installs a snapshot in a step, and the last index of the
snapshot. -/
def World.installs (w : World) (e : Event) : Option (String × ℕ) :=
  (w.handled e).bind fun call => call.rpc.snapshotRequest.bind fun args =>
    if (w.hosts call.dst).node.currentTerm ≤ args.term ∧
        (w.hosts call.dst).node.log.snapIndex < args.lastIncludedIndex then
      some (call.dst, args.lastIncludedIndex)
    else none

/-- What a step can do to the pace of a host. -/
inductive Paced (w : World) (e : Event) (j : String) (h : Host) : Pace → Prop where
  | kept (s : ℕ) (hs : h.node.log.snapIndex ≤ s)
      (hle : s ≤ max h.node.log.snapIndex h.node.lastApplied) :
      Paced w e j h ⟨s, h.node.lastApplied, h.applyLoop, h.delivered⟩
  | installed (s : ℕ) (hs : h.node.log.snapIndex < s) (hin : w.installs e = some (j, s)) :
      Paced w e j h ⟨s, max h.node.lastApplied s, h.applyLoop, h.delivered⟩
  | read (ha : h.applyLoop = .idle) :
      Paced w e j h ⟨h.node.log.snapIndex, h.node.lastApplied,
        .read h.node.lastApplied h.node.commitIndex, h.delivered⟩
  | sliced (applied commit : ℕ) (ha : h.applyLoop = .read applied commit) :
      Paced w e j h ⟨h.node.log.snapIndex, h.node.lastApplied,
        .batch (h.node.log.slice (applied + 1) (commit + 1)), h.delivered⟩
  | sent (x : Entry) (rest : List Entry) (ha : h.applyLoop = .batch (x :: rest)) :
      Paced w e j h ⟨h.node.log.snapIndex, h.node.lastApplied, .sent x rest,
        if h.node.commitCh then h.delivered ++ [x] else h.delivered⟩
  | marked (x : Entry) (rest : List Entry) (ha : h.applyLoop = .sent x rest) :
      Paced w e j h ⟨h.node.log.snapIndex, x.index, .batch rest, h.delivered⟩
  | checked (x : ApplyLoop) (ha : h.applyLoop = .batch []) (hx : x = .idle ∨ x = .oversized) :
      Paced w e j h ⟨h.node.log.snapIndex, h.node.lastApplied, x, h.delivered⟩
  | dropped (ha : h.applyLoop = .oversized) :
      Paced w e j h ⟨h.node.log.snapIndex, h.node.lastApplied, .idle, h.delivered⟩
  | measured (term : ℕ) (ha : h.applyLoop = .oversized) :
      Paced w e j h ⟨h.node.log.snapIndex, h.node.lastApplied,
        .compact ⟨h.node.lastApplied, term⟩, h.delivered⟩
  | compacted (d : Compaction) (s : ℕ) (ha : h.applyLoop = .compact d)
      (hs : h.node.log.snapIndex ≤ s) (hle : s ≤ max h.node.log.snapIndex d.index) :
      Paced w e j h ⟨s, h.node.lastApplied, .idle, h.delivered⟩

namespace Paced

variable {w : World} {e : Event} {j : String} {h h' : Host}

/-- The step leaves everything alone. -/
theorem of_same (hsnap : h'.node.log.snapIndex = h.node.log.snapIndex)
    (happ : h'.node.lastApplied = h.node.lastApplied) (hloop : h'.applyLoop = h.applyLoop)
    (hdel : h'.delivered = h.delivered) : Paced w e j h h'.pace := by
  rw [Host.pace, hsnap, happ, hloop, hdel]
  exact .kept _ le_rfl (Nat.le_max_left _ _)

theorem of_progress (hp : h'.node.progress = h.node.progress) (hloop : h'.applyLoop = h.applyLoop)
    (hdel : h'.delivered = h.delivered) : Paced w e j h h'.pace :=
  of_same (congrArg RaftLog.snapIndex (Node.log_of_progress hp)) (Node.lastApplied_of_progress hp)
    hloop hdel

theorem acted {c : ℕ} {a : Action} {cs : List Call} (ha : Acted h c a h' cs) :
    Paced w e j h h'.pace := by
  have hcut : ∀ s t, (h.node.log.setSnapshot s t).snapIndex = max h.node.log.snapIndex s :=
    h.node.log.snapIndex_setSnapshot
  cases ha with
  | stand n args hfree hn =>
      obtain ⟨-, rfl, -⟩ := Node.maybeStartElection_some hn
      exact of_same rfl rfl rfl rfl
  | standAlone n args hfree hn =>
      obtain ⟨-, rfl, -⟩ := Node.maybeStartElection_some hn
      exact of_same rfl rfl rfl rfl
  | winAlone term el => exact of_progress (h.node.winAlone_progress el term) rfl rfl
  | propose command n hn =>
      obtain ⟨-, rfl⟩ := Node.propose_ok hn
      refine of_same ?_ (Node.advanceCommitIndex_advances _).lastApplied rfl rfl
      simp only [Node.advanceCommitIndex_log]
      rfl
  | appendCut _ _ d _ _ _ happ | snapshotCut _ d _ _ happ | applyCompact d happ =>
      exact .compacted d _ happ (hcut _ _ ▸ Nat.le_max_left _ _) (hcut _ _).le
  | takeSnapshot data term ht => exact .kept _ (hcut _ _ ▸ Nat.le_max_left _ _) (hcut _ _).le
  | applyRead happ => exact .read happ
  | applySlice applied commit happ => exact .sliced applied commit happ
  | applySend x rest happ => exact .sent x rest happ
  | applyMark x rest happ => exact .marked x rest happ
  | applyCheck happ =>
      refine .checked _ happ ?_
      split
      · exact Or.inr rfl
      · exact Or.inl rfl
  | applyUnavailable happ => exact .dropped happ
  | applyMeasure term happ => exact .measured term happ
  | _ => exact of_same rfl rfl rfl rfl

theorem delivered {c : ℕ} {cut : Option ℕ} {call : Call} {rpc : Rpc}
    (hc : w.calls[c]? = some call) (hd : Delivered (w.hosts call.dst) cut call.rpc h' rpc) :
    Paced w (.deliver c cut) call.dst (w.hosts call.dst) h'.pace := by
  obtain ⟨src, dst, request, waiting⟩ := call
  simp only at hd ⊢
  cases hd with
  | vote args =>
      exact of_progress ((w.hosts dst).node.handleRequestVote_progress args) rfl rfl
  | snapshot args =>
      rcases (w.hosts dst).node.handleInstallSnapshot_cases args with
        ⟨-, hr⟩ | ⟨-, -, hr⟩ | ⟨hle, hlt, hr⟩
      · rw [hr]
        exact of_same rfl rfl rfl rfl
      · rw [hr]
        exact of_progress ((w.hosts dst).node.observe_progress args.term) rfl rfl
      · rw [hr]
        have hsnap := (w.hosts dst).node.log.snapIndex_setSnapshot args.lastIncludedIndex
          args.lastIncludedTerm
        rw [Nat.max_eq_right hlt.le] at hsnap
        simp only [Host.pace, hsnap]
        refine .installed _ hlt ?_
        simp [World.installs, World.handled, hc, Rpc.snapshotRequest, hle, hlt]
  | append args =>
      refine of_same ?_ ((w.hosts dst).node.handleAppendEntries_lastApplied args none) rfl rfl
      exact (((w.hosts dst).node.snapFrom_handleAppendEntries args none).resolve_right
        (by simp)).1
  | appendCut args k d happ hsucc =>
      simp only [Host.pace, Node.handleAppendEntries_lastApplied]
      have hfrom := (w.hosts dst).node.snapFrom_handleAppendEntries args
        (some { d with before := k })
      refine .compacted d _ happ hfrom.le (hfrom.le_of (Nat.le_max_left _ _) ?_)
      intro y hy
      obtain rfl := Option.some.inj hy
      exact Nat.le_max_right _ _

theorem received {c : ℕ} {dst : String} {rpc : Rpc} (hr : Received h c dst rpc h') :
    Paced w e j h h'.pace := by
  cases hr with
  | vote args reply el =>
      exact of_progress (h.node.countVote_progress el args.term reply) rfl rfl
  | append args reply =>
      have hadvances := h.node.handleAppendReply_advances dst args reply
      exact of_same (congrArg RaftLog.snapIndex hadvances.log) hadvances.lastApplied rfl rfl
  | snapshot args reply =>
      exact of_progress (h.node.handleSnapshotReply_progress dst args reply) rfl rfl

end Paced

theorem step_paced {cl : Cluster} {w w' : World} {e : Event} (hs : step cl w e = some w')
    (j : String) : Paced w e j (w.hosts j) (w'.hosts j).pace := by
  have hput : ∀ {i : String} {h' : Host} {calls : List Call},
      Paced w e i (w.hosts i) h'.pace →
        Paced w e j (w.hosts j) ((w.put i h' calls).hosts j).pace := by
    intro i h' calls hp
    exact World.put_hosts (P := fun j x => Paced w e j (w.hosts j) x.pace) hp
      (fun _ _ => .of_same rfl rfl rfl rfl) j
  cases step_moved hs with
  | act i a h' cs hi hact => exact hput (.acted (Host.act_acted hact))
  | deliver c cut call h' rpc hc hdel =>
      exact hput (.delivered hc (Host.deliver_delivered hdel))
  | receive c call h' hc hw hrec => exact hput (.received (Host.receive_received hrec))
  | giveUp c call hc hw => exact hput (.of_same rfl rfl rfl rfl)

end Raft

end VaultFS
