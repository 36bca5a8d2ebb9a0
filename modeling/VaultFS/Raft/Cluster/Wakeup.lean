import VaultFS.Raft.Cluster.Delivery
import VaultFS.Raft.Cluster.Safety

/-!
# The apply loop is woken up

The apply loop sleeps on a channel that holds one signal. A signal that is sent while
the channel is full is dropped, the loop reads the commit index only once after it
took a signal, and a snapshot moves the commit index without any signal. No wake-up is
lost all the same: a node without a signal has nothing committed beyond what its loop
is going to deliver anyway (`Pace.reach`). So a loop that sleeps without a signal has
delivered everything that is committed.
-/

namespace VaultFS

namespace Raft

open ReplicatedLog Transition

section Signal

namespace Node

/-- How far a node has committed, and whether there is a signal for its apply loop. -/
def signal (n : Node) : ℕ × Bool := (n.commitIndex, n.applySig)

/-- A commit index that moves is signalled. -/
def Signals (n n' : Node) : Prop := n'.signal = n.signal ∨ n'.applySig = true

variable {n n' : Node}

theorem Signals.of_progress (h : n'.progress = n.progress) : n.Signals n' :=
  Or.inl (Prod.ext (commitIndex_of_progress h) (applySig_of_progress h))

theorem Advances.signals (h : n.Advances n') : n.Signals n' := by
  rcases h with h | ⟨c, h⟩
  · exact .of_progress h
  · exact Or.inr (congrArg Progress.applySig h)

theorem handleAppendEntries_signals (n : Node) (args : AppendEntriesArgs)
    (x : Option Intrusion) : n.Signals (n.handleAppendEntries args x).1 := by
  have haccept : n.Signals (n.acceptLeader args.term args.leaderID) :=
    .of_progress (n.acceptLeader_progress args.term args.leaderID)
  rcases n.handleAppendEntries_cases args x with ⟨-, h⟩ | ⟨-, t, -, h⟩ | ⟨-, -, h⟩
  · rw [h]
    exact Or.inl rfl
  · rw [h]
    exact haccept
  · rw [h]
    unfold followCommit
    split
    · exact Or.inr rfl
    · exact haccept

end Node

/-- What a step can do to the commit index and the signal of a host that is left with the
given pace. -/
inductive Woken (w : World) (e : Event) (j : String) (h : Host) : Pace → ℕ → Bool → Prop where
  | kept (p : Pace) : Woken w e j h p h.node.commitIndex h.node.applySig
  | signalled (p : Pace) (commit : ℕ) : Woken w e j h p commit true
  | installed (p : Pace) (s : ℕ) (hin : w.installs e = some (j, s)) :
      Woken w e j h p (max h.node.commitIndex s) h.node.applySig
  | nothing (ha : h.applyLoop = .idle) (hle : h.node.commitIndex ≤ h.node.lastApplied) :
      Woken w e j h h.pace h.node.commitIndex false
  | read (p : Pace) (hp : p.applyLoop = .read h.node.lastApplied h.node.commitIndex) :
      Woken w e j h p h.node.commitIndex false

namespace Woken

variable {w : World} {e : Event} {j : String} {h h' : Host}

theorem of_signals (hs : h.node.Signals h'.node) :
    Woken w e j h h'.pace h'.node.commitIndex h'.node.applySig := by
  rcases hs with heq | htrue
  · rw [show h'.node.commitIndex = h.node.commitIndex from congrArg Prod.fst heq,
      show h'.node.applySig = h.node.applySig from congrArg Prod.snd heq]
    exact .kept _
  · rw [htrue]
    exact .signalled _ _

theorem acted {c : ℕ} {a : Action} {cs : List Call} (ha : Acted h c a h' cs) :
    Woken w e j h h'.pace h'.node.commitIndex h'.node.applySig := by
  cases ha with
  | stand n args hfree hn =>
      obtain ⟨-, rfl, -⟩ := Node.maybeStartElection_some hn
      exact of_signals (Or.inl rfl)
  | standAlone n args hfree hn =>
      obtain ⟨-, rfl, -⟩ := Node.maybeStartElection_some hn
      exact of_signals (Or.inl rfl)
  | winAlone term el => exact of_signals (.of_progress (h.node.winAlone_progress el term))
  | propose command n hn =>
      obtain ⟨-, rfl⟩ := Node.propose_ok hn
      exact of_signals (Node.advanceCommitIndex_advances _).signals
  | applyNothing ha hle => exact .nothing ha hle
  | applyRead ha hlt => exact .read _ rfl
  | _ => exact of_signals (Or.inl rfl)

theorem delivered {c : ℕ} {cut : Option ℕ} {call : Call} {rpc : Rpc}
    (hc : w.calls[c]? = some call) (hd : Delivered (w.hosts call.dst) cut call.rpc h' rpc) :
    Woken w (.deliver c cut) call.dst (w.hosts call.dst) h'.pace h'.node.commitIndex
      h'.node.applySig := by
  obtain ⟨src, dst, request, waiting⟩ := call
  simp only at hd ⊢
  cases hd with
  | vote args =>
      exact of_signals (.of_progress ((w.hosts dst).node.handleRequestVote_progress args))
  | snapshot args =>
      have hobserve := (w.hosts dst).node.observe_progress args.term
      rcases (w.hosts dst).node.handleInstallSnapshot_cases args with
        ⟨-, hr⟩ | ⟨-, -, hr⟩ | ⟨hle, hlt, hr⟩
      · rw [hr]
        exact of_signals (Or.inl rfl)
      · rw [hr]
        exact of_signals (.of_progress hobserve)
      · rw [hr]
        simp only
        rw [Node.applySig_of_progress hobserve]
        refine .installed _ _ ?_
        simp [World.installs, World.handled, hc, Rpc.snapshotRequest, hle, hlt]
  | append args => exact of_signals ((w.hosts dst).node.handleAppendEntries_signals args none)
  | appendCut args k d happ hsucc =>
      exact of_signals ((w.hosts dst).node.handleAppendEntries_signals args _)

theorem received {c : ℕ} {dst : String} {rpc : Rpc} (hr : Received h c dst rpc h') :
    Woken w e j h h'.pace h'.node.commitIndex h'.node.applySig := by
  cases hr with
  | vote args reply el =>
      exact of_signals (.of_progress (h.node.countVote_progress el args.term reply))
  | append args reply => exact of_signals (h.node.handleAppendReply_advances dst args reply).signals
  | snapshot args reply =>
      exact of_signals (.of_progress (h.node.handleSnapshotReply_progress dst args reply))

end Woken

theorem step_woken {cl : Cluster} {w w' : World} {e : Event} (hs : step cl w e = some w')
    (j : String) : Woken w e j (w.hosts j) (w'.hosts j).pace (w'.hosts j).node.commitIndex
      (w'.hosts j).node.applySig := by
  have hput : ∀ {i : String} {h' : Host} {calls : List Call},
      Woken w e i (w.hosts i) h'.pace h'.node.commitIndex h'.node.applySig →
        Woken w e j (w.hosts j) ((w.put i h' calls).hosts j).pace
          ((w.put i h' calls).hosts j).node.commitIndex
          ((w.put i h' calls).hosts j).node.applySig := by
    intro i h' calls hp
    exact World.put_hosts
      (P := fun j x => Woken w e j (w.hosts j) x.pace x.node.commitIndex x.node.applySig) hp
      (fun _ _ => .kept _) j
  cases step_moved hs with
  | act i a h' cs hi hact => exact hput (.acted (Host.act_acted hact))
  | deliver c cut call h' rpc hc hdel =>
      exact hput (.delivered hc (Host.deliver_delivered hdel))
  | receive c call h' hc hw hrec => exact hput (.received (Host.receive_received hrec))
  | giveUp c call hc hw => exact hput (.kept _)

end Signal

namespace Pace

/-- How many entries are delivered once the apply loop has used up its copy. -/
def due (p : Pace) : ℕ := p.delivered.length + p.applyLoop.copied.length

/-- How far the apply loop gets without another signal. -/
def reach (p : Pace) : ℕ :=
  match p.applyLoop with
  | .read applied commit => max applied commit
  | _ => p.due

/-- Nothing is committed that the apply loop does not know of, and no snapshot is ahead of it. -/
structure Awake (p : Pace) (commitIndex : ℕ) (applySig : Bool) : Prop where
  snap_le : p.snapIndex ≤ p.due
  applied_le : p.lastApplied ≤ p.due
  compact_le : ∀ d, p.applyLoop = .compact d → d.index ≤ p.delivered.length
  reach_le : p.reach ≤ commitIndex
  covered : applySig = false → commitIndex ≤ p.reach

variable {w : World} {e : Event} {j : String} {h : Host} {p : Pace}

theorem Gapless.due_le_reach (hg : p.Gapless) : p.due ≤ p.reach := by
  unfold reach
  cases ha : p.applyLoop with
  | read applied commit =>
      have hloop := hg.loop
      rw [ha] at hloop
      simp only [due, ha, ApplyLoop.copied, List.length_nil, ← hloop.1]
      exact Nat.le_max_left _ _
  | _ => exact le_rfl

/-- A step does not change how far the loop gets, unless it reads the indices anew. -/
theorem Awake.reach_step {F : List Entry} (ha : h.pace.Awake h.node.commitIndex h.node.applySig)
    (hg : h.pace.Gapless) (hch : h.node.commitCh = true) (hlog : Represents F h.node.log)
    (hcommit : h.node.commitIndex ≤ F.length) (hp : Paced w e j h p) :
    p.reach = h.pace.reach ∨
      (h.applyLoop = .idle ∧ p.reach = max h.node.lastApplied h.node.commitIndex) := by
  have hloop := hg.loop
  have hsnap := ha.snap_le
  have hreach := ha.reach_le
  simp only [Host.pace, due, reach] at hloop hsnap hreach ⊢
  cases hp with
  | kept s hs hle => exact Or.inl rfl
  | installed s hs hin => exact Or.inl rfl
  | read happ => exact Or.inr ⟨happ, rfl⟩
  | sliced applied commit happ =>
      rw [happ] at hloop hsnap hreach ⊢
      obtain ⟨rfl, -⟩ := hloop
      simp only [ApplyLoop.copied, List.length_nil] at hsnap hreach
      have hlen : (h.node.log.slice (h.delivered.length + 1) (commit + 1)).length =
          commit + 1 - (h.delivered.length + 1) := hlog.length_slice (by omega) (by omega)
      simp only [ApplyLoop.copied, hlen]
      exact Or.inl (by omega)
  | sent x rest happ =>
      rw [happ, hch, if_pos rfl]
      simp only [ApplyLoop.copied, List.length_append, List.length_cons, List.length_nil]
      exact Or.inl (by omega)
  | marked x rest happ =>
      rw [happ]
      exact Or.inl rfl
  | checked x happ hx =>
      rw [happ]
      rcases hx with rfl | rfl
      · exact Or.inl rfl
      · exact Or.inl rfl
  | dropped happ =>
      rw [happ]
      exact Or.inl rfl
  | measured term happ =>
      rw [happ]
      exact Or.inl rfl
  | compacted d s happ hs hle =>
      rw [happ]
      exact Or.inl rfl

/-- Snapshots and `lastApplied` stay within what is delivered or copied. -/
theorem Awake.due_step (ha : h.pace.Awake h.node.commitIndex h.node.applySig)
    (hg : h.pace.Gapless) (hch : h.node.commitCh = true)
    (hok : ∀ s, w.installs e = some (j, s) → s ≤ h.delivered.length + h.applyLoop.copied.length)
    (hp : Paced w e j h p) :
    p.snapIndex ≤ p.due ∧ p.lastApplied ≤ p.due ∧
      ∀ d, p.applyLoop = .compact d → d.index ≤ p.delivered.length := by
  have hloop := hg.loop
  have hsnap := ha.snap_le
  have happlied := ha.applied_le
  have hcompact := ha.compact_le
  simp only [Host.pace, due] at hloop hsnap happlied hcompact ⊢
  cases hp with
  | kept s hs hle => exact ⟨hle.trans (Nat.max_le.mpr ⟨hsnap, happlied⟩), happlied, hcompact⟩
  | installed s hs hin =>
      have hle := hok s hin
      exact ⟨hle, Nat.max_le.mpr ⟨happlied, hle⟩, hcompact⟩
  | read happ =>
      rw [happ] at hsnap happlied
      exact ⟨hsnap, happlied, by simp⟩
  | sliced applied commit happ =>
      rw [happ] at hsnap happlied
      simp only [ApplyLoop.copied, List.length_nil] at hsnap happlied
      exact ⟨Nat.le_add_right_of_le hsnap, Nat.le_add_right_of_le happlied, by simp⟩
  | sent x rest happ =>
      rw [happ] at hsnap happlied
      simp only [ApplyLoop.copied, List.length_cons] at hsnap happlied
      rw [hch, if_pos rfl]
      simp only [ApplyLoop.copied, List.length_append, List.length_cons, List.length_nil]
      exact ⟨by omega, by omega, by simp⟩
  | marked x rest happ =>
      rw [happ] at hsnap hloop
      exact ⟨hsnap, hloop.1.le.trans (Nat.le_add_right _ _), by simp⟩
  | checked x happ hx =>
      rw [happ] at hsnap happlied
      rcases hx with rfl | rfl
      · exact ⟨hsnap, happlied, by simp⟩
      · exact ⟨hsnap, happlied, by simp⟩
  | dropped happ =>
      rw [happ] at hsnap happlied
      exact ⟨hsnap, happlied, by simp⟩
  | measured term happ =>
      rw [happ] at hsnap happlied hloop
      refine ⟨hsnap, happlied, fun d hd => ?_⟩
      cases hd
      exact hloop.le
  | compacted d s happ hs hle =>
      have hd := hcompact d happ
      rw [happ] at hsnap happlied
      simp only [ApplyLoop.copied, List.length_nil] at hsnap happlied ⊢
      exact ⟨by omega, happlied, by simp⟩

theorem Awake.step {F : List Entry} {commit : ℕ} {sig : Bool}
    (ha : h.pace.Awake h.node.commitIndex h.node.applySig) (hg : h.pace.Gapless)
    (hch : h.node.commitCh = true) (hlog : Represents F h.node.log)
    (hcommit : h.node.commitIndex ≤ F.length) (happlied : h.node.lastApplied ≤ h.node.commitIndex)
    (hok : ∀ s, w.installs e = some (j, s) → s ≤ h.delivered.length + h.applyLoop.copied.length)
    (hp : Paced w e j h p) (hw : Woken w e j h p commit sig) (hmono : h.node.commitIndex ≤ commit) :
    p.Awake commit sig := by
  obtain ⟨hsnap, hdue, hcompact⟩ := ha.due_step hg hch hok hp
  have hreach := ha.reach_step hg hch hlog hcommit hp
  have hidle : h.applyLoop = .idle →
      h.node.lastApplied = h.delivered.length ∧ h.pace.reach = h.delivered.length := by
    intro hidle
    have hloop := hg.loop
    simp only [Host.pace, hidle] at hloop
    exact ⟨hloop, by simp [reach, due, Host.pace, hidle, ApplyLoop.copied]⟩
  have hgrow : h.pace.reach ≤ p.reach := by
    rcases hreach with heq | ⟨hi, heq⟩
    · exact heq.ge
    · rw [heq, (hidle hi).2, (hidle hi).1]
      exact Nat.le_max_left _ _
  refine ⟨hsnap, hdue, hcompact, ?_, fun hsig => ?_⟩
  · rcases hreach with heq | ⟨-, heq⟩
    · exact heq.le.trans (ha.reach_le.trans hmono)
    · rw [heq]
      exact (Nat.max_le.mpr ⟨happlied, le_rfl⟩).trans hmono
  · cases hw with
    | kept => exact (ha.covered hsig).trans hgrow
    | signalled => cases hsig
    | installed _ s hin =>
        -- the snapshot ends within what is delivered or copied
        have hle : s ≤ h.pace.reach := Nat.le_trans (hok s hin) hg.due_le_reach
        exact (Nat.max_le.mpr ⟨ha.covered hsig, hle⟩).trans hgrow
    | nothing hi hle => rwa [(hidle hi).2, ← (hidle hi).1]
    | read _ hread =>
        simp only [reach, hread]
        exact Nat.le_max_right _ _

end Pace

section Awake

variable {cl : Cluster} {w w' : World}

/-- The invariant of the runs whose steps are all `caughtUp`. -/
def AwakeWorld (cl : Cluster) (w : World) : Prop :=
  GaplessWorld cl w ∧ ∀ i, cl.commitCh i = true →
    (w.hosts i).pace.Awake (w.hosts i).node.commitIndex (w.hosts i).node.applySig

theorem AwakeWorld.init (cl : Cluster) : AwakeWorld cl (World.init cl) :=
  ⟨GaplessWorld.init cl, fun _ _ => ⟨le_rfl, le_rfl, fun _ hd => (nomatch hd), le_rfl,
    fun _ => le_rfl⟩⟩

theorem AwakeWorld.step {e : Event} (h : AwakeWorld cl w) (hok : caughtUp w e)
    (hs : Raft.step cl w e = some w') : AwakeWorld cl w' := by
  obtain ⟨hgap, hawake⟩ := h
  refine ⟨hgap.step hok hs, fun i hi => ?_⟩
  obtain ⟨⟨a, hcfg, -, sh, hsim⟩, hgap⟩ := hgap
  have hch : (w.hosts i).node.commitCh = true :=
    (congrArg Static.commitCh (hcfg.static i)).trans hi
  exact (hawake i hi).step (hgap i hi) hch (hsim.host i).represents (hsim.host i).commit_le
    (hsim.host i).applied_le (fun s hin => hok.2 (i, s) hin hch) (step_paced hs i)
    (step_woken hs i) (hsim.commitIndex_le hok.1 hs i)

theorem Reach.awake (hw : Reach cl caughtUp w) : AwakeWorld cl w :=
  Path.invariant hw (AwakeWorld.init cl) fun _ _ _ hi hok hs => hi.step hok hs

end Awake

/-- **No wake-up is lost.** When the apply loop of a node sleeps in a run that meets `caughtUp` and
there is no signal for it, exactly the entries up to the commit index have been delivered, in
order. -/
theorem asleep_delivered {cl : Cluster} {w : World} {i : String} (hw : Reach cl caughtUp w)
    (hch : cl.commitCh i = true) (hidle : (w.hosts i).applyLoop = .idle)
    (hsig : (w.hosts i).node.applySig = false) :
    Consecutive 1 (w.hosts i).delivered ∧
      (w.hosts i).delivered.length = (w.hosts i).node.commitIndex := by
  obtain ⟨⟨-, hgap⟩, hawake⟩ := hw.awake
  have hreach : (w.hosts i).pace.reach = (w.hosts i).delivered.length := by
    simp [Pace.reach, Pace.due, Host.pace, hidle, ApplyLoop.copied]
  have hle := (hawake i hch).reach_le
  have hge := (hawake i hch).covered hsig
  rw [hreach] at hle hge
  exact ⟨(hgap i hch).delivered, Nat.le_antisymm hle hge⟩

/-- Node `c` has installed a snapshot, without a signal, and its apply loop sleeps. -/
theorem asleep_delivered_trio : ∃ w : World, (w.hosts "c").node.log.snapIndex = 2 ∧
    Consecutive 1 (w.hosts "c").delivered ∧
    (w.hosts "c").delivered.length = (w.hosts "c").node.commitIndex := by
  have hw : Runs trio caughtUp installAfterApplying := by decide +kernel
  have hsnap : ((run trio caughtUp installAfterApplying).hosts "c").node.log.snapIndex = 2 := by
    decide +kernel
  exact ⟨_, hsnap, asleep_delivered (Reach.run hw) rfl (by decide +kernel) (by decide +kernel)⟩

end Raft

end VaultFS
