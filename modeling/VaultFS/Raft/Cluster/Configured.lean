import VaultFS.Raft.Cluster.Inversion
import VaultFS.Transition.Basic

/-!
# Runs of a cluster, and what never changes in them

`Reach cl ok w` says that `w` is reached from the start of the cluster by steps
that all meet the condition `ok`. Every theorem about runs is stated with it; the
condition `anyStep` allows every run.

`Configured` is the part of a world that is fixed from the start: who is who, who
is a peer of whom, and that every call goes from a node to one of its peers and
names its sender.
-/

namespace VaultFS

namespace Raft

open Transition

/-- The worlds reached from the start by steps that meet a condition. -/
def Reach (cl : Cluster) (ok : World → Event → Prop) (w : World) : Prop :=
  Path (step cl) ok (World.init cl) w

/-- No condition on the steps. -/
def anyStep (_ : World) (_ : Event) : Prop := True

instance (w : World) (e : Event) : Decidable (anyStep w e) := inferInstanceAs (Decidable True)

section Run

variable (cl : Cluster) (ok : World → Event → Prop) [∀ w e, Decidable (ok w e)]

/-- The steps are enabled in turn from the start and meet the condition. -/
def Runs (es : List Event) : Prop := Enabled (guarded (step cl) ok) (World.init cl) es

instance (es : List Event) : Decidable (Runs cl ok es) :=
  inferInstanceAs (Decidable (Enabled _ _ _))

/-- The world that the steps lead to. -/
def run (es : List Event) : World := final (guarded (step cl) ok) (World.init cl) es

variable {cl ok}

theorem Reach.run {es : List Event} (h : Runs cl ok es) : Reach cl ok (run cl ok es) :=
  Path.final h

theorem path_run {es es' : List Event} (h : Runs cl ok (es ++ es')) :
    Path (step cl) ok (Raft.run cl ok es) (Raft.run cl ok (es ++ es')) :=
  Path.final_append h

end Run

/-- A cluster of three nodes, for concrete runs. -/
def trio : Cluster where
  ids := ["a", "b", "c"]
  peers i := ["a", "b", "c"].erase i
  commitCh _ := true
  nodup := by decide
  ne_empty := by decide
  peers_perm _ _ := List.Perm.refl _

/-- The apply loop of a node delivers `k` entries. -/
def applies (i : String) (k : ℕ) : List Event :=
  [.act i .applyRead, .act i .applySlice] ++
    (List.replicate k [.act i .applySend, .act i .applyMark]).flatten ++ [.act i .applyCheck]

structure Configured (cl : Cluster) (w : World) : Prop where
  static : ∀ i, (w.hosts i).node.static = ⟨i, cl.peers i, cl.commitCh i⟩
  worker : ∀ i p, .start p ∈ (w.hosts i).workers ∨ .snapshot p ∈ (w.hosts i).workers →
    p ∈ cl.peers i
  alone : ∀ i, (w.hosts i).electing ≠ none → (w.hosts i).node.electionQuorum ≤ 1
  call : ∀ call ∈ w.calls, call.src ∈ cl.ids ∧ call.dst ∈ cl.peers call.src ∧
    call.rpc.sender = call.src

namespace Configured

variable {cl : Cluster} {w w' : World}

theorem id (h : Configured cl w) (i : String) : (w.hosts i).node.id = i :=
  congrArg Static.id (h.static i)

theorem peers (h : Configured cl w) (i : String) : (w.hosts i).node.peers = cl.peers i :=
  congrArg Static.peers (h.static i)

theorem mem_ids_of_mem_peers {i p : String} (hi : i ∈ cl.ids) (hp : p ∈ cl.peers i) :
    p ∈ cl.ids ∧ p ≠ i := by
  have hmem := (cl.peers_perm i hi).mem_iff.mp hp
  exact ⟨List.mem_of_mem_erase hmem, (cl.nodup.mem_erase_iff.mp hmem).1⟩

theorem length_peers {i : String} (hi : i ∈ cl.ids) : (cl.peers i).length + 1 = cl.size := by
  have hpos : 0 < cl.ids.length := List.length_pos_of_mem hi
  rw [(cl.peers_perm i hi).length_eq, List.length_erase_of_mem hi, Cluster.size]
  omega

/-- The destination of a call is another node of the cluster. -/
theorem dst (h : Configured cl w) {call : Call} (hc : call ∈ w.calls) :
    call.dst ∈ cl.ids ∧ call.dst ≠ call.src := by
  obtain ⟨hsrc, hdst, -⟩ := h.call call hc
  exact mem_ids_of_mem_peers hsrc hdst

theorem init (cl : Cluster) : Configured cl (World.init cl) where
  static _ := rfl
  worker i p hp := by simp [World.init] at hp
  alone i hi := by simp [World.init] at hi
  call _ hc := by simp [World.init] at hc

theorem static_acted {h h' : Host} {c : ℕ} {a : Action} {cs : List Call}
    (ha : Acted h c a h' cs) : h'.node.static = h.node.static := by
  cases ha with
  | stand n args _ hn =>
      obtain ⟨-, rfl, -⟩ := Node.maybeStartElection_some hn
      rfl
  | standAlone n args _ hn =>
      obtain ⟨-, rfl, -⟩ := Node.maybeStartElection_some hn
      rfl
  | winAlone term el =>
      unfold Node.winAlone
      split
      · exact Node.static_of_progress (Node.onceBecomeLeader_progress _ el)
      · rfl
  | propose command n hn =>
      obtain ⟨-, rfl⟩ := Node.propose_ok hn
      exact (Node.advanceCommitIndex_advances _).static
  | _ => rfl

theorem worker_acted {h h' : Host} {c : ℕ} {a : Action} {cs : List Call}
    (ha : Acted h c a h' cs) {p : String}
    (hp : .start p ∈ h'.workers ∨ .snapshot p ∈ h'.workers) :
    (.start p ∈ h.workers ∨ .snapshot p ∈ h.workers) ∨ p ∈ h.node.peers := by
  have herase : ∀ {x y : Worker}, x ∈ h.workers.erase y → x ∈ h.workers :=
    fun hx => List.mem_of_mem_erase hx
  cases ha with
  | heartbeat => exact Or.inr (by simpa using hp)
  | notLeader peer hw => exact Or.inl (hp.imp herase herase)
  | needSnapshot peer hw =>
      simp only [List.mem_cons, reduceCtorEq, false_or, Worker.snapshot.injEq] at hp
      rcases hp with hp | rfl | hp
      · exact Or.inl (Or.inl (herase hp))
      · exact Or.inl (Or.inl hw)
      · exact Or.inl (Or.inr (herase hp))
  | snapshotNotLeader peer hw => exact Or.inl (hp.imp herase herase)
  | append | appendCut | snapshot | snapshotCut =>
      simp only [List.mem_cons, reduceCtorEq, false_or] at hp
      exact Or.inl (hp.imp herase herase)
  | _ => exact Or.inl hp

theorem alone_acted {h h' : Host} {c : ℕ} {a : Action} {cs : List Call}
    (ha : Acted h c a h' cs) (hold : h.electing ≠ none → h.node.electionQuorum ≤ 1)
    (he : h'.electing ≠ none) : h'.node.electionQuorum ≤ 1 := by
  have hsame : h'.node.electionQuorum = h.node.electionQuorum :=
    Node.electionQuorum_congr (static_acted ha)
  cases ha with
  | standAlone n args _ hn hq => exact hq
  | winAlone term el => simp at he
  | _ => exact hsame ▸ hold he

/-- The calls that a host makes go to its peers and name it as their sender. -/
theorem call_acted {h h' : Host} {c : ℕ} {a : Action} {cs : List Call}
    (ha : Acted h c a h' cs) {call : Call} (hc : call ∈ cs) :
    call.src = h.node.id ∧ call.rpc.sender = h.node.id ∧
      (call.dst ∈ h.node.peers ∨ .start call.dst ∈ h.workers ∨
        .snapshot call.dst ∈ h.workers) := by
  cases ha with
  | stand n args _ hn =>
      obtain ⟨-, rfl, rfl⟩ := Node.maybeStartElection_some hn
      obtain ⟨p, hp, rfl⟩ := List.mem_map.mp hc
      exact ⟨rfl, rfl, Or.inl hp⟩
  | append _ _ hw | appendCut _ _ _ hw =>
      rw [List.mem_singleton.mp hc]
      exact ⟨rfl, rfl, Or.inr (Or.inl hw)⟩
  | snapshot _ hw | snapshotCut _ _ hw =>
      rw [List.mem_singleton.mp hc]
      exact ⟨rfl, rfl, Or.inr (Or.inr hw)⟩
  | _ => simp at hc

theorem static_delivered {h h' : Host} {cut : Option ℕ} {rpc rpc' : Rpc}
    (hd : Delivered h cut rpc h' rpc') :
    h'.node.static = h.node.static ∧ h'.workers = h.workers ∧ h'.electing = h.electing ∧
      rpc'.sender = rpc.sender := by
  cases hd with
  | vote args =>
      exact ⟨Node.static_of_progress (h.node.handleRequestVote_progress args), rfl, rfl, rfl⟩
  | snapshot args => exact ⟨h.node.handleInstallSnapshot_static args, rfl, rfl, rfl⟩
  | append args => exact ⟨h.node.handleAppendEntries_static args none, rfl, rfl, rfl⟩
  | appendCut args k d => exact ⟨h.node.handleAppendEntries_static args _, rfl, rfl, rfl⟩

theorem static_received {h h' : Host} {c : ℕ} {dst : String} {rpc : Rpc}
    (hr : Received h c dst rpc h') :
    h'.node.static = h.node.static ∧ h'.electing = h.electing ∧
      ∀ x ∈ h'.workers, x ∈ h.workers := by
  cases hr with
  | vote args reply el =>
      exact ⟨Node.static_of_progress (h.node.countVote_progress el args.term reply), rfl,
        fun _ hx => hx⟩
  | append args reply =>
      exact ⟨(h.node.handleAppendReply_advances dst args reply).static, rfl,
        fun _ hx => List.mem_of_mem_erase hx⟩
  | snapshot args reply =>
      exact ⟨Node.static_of_progress (h.node.handleSnapshotReply_progress dst args reply), rfl,
        fun _ hx => List.mem_of_mem_erase hx⟩

/-- A host moved, keeping its configuration; the calls are still configured. -/
theorem put (h : Configured cl w) {i : String} {h' : Host} {calls : List Call}
    (hs : h'.node.static = (w.hosts i).node.static)
    (hw : ∀ p, .start p ∈ h'.workers ∨ .snapshot p ∈ h'.workers → p ∈ cl.peers i)
    (ha : h'.electing ≠ none → h'.node.electionQuorum ≤ 1)
    (hc : ∀ call ∈ calls, call.src ∈ cl.ids ∧ call.dst ∈ cl.peers call.src ∧
      call.rpc.sender = call.src) : Configured cl (w.put i h' calls) where
  static := World.put_hosts (P := fun j x => x.node.static = ⟨j, cl.peers j, cl.commitCh j⟩)
    (hs.trans (h.static i)) fun j _ => h.static j
  worker := World.put_hosts (P := fun j x => ∀ p, .start p ∈ x.workers ∨ .snapshot p ∈ x.workers →
    p ∈ cl.peers j) hw fun j _ => h.worker j
  alone := World.put_hosts (P := fun _ x => x.electing ≠ none → x.node.electionQuorum ≤ 1) ha
    fun j _ => h.alone j
  call := hc

/-- The host keeps its configuration, and one call changes without changing who
sent it to whom. -/
theorem put_set (h : Configured cl w) {i : String} {h' : Host} {c : ℕ} {call call' : Call}
    (hc : w.calls[c]? = some call) (hs : h'.node.static = (w.hosts i).node.static)
    (hw : ∀ x ∈ h'.workers, x ∈ (w.hosts i).workers)
    (he : h'.electing = (w.hosts i).electing)
    (hcall : call'.src = call.src ∧ call'.dst = call.dst ∧ call'.rpc.sender = call.rpc.sender) :
    Configured cl (w.put i h' (w.calls.set c call')) := by
  refine h.put hs (fun p hp => h.worker i p (hp.imp (hw _) (hw _))) ?_ ?_
  · intro hne
    rw [Node.electionQuorum_congr hs]
    exact h.alone i (he ▸ hne)
  · refine World.set_calls h.call ?_
    rw [hcall.1, hcall.2.1, hcall.2.2]
    exact h.call call (List.mem_of_getElem? hc)

theorem step {e : Event} (h : Configured cl w) (hs : Raft.step cl w e = some w') :
    Configured cl w' := by
  cases step_moved hs with
  | act i a h' cs hi hact =>
      have ha := Host.act_acted hact
      refine h.put (static_acted ha) ?_ (alone_acted ha (h.alone i)) ?_
      · intro p hp
        rcases worker_acted ha hp with hold | hpeer
        · exact h.worker i p hold
        · rwa [h.peers i] at hpeer
      · intro call hc
        rcases List.mem_append.mp hc with hold | hnew
        · exact h.call call hold
        · obtain ⟨hsrc, hsend, hdst⟩ := call_acted ha hnew
          rw [h.id i] at hsrc hsend
          rw [hsrc]
          refine ⟨hi, ?_, hsend⟩
          rcases hdst with hp | hw
          · rwa [h.peers i] at hp
          · exact h.worker i call.dst hw
  | deliver c cut call h' rpc hc hdel =>
      obtain ⟨hst, hw, hel, hsend⟩ := static_delivered (Host.deliver_delivered hdel)
      exact h.put_set hc hst (fun x hx => hw ▸ hx) hel ⟨rfl, rfl, hsend⟩
  | receive c call h' hc _ hrec =>
      obtain ⟨hst, hel, hw⟩ := static_received (Host.receive_received hrec)
      exact h.put_set hc hst hw hel ⟨rfl, rfl, rfl⟩
  | giveUp c call hc _ =>
      exact h.put_set hc rfl (fun x hx => List.mem_of_mem_erase hx) rfl ⟨rfl, rfl, rfl⟩

end Configured

theorem Reach.configured {cl : Cluster} {ok : World → Event → Prop} {w : World}
    (h : Reach cl ok w) : Configured cl w :=
  Path.invariant h (Configured.init cl) fun _ _ _ hi _ hs => hi.step hs

end Raft

end VaultFS
