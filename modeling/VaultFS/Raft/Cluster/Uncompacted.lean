import VaultFS.Raft.Cluster.Refinement

/-!
# Runs without compaction

When no node takes a snapshot and no log reaches the threshold, every `snapIndex`
stays zero. The condition of the simulation then holds at every step, because no
`nextIndex` of a leader is ever zero: a new leader starts above its log, and the
index that a follower suggests in a rejection is at least one.
-/

namespace VaultFS

namespace Raft

open Transition

def Event.takesSnapshot : Event → Bool
  | .act _ (.takeSnapshot _) => true
  | _ => false

/-- `TakeSnapshot` is not called, and no log has reached the threshold. -/
def noCompaction (cl : Cluster) (w : World) (e : Event) : Prop :=
  e.takesSnapshot = false ∧ ∀ i ∈ cl.ids, (w.hosts i).node.log.len < compactThreshold

instance (cl : Cluster) (w : World) (e : Event) : Decidable (noCompaction cl w e) :=
  inferInstanceAs (Decidable (_ ∧ _))

/-- The apply loop is on its way to compacting the log. -/
def ApplyLoop.compacting : ApplyLoop → Bool
  | .oversized => true
  | .compact _ => true
  | _ => false

structure Host.Uncompacted (h : Host) : Prop where
  snapIndex : h.node.log.snapIndex = 0
  loop : h.applyLoop.compacting = false
  nextIndex : h.node.state = .leader → ∀ p ∈ h.node.peers, 0 < h.node.nextIndex.get p

theorem Host.Uncompacted.ne_compact {h : Host} (hu : h.Uncompacted) (d : Compaction) :
    h.applyLoop ≠ .compact d := by
  intro happ
  have hloop := hu.loop
  rw [happ] at hloop
  cases hloop

/-- A rejection that names a conflicting term suggests a positive index, and a
snapshot is empty. -/
def Rpc.Uncompacted : Rpc → Prop
  | .requestVote _ _ => True
  | .appendEntries _ reply => ∀ r ∈ reply, r.conflictTerm ≠ 0 → 0 < r.conflictIndex
  | .installSnapshot args _ => args.lastIncludedIndex = 0

structure Uncompacted (w : World) : Prop where
  host : ∀ i, (w.hosts i).Uncompacted
  call : ∀ call ∈ w.calls, call.rpc.Uncompacted

namespace Node

theorem scanHint_pos (l : RaftLog) (t : ℕ) {i : ℕ} (hi : 0 < i) : 0 < scanHint l t i := by
  induction i with
  | zero => exact absurd hi (Nat.lt_irrefl 0)
  | succ i ih =>
      unfold scanHint
      split
      · rename_i hsnap
        cases l.term i with
        | error e => exact Nat.succ_pos i
        | ok t' =>
            simp only
            split
            · exact Nat.succ_pos i
            · exact ih (by omega)
      · exact Nat.succ_pos i

theorem scanConflict_pos (l : RaftLog) (t : ℕ) {fallback : ℕ} (h : 0 < fallback) (i : ℕ) :
    0 < scanConflict l t fallback i := by
  induction i with
  | zero => exact h
  | succ i ih =>
      unfold scanConflict
      split
      · cases l.term (i + 1) with
        | error e => exact h
        | ok t' =>
            simp only
            split
            · exact Nat.succ_pos _
            · split
              · exact h
              · exact ih
      · exact h

theorem conflictHint_pos (n : Node) {prev : ℕ} (hprev : 0 < prev) (prevTerm : ℕ) :
    0 < (n.conflictHint prev prevTerm).1 := by
  unfold conflictHint
  split
  · exact Nat.succ_pos _
  · exact scanHint_pos n.log prevTerm hprev

/-- A request from index one on looks up nothing that is compacted. -/
theorem clearLookups_of_lt {l : RaftLog} {es : List Entry} (k : ℕ)
    (h : ∀ e ∈ es, l.snapIndex < e.index) : clearLookups none k l es = true := by
  induction es generalizing k with
  | nil => rfl
  | cons e es ih =>
      simp only [clearLookups, RaftLog.intrude, Bool.and_eq_true]
      refine ⟨decide_eq_true (Or.inl (h e List.mem_cons_self)), ?_⟩
      cases l.term e.index with
      | error err => rfl
      | ok t =>
          simp only
          split
          · rfl
          · exact ih (k + 1) fun e' he' => h e' (List.mem_cons_of_mem e he')

theorem handleAppendEntries_uncompacted (n : Node) (args : AppendEntriesArgs)
    (x : Option Intrusion) :
    Rpc.Uncompacted (.appendEntries args (some (n.handleAppendEntries args x).2)) := by
  intro r hr hterm
  obtain rfl := Option.some.inj hr
  rcases n.handleAppendEntries_cases args x with ⟨-, h⟩ | ⟨-, t, hprev, h⟩ | ⟨-, -, h⟩
  · rw [h] at hterm
    exact absurd rfl hterm
  · rw [h] at hterm ⊢
    refine conflictHint_pos _ ?_ t
    unfold checkPrev at hprev
    split at hprev
    · assumption
    · cases hprev
  · rw [h] at hterm
    exact absurd rfl hterm

end Node

namespace Host

variable {h : Host}

/-- Without a role change towards leading, the replication indices do not matter. -/
theorem Uncompacted.of_follower (hu : h.Uncompacted) {n : Node}
    (hlog : n.log.snapIndex = h.node.log.snapIndex) (hs : n.state = .follower) :
    Uncompacted { h with node := n } where
  snapIndex := hlog.trans hu.snapIndex
  loop := hu.loop
  nextIndex hl := by
    simp only [hs] at hl
    cases hl

theorem Uncompacted.observe (hu : h.Uncompacted) (t : ℕ) :
    Uncompacted { h with node := h.node.observe t } := by
  unfold Node.observe
  split
  · exact hu.of_follower rfl rfl
  · exact hu

theorem Uncompacted.outcome (hu : h.Uncompacted) (hnodup : h.node.members.Nodup)
    {el : Election} {term : ℕ} {r : Node × Election} (hr : h.node.Outcome el term r) :
    Uncompacted { h with node := r.1 } := by
  cases hr with
  | kept el' honce => exact hu
  | later t hlt => exact hu.of_follower rfl rfl
  | won el' hcand hterm honce honce' =>
      have hlog := Node.log_of_progress h.node.becomeLeader_progress
      have hpeers : h.node.becomeLeader.peers = h.node.peers :=
        congrArg Static.peers (Node.static_of_progress h.node.becomeLeader_progress)
      refine ⟨by simp only [hlog]; exact hu.snapIndex, hu.loop, fun _ p hp => ?_⟩
      simp only [hpeers] at hp
      simp only [(Node.becomeLeader_indices hnodup hcand).2.2.2 p hp]
      exact Nat.succ_pos _

theorem Uncompacted.setNext (hu : h.Uncompacted) (m : IndexMap) (peer : String) {next : ℕ}
    (hnext : 0 < next) : Uncompacted { h with node := { h.node with
      matchIndex := m, nextIndex := h.node.nextIndex.set peer next } } where
  snapIndex := hu.snapIndex
  loop := hu.loop
  nextIndex hl p hp := by
    by_cases hpp : p = peer
    · subst hpp
      simpa only [IndexMap.get_set_self] using hnext
    · simp only [IndexMap.get_set_ne _ hpp]
      exact hu.nextIndex hl p hp

theorem Uncompacted.advance (hu : h.Uncompacted) :
    Uncompacted { h with node := h.node.advanceCommitIndex } := by
  rcases h.node.advanceCommitIndex_cases with heq | ⟨c, heq, -⟩
  · rw [heq]
    exact hu
  · rw [heq]
    exact { hu with }

theorem Uncompacted.acted {c : ℕ} {a : Action} {h' : Host} {cs : List Call} (hu : h.Uncompacted)
    (ha : Acted h c a h' cs) (hnodup : h.node.members.Nodup)
    (hlen : h.node.log.len < compactThreshold) (hsnap : ∀ data, a ≠ .takeSnapshot data) :
    h'.Uncompacted ∧ ∀ call ∈ cs, call.rpc.Uncompacted := by
  have hloop := hu.loop
  cases ha with
  | stand n args hfree hn =>
      obtain ⟨-, rfl, -⟩ := Node.maybeStartElection_some hn
      refine ⟨⟨hu.snapIndex, hloop, nofun⟩, ?_⟩
      intro call hc
      obtain ⟨p, -, rfl⟩ := List.mem_map.mp hc
      trivial
  | standAlone n args hfree hn =>
      obtain ⟨-, rfl, -⟩ := Node.maybeStartElection_some hn
      exact ⟨⟨hu.snapIndex, hloop, nofun⟩, by simp⟩
  | winAlone term el =>
      exact ⟨{ hu.outcome hnodup (h.node.winAlone_outcome el term) with }, by simp⟩
  | append peer prevTerm =>
      refine ⟨{ hu with }, ?_⟩
      intro call hc
      rw [List.mem_singleton.mp hc]
      exact nofun
  | appendCut _ _ d _ _ _ happ | snapshotCut _ d _ _ happ | applyCompact d happ =>
      exact absurd happ (hu.ne_compact d)
  | snapshot peer =>
      refine ⟨{ hu with }, ?_⟩
      intro call hc
      rw [List.mem_singleton.mp hc]
      exact hu.snapIndex
  | propose command n hn =>
      obtain ⟨-, rfl⟩ := Node.propose_ok hn
      have happend : Uncompacted { h with node := { h.node with
          log := h.node.log.append [⟨h.node.log.lastIndex + 1, h.node.currentTerm, command⟩]
          matchIndex := h.node.matchIndex.set h.node.id (h.node.log.lastIndex + 1) } } :=
        ⟨hu.snapIndex, hloop, hu.nextIndex⟩
      exact ⟨happend.advance, by simp⟩
  | takeSnapshot data => exact absurd rfl (hsnap data)
  | applyCheck happ =>
      refine ⟨{ hu with loop := ?_ }, by simp⟩
      simp only [if_neg (Nat.not_le.mpr hlen)]
      rfl
  | applyMeasure term happ =>
      rw [happ] at hloop
      cases hloop
  | applyRead | applySlice | applySend | applyMark | applyUnavailable =>
      exact ⟨{ hu with loop := rfl }, by simp⟩
  | _ => exact ⟨{ hu with }, by simp⟩

theorem Uncompacted.append (hu : h.Uncompacted) (args : AppendEntriesArgs) :
    Uncompacted { h with node := (h.node.handleAppendEntries args none).1 } := by
  have haccept : h.node.currentTerm ≤ args.term →
      Uncompacted { h with node := h.node.acceptLeader args.term args.leaderID } ∧
        (h.node.acceptLeader args.term args.leaderID).state = .follower := by
    intro hle
    have hlog := Node.log_of_progress (h.node.acceptLeader_progress args.term args.leaderID)
    have hs : (h.node.acceptLeader args.term args.leaderID).state = .follower := by
      rcases Node.acceptLeader_role args.leaderID hle with ⟨-, hf, hrole⟩ | ⟨-, hrole⟩
      · exact (congrArg Role.state hrole).trans hf
      · exact congrArg Role.state hrole
    exact ⟨hu.of_follower (by rw [hlog]) hs, hs⟩
  rcases h.node.handleAppendEntries_cases args none with ⟨-, hr⟩ | ⟨hle, t, -, hr⟩ | ⟨hle, -, hr⟩
  · rw [hr]
    exact hu
  · rw [hr]
    exact (haccept hle).1
  · rw [hr]
    obtain ⟨hacc, hs⟩ := haccept hle
    refine hacc.of_follower ?_ ?_
    · rw [Node.followCommit_log]
      exact ((Node.snapFrom_appendNew none 0 _ args.entries).resolve_right (by simp)).1
    · exact (congrArg Role.state (Node.followCommit_role _ _)).trans hs

theorem Uncompacted.delivered {cut : Option ℕ} {rpc rpc' : Rpc} {h' : Host} (hu : h.Uncompacted)
    (hd : Delivered h cut rpc h' rpc') (hc : rpc.Uncompacted) :
    h'.Uncompacted ∧ rpc'.Uncompacted := by
  cases hd with
  | vote args =>
      refine ⟨?_, trivial⟩
      rcases h.node.handleRequestVote_cases args with ⟨-, hr⟩ | ⟨-, hr⟩ | ⟨-, -, -, hr⟩
      · rw [hr]
        exact hu
      · rw [hr]
        exact hu.observe args.term
      · rw [hr]
        exact { hu.observe args.term with }
  | snapshot args =>
      refine ⟨?_, hc⟩
      rcases h.node.handleInstallSnapshot_cases args with ⟨-, hr⟩ | ⟨-, -, hr⟩ | ⟨-, hlt, -⟩
      · rw [hr]
        exact hu
      · rw [hr]
        exact { hu.observe args.term with }
      · rw [show args.lastIncludedIndex = 0 from hc] at hlt
        omega
  | append args => exact ⟨hu.append args, h.node.handleAppendEntries_uncompacted args none⟩
  | appendCut args k d happ => exact absurd happ (hu.ne_compact d)

theorem Uncompacted.received {c : ℕ} {dst : String} {rpc : Rpc} {h' : Host} (hu : h.Uncompacted)
    (hr : Received h c dst rpc h') (hnodup : h.node.members.Nodup) (hc : rpc.Uncompacted) :
    h'.Uncompacted := by
  cases hr with
  | vote args reply el =>
      exact { hu.outcome hnodup (h.node.countVote_outcome el args.term reply) with }
  | append args reply =>
      rcases h.node.handleAppendReply_cases dst args reply with
        ⟨-, heq⟩ | heq | ⟨-, -, -, m, x, heq, -, rfl⟩ | ⟨-, -, -, x, heq, hx⟩
      · rw [heq]
        exact ⟨hu.snapIndex, hu.loop, nofun⟩
      · rw [heq]
        exact { hu with }
      · rw [heq]
        exact { (hu.setNext m dst (Nat.succ_pos _)).advance with }
      · rw [heq]
        have hpos : 0 < x := by
          rcases hx with ⟨rfl, hterm⟩ | ⟨rfl, hpos⟩ | ⟨-, hpos⟩
          · exact Node.scanConflict_pos _ _ (hc reply rfl hterm) _
          · exact hpos
          · exact hpos
        exact { hu.setNext h.node.matchIndex dst hpos with }
  | snapshot args reply =>
      rcases h.node.handleSnapshotReply_cases dst args reply with ⟨-, heq⟩ | heq | ⟨-, m, heq, -⟩
      · rw [heq]
        exact ⟨hu.snapIndex, hu.loop, nofun⟩
      · rw [heq]
        exact { hu with }
      · rw [heq]
        exact { hu.setNext m dst (Nat.succ_pos _) with }

/-- No `SetSnapshot` is pending. -/
theorem Uncompacted.pending (hu : h.Uncompacted) : h.pending = none := by
  unfold Host.pending
  cases happ : h.applyLoop with
  | compact d => exact absurd happ (hu.ne_compact d)
  | _ => rfl

end Host

namespace Uncompacted

variable {cl : Cluster} {w : World}

theorem init (cl : Cluster) : Uncompacted (World.init cl) where
  host _ := ⟨rfl, rfl, nofun⟩
  call call hc := by simp [World.init] at hc

theorem put (h : Uncompacted w) {i : String} {h' : Host} {calls : List Call}
    (hu : h'.Uncompacted) (hc : ∀ call ∈ calls, call.rpc.Uncompacted) :
    Uncompacted (w.put i h' calls) where
  host := World.put_hosts (P := fun _ x => x.Uncompacted) hu fun j _ => h.host j
  call := hc

theorem step {w' : World} {e : Event} (h : Uncompacted w) (hcfg : Configured cl w)
    (hok : noCompaction cl w e) (hs : Raft.step cl w e = some w') : Uncompacted w' := by
  cases step_moved hs with
  | act i a h' cs hi hact =>
      have htake : ∀ data, a ≠ .takeSnapshot data := by
        rintro data rfl
        cases hok.1
      obtain ⟨hu, hcs⟩ := (h.host i).acted (Host.act_acted hact) (hcfg.members hi).1 (hok.2 i hi)
        htake
      refine h.put hu ?_
      intro call hc
      rcases List.mem_append.mp hc with hold | hnew
      · exact h.call call hold
      · exact hcs call hnew
  | deliver c cut call h' rpc hc hdel =>
      obtain ⟨hu, hrpc⟩ := (h.host call.dst).delivered (Host.deliver_delivered hdel)
        (h.call call (List.mem_of_getElem? hc))
      exact h.put hu (World.set_calls h.call hrpc)
  | receive c call h' hc hw hrec =>
      have hmem := List.mem_of_getElem? hc
      exact h.put ((h.host call.src).received (Host.receive_received hrec)
        (hcfg.members (hcfg.call call hmem).1).1 (h.call call hmem))
        (World.set_calls h.call (h.call call hmem))
  | giveUp c call hc hw =>
      exact h.put { h.host call.src with }
        (World.set_calls h.call (h.call call (List.mem_of_getElem? hc)))

theorem sendsAboveSnapshot {w' : World} {e : Event} (h : Uncompacted w) (hcfg : Configured cl w)
    (hs : Raft.step cl w e = some w') : sendsAboveSnapshot w e := by
  intro r hr hsends
  cases step_moved hs with
  | act i a h' cs hi hact =>
      cases a with
      | replicateTo peer cut =>
          obtain rfl := Option.some.inj hr
          have hw := (Host.startReplication_cases hact).1
          have hpeer : peer ∈ (w.hosts i).node.peers := by
            rw [hcfg.peers i]
            exact hcfg.worker i peer (Or.inl hw)
          have hcut : (if cut then (w.hosts i).pending else none) = none := by
            rw [(h.host i).pending, ite_self]
          simp only [Host.replication, hcut] at hsends ⊢
          rcases (w.hosts i).node.replicateTo_cases peer none with
            ⟨-, heq⟩ | ⟨-, heq⟩ | ⟨hl, t, l, -, rfl, heq⟩
          · rw [heq] at hsends
            cases hsends
          · rw [heq] at hsends
            cases hsends
          · rw [heq]
            simp only [(h.host i).snapIndex]
            exact (h.host i).nextIndex hl peer hpeer
      | _ => cases hr
  | deliver => cases hr
  | receive => cases hr
  | giveUp => cases hr

theorem appendsAboveSnapshot (h : Uncompacted w) (hidx : Indexed w) (e : Event) :
    appendsAboveSnapshot w e := by
  intro call hc args hargs _ _
  have hmem : call ∈ w.calls := by
    unfold World.handled at hc
    split at hc
    · exact List.mem_of_getElem? hc
    · cases hc
  have hrpc : call.rpc = .appendEntries args none := by
    unfold Rpc.appendRequest at hargs
    split at hargs
    · rename_i heq
      rw [heq, Option.some.inj hargs]
    · cases hargs
  have hcut : (w.hosts call.dst).intrusion e.cut = none := by
    unfold Host.intrusion
    split
    · rfl
    · rw [(h.host call.dst).pending, Option.map_none]
  rw [hcut]
  refine Node.clearLookups_of_lt 0 ?_
  intro x hx
  obtain ⟨k, hk⟩ := List.mem_iff_getElem?.mp hx
  rw [(h.host call.dst).snapIndex, hidx.request call hmem args none hrpc k x hk]
  omega

end Uncompacted

/-- A run without compaction meets the condition of the simulation. -/
theorem uncompacted_path {cl : Cluster} {w w' : World} (hw : Reach cl (noCompaction cl) w)
    (hp : Path (step cl) (noCompaction cl) w w') :
    Reach cl aboveSnapshot w ∧ Path (step cl) aboveSnapshot w w' ∧ Uncompacted w' := by
  have hstep : ∀ t e t', (Configured cl t ∧ Indexed t ∧ Uncompacted t) → noCompaction cl t e →
      step cl t e = some t' →
      aboveSnapshot t e ∧ Configured cl t' ∧ Indexed t' ∧ Uncompacted t' := by
    rintro t e t' ⟨hcfg, hidx, hun⟩ hok hs
    have happ := hun.appendsAboveSnapshot hidx e
    exact ⟨⟨hun.sendsAboveSnapshot hcfg hs, happ⟩, hcfg.step hs, hidx.step happ hs,
      hun.step hcfg hok hs⟩
  obtain ⟨hreach, hinv⟩ := Path.strengthen hw
    (⟨Configured.init cl, Indexed.init cl, Uncompacted.init cl⟩ : _ ∧ _ ∧ _) hstep
  obtain ⟨hpath, -, -, hun⟩ := hp.strengthen hinv hstep
  exact ⟨hreach, hpath, hun⟩

end Raft

end VaultFS
