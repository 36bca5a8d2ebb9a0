import VaultFS.Raft.Cluster.Step
import VaultFS.Raft.Node.Frame

/-!
# What a step of a cluster can do

`Moved cl w e w'` lists the four kinds of step with what each of them changes,
and `Acted h c a h' cs` the ways in which a host acts on its own. `step_moved` and
`Host.act_acted` are their connection to the transition function; proofs about
steps go through them and do not unfold it.
-/

namespace VaultFS

namespace Raft

namespace Rpc

/-- The term of the request. -/
def term : Rpc → ℕ
  | .requestVote args _ => args.term
  | .appendEntries args _ => args.term
  | .installSnapshot args _ => args.term

/-- The node that the request names as its sender. -/
def sender : Rpc → String
  | .requestVote args _ => args.candidateID
  | .appendEntries args _ => args.leaderID
  | .installSnapshot args _ => args.leaderID

def isVote : Rpc → Bool
  | .requestVote _ _ => true
  | _ => false

/-- A vote request that is still to be handled. -/
def voteRequest : Rpc → Option RequestVoteArgs
  | .requestVote args none => some args
  | _ => none

/-- An AppendEntries request that is still to be handled. -/
def appendRequest : Rpc → Option AppendEntriesArgs
  | .appendEntries args none => some args
  | _ => none

/-- An InstallSnapshot request that is still to be handled. -/
def snapshotRequest : Rpc → Option InstallSnapshotArgs
  | .installSnapshot args none => some args
  | _ => none

end Rpc

namespace World

variable (w : World) (i j : String) (h : Host) (calls : List Call)

@[simp] theorem put_calls : (w.put i h calls).calls = calls := rfl

@[simp] theorem put_hosts_self : (w.put i h calls).hosts i = h := by simp [put]

/-- The call whose request a step handles. -/
def handled (w : World) : Event → Option Call
  | .deliver c _ => w.calls[c]?
  | _ => none

theorem put_hosts_ne {w : World} {i j : String} {h : Host} {calls : List Call} (hne : j ≠ i) :
    (w.put i h calls).hosts j = w.hosts j := by
  simp [put, hne]

/-- What holds of every host after one of them moved. -/
theorem put_hosts {w : World} {i : String} {h : Host} {calls : List Call}
    {P : String → Host → Prop} (hi : P i h) (hne : ∀ j, j ≠ i → P j (w.hosts j)) (j : String) :
    P j ((w.put i h calls).hosts j) := by
  by_cases hj : j = i
  · subst hj
    rwa [put_hosts_self]
  · rw [put_hosts_ne hj]
    exact hne j hj

/-- What holds of every call after one of them is replaced. -/
theorem set_calls {w : World} {c : ℕ} {call : Call} {P : Call → Prop} (h : ∀ x ∈ w.calls, P x)
    (hc : P call) : ∀ x ∈ w.calls.set c call, P x := by
  intro x hx
  rcases List.mem_or_eq_of_mem_set hx with hold | rfl
  · exact h x hold
  · exact hc

end World

/-- The kinds of step, with what each of them changes. -/
inductive Moved (cl : Cluster) (w : World) : Event → World → Prop where
  | act (i : String) (a : Action) (h : Host) (cs : List Call) (hi : i ∈ cl.ids)
      (hact : (w.hosts i).act w.calls.length a = some (h, cs)) :
      Moved cl w (.act i a) (w.put i h (w.calls ++ cs))
  | deliver (c : ℕ) (cut : Option ℕ) (call : Call) (h : Host) (rpc : Rpc)
      (hc : w.calls[c]? = some call)
      (hdel : (w.hosts call.dst).deliver cut call.rpc = some (h, rpc)) :
      Moved cl w (.deliver c cut) (w.put call.dst h (w.calls.set c { call with rpc := rpc }))
  | receive (c : ℕ) (call : Call) (h : Host) (hc : w.calls[c]? = some call)
      (hw : call.waiting = true)
      (hrec : (w.hosts call.src).receive c call.dst call.rpc = some h) :
      Moved cl w (.receive c) (w.put call.src h (w.calls.set c { call with waiting := false }))
  | giveUp (c : ℕ) (call : Call) (hc : w.calls[c]? = some call) (hw : call.waiting = true) :
      Moved cl w (.giveUp c)
        (w.put call.src { w.hosts call.src with
            workers := (w.hosts call.src).workers.erase (.waiting c) }
          (w.calls.set c { call with waiting := false }))

theorem step_moved {cl : Cluster} {w w' : World} {e : Event} (h : step cl w e = some w') :
    Moved cl w e w' := by
  cases e with
  | act i a =>
      simp only [step] at h
      split at h
      · rename_i hi
        obtain ⟨r, hr, rfl⟩ := Option.map_eq_some_iff.mp h
        exact .act i a r.1 r.2 hi hr
      · cases h
  | deliver c cut =>
      simp only [step] at h
      split at h
      · cases h
      · rename_i call hc
        obtain ⟨r, hr, rfl⟩ := Option.map_eq_some_iff.mp h
        exact .deliver c cut call r.1 r.2 hc hr
  | receive c =>
      simp only [step] at h
      split at h
      · cases h
      · rename_i call hc
        split at h
        · rename_i hw
          obtain ⟨r, hr, rfl⟩ := Option.map_eq_some_iff.mp h
          exact .receive c call r hc hw hr
        · cases h
  | giveUp c =>
      simp only [step] at h
      split at h
      · cases h
      · rename_i call hc
        split at h
        · rename_i hw
          obtain rfl := Option.some.inj h
          exact .giveUp c call hc hw
        · cases h

namespace Host

theorem exists_pending {h : Host} (hp : h.pending ≠ none) :
    ∃ d, h.applyLoop = .compact d ∧ h.pending = some d := by
  unfold pending at hp ⊢
  cases ha : h.applyLoop with
  | compact d => exact ⟨d, rfl, rfl⟩
  | _ => simp [ha] at hp

theorem startReplication_cases {h h' : Host} {peer : String} {cut : Bool} {c : ℕ}
    {cs : List Call} (hs : h.startReplication peer cut c = some (h', cs)) :
    Worker.start peer ∈ h.workers ∧
    ((cut = false ∧ h' = { h with workers := h.workers.erase (.start peer) } ∧ cs = []) ∨
    (cut = false ∧ h.node.state = .leader ∧ cs = [] ∧
      h' = { h with workers := .snapshot peer :: h.workers.erase (.start peer) }) ∨
    (h.node.state = .leader ∧ ∃ x prevTerm log,
      (cut = false ∧ x = none ∨ cut = true ∧ ∃ d, h.applyLoop = .compact d ∧ x = some d) ∧
      h.node.log.term (prevIndex (h.node.nextIndex.get peer)) = .ok prevTerm ∧
      log = (match x with
        | none => h.node.log
        | some d => h.node.log.setSnapshot d.index d.term) ∧
      h' = { h with node := { h.node with log := log },
                    workers := .waiting c :: h.workers.erase (.start peer),
                    applyLoop := if cut then .idle else h.applyLoop } ∧
      cs = [⟨h.node.id, peer, .appendEntries (h.node.appendArgs peer prevTerm log) none,
        true⟩])) := by
  unfold startReplication at hs
  split at hs
  case isFalse => cases hs
  rename_i hguard
  refine ⟨hguard.1, ?_⟩
  rcases h.node.replicateTo_cases peer (if cut then h.pending else none) with
    ⟨-, hr⟩ | ⟨hl, hr⟩ | ⟨hl, prevTerm, log, ht, hlog, hr⟩
  · rw [hr] at hs
    cases cut
    · simp only [Bool.false_eq_true, ↓reduceIte, Option.some.injEq, Prod.mk.injEq] at hs
      exact Or.inl ⟨rfl, hs.1.symm, hs.2.symm⟩
    · simp at hs
  · rw [hr] at hs
    cases cut
    · simp only [Bool.false_eq_true, ↓reduceIte, Option.some.injEq, Prod.mk.injEq] at hs
      exact Or.inr (Or.inl ⟨rfl, hl, hs.2.symm, hs.1.symm⟩)
    · simp at hs
  · rw [hr] at hs
    simp only [Option.some.injEq, Prod.mk.injEq] at hs
    refine Or.inr (Or.inr ⟨hl, _, prevTerm, log, ?_, ht, hlog, hs.1.symm, hs.2.symm⟩)
    cases cut with
    | false => exact Or.inl ⟨rfl, rfl⟩
    | true =>
        obtain ⟨d, ha, hd⟩ := exists_pending (hguard.2 rfl)
        exact Or.inr ⟨rfl, d, ha, hd⟩

end Host

/-- The ways in which a host acts on its own: its new state and its calls. -/
inductive Acted (h : Host) (c : ℕ) : Action → Host → List Call → Prop where
  | stand (n : Node) (args : RequestVoteArgs) (hfree : h.free)
      (hn : h.node.maybeStartElection = some (n, args)) (hq : 1 < n.electionQuorum) :
      Acted h c .electionTimeout
        { h with node := n, elections := Function.update h.elections args.term (some ⟨1, false⟩) }
        (n.peers.map fun p => ⟨n.id, p, .requestVote args none, true⟩)
  | standAlone (n : Node) (args : RequestVoteArgs) (hfree : h.free)
      (hn : h.node.maybeStartElection = some (n, args)) (hq : n.electionQuorum ≤ 1) :
      Acted h c .electionTimeout
        { h with node := n, electing := some args.term,
                 elections := Function.update h.elections args.term (some ⟨1, false⟩) } []
  | winAlone (term : ℕ) (el : Election) (he : h.electing = some term)
      (hel : h.elections term = some el) :
      Acted h c .winAlone
        { h with node := (h.node.winAlone el term).1, electing := none,
                 elections := Function.update h.elections term
                   (some (h.node.winAlone el term).2) } []
  | heartbeat (hfree : h.free) (hl : h.node.state = .leader) :
      Acted h c .heartbeat { h with workers := h.node.peers.map .start } []
  | notLeader (peer : String) (hw : .start peer ∈ h.workers) :
      Acted h c (.replicateTo peer false)
        { h with workers := h.workers.erase (.start peer) } []
  | needSnapshot (peer : String) (hw : .start peer ∈ h.workers) (hl : h.node.state = .leader) :
      Acted h c (.replicateTo peer false)
        { h with workers := .snapshot peer :: h.workers.erase (.start peer) } []
  | append (peer : String) (prevTerm : ℕ) (hw : .start peer ∈ h.workers)
      (hl : h.node.state = .leader)
      (ht : h.node.log.term (prevIndex (h.node.nextIndex.get peer)) = .ok prevTerm) :
      Acted h c (.replicateTo peer false)
        { h with workers := .waiting c :: h.workers.erase (.start peer) }
        [⟨h.node.id, peer,
          .appendEntries (h.node.appendArgs peer prevTerm h.node.log) none, true⟩]
  | appendCut (peer : String) (prevTerm : ℕ) (d : Compaction) (hw : .start peer ∈ h.workers)
      (hl : h.node.state = .leader)
      (ht : h.node.log.term (prevIndex (h.node.nextIndex.get peer)) = .ok prevTerm)
      (ha : h.applyLoop = .compact d) :
      Acted h c (.replicateTo peer true)
        { h with node := { h.node with log := h.node.log.setSnapshot d.index d.term },
                 workers := .waiting c :: h.workers.erase (.start peer),
                 applyLoop := .idle }
        [⟨h.node.id, peer, .appendEntries (h.node.appendArgs peer prevTerm
          (h.node.log.setSnapshot d.index d.term)) none, true⟩]
  | snapshotNotLeader (peer : String) (hw : .snapshot peer ∈ h.workers) :
      Acted h c (.sendSnapshot peer false)
        { h with workers := h.workers.erase (.snapshot peer) } []
  | snapshot (peer : String) (hw : .snapshot peer ∈ h.workers) (hl : h.node.state = .leader) :
      Acted h c (.sendSnapshot peer false)
        { h with workers := .waiting c :: h.workers.erase (.snapshot peer) }
        [⟨h.node.id, peer, .installSnapshot (h.node.snapshotArgs h.node.log) none, true⟩]
  | snapshotCut (peer : String) (d : Compaction) (hw : .snapshot peer ∈ h.workers)
      (hl : h.node.state = .leader) (ha : h.applyLoop = .compact d) :
      Acted h c (.sendSnapshot peer true)
        { h with node := { h.node with log := h.node.log.setSnapshot d.index d.term },
                 workers := .waiting c :: h.workers.erase (.snapshot peer),
                 applyLoop := .idle }
        [⟨h.node.id, peer, .installSnapshot (h.node.snapshotArgs
          (h.node.log.setSnapshot d.index d.term)) none, true⟩]
  | propose (command : List UInt8) (n : Node) (hn : h.node.propose command = .ok n) :
      Acted h c (.propose command) { h with node := n } []
  | takeSnapshot (data : List UInt8) (term : ℕ)
      (ht : h.node.log.term h.node.lastApplied = .ok term) :
      Acted h c (.takeSnapshot data)
        { h with node := { h.node with log := h.node.log.setSnapshot h.node.lastApplied term } } []
  | applyNothing (ha : h.applyLoop = .idle) (hle : h.node.commitIndex ≤ h.node.lastApplied) :
      Acted h c .applyRead { h with node := { h.node with applySig := false } } []
  | applyRead (ha : h.applyLoop = .idle) (hlt : h.node.lastApplied < h.node.commitIndex) :
      Acted h c .applyRead
        { h with node := { h.node with applySig := false },
                 applyLoop := .read h.node.lastApplied h.node.commitIndex } []
  | applySlice (applied commit : ℕ) (ha : h.applyLoop = .read applied commit) :
      Acted h c .applySlice
        { h with applyLoop := .batch (h.node.log.slice (applied + 1) (commit + 1)) } []
  | applySend (e : Entry) (rest : List Entry) (ha : h.applyLoop = .batch (e :: rest)) :
      Acted h c .applySend
        { h with applyLoop := .sent e rest,
                 delivered := if h.node.commitCh then h.delivered ++ [e] else h.delivered } []
  | applyMark (e : Entry) (rest : List Entry) (ha : h.applyLoop = .sent e rest) :
      Acted h c .applyMark
        { h with node := { h.node with lastApplied := e.index }, applyLoop := .batch rest } []
  | applyCheck (ha : h.applyLoop = .batch []) :
      Acted h c .applyCheck
        { h with applyLoop :=
            if h.node.log.len ≥ compactThreshold then .oversized else .idle } []
  | applyUnavailable (ha : h.applyLoop = .oversized) :
      Acted h c .applyMeasure { h with applyLoop := .idle } []
  | applyMeasure (term : ℕ) (ha : h.applyLoop = .oversized)
      (ht : h.node.log.term h.node.lastApplied = .ok term) :
      Acted h c .applyMeasure
        { h with applyLoop := .compact ⟨h.node.lastApplied, term⟩ } []
  | applyCompact (d : Compaction) (ha : h.applyLoop = .compact d) :
      Acted h c .applyCompact
        { h with node := { h.node with log := h.node.log.setSnapshot d.index d.term },
                 applyLoop := .idle } []

namespace Host

theorem startElection_acted {h h' : Host} {c : ℕ} {cs : List Call} (hfree : h.free)
    (hs : h.startElection = some (h', cs)) : Acted h c .electionTimeout h' cs := by
  unfold startElection at hs
  split at hs
  · cases hs
  · rename_i n args hn
    simp only at hs
    split at hs
    · rename_i hq
      simp only [Option.some.injEq, Prod.mk.injEq] at hs
      obtain ⟨rfl, rfl⟩ := hs
      exact .standAlone n args hfree hn hq
    · rename_i hq
      simp only [Option.some.injEq, Prod.mk.injEq] at hs
      obtain ⟨rfl, rfl⟩ := hs
      exact .stand n args hfree hn (Nat.lt_of_not_le hq)

theorem finishElection_acted {h h' : Host} {c : ℕ} (hs : h.finishElection = some h') :
    Acted h c .winAlone h' [] := by
  unfold finishElection at hs
  split at hs
  · cases hs
  · rename_i term he
    split at hs
    · cases hs
    · rename_i el hel
      obtain rfl := Option.some.inj hs
      exact .winAlone term el he hel

theorem startReplication_acted {h h' : Host} {c : ℕ} {peer : String} {cut : Bool}
    {cs : List Call} (hs : h.startReplication peer cut c = some (h', cs)) :
    Acted h c (.replicateTo peer cut) h' cs := by
  obtain ⟨hw, ⟨rfl, rfl, rfl⟩ | ⟨rfl, hl, rfl, rfl⟩ |
    ⟨hl, x, prevTerm, log, hx, ht, rfl, rfl, rfl⟩⟩ := startReplication_cases hs
  · exact .notLeader peer hw
  · exact .needSnapshot peer hw hl
  · rcases hx with ⟨rfl, rfl⟩ | ⟨rfl, d, ha, rfl⟩
    · exact .append peer prevTerm hw hl ht
    · exact .appendCut peer prevTerm d hw hl ht ha

theorem startSnapshot_acted {h h' : Host} {c : ℕ} {peer : String} {cut : Bool}
    {cs : List Call} (hs : h.startSnapshot peer cut c = some (h', cs)) :
    Acted h c (.sendSnapshot peer cut) h' cs := by
  unfold startSnapshot Node.sendSnapshot at hs
  split at hs
  case isFalse => cases hs
  rename_i hguard
  by_cases hl : h.node.state = .leader
  · rw [if_neg (not_not.mpr hl)] at hs
    obtain ⟨rfl, rfl⟩ := Prod.mk.inj (Option.some.inj hs)
    cases cut with
    | false => exact .snapshot peer hguard.1 hl
    | true =>
        obtain ⟨d, ha, hd⟩ := exists_pending (hguard.2 rfl)
        simp only [hd, if_true]
        exact .snapshotCut peer d hguard.1 hl ha
  · rw [if_pos hl] at hs
    cases cut with
    | false =>
        obtain ⟨rfl, rfl⟩ := Prod.mk.inj (Option.some.inj hs)
        exact .snapshotNotLeader peer hguard.1
    | true => cases hs

theorem applyRead_acted {h h' : Host} {c : ℕ} (hs : h.applyRead = some h') :
    Acted h c .applyRead h' [] := by
  unfold applyRead at hs
  split at hs
  · rename_i hguard
    simp only at hs
    split at hs
    · rename_i hle
      obtain rfl := Option.some.inj hs
      exact .applyNothing hguard.1 hle
    · rename_i hle
      obtain rfl := Option.some.inj hs
      exact .applyRead hguard.1 (Nat.lt_of_not_le hle)
  · cases hs

theorem applyMeasure_acted {h h' : Host} {c : ℕ} (hs : h.applyMeasure = some h') :
    Acted h c .applyMeasure h' [] := by
  unfold applyMeasure at hs
  split at hs
  · rename_i ha
    split at hs
    · obtain rfl := Option.some.inj hs
      exact .applyUnavailable ha
    · rename_i term ht
      obtain rfl := Option.some.inj hs
      exact .applyMeasure term ha ht
  · cases hs

theorem act_acted {h h' : Host} {c : ℕ} {a : Action} {cs : List Call}
    (hact : h.act c a = some (h', cs)) : Acted h c a h' cs := by
  cases a with
  | electionTimeout =>
      simp only [act] at hact
      split at hact
      · rename_i hfree
        exact startElection_acted hfree hact
      · cases hact
  | winAlone =>
      obtain ⟨h₁, hs, heq⟩ := Option.map_eq_some_iff.mp hact
      obtain ⟨rfl, rfl⟩ := Prod.mk.inj heq
      exact finishElection_acted hs
  | heartbeat =>
      simp only [act] at hact
      split at hact
      · rename_i hguard
        obtain ⟨rfl, rfl⟩ := Prod.mk.inj (Option.some.inj hact)
        exact .heartbeat hguard.1 hguard.2
      · cases hact
  | replicateTo peer cut => exact startReplication_acted hact
  | sendSnapshot peer cut => exact startSnapshot_acted hact
  | propose command =>
      simp only [act] at hact
      split at hact
      · cases hact
      · rename_i n hn
        obtain ⟨rfl, rfl⟩ := Prod.mk.inj (Option.some.inj hact)
        exact .propose command n hn
  | takeSnapshot data =>
      simp only [act, Node.takeSnapshot] at hact
      cases ht : h.node.log.term h.node.lastApplied with
      | error e => simp [ht] at hact
      | ok term =>
          simp only [ht, Option.some.injEq, Prod.mk.injEq] at hact
          obtain ⟨rfl, rfl⟩ := hact
          exact .takeSnapshot data term ht
  | applyRead =>
      obtain ⟨h₁, hs, heq⟩ := Option.map_eq_some_iff.mp hact
      obtain ⟨rfl, rfl⟩ := Prod.mk.inj heq
      exact applyRead_acted hs
  | applySlice =>
      obtain ⟨h₁, hs, heq⟩ := Option.map_eq_some_iff.mp hact
      obtain ⟨rfl, rfl⟩ := Prod.mk.inj heq
      unfold applySlice at hs
      split at hs
      · rename_i applied commit ha
        obtain rfl := Option.some.inj hs
        exact .applySlice applied commit ha
      · cases hs
  | applySend =>
      obtain ⟨h₁, hs, heq⟩ := Option.map_eq_some_iff.mp hact
      obtain ⟨rfl, rfl⟩ := Prod.mk.inj heq
      unfold applySend at hs
      split at hs
      · rename_i e rest ha
        obtain rfl := Option.some.inj hs
        exact .applySend e rest ha
      · cases hs
  | applyMark =>
      obtain ⟨h₁, hs, heq⟩ := Option.map_eq_some_iff.mp hact
      obtain ⟨rfl, rfl⟩ := Prod.mk.inj heq
      unfold applyMark at hs
      split at hs
      · rename_i e rest ha
        obtain rfl := Option.some.inj hs
        exact .applyMark e rest ha
      · cases hs
  | applyCheck =>
      obtain ⟨h₁, hs, heq⟩ := Option.map_eq_some_iff.mp hact
      obtain ⟨rfl, rfl⟩ := Prod.mk.inj heq
      unfold applyCheck at hs
      split at hs
      · rename_i ha
        obtain rfl := Option.some.inj hs
        exact .applyCheck ha
      · cases hs
  | applyMeasure =>
      obtain ⟨h₁, hs, heq⟩ := Option.map_eq_some_iff.mp hact
      obtain ⟨rfl, rfl⟩ := Prod.mk.inj heq
      exact applyMeasure_acted hs
  | applyCompact =>
      obtain ⟨h₁, hs, heq⟩ := Option.map_eq_some_iff.mp hact
      obtain ⟨rfl, rfl⟩ := Prod.mk.inj heq
      unfold applyCompact at hs
      split at hs
      · rename_i d ha
        obtain rfl := Option.some.inj hs
        exact .applyCompact d ha
      · cases hs

end Host

/-- The ways in which a host handles a request. -/
inductive Delivered (h : Host) : Option ℕ → Rpc → Host → Rpc → Prop where
  | vote (args : RequestVoteArgs) :
      Delivered h none (.requestVote args none) { h with node := (h.node.handleRequestVote args).1 }
        (.requestVote args (some (h.node.handleRequestVote args).2))
  | snapshot (args : InstallSnapshotArgs) :
      Delivered h none (.installSnapshot args none)
        { h with node := (h.node.handleInstallSnapshot args).1 }
        (.installSnapshot args (some (h.node.handleInstallSnapshot args).2))
  | append (args : AppendEntriesArgs) :
      Delivered h none (.appendEntries args none)
        { h with node := (h.node.handleAppendEntries args none).1 }
        (.appendEntries args (some (h.node.handleAppendEntries args none).2))
  | appendCut (args : AppendEntriesArgs) (k : ℕ) (d : Compaction) (ha : h.applyLoop = .compact d)
      (hs : (h.node.handleAppendEntries args (some { d with before := k })).2.success = true) :
      Delivered h (some k) (.appendEntries args none)
        { h with node := (h.node.handleAppendEntries args (some { d with before := k })).1,
                 applyLoop := .idle }
        (.appendEntries args
          (some (h.node.handleAppendEntries args (some { d with before := k })).2))

theorem Host.deliver_delivered {h h' : Host} {cut : Option ℕ} {rpc rpc' : Rpc}
    (hd : h.deliver cut rpc = some (h', rpc')) : Delivered h cut rpc h' rpc' := by
  unfold deliver at hd
  split at hd
  · split at hd
    · cases hd
    · obtain ⟨rfl, rfl⟩ := Prod.mk.inj (Option.some.inj hd)
      exact .vote _
  · split at hd
    · cases hd
    · obtain ⟨rfl, rfl⟩ := Prod.mk.inj (Option.some.inj hd)
      exact .snapshot _
  · split at hd
    · obtain ⟨rfl, rfl⟩ := Prod.mk.inj (Option.some.inj hd)
      exact .append _
    · rename_i k
      unfold pending at hd
      cases ha : h.applyLoop with
      | compact d =>
          simp only [ha] at hd
          split at hd
          · rename_i hs
            obtain ⟨rfl, rfl⟩ := Prod.mk.inj (Option.some.inj hd)
            exact .appendCut _ k d ha hs
          · cases hd
      | _ => simp [ha] at hd
  · cases hd

/-- The ways in which a host handles a reply. -/
inductive Received (h : Host) (c : ℕ) (dst : String) : Rpc → Host → Prop where
  | vote (args : RequestVoteArgs) (reply : RequestVoteReply) (el : Election)
      (hel : h.elections args.term = some el) :
      Received h c dst (.requestVote args (some reply))
        { h with node := (h.node.countVote el args.term reply).1,
                 elections := Function.update h.elections args.term
                   (some (h.node.countVote el args.term reply).2) }
  | append (args : AppendEntriesArgs) (reply : AppendEntriesReply) :
      Received h c dst (.appendEntries args (some reply))
        { h with node := h.node.handleAppendReply dst args reply,
                 workers := h.workers.erase (.waiting c) }
  | snapshot (args : InstallSnapshotArgs) (reply : InstallSnapshotReply) :
      Received h c dst (.installSnapshot args (some reply))
        { h with node := h.node.handleSnapshotReply dst args reply,
                 workers := h.workers.erase (.waiting c) }

theorem Host.receive_received {h h' : Host} {c : ℕ} {dst : String} {rpc : Rpc}
    (hr : h.receive c dst rpc = some h') : Received h c dst rpc h' := by
  unfold receive at hr
  split at hr
  · split at hr
    · cases hr
    · rename_i el hel
      obtain rfl := Option.some.inj hr
      exact .vote _ _ el hel
  · obtain rfl := Option.some.inj hr
    exact .append _ _
  · obtain rfl := Option.some.inj hr
    exact .snapshot _ _
  · cases hr

end Raft

end VaultFS
