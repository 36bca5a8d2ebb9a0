import VaultFS.Raft.Cluster.Leadership

/-!
# The leader that a node reports

`LeaderID` and `Term` report two fields of a node. Both are set together when a node stands,
is elected, or handles a request of a leader. `becomeFollower` sets the term alone: a node
that learns of a later term from a candidate or from a reply goes on to report the leader it
had before, and a leader that steps down in this way reports itself.
-/

namespace VaultFS

namespace Raft

open Transition

instance (w : World) (i : String) (U : ℕ) : Decidable (w.Led i U) :=
  decidable_of_iff ((w.elections i U).any (·.once) = true) (by simp [World.Led, Option.any_eq_true])

/-- Whoever a node reports as the leader became leader in the term that the node reports, and
a node that reports itself leads. -/
def World.ReportsLeader (cl : Cluster) (w : World) : Prop :=
  ∀ i ∈ cl.ids, ((w.hosts i).node.leaderID ≠ "" →
      w.Led (w.hosts i).node.leaderID (w.hosts i).node.currentTerm) ∧
    ((w.hosts i).node.leaderID = i → (w.hosts i).node.state = .leader)

/-- The node and the term of which it learns by a request for its vote or by a reply. -/
def World.learned (w : World) : Event → Option (String × ℕ)
  | .deliver c _ =>
      w.calls[c]?.bind fun call => call.rpc.voteRequest.map fun args => (call.dst, args.term)
  | .receive c => w.calls[c]?.bind fun call => call.rpc.replyTerm.map fun t => (call.src, t)
  | _ => none

/-- A node that learns of a later term reports no leader, or one that has become leader of the
later term. -/
def learnsUnreported (w : World) (e : Event) : Prop :=
  ∀ r ∈ w.learned e, (w.hosts r.1).node.currentTerm < r.2 →
    (w.hosts r.1).node.leaderID = "" ∨ w.Led (w.hosts r.1).node.leaderID r.2

instance (w : World) (e : Event) : Decidable (learnsUnreported w e) :=
  inferInstanceAs (Decidable (∀ r ∈ w.learned e, _))

/-- What becomes of the two reported fields of a node. `told` are the leaders of which the node
can be told, and `learned` is the term that it may learn. -/
inductive Host.Reports (h h' : Host) (told : String → ℕ → Prop) (learned : Option ℕ) : Prop where
  | kept (hid : h'.node.leaderID = h.node.leaderID)
      (hterm : h'.node.currentTerm = h.node.currentTerm)
      (hle : ∀ t ∈ learned, t ≤ h.node.currentTerm)
  | cleared (hid : h'.node.leaderID = "") (hnone : learned = none)
  | told (htold : told h'.node.leaderID h'.node.currentTerm) (hnone : learned = none)
  | won (hid : h'.node.leaderID = h.node.id) (hstate : h'.node.state = .leader)
      (hle : ∀ t ∈ learned, t ≤ h.node.currentTerm)
  | learned (t : ℕ) (ht : learned = some t) (hlt : h.node.currentTerm < t)
      (hid : h'.node.leaderID = h.node.leaderID) (hterm : h'.node.currentTerm = t)
      (hstate : h'.node.state = .follower)

namespace Host.Reports

variable {h h' : Host} {told : String → ℕ → Prop}

theorem of_node (hnode : h'.node = h.node) : h.Reports h' told none :=
  .kept (by rw [hnode]) (by rw [hnode]) nofun

theorem onceBecomeLeader (el : Election) {learned : Option ℕ} (hcand : h.node.state = .candidate)
    (hnode : h'.node = (h.node.onceBecomeLeader el).1)
    (hle : ∀ t ∈ learned, t ≤ h.node.currentTerm) : h.Reports h' told learned := by
  unfold Node.onceBecomeLeader at hnode
  simp only at hnode
  split at hnode
  · exact .kept (by rw [hnode]) (by rw [hnode]) hle
  · refine .won ?_ ?_ hle
    · rw [hnode, Node.becomeLeader, if_neg (by simp [hcand])]
    · rw [hnode]
      exact congrArg Role.state (h.node.becomeLeader_role hcand)

theorem advance (m : Node) (hid : m.leaderID = h.node.leaderID)
    (hterm : m.currentTerm = h.node.currentTerm) (hm : h'.node = m.advanceCommitIndex)
    {learned : Option ℕ} (hle : ∀ t ∈ learned, t ≤ h.node.currentTerm) :
    h.Reports h' told learned := by
  rcases m.advanceCommitIndex_cases with heq | ⟨c, heq, -⟩
  · exact .kept (by rw [hm, heq, hid]) (by rw [hm, heq, hterm]) hle
  · exact .kept (by rw [hm, heq, hid]) (by rw [hm, heq, hterm]) hle

theorem acted {c : ℕ} {a : Action} {cs : List Call} (ha : Acted h c a h' cs) :
    h.Reports h' told none := by
  cases ha with
  | stand n args hfree hn =>
      obtain ⟨-, rfl, -⟩ := Node.maybeStartElection_some hn
      exact .cleared rfl rfl
  | standAlone n args hfree hn =>
      obtain ⟨-, rfl, -⟩ := Node.maybeStartElection_some hn
      exact .cleared rfl rfl
  | winAlone term el =>
      by_cases hc : h.node.state = .candidate ∧ h.node.currentTerm = term
      · exact onceBecomeLeader el hc.1 (by simp only [Node.winAlone, if_pos hc]) nofun
      · exact of_node (by simp only [Node.winAlone, if_neg hc])
  | propose command n hn =>
      obtain ⟨-, rfl⟩ := Node.propose_ok hn
      exact advance _ (by rfl) (by rfl) rfl nofun
  | appendCut | snapshotCut | takeSnapshot | applyNothing | applyRead | applyMark | applyCompact =>
      exact .kept rfl rfl nofun
  | _ => exact of_node rfl

/-- A node learns of the term of a vote request. -/
theorem observe {t : ℕ} (hid : h'.node.leaderID = (h.node.observe t).leaderID)
    (hterm : h'.node.currentTerm = (h.node.observe t).currentTerm)
    (hstate : h'.node.state = (h.node.observe t).state) : h.Reports h' told (some t) := by
  unfold Node.observe at hid hterm hstate
  split at hid
  · rename_i hlt
    rw [if_pos hlt] at hterm hstate
    exact .learned t rfl hlt hid hterm hstate
  · rename_i hnot
    rw [if_neg hnot] at hterm
    exact .kept hid hterm (by simpa using hnot)

theorem delivered {cut : Option ℕ} {rpc rpc' : Rpc} (hd : Delivered h cut rpc h' rpc')
    (htold : rpc.isVote = false → told rpc.sender rpc.term) :
    h.Reports h' told (rpc.voteRequest.map (·.term)) := by
  have happend : ∀ {args : AppendEntriesArgs} (x : Option Intrusion),
      told args.leaderID args.term → h'.node = (h.node.handleAppendEntries args x).1 →
      h.Reports h' told none := by
    intro args x hargs hnode
    have hid : (h.node.acceptLeader args.term args.leaderID).leaderID = args.leaderID := rfl
    have hfollow : ∀ (m : Node) (c : ℕ), (m.followCommit c).leaderID = m.leaderID := by
      intro m c
      unfold Node.followCommit
      split <;> rfl
    by_cases hle : h.node.currentTerm ≤ args.term
    · refine .told ?_ rfl
      rw [hnode, (Node.handleAppendEntries_term hle x).1]
      rcases h.node.handleAppendEntries_cases args x with ⟨hlt, -⟩ | ⟨-, t, -, hr⟩ | ⟨-, -, hr⟩
      · omega
      · rw [hr, hid]
        exact hargs
      · rw [hr, hfollow]
        exact hargs
    · exact of_node (by rw [hnode, Node.handleAppendEntries, if_pos (by omega)])
  cases hd with
  | vote args =>
      rcases h.node.handleRequestVote_cases args with ⟨hlt, hr⟩ | ⟨-, hr⟩ | ⟨-, -, -, hr⟩
      · refine .kept (by simp only [hr]) (by simp only [hr]) ?_
        intro t ht
        obtain rfl := Option.some.inj ht
        exact hlt.le
      · exact observe (by simp only [hr]) (by simp only [hr]) (by simp only [hr])
      · exact observe (by simp only [hr]) (by simp only [hr]) (by simp only [hr])
  | snapshot args =>
      rcases h.node.handleInstallSnapshot_cases args with ⟨-, hr⟩ | ⟨hle, -, hr⟩ | ⟨hle, -, hr⟩
      · exact of_node (by simp only [hr])
      · refine .told ?_ rfl
        simp only [hr, Node.observe_currentTerm hle]
        exact htold rfl
      · refine .told ?_ rfl
        simp only [hr, Node.observe_currentTerm hle]
        exact htold rfl
  | append args => exact happend none (htold rfl) rfl
  | appendCut args k d => exact happend _ (htold rfl) rfl

theorem received {c : ℕ} {dst : String} {rpc : Rpc} (hr : Received h c dst rpc h') :
    h.Reports h' told rpc.replyTerm := by
  -- a reply of a later term ends the handling at once
  have hlater : ∀ {t : ℕ}, rpc.replyTerm = some t →
      (h.node.currentTerm < t → h'.node = h.node.becomeFollower t) →
      (t ≤ h.node.currentTerm → (∀ t' ∈ rpc.replyTerm, t' ≤ h.node.currentTerm) →
        h.Reports h' told rpc.replyTerm) → h.Reports h' told rpc.replyTerm := by
    intro t ht hfollower hrest
    by_cases hlt : h.node.currentTerm < t
    · have hnode := hfollower hlt
      exact .learned t ht hlt (by rw [hnode]; rfl) (by rw [hnode]; rfl) (by rw [hnode]; rfl)
    · refine hrest (Nat.le_of_not_lt hlt) fun t' ht' => ?_
      obtain rfl := Option.some.inj (ht.symm.trans ht')
      exact Nat.le_of_not_lt hlt
  cases hr with
  | vote args reply el =>
      refine hlater (t := reply.term) rfl ?_ fun hterm hle => ?_
      · exact fun hlt => by simp only [Node.countVote, if_pos hlt]
      rcases h.node.countVote_cases el args.term reply with
        ⟨hlt, -⟩ | heq | ⟨-, -, -, heq⟩ | ⟨-, hcand, -, -, heq⟩
      · omega
      · exact .kept (by simp only [heq]) (by simp only [heq]) hle
      · exact .kept (by simp only [heq]) (by simp only [heq]) hle
      · exact onceBecomeLeader { el with votes := el.votes + 1 } hcand (by simp only [heq]) hle
  | append args reply =>
      refine hlater (t := reply.term) rfl Node.handleAppendReply_later fun hterm hle => ?_
      rcases h.node.handleAppendReply_cases dst args reply with
        ⟨hlt, -⟩ | heq | ⟨-, -, -, m, x, heq, -⟩ | ⟨-, -, -, x, heq, -⟩
      · omega
      · exact .kept (by simp only [heq]) (by simp only [heq]) hle
      · exact advance { h.node with matchIndex := m, nextIndex := x } rfl rfl heq hle
      · exact .kept (by simp only [heq]) (by simp only [heq]) hle
  | snapshot args reply =>
      refine hlater (t := reply.term) rfl Node.handleSnapshotReply_later fun hterm hle => ?_
      rcases h.node.handleSnapshotReply_cases dst args reply with ⟨hlt, -⟩ | heq | ⟨-, m, heq, -⟩
      · omega
      · exact .kept (by simp only [heq]) (by simp only [heq]) hle
      · exact .kept (by simp only [heq]) (by simp only [heq]) hle

end Host.Reports

section Step

variable {cl : Cluster} {w w' : World} {e : Event}

/-- Where the reported fields of a node that moves come from. -/
theorem Moved.reports (hcfg : Configured cl w) (hm : Moved cl w e w') :
    ∃ i h' calls, i ∈ cl.ids ∧ w' = w.put i h' calls ∧ ∃ learned,
      (w.hosts i).Reports h' w.Announced learned ∧ w.learned e = learned.map (i, ·) := by
  cases hm with
  | act i a h' cs hi hact => exact ⟨i, h', _, hi, rfl, none, .acted (Host.act_acted hact), rfl⟩
  | deliver c cut call h' rpc hc hdel =>
      have hmem := List.mem_of_getElem? hc
      refine ⟨call.dst, h', _, (hcfg.dst hmem).1, rfl, _,
        .delivered (Host.deliver_delivered hdel) ?_, ?_⟩
      · intro hvote
        exact ⟨call, hmem, (hcfg.call call hmem).2.2.symm, rfl, hvote⟩
      · simp only [World.learned, hc, Option.bind_some, Option.map_map]
        rfl
  | receive c call h' hc hwait hrec =>
      refine ⟨call.src, h', _, (hcfg.call call (List.mem_of_getElem? hc)).1, rfl, _,
        .received (Host.receive_received hrec), ?_⟩
      simp [World.learned, hc]
  | giveUp c call hc hwait =>
      exact ⟨call.src, _, _, (hcfg.call call (List.mem_of_getElem? hc)).1, rfl, none,
        .of_node rfl, rfl⟩

/-- A node that moves to follower makes nobody a leader. -/
theorem Campaign.led_of_follower (hc : Campaign cl w e w') {i : String} {h' : Host}
    {calls : List Call} (hw' : w' = w.put i h' calls) (hstate : h'.node.state = .follower)
    {j : String} {U : ℕ} (hl : w'.Led j U) : w.Led j U := by
  rcases Voting.led_cases hc hl with hold | ⟨hcand, -, hlead, -⟩
  · exact hold
  · subst hw'
    rw [World.put_role] at hlead
    by_cases hj : j = i
    · subst hj
      rw [Function.update_self] at hlead
      have hfollow : h'.node.role.state = .follower := hstate
      rw [hfollow] at hlead
      cases hlead
    · rw [Function.update_of_ne hj, hcand] at hlead
      cases hlead

/-- A node that reports a leader of its term and itself among them leads. -/
theorem Voting.reportsLeader (hv : Voting cl w)
    (h : ∀ i ∈ cl.ids, (w.hosts i).node.leaderID ≠ "" →
      w.Led (w.hosts i).node.leaderID (w.hosts i).node.currentTerm) : w.ReportsLeader cl := by
  intro i hi
  refine ⟨h i hi, ?_⟩
  intro heq
  have hled := h i hi (by rw [heq]; exact cl.ne_empty i hi)
  rw [heq] at hled
  exact hv.led_leader i _ hled rfl

/-- A step keeps the reports right exactly when no node learns of a later term while it
reports a leader that did not become leader of that term. -/
theorem World.ReportsLeader.step_iff (h : w.ReportsLeader cl) (hcfg : Configured cl w)
    (hv : Voting cl w) (hs : step cl w e = some w') :
    w'.ReportsLeader cl ↔ learnsUnreported w e := by
  have hv' := hv.step hcfg hs
  have hc := step_campaign hcfg hv.ballots_nodup hs
  have hmono : ∀ {j : String} {U : ℕ}, w.Led j U → w'.Led j U := fun hl => hv.led_mono hc hl
  obtain ⟨i, h', calls, hi, hw', learned, hrep, hlearned⟩ := (step_moved hs).reports hcfg
  -- only the node that moves can report something else than before
  have hiff : (h'.node.leaderID ≠ "" → w'.Led h'.node.leaderID h'.node.currentTerm) →
      w'.ReportsLeader cl := by
    intro hreport
    refine hv'.reportsLeader fun j hj => ?_
    subst hw'
    by_cases hji : j = i
    · subst hji
      rwa [World.put_hosts_self]
    · rw [World.put_hosts_ne hji]
      exact fun hne => hmono ((h j hj).1 hne)
  have hquiet : (∀ t ∈ learned, t ≤ (w.hosts i).node.currentTerm) → learnsUnreported w e := by
    intro hle r hr hlt
    rw [hlearned] at hr
    obtain ⟨t, ht, rfl⟩ := Option.map_eq_some_iff.mp hr
    exact absurd (hle t ht) (Nat.not_le.mpr hlt)
  cases hrep with
  | kept hid hterm hle =>
      refine iff_of_true (hiff fun hne => ?_) (hquiet hle)
      rw [hid, hterm]
      exact hmono ((h i hi).1 (hid ▸ hne))
  | cleared hid hnone =>
      exact iff_of_true (hiff fun hne => absurd hid hne) (hquiet (by simp [hnone]))
  | told htold hnone =>
      exact iff_of_true (hiff fun _ => hmono (hv.announced_led _ _ htold))
        (hquiet (by simp [hnone]))
  | won hid hstate hle =>
      refine iff_of_true (hiff fun _ => ?_) (hquiet hle)
      have hled := hv'.leader_led i
        (by rw [hw', World.put_role, Function.update_self]; exact hstate)
      rw [hw', World.put_role, Function.update_self, ← hw'] at hled
      rw [hid, hcfg.id i]
      exact hled
  | learned t ht hlt hid hterm hstate =>
      constructor
      · intro hreports r hr hltr
        rw [hlearned, ht] at hr
        obtain rfl := Option.some.inj hr
        by_cases hempty : (w.hosts i).node.leaderID = ""
        · exact Or.inl hempty
        · have hnew := (hreports i hi).1
          rw [hw', World.put_hosts_self, ← hw', hid, hterm] at hnew
          exact Or.inr (hc.led_of_follower hw' hstate (hnew hempty))
      · intro hok
        refine hiff fun hne => ?_
        rw [hid] at hne
        rw [hid, hterm]
        exact hmono ((hok (i, t) (by rw [hlearned, ht]; rfl) hlt).resolve_left hne)

end Step

/-- **The reported leader.** In every run in which no node learns of a later term while it
reports an earlier leader, whoever is reported became leader in the reported term; and the
next step keeps it so exactly when it meets the condition. -/
theorem reports_leader_iff {cl : Cluster} {w : World} (hw : Reach cl learnsUnreported w) :
    w.ReportsLeader cl ∧ ∀ e w', step cl w e = some w' →
      (w'.ReportsLeader cl ↔ learnsUnreported w e) := by
  have hinit : (World.init cl).ReportsLeader cl := by
    refine (Voting.init cl).reportsLeader fun i _ hne => ?_
    exact absurd rfl hne
  have hall := Path.invariant
    (I := fun w => Configured cl w ∧ Voting cl w ∧ w.ReportsLeader cl) hw
    ⟨Configured.init cl, Voting.init cl, hinit⟩ (by
      rintro t e t' ⟨hcfg, hv, hr⟩ hok hs
      exact ⟨hcfg.step hs, hv.step hcfg hs, (hr.step_iff hcfg hv hs).mpr hok⟩)
  exact ⟨hall.2.2, fun e w' hs => hall.2.2.step_iff hall.1 hall.2.1 hs⟩

/-- Node `b` is told of its leader by a request to append entries. -/
theorem reports_leader_iff_trio : ∃ w : World, (w.hosts "b").node.leaderID = "a" ∧
    (w.hosts "b").node.currentTerm = 1 ∧ w.Led "a" 1 := by
  have hw : Runs trio learnsUnreported (electA ++
      [.act "a" .heartbeat, .act "a" (.replicateTo "b" false), .deliver 2 none]) := by decide
  exact ⟨run trio learnsUnreported _, by decide, by decide,
    ((reports_leader_iff (Reach.run hw)).1 "b" (by decide)).1 (by decide)⟩

/-- The leader `a` of term 1 gets a request of `c` for its vote in term 2. It becomes a
follower of term 2 and reports itself as the leader. -/
theorem reports_former_leader : ∃ w : World, Reach trio anyStep w ∧
    (w.hosts "a").node.leaderID = "a" ∧ (w.hosts "a").node.currentTerm = 2 ∧
    (w.hosts "a").node.state = .follower ∧ ¬ w.Led "a" 2 ∧ ¬ w.ReportsLeader trio := by
  have hw : Runs trio anyStep (electA ++ [.act "c" .electionTimeout, .act "c" .electionTimeout,
      .deliver 4 none]) := by decide
  have hled : ¬ (run trio anyStep (electA ++ [.act "c" .electionTimeout, .act "c" .electionTimeout,
      .deliver 4 none])).Led "a" 2 := by decide
  refine ⟨_, Reach.run hw, by decide, by decide, by decide, hled, ?_⟩
  intro hreports
  exact hled ((hreports "a" (by decide)).1 (by decide))

end Raft

end VaultFS
