import VaultFS.Raft.Cluster.CommitSoundness

/-!
# A round of replication

A leader runs `replicateTo` for one peer, the request is delivered and handled, and
the reply is delivered and handled. `round` makes these steps in a world with its
record of full logs. A round is an exchange of entries or of a snapshot.
-/

namespace VaultFS

namespace Raft

open ReplicatedLog Transition

/-- The node `l` calls `replicateTo` for the peer `p`. -/
def World.spawn (w : World) (l p : String) : World :=
  w.put l { w.hosts l with workers := .start p :: (w.hosts l).workers } w.calls

/-- What the call of `replicateTo` and its peer do in a round. -/
def roundEvents (w : World) (l p : String) : List Event :=
  match ((w.hosts l).node.replicateTo p none).2 with
  | .done => [.act l (.replicateTo p false)]
  | .snapshot =>
      [.act l (.replicateTo p false), .act l (.sendSnapshot p false),
        .deliver w.calls.length none, .receive w.calls.length]
  | .send _ =>
      [.act l (.replicateTo p false), .deliver w.calls.length none, .receive w.calls.length]

/-- The request that `sendSnapshot` sends when no `SetSnapshot` falls into it. -/
def Node.snapshot (n : Node) : InstallSnapshotArgs := n.snapshotArgs n.log

theorem Node.sendSnapshot_leader {n : Node} (hl : n.state = .leader) :
    n.sendSnapshot none = (n, some n.snapshot) := by
  rw [Node.sendSnapshot, if_neg (not_not.mpr hl)]
  rfl

section Round

variable (cl : Cluster) (l p : String)

/-- The node `l` makes one round with the peer `p`. -/
def round (s : World × Shadow) : Option (World × Shadow) :=
  exec (tracedStep cl) (s.1.spawn l p, s.2) (roundEvents s.1 l p)

/-- The node `l` makes round after round with the peer `p`, and nothing else happens. -/
def rounds : ℕ → World × Shadow → Option (World × Shadow)
  | 0, s => some s
  | k + 1, s => (round cl l p s).bind (rounds k)

end Round

/-- A world with the record of its full logs, as in a run that meets the condition. -/
structure Recorded (cl : Cluster) (w : World) (sh : Shadow) : Prop where
  configured : Configured cl w
  voting : Voting cl w
  sim : ∃ a, Sim cl w sh a

variable {cl : Cluster} {w w' : World} {sh : Shadow} {l p : String}

theorem Traced.recorded (h : Traced cl aboveSnapshot w sh) : Recorded cl w sh :=
  ⟨h.simulated.1, h.simulated.2.1, h.simulated.2.2⟩

section Steps

variable {c : ℕ} {rpc rpc' : Rpc} {hl' hp' : Host}

variable (cl) in
/-- A call is handled, and then its reply is. -/
theorem step_call (hc : w.calls[c]? = some ⟨l, p, rpc, true⟩) (hne : l ≠ p)
    (hd : (w.hosts p).deliver none rpc = some (hp', rpc'))
    (hr : (w.hosts l).receive c p rpc' = some hl') :
    ∃ w₁ w₂, step cl w (.deliver c none) = some w₁ ∧ step cl w₁ (.receive c) = some w₂ ∧
      w₁.hosts l = w.hosts l ∧ w₁.hosts p = hp' ∧ w₂.hosts l = hl' ∧ w₂.hosts p = hp' := by
  have hlt := (List.getElem?_eq_some_iff.mp hc).1
  have hs₁ : step cl w (.deliver c none) =
      some (w.put p hp' (w.calls.set c ⟨l, p, rpc', true⟩)) := by
    simp [step, hc, hd]
  generalize hw₁ : w.put p hp' (w.calls.set c ⟨l, p, rpc', true⟩) = w₁ at hs₁
  have hl₁ : w₁.hosts l = w.hosts l := by rw [← hw₁, World.put_hosts_ne hne]
  have hp₁ : w₁.hosts p = hp' := by rw [← hw₁, World.put_hosts_self]
  have hc₁ : w₁.calls[c]? = some ⟨l, p, rpc', true⟩ := by
    rw [← hw₁, World.put_calls, List.getElem?_set_self hlt]
  refine ⟨w₁, w₁.put l hl' (w₁.calls.set c ⟨l, p, rpc', false⟩), hs₁, ?_, hl₁, hp₁,
    World.put_hosts_self .., ?_⟩
  · simp [step, hc₁, hl₁, hr]
  · rw [World.put_hosts_ne hne.symm, hp₁]

theorem World.put_put (w : World) (i : String) (h h' : Host) (calls calls' : List Call) :
    (w.put i h calls).put i h' calls' = w.put i h' calls' := by
  simp [World.put]

theorem World.put_workers_node (w : World) (i : String) (ws : List Worker) (calls : List Call)
    (j : String) :
    ((w.put i { w.hosts i with workers := ws } calls).hosts j).node = (w.hosts j).node := by
  refine World.put_hosts (P := fun j x => x.node = (w.hosts j).node) ?_ (fun _ _ => rfl) j
  rfl

theorem World.spawn_node (w : World) (l p j : String) :
    ((w.spawn l p).hosts j).node = (w.hosts j).node :=
  w.put_workers_node ..

theorem step_act {i : String} {x : Action} (h : Host) (cs : List Call) (hi : i ∈ cl.ids)
    (ha : (w.hosts i).act w.calls.length x = some (h, cs)) :
    step cl w (.act i x) = some (w.put i h (w.calls ++ cs)) := by
  simp [step, hi, ha]

/-- A leader that finds the previous entry sends a request to append entries. -/
theorem step_send (hi : l ∈ cl.ids) (hid : (w.hosts l).node.id = l) {args : AppendEntriesArgs}
    (hrep : (w.hosts l).node.replicateTo p none = ((w.hosts l).node, .send args)) :
    ∃ w₁, step cl (w.spawn l p) (.act l (.replicateTo p false)) = some w₁ ∧
      w₁.calls = w.calls ++ [⟨l, p, .appendEntries args none, true⟩] ∧
      ∀ j, (w₁.hosts j).node = (w.hosts j).node := by
  refine ⟨_, step_act { w.hosts l with workers := .waiting w.calls.length :: (w.hosts l).workers }
    [⟨l, p, .appendEntries args none, true⟩] hi ?_, rfl, ?_⟩
  · simp [World.spawn, Host.act, Host.startReplication, hrep, hid]
  · rw [World.spawn, World.put_put]
    exact w.put_workers_node _ _ _

/-- A leader that does not find it sends a snapshot. -/
theorem step_snapshot (hi : l ∈ cl.ids) (hid : (w.hosts l).node.id = l)
    (hl : (w.hosts l).node.state = .leader)
    (hrep : (w.hosts l).node.replicateTo p none = ((w.hosts l).node, .snapshot)) :
    ∃ w₁ w₂, step cl (w.spawn l p) (.act l (.replicateTo p false)) = some w₁ ∧
      step cl w₁ (.act l (.sendSnapshot p false)) = some w₂ ∧
      w₂.calls = w.calls ++ [⟨l, p, .installSnapshot (w.hosts l).node.snapshot none, true⟩] ∧
      ∀ j, (w₁.hosts j).node = (w.hosts j).node ∧ (w₂.hosts j).node = (w.hosts j).node := by
  refine ⟨_, _, step_act { w.hosts l with workers := .snapshot p :: (w.hosts l).workers } [] hi ?_,
    step_act { w.hosts l with workers := .waiting w.calls.length :: (w.hosts l).workers }
      [⟨l, p, .installSnapshot (w.hosts l).node.snapshot none, true⟩] hi ?_, ?_, ?_⟩
  · simp [World.spawn, Host.act, Host.startReplication, hrep]
  · simp [World.spawn, Host.act, Host.startSnapshot, Node.sendSnapshot_leader hl, hid]
  · simp [World.spawn]
  · intro j
    rw [World.spawn, World.put_put, World.put_put]
    exact ⟨w.put_workers_node .., w.put_workers_node ..⟩

/-- The steps of a round that sends entries, and the two nodes in them. -/
theorem round_send_steps (hcfg : Configured cl w) (hi : l ∈ cl.ids) (hne : l ≠ p)
    {args : AppendEntriesArgs}
    (hrep : (w.hosts l).node.replicateTo p none = ((w.hosts l).node, .send args)) :
    ∃ w₀ w₁ w', step cl (w.spawn l p) (.act l (.replicateTo p false)) = some w₀ ∧
      step cl w₀ (.deliver w.calls.length none) = some w₁ ∧
      step cl w₁ (.receive w.calls.length) = some w' ∧
      w₀.calls[w.calls.length]? = some ⟨l, p, .appendEntries args none, true⟩ ∧
      (∀ j, (w₀.hosts j).node = (w.hosts j).node) ∧
      (w₁.hosts l).node = (w.hosts l).node ∧
      (w₁.hosts p).node = ((w.hosts p).node.handleAppendEntries args none).1 ∧
      (w'.hosts l).node = (w.hosts l).node.handleAppendReply p args
        ((w.hosts p).node.handleAppendEntries args none).2 ∧
      (w'.hosts p).node = ((w.hosts p).node.handleAppendEntries args none).1 := by
  obtain ⟨w₀, hs₀, hcalls, hnode⟩ := step_send hi (hcfg.id l) hrep
  have hc : w₀.calls[w.calls.length]? = some ⟨l, p, .appendEntries args none, true⟩ := by
    simp [hcalls]
  obtain ⟨w₁, w', hs₁, hs', hl₁, hp₁, hl', hp'⟩ := step_call cl hc hne rfl rfl
  refine ⟨w₀, w₁, w', hs₀, hs₁, hs', hc, hnode, ?_, ?_, ?_, ?_⟩
  · rw [hl₁, hnode]
  · rw [hp₁, ← hnode p]
  · rw [hl', ← hnode p, ← hnode l]
  · rw [hp', ← hnode p]

/-- The steps of a round that sends a snapshot, and the two nodes after it. -/
theorem round_snapshot_steps (hcfg : Configured cl w) (hi : l ∈ cl.ids) (hne : l ≠ p)
    (hl : (w.hosts l).node.state = .leader)
    (hrep : (w.hosts l).node.replicateTo p none = ((w.hosts l).node, .snapshot)) :
    ∃ w₀ w₁ w₂ w', step cl (w.spawn l p) (.act l (.replicateTo p false)) = some w₀ ∧
      step cl w₀ (.act l (.sendSnapshot p false)) = some w₁ ∧
      step cl w₁ (.deliver w.calls.length none) = some w₂ ∧
      step cl w₂ (.receive w.calls.length) = some w' ∧
      w₁.calls[w.calls.length]? =
        some ⟨l, p, .installSnapshot (w.hosts l).node.snapshot none, true⟩ ∧
      (∀ j, (w₀.hosts j).node = (w.hosts j).node ∧ (w₁.hosts j).node = (w.hosts j).node) ∧
      (w₂.hosts l).node = (w.hosts l).node ∧
      (w'.hosts l).node = (w.hosts l).node.handleSnapshotReply p (w.hosts l).node.snapshot
        ((w.hosts p).node.handleInstallSnapshot (w.hosts l).node.snapshot).2 ∧
      (w'.hosts p).node =
        ((w.hosts p).node.handleInstallSnapshot (w.hosts l).node.snapshot).1 := by
  obtain ⟨w₀, w₁, hs₀, hs₁, hcalls, hnode⟩ := step_snapshot hi (hcfg.id l) hl hrep
  have hc : w₁.calls[w.calls.length]? =
      some ⟨l, p, .installSnapshot (w.hosts l).node.snapshot none, true⟩ := by
    simp [hcalls]
  obtain ⟨w₂, w', hs₂, hs', hl₂, hp₂, hl', hp'⟩ := step_call cl hc hne rfl rfl
  refine ⟨w₀, w₁, w₂, w', hs₀, hs₁, hs₂, hs', hc, hnode, ?_, ?_, ?_⟩
  · rw [hl₂, (hnode l).2]
  · rw [hl', ← (hnode p).2, ← (hnode l).2]
  · rw [hp', ← (hnode p).2]

end Steps

theorem Configured.spawn (h : Configured cl w) (hp : p ∈ cl.peers l) :
    Configured cl (w.spawn l p) := by
  refine h.put rfl ?_ (h.alone l) h.call
  intro q hq
  simp only [List.mem_cons, Worker.start.injEq, reduceCtorEq, false_or] at hq
  rcases hq with (rfl | hold) | hold
  · exact hp
  · exact h.worker l q (Or.inl hold)
  · exact h.worker l q (Or.inr hold)

namespace Recorded

theorem step {e : Event} (h : Recorded cl w sh) (hok : aboveSnapshot w e)
    (hs : Raft.step cl w e = some w') : Recorded cl w' (sh.next w w' e) := by
  obtain ⟨a, hsim⟩ := h.sim
  obtain ⟨b, -, hsim'⟩ := hsim.step h.configured h.voting hok hs
  exact ⟨h.configured.step hs, h.voting.step h.configured hs, b, hsim'⟩

/-- A goroutine that has not run yet changes nothing. -/
theorem spawn (h : Recorded cl w sh) (hp : p ∈ cl.peers l) : Recorded cl (w.spawn l p) sh := by
  obtain ⟨a, hsim⟩ := h.sim
  have hcfg := h.configured.spawn hp
  have hk : Kept w (w.spawn l p) noVote [] := by
    have hnothing := Kept.nothing w l { w.hosts l with workers := .start p :: (w.hosts l).workers }
    rwa [List.append_nil] at hnothing
  refine ⟨hcfg, h.voting.of_campaign (e := .act l .heartbeat) h.configured hcfg
    (.of_same rfl rfl hk), a, ?_⟩
  exact
    { hsim with
      host := hsim.hosts_put (Framed.refl w a l) { hsim.host l with }
      election := hsim.election.put le_rfl (fun _ hU => hU) rfl hk }

/-- The full log of a node whose log stays as it is. -/
theorem nextFull_eq (h : Recorded cl w sh) {e : Event} {j : String}
    (hlog : (w'.hosts j).node.log = (w.hosts j).node.log) :
    (sh.next w w' e).full j = sh.full j := by
  obtain ⟨a, hsim⟩ := h.sim
  have hsource : sh.source w w' e j = sh.full j := by
    unfold Shadow.source
    split
    · split
      · rw [if_neg]
        rw [hlog]
        exact fun hlt => Nat.lt_irrefl _ hlt.2
      · rfl
    · rfl
  show sh.nextFull w w' e j = sh.full j
  rw [Shadow.nextFull, hsource, hlog, hsim.full]
  exact (hsim.host j).represents.take_append (Agree.refl _ _ _)

theorem sendsAboveSnapshot_of_none {w : World} {e : Event} (h : e.replication = none) :
    sendsAboveSnapshot w e := by
  intro r hr
  rw [h] at hr
  cases hr

theorem appendsAboveSnapshot_of_none {w : World} {e : Event} (h : w.handled e = none) :
    appendsAboveSnapshot w e := by
  intro call hcall
  rw [h] at hcall
  cases hcall

/-- A round that sends entries which neither side has compacted. -/
theorem round_send (h : Recorded cl w sh) (hi : l ∈ cl.ids) (hp : p ∈ cl.peers l)
    {args : AppendEntriesArgs}
    (hrep : (w.hosts l).node.replicateTo p none = ((w.hosts l).node, .send args))
    (habove : (w.hosts l).node.log.snapIndex < (w.hosts l).node.nextIndex.get p)
    (hclear : (w.hosts p).node.checkPrev args = none →
      Node.clearLookups none 0 (w.hosts p).node.log args.entries = true) :
    ∃ w' sh', round cl l p (w, sh) = some (w', sh') ∧ Recorded cl w' sh' ∧
      (w'.hosts l).node = (w.hosts l).node.handleAppendReply p args
        ((w.hosts p).node.handleAppendEntries args none).2 ∧
      (w'.hosts p).node = ((w.hosts p).node.handleAppendEntries args none).1 ∧
      sh'.full l = sh.full l ∧
      sh'.full p = (sh.full p).take (w'.hosts p).node.log.snapIndex ++
        (w'.hosts p).node.log.entries := by
  have hne := (Configured.mem_ids_of_mem_peers hi hp).2.symm
  obtain ⟨w₀, w₁, w', hs₀, hs₁, hs', hc, hnode, hl₁, hp₁, hl', hp'⟩ :=
    round_send_steps h.configured hi hne hrep
  have hok₀ : aboveSnapshot (w.spawn l p) (.act l (.replicateTo p false)) := by
    refine ⟨?_, appendsAboveSnapshot_of_none rfl⟩
    rintro r hr -
    obtain rfl := Option.some.inj hr
    simpa [Host.replication, World.spawn, hrep] using habove
  have hok₁ : aboveSnapshot w₀ (.deliver w.calls.length none) := by
    refine ⟨sendsAboveSnapshot_of_none rfl, ?_⟩
    intro call hcall args' hargs' _ hcheck
    obtain rfl := Option.some.inj (hc.symm.trans hcall)
    obtain rfl := Option.some.inj hargs'
    rw [hnode] at hcheck ⊢
    exact hclear hcheck
  have hok' : aboveSnapshot w₁ (.receive w.calls.length) :=
    ⟨sendsAboveSnapshot_of_none rfl, appendsAboveSnapshot_of_none rfl⟩
  have hrec₀ := (h.spawn hp).step hok₀ hs₀
  have hrec₁ := hrec₀.step hok₁ hs₁
  have hlog : (w'.hosts l).node.log = (w.hosts l).node.log := by
    rw [hl', (Node.handleAppendReply_advances _ _ _ _).log]
  -- the record of a node changes only when its log does
  have hfull₀ : ∀ j, (sh.next (w.spawn l p) w₀ (.act l (.replicateTo p false))).full j =
      sh.full j := fun j => (h.spawn hp).nextFull_eq (by rw [hnode, w.spawn_node])
  refine ⟨w', _, ?_, hrec₁.step hok' hs', hl', hp', ?_, ?_⟩
  · simp [round, roundEvents, hrep, exec, tracedStep, hs₀, hs₁, hs']
  · rw [hrec₁.nextFull_eq (by rw [hlog, hl₁]), hrec₀.nextFull_eq (by rw [hl₁, hnode]), hfull₀]
  · rw [hrec₁.nextFull_eq (by rw [hp', hp₁])]
    show Shadow.nextFull _ w₀ w₁ _ p = _
    rw [Shadow.nextFull, Sim.source_deliver hc rfl, hfull₀, hp₁, hp']

/-- A round that sends a snapshot. -/
theorem round_snapshot (h : Recorded cl w sh) (hi : l ∈ cl.ids) (hp : p ∈ cl.peers l)
    (hl : (w.hosts l).node.state = .leader)
    (hrep : (w.hosts l).node.replicateTo p none = ((w.hosts l).node, .snapshot)) :
    ∃ w' sh', round cl l p (w, sh) = some (w', sh') ∧ Recorded cl w' sh' ∧
      (w'.hosts l).node = (w.hosts l).node.handleSnapshotReply p (w.hosts l).node.snapshot
        ((w.hosts p).node.handleInstallSnapshot (w.hosts l).node.snapshot).2 ∧
      (w'.hosts p).node =
        ((w.hosts p).node.handleInstallSnapshot (w.hosts l).node.snapshot).1 ∧
      sh'.full l = sh.full l := by
  have hne := (Configured.mem_ids_of_mem_peers hi hp).2.symm
  obtain ⟨w₀, w₁, w₂, w', hs₀, hs₁, hs₂, hs', hc, hnode, hl₂, hl', hp'⟩ :=
    round_snapshot_steps h.configured hi hne hl hrep
  have hok₀ : aboveSnapshot (w.spawn l p) (.act l (.replicateTo p false)) := by
    refine ⟨?_, appendsAboveSnapshot_of_none rfl⟩
    intro r hr hsends
    obtain rfl := Option.some.inj hr
    simp [Host.replication, World.spawn, hrep, Replication.sends] at hsends
  have hok₁ : aboveSnapshot w₀ (.act l (.sendSnapshot p false)) :=
    ⟨sendsAboveSnapshot_of_none rfl, appendsAboveSnapshot_of_none rfl⟩
  have hok₂ : aboveSnapshot w₁ (.deliver w.calls.length none) := by
    refine ⟨sendsAboveSnapshot_of_none rfl, ?_⟩
    intro call hcall args hargs
    obtain rfl := Option.some.inj (hc.symm.trans hcall)
    cases hargs
  have hok' : aboveSnapshot w₂ (.receive w.calls.length) :=
    ⟨sendsAboveSnapshot_of_none rfl, appendsAboveSnapshot_of_none rfl⟩
  have hrec₀ := (h.spawn hp).step hok₀ hs₀
  have hrec₁ := hrec₀.step hok₁ hs₁
  have hrec₂ := hrec₁.step hok₂ hs₂
  have hlog : (w'.hosts l).node.log = (w.hosts l).node.log := by
    rw [hl', Node.log_of_progress (Node.handleSnapshotReply_progress ..)]
  refine ⟨w', _, ?_, hrec₂.step hok' hs', hl', hp', ?_⟩
  · simp [round, roundEvents, hrep, exec, tracedStep, hs₀, hs₁, hs₂, hs']
  · rw [hrec₂.nextFull_eq (by rw [hlog, hl₂]), hrec₁.nextFull_eq (by rw [hl₂, (hnode l).2]),
      hrec₀.nextFull_eq (by rw [(hnode l).1, (hnode l).2]),
      (h.spawn hp).nextFull_eq (by rw [(hnode l).1, w.spawn_node])]

end Recorded

end Raft

end VaultFS
