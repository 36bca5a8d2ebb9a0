import VaultFS.Raft.Cluster.Acknowledged

/-!
# The replication indices stay in range

`nextIndex` of a peer is set from what the follower suggests in a rejection, so its range is a
matter of both logs. It never exceeds the end of the leader's log, because back-up stays below
the previous index of a request; and it stays above `matchIndex`, because back-up stays above
what the two logs have in common. The second needs that the match index does not move while a
reply is under way: a round has one goroutine for each peer.

With the indices in range the previous term is always found, so that a leader never turns to
`sendSnapshot`; a snapshot that is sent for index zero would set `nextIndex` back to one.
-/

namespace VaultFS

namespace Raft

open ReplicatedLog Transition

/-- The reply is a rejection of the request by the log check of a node, whose log then had
the first `m` entries of the leader's. -/
inductive Rejected (a : State String Entry) (args : AppendEntriesArgs) :
    AppendEntriesReply → ℕ → Prop where
  | intro (n : Node) (B t m : ℕ) (L : List Entry) (hL : a.lead args.term = some L)
      (hsound : a.Sound n.log.entries 0 B) (hrep : Represents n.log.entries n.log)
      (hsnap : n.log.snapIndex = 0) (hcheck : n.checkPrev args = some t) (hm : m ≤ L.length)
      (hag : Agree 0 m n.log.entries L) : Rejected a args (n.rejection args t) m

namespace Rejected

variable {a b : State String Entry} {args : AppendEntriesArgs} {reply : AppendEntriesReply}
  {m : ℕ}

theorem mono (h : Rejected a args reply m) (hab : a ≤ b) : Rejected b args reply m := by
  cases h with
  | intro n B t m L hL hsound hrep hsnap hcheck hm hag =>
      obtain ⟨L', hL', hpre⟩ := hab.lead_le _ L hL
      exact .intro n B t m L' hL' (hsound.mono hab le_rfl) hrep hsnap hcheck
        (hm.trans hpre.length_le) (hag.extend hm hpre)

/-- The next index after the rejection lies between the match index and the request. -/
theorem backUp {𝒬 : Quorums String} {L : List Entry} {l : RaftLog} (h : Rejected a args reply m)
    (hinv : ReplicatedLog.Inv 𝒬 a) (hL : a.lead args.term = some L) (hl : Represents L l)
    (hl₀ : l.snapIndex = 0) (hprev : termAt L args.prevLogIndex = some args.prevLogTerm) :
    m < Node.backUp l reply ∧ Node.backUp l reply ≤ L.length ∧ 0 < reply.conflictIndex ∧
      reply.term = args.term := by
  cases h with
  | intro n B t m L' hL' hsound hrep hsnap hcheck hm hag =>
      obtain rfl := Option.some.inj (hL.symm.trans hL')
      obtain ⟨hne, hle⟩ := Node.backUp_rejection hinv hL hsound hl hl₀ hrep hsnap hprev hcheck
      have hcommon := (hag.symm.le_common hm).trans_lt (common_lt_of_termAt_ne hne)
      exact ⟨hcommon, hle.trans (termAt_le_length hprev),
        n.conflictHint_pos (Node.checkPrev_some hcheck).1 t, rfl⟩

end Rejected

def Rpc.isSnapshot : Rpc → Bool
  | .installSnapshot _ _ => true
  | _ => false

/-- The indices of a leader and the rejections on their way to it, in a run without
compaction. -/
structure InRange (cl : Cluster) (w : World) (a : State String Entry) : Prop where
  range : ∀ i, (w.hosts i).node.state = .leader → ∀ p ∈ cl.peers i,
    (w.hosts i).node.matchIndex.get p < (w.hosts i).node.nextIndex.get p ∧
      (w.hosts i).node.nextIndex.get p ≤ (w.hosts i).node.log.lastIndex + 1
  refused : ∀ (c : ℕ) (call : Call), w.calls[c]? = some call → call.Replicates →
    ∀ args reply, call.rpc = .appendEntries args (some reply) → reply.success = false →
    reply.term ≤ args.term → (w.hosts call.src).node.state = .leader →
    Rejected a args reply ((w.hosts call.src).node.matchIndex.get call.dst)
  worker : ∀ i p, .snapshot p ∉ (w.hosts i).workers
  call : ∀ call ∈ w.calls, call.rpc.isSnapshot = false

/-- The term at the previous index can be looked up. -/
theorem InRange.term_prev {cl : Cluster} {w : World} {a : State String Entry}
    (h : InRange cl w a) (ht : Tracked cl w a) {i p : String}
    (hl : (w.hosts i).node.state = .leader) (hp : p ∈ cl.peers i) :
    ∃ t, (w.hosts i).node.log.term (prevIndex ((w.hosts i).node.nextIndex.get p)) = .ok t := by
  obtain ⟨hlow, hhigh⟩ := h.range i hl p hp
  have hrep := (ht.simulated.host i).represents
  rw [hrep.lastIndex] at hhigh
  rw [prevIndex, if_neg (by omega)]
  obtain ⟨t, hterm, -⟩ := Node.term_of_le hrep (ht.uncompacted.host i).snapIndex
    (show (w.hosts i).node.nextIndex.get p - 1 ≤ _ by omega)
  exact ⟨t, hterm⟩

/-- A leader that finds the previous term makes a call. -/
theorem Host.startReplication_calls {h h' : Host} {peer : String} {cut : Bool} {c t : ℕ}
    {cs : List Call} (hs : h.startReplication peer cut c = some (h', cs))
    (hl : h.node.state = .leader)
    (ht : h.node.log.term (prevIndex (h.node.nextIndex.get peer)) = .ok t) : cs ≠ [] := by
  have hsend : ∃ args, (h.node.replicateTo peer (if cut then h.pending else none)).2 =
      .send args := by
    unfold Node.replicateTo
    rw [if_neg (by simp [hl]), ht]
    exact ⟨_, rfl⟩
  obtain ⟨args, hsend⟩ := hsend
  unfold startReplication at hs
  split at hs
  · simp only [hsend, Option.some.injEq, Prod.mk.injEq] at hs
    rw [← hs.2]
    exact List.cons_ne_nil _ _
  · cases hs

/-- How a goroutine comes to send a snapshot. -/
theorem Acted.snapshot_worker {h h' : Host} {c : ℕ} {x : Action} {cs : List Call} {p : String}
    (ha : Acted h c x h' cs) (hw : .snapshot p ∈ h'.workers) :
    .snapshot p ∈ h.workers ∨
      (x = .replicateTo p false ∧ .start p ∈ h.workers ∧ h.node.state = .leader ∧ cs = []) := by
  have hcons : ∀ {y : Worker} {ws : List Worker}, y ≠ .snapshot p →
      .snapshot p ∈ y :: ws → .snapshot p ∈ ws := by
    intro y ws hne hmem
    exact (List.mem_cons.mp hmem).resolve_left fun heq => hne heq.symm
  cases ha with
  | heartbeat => simp at hw
  | notLeader peer => exact Or.inl (List.mem_of_mem_erase hw)
  | snapshotNotLeader peer => exact Or.inl (List.mem_of_mem_erase hw)
  | append | appendCut | snapshot | snapshotCut =>
      exact Or.inl (List.mem_of_mem_erase (hcons (by simp) hw))
  | needSnapshot peer hstart hl =>
      rcases List.mem_cons.mp hw with heq | hw
      · obtain rfl := Worker.snapshot.inj heq
        exact Or.inr ⟨rfl, hstart, hl, rfl⟩
      · exact Or.inl (List.mem_of_mem_erase hw)
  | _ => exact Or.inl hw

theorem Acted.snapshot_call {h h' : Host} {c : ℕ} {x : Action} {cs : List Call}
    (ha : Acted h c x h' cs) (hnone : ∀ p, .snapshot p ∉ h.workers) {call : Call}
    (hc : call ∈ cs) : call.rpc.isSnapshot = false := by
  cases ha with
  | stand n args =>
      obtain ⟨p, -, rfl⟩ := List.mem_map.mp hc
      rfl
  | append | appendCut =>
      rw [List.mem_singleton.mp hc]
      rfl
  | snapshot peer hw | snapshotCut peer _ hw => exact absurd hw (hnone peer)
  | _ => cases hc

/-- A round has one goroutine for each peer. -/
theorem InRound.call_unique {w : World} (h : InRound w) {c c' : ℕ} {call call' : Call}
    (hc : w.calls[c]? = some call) (hc' : w.calls[c']? = some call') (hrep : call.Replicates)
    (hrep' : call'.Replicates) (hsrc : call'.src = call.src) (hdst : call'.dst = call.dst) :
    c' = c := by
  have hmem := h.waits c call hc hrep
  have hmem' := h.waits c' call' hc' hrep'
  rw [hsrc] at hmem'
  have heq := List.inj_on_of_nodup_map (h.onePerPeer call.src) hmem' hmem (by
    simp only [Worker.peer, hc, hc', Option.map_some, hdst])
  exact Worker.waiting.inj heq

namespace InRange

variable {cl : Cluster} {w w' : World} {a b : State String Entry} {e : Event}

theorem init (cl : Cluster) : InRange cl (World.init cl) State.init where
  range i hl := by cases hl
  refused c call hc := by simp [World.init] at hc
  worker i p hp := by simp [World.init] at hp
  call call hc := by simp [World.init] at hc

/-- Rejections that are under way when the sender's view of the peer does not change. -/
theorem rejected_of_steers (h : InRange cl w a) (hround : InRound w) (hab : a ≤ b)
    {c : ℕ} {call : Call} {h' : Host} (hc : w.calls[c]? = some call) (hrep : call.Replicates)
    {args : AppendEntriesArgs} {reply : AppendEntriesReply}
    (hrpc : call.rpc = .appendEntries args (some reply)) (hfail : reply.success = false)
    (hterm : reply.term ≤ args.term) (hst : (w.hosts call.src).Steers h' call.dst) :
    Rejected b args reply (h'.node.matchIndex.get call.dst) := by
  cases hst with
  | same hl _ hmatch =>
      rw [hmatch]
      exact (h.refused c call hc hrep args reply hrpc hfail hterm hl).mono hab
  | elected hcand =>
      exact absurd hcand
        (hround.noElection _ (List.ne_nil_of_mem (hround.waits c call hc hrep)))

theorem range_of_steers (h : InRange cl w a) {i p : String} {h' : Host} (hp : p ∈ cl.peers i)
    (hst : (w.hosts i).Steers h' p) :
    h'.node.matchIndex.get p < h'.node.nextIndex.get p ∧
      h'.node.nextIndex.get p ≤ h'.node.log.lastIndex + 1 := by
  cases hst with
  | same hl _ hmatch hnext hlog =>
      obtain ⟨hlow, hhigh⟩ := h.range i hl p hp
      rw [hmatch, hnext]
      omega
  | elected _ hmatch hnext =>
      rw [hmatch, hnext]
      omega

/-- The next index after the reply of the peer. -/
theorem range_of_reply (h : InRange cl w a) (ht : Tracked cl w a) {c : ℕ} {call : Call}
    {h' : Host} (hc : w.calls[c]? = some call) (hrep : call.Replicates)
    (hr : Received (w.hosts call.src) c call.dst call.rpc h') (hl : h'.node.state = .leader) :
    h'.node.matchIndex.get call.dst < h'.node.nextIndex.get call.dst ∧
      h'.node.nextIndex.get call.dst ≤ h'.node.log.lastIndex + 1 := by
  have hmem := List.mem_of_getElem? hc
  have hpeer := (ht.configured.call call hmem).2.1
  have hold := fun hl => h.range call.src hl call.dst hpeer
  have hhost := ht.simulated.host call.src
  obtain ⟨src, dst, rpc, waiting⟩ := call
  simp only at hr hl hpeer hold hhost ⊢
  cases hr with
  | vote => cases hrep.2
  | snapshot => cases h.call _ hmem
  | append args reply =>
      rcases (w.hosts src).node.handleAppendReply_cases dst args reply with
        ⟨-, heq⟩ | heq | ⟨hlead, hterm, hsucc, m, x, heq, hm, rfl⟩ |
        ⟨hlead, hterm, hfail, x, heq, -⟩
      · simp only [heq] at hl
        cases hl
      · simp only [heq] at hl ⊢
        exact hold hl
      · -- the match index is part of the leader's log
        obtain ⟨hnext, hmatch⟩ := Node.advanceCommitIndex_indices { (w.hosts src).node with
          matchIndex := m, nextIndex := (w.hosts src).node.nextIndex.set dst (m.get dst + 1) }
        have hkeeps : a.Keeps dst (w.hosts src).node.currentTerm (m.get dst) := by
          rcases hm with rfl | rfl
          · exact ht.acknowledged.synced src hlead dst hpeer
          · rw [IndexMap.get_set_self, hterm]
            exact ht.acknowledged.acked _ hmem args reply rfl hsucc
        have hlen := hkeeps.le_length (hhost.leader hlead)
        simp only [heq, hmatch, hnext, Node.advanceCommitIndex_log, IndexMap.get_set_self,
          hhost.represents.lastIndex]
        omega
      · by_cases hlater : reply.term ≤ args.term
        · have hL : a.lead args.term = some (a.log src) := hterm ▸ hhost.leader hlead
          obtain ⟨hlow, hhigh, hpos, hreply⟩ := (h.refused c _ hc hrep args reply rfl hfail hlater
            hlead).backUp ht.simulated.inv hL hhost.represents (ht.uncompacted.host src).snapIndex
            (ht.simulated.termAt_prev ht.uncompacted hc hL)
          simp only [Node.handleAppendReply_backUp hlead hterm hreply hfail hpos,
            IndexMap.get_set_self, hhost.represents.lastIndex]
          exact ⟨hlow, hhigh.trans (Nat.le_succ _)⟩
        · rw [Node.handleAppendReply_later (by omega)] at hl
          cases hl

/-- A request that is refused by the log check was refused by a log that has what the leader
has recorded as matched. -/
theorem rejected_of_deliver (ht : Tracked cl w a) (hround : InRound w) (hab : a ≤ b) {c : ℕ}
    {src dst : String} {args : AppendEntriesArgs} {waiting : Bool}
    (hc : w.calls[c]? = some ⟨src, dst, .appendEntries args none, waiting⟩)
    (hrep : Call.Replicates ⟨src, dst, .appendEntries args none, waiting⟩)
    (hfail : ((w.hosts dst).node.handleAppendEntries args none).2.success = false)
    (hterm : ((w.hosts dst).node.handleAppendEntries args none).2.term ≤ args.term)
    (hl : (w.hosts src).node.state = .leader) :
    Rejected b args ((w.hosts dst).node.handleAppendEntries args none).2
      ((w.hosts src).node.matchIndex.get dst) := by
  have hsrc : (w.hosts src).node.currentTerm = args.term := hround.term c _ hc hrep hl
  have hpeer := (ht.configured.call _ (List.mem_of_getElem? hc)).2.1
  have hrejects : (w.hosts dst).node.Rejects args := by
    rcases (w.hosts dst).node.handleAppendEntries_cases args none with
      ⟨hlt, heq⟩ | ⟨hle, t, hcheck, -⟩ | ⟨-, -, heq⟩
    · rw [heq] at hterm
      exact absurd hterm (Nat.not_le.mpr hlt)
    · rw [Indexed.checkPrev_acceptLeader] at hcheck
      exact ⟨hle, by simp [hcheck]⟩
    · rw [heq] at hfail
      cases hfail
  obtain ⟨t, hcheck, hreply⟩ := hrejects.reply
  have hdst := ht.simulated.host dst
  have hlog := (hdst.log_eq (ht.uncompacted.host dst)).1
  have hL : a.lead args.term = some (a.log src) := hsrc ▸ (ht.simulated.host src).leader hl
  have hkeeps := ht.acknowledged.synced src hl dst hpeer
  rw [hsrc] at hkeeps
  have hag : Agree 0 ((w.hosts src).node.matchIndex.get dst) (w.hosts dst).node.log.entries
      (a.log src) := by
    rcases Nat.eq_zero_or_pos ((w.hosts src).node.matchIndex.get dst) with hzero | hpos
    · exact Agree.empty hzero.le
    · rw [← hlog]
      refine hkeeps.agree hL ?_
      rcases hkeeps with hzero | ⟨hle, -⟩
      · omega
      · rw [hdst.term] at hle ⊢
        exact Nat.le_antisymm hrejects.1 hle
  rw [hreply]
  exact (Rejected.intro _ _ t _ _ hL (ht.simulated.sound ht.uncompacted dst).1
    (hlog ▸ hdst.represents) (ht.uncompacted.host dst).snapIndex hcheck
    (hkeeps.le_length hL) hag).mono hab

theorem range_step (h : InRange cl w a) (ht : Tracked cl w a)
    (hok : noCompaction cl w e) (hs : Raft.step cl w e = some w') :
    ∀ i, (w'.hosts i).node.state = .leader → ∀ p ∈ cl.peers i,
      (w'.hosts i).node.matchIndex.get p < (w'.hosts i).node.nextIndex.get p ∧
        (w'.hosts i).node.nextIndex.get p ≤ (w'.hosts i).node.log.lastIndex + 1 :=
  ht.view_step hok hs (P := fun p x => x.node.matchIndex.get p < x.node.nextIndex.get p ∧
      x.node.nextIndex.get p ≤ x.node.log.lastIndex + 1)
    (fun _ _ _ hp hst => h.range_of_steers hp hst)
    fun _ _ _ hc hrep hr hl => h.range_of_reply ht hc hrep hr hl

/-- Rejections that were under way before the step. -/
theorem refused_of_old (h : InRange cl w a) (hround : InRound w) (hab : a ≤ b) {i : String}
    {x : Host} {calls : List Call} {c : ℕ} {call : Call} (hc : w.calls[c]? = some call)
    (hrep : call.Replicates) {args : AppendEntriesArgs} {reply : AppendEntriesReply}
    (hrpc : call.rpc = .appendEntries args (some reply)) (hfail : reply.success = false)
    (hterm : reply.term ≤ args.term)
    (hst : call.src = i → x.node.state = .leader → (w.hosts i).Steers x call.dst)
    (hl : ((w.put i x calls).hosts call.src).node.state = .leader) :
    Rejected b args reply (((w.put i x calls).hosts call.src).node.matchIndex.get call.dst) := by
  by_cases hi : call.src = i
  · subst hi
    rw [World.put_hosts_self] at hl ⊢
    exact h.rejected_of_steers hround hab hc hrep hrpc hfail hterm (hst rfl hl)
  · rw [World.put_hosts_ne hi] at hl ⊢
    exact (h.refused c call hc hrep args reply hrpc hfail hterm hl).mono hab

theorem refused_step (h : InRange cl w a) (hround : InRound w) (ht : Tracked cl w a)
    (hab : a ≤ b) (hok : noCompaction cl w e) (hs : Raft.step cl w e = some w') :
    ∀ (c : ℕ) (call : Call), w'.calls[c]? = some call → call.Replicates →
      ∀ args reply, call.rpc = .appendEntries args (some reply) → reply.success = false →
      reply.term ≤ args.term → (w'.hosts call.src).node.state = .leader →
      Rejected b args reply ((w'.hosts call.src).node.matchIndex.get call.dst) := by
  intro c call hc hrep args reply hrpc hfail hterm
  have hpeers : ∀ {c : ℕ} {call : Call}, w.calls[c]? = some call →
      call.dst ∈ (w.hosts call.src).node.peers := by
    intro c call hc
    rw [ht.configured.peers]
    exact (ht.configured.call call (List.mem_of_getElem? hc)).2.1
  cases step_moved hs with
  | act i x h' cs hi hact =>
      rcases Growth.getElem?_append_cases hc with hold | ⟨k, -, hk⟩
      · refine h.refused_of_old hround hab hold hrep hrpc hfail hterm fun hsrc hl => ?_
        exact (Host.act_acted hact).steers (ht.uncompacted.host i) hok.ne_takeSnapshot
          (ht.configured.members hi).1 (hsrc ▸ hpeers hold) hl
      · have hans := (Host.act_acted hact).unanswered (List.mem_of_getElem? hk)
        rw [hrpc] at hans
        cases hans
  | deliver k cut x h' rpc hk hdel =>
      have hd := Host.deliver_delivered hdel
      have hsteers : ∀ p, h'.node.state = .leader → (w.hosts x.dst).Steers h' p := fun p hl =>
        hd.steers (ht.uncompacted.host x.dst) (ht.uncompacted.call x (List.mem_of_getElem? hk)) hl
      rcases Growth.getElem?_set_cases hc with ⟨rfl, rfl⟩ | ⟨-, hc⟩
      · obtain ⟨src, dst, request, waiting⟩ := x
        simp only at hd hrpc hsteers ⊢
        -- the request has just been refused
        have hne : src ≠ dst := by
          have hcall := ht.configured.call _ (List.mem_of_getElem? hk)
          exact fun heq => (Configured.mem_ids_of_mem_peers hcall.1 hcall.2.1).2 heq.symm
        rw [World.put_hosts_ne hne]
        cases hd with
        | append args' =>
            simp only [Rpc.appendEntries.injEq, Option.some.injEq] at hrpc
            obtain ⟨rfl, rfl⟩ := hrpc
            exact rejected_of_deliver ht hround hab hk hrep hfail hterm
        | appendCut args' k d happ => exact absurd happ ((ht.uncompacted.host dst).ne_compact d)
        | vote | snapshot => cases hrpc
      · exact h.refused_of_old hround hab hc hrep hrpc hfail hterm
          fun hsrc hl => hsteers call.dst hl
  | receive k x h' hk hwait hrec =>
      have hr := Host.receive_received hrec
      rcases Growth.getElem?_set_cases hc with ⟨rfl, rfl⟩ | ⟨hck, hc⟩
      · cases hrep.1
      · refine h.refused_of_old hround hab hc hrep hrpc hfail hterm fun hsrc hl => ?_
        refine hr.steers ?_ (hsrc ▸ hpeers hc) hl fun hvote hdst => ?_
        · exact (ht.configured.members (ht.configured.call x (List.mem_of_getElem? hk)).1).1
        · exact hck (hround.call_unique hk hc ⟨hwait, hvote⟩ hrep hsrc hdst)
  | giveUp k x hk hwait =>
      rcases Growth.getElem?_set_cases hc with ⟨rfl, rfl⟩ | ⟨-, hc⟩
      · cases hrep.1
      · exact h.refused_of_old hround hab hc hrep hrpc hfail hterm fun hsrc hl =>
          .of_steering rfl hl

/-- No leader turns to `sendSnapshot`. -/
theorem noSnapshot_step (h : InRange cl w a) (ht : Tracked cl w a)
    (hs : Raft.step cl w e = some w') :
    (∀ i p, .snapshot p ∉ (w'.hosts i).workers) ∧
      ∀ call ∈ w'.calls, call.rpc.isSnapshot = false := by
  have hput : ∀ {i : String} {x : Host} {calls : List Call}, (∀ p, .snapshot p ∉ x.workers) →
      ∀ j p, .snapshot p ∉ ((w.put i x calls).hosts j).workers := by
    intro i x calls hx
    exact World.put_hosts (P := fun _ x => ∀ p, .snapshot p ∉ x.workers) hx fun j _ => h.worker j
  cases step_moved hs with
  | act i x h' cs hi hact =>
      have ha := Host.act_acted hact
      refine ⟨hput fun p hp => ?_, fun call hc => ?_⟩
      · rcases ha.snapshot_worker hp with hold | ⟨rfl, hstart, hl, rfl⟩
        · exact h.worker i p hold
        · obtain ⟨t, hterm⟩ := h.term_prev ht hl (ht.configured.worker i p (Or.inl hstart))
          exact Host.startReplication_calls hact hl hterm rfl
      · rcases List.mem_append.mp hc with hold | hnew
        · exact h.call call hold
        · exact ha.snapshot_call (h.worker i) hnew
  | deliver c cut call h' rpc hc hdel =>
      have hd := Host.deliver_delivered hdel
      have hold := h.call call (List.mem_of_getElem? hc)
      refine ⟨hput fun p => hd.request.2.2 ▸ h.worker call.dst p, World.set_calls h.call ?_⟩
      generalize call.rpc = request at hd hold
      cases hd with
      | snapshot => cases hold
      | vote | append | appendCut => rfl
  | receive c call h' hc hwait hrec =>
      refine ⟨hput fun p hp => h.worker call.src p ?_,
        World.set_calls h.call (h.call call (List.mem_of_getElem? hc))⟩
      rcases (Host.receive_received hrec).workers with hw | hw
      · rwa [hw] at hp
      · exact List.mem_of_mem_erase (hw ▸ hp)
  | giveUp c call hc hwait =>
      exact ⟨hput fun p hp => h.worker call.src p (List.mem_of_mem_erase hp),
        World.set_calls h.call (h.call call (List.mem_of_getElem? hc))⟩

theorem step (h : InRange cl w a) (hround : InRound w) (ht : Tracked cl w a)
    (hab : a ≤ b) (hok : noCompaction cl w e) (hs : Raft.step cl w e = some w') :
    InRange cl w' b where
  range := h.range_step ht hok hs
  refused := h.refused_step hround ht hab hok hs
  worker := (h.noSnapshot_step ht hs).1
  call := (h.noSnapshot_step ht hs).2

end InRange

theorem Reach.inRange {cl : Cluster} {w : World} (hw : Reach cl (noCompaction cl) w) :
    ∃ a, Tracked cl w a ∧ InRange cl w a := by
  obtain ⟨a, ⟨-, ha⟩, -⟩ := hw.simulate
    (R := fun w a => InRound w ∧ Tracked cl w a ∧ InRange cl w a)
    ⟨InRound.init cl, Tracked.init cl, InRange.init cl⟩ (by
      rintro t e t' a ⟨hround, ht, hrange⟩ hok hs
      obtain ⟨b, hb, hab, -⟩ := ht.step hok hs
      exact ⟨b, ⟨hround.step ht.configured hs, hb, hrange.step hround ht hab hok hs⟩, hab⟩)
  exact ⟨a, ha⟩

/-- Entries with consecutive indices, by their indices. -/
theorem Consecutive.map_index {es : List Entry} {s : ℕ} (h : Consecutive s es) :
    es.map (·.index) = List.range' s es.length := by
  induction es generalizing s with
  | nil => rfl
  | cons e es ih =>
      rw [List.map_cons, ih h.tail, h.head, List.length_cons, List.range'_succ]

/-- **Replication indices stay in range.** In every world of a run without compaction, for a
leader and each of its peers: the next index is between one and one above the last index, it is
above the match index, taking one from it does not wrap around, and the request that is built
carries the entries behind the previous index up to the last one, with the leader's own term at
the previous index. -/
theorem replication_indices_in_range {cl : Cluster} {w : World} {i p : String}
    (hw : Reach cl (noCompaction cl) w) (hl : (w.hosts i).node.state = .leader)
    (hp : p ∈ cl.peers i) (cut : Bool) :
    1 ≤ (w.hosts i).node.nextIndex.get p ∧
    (w.hosts i).node.nextIndex.get p ≤ (w.hosts i).node.log.lastIndex + 1 ∧
    (w.hosts i).node.matchIndex.get p < (w.hosts i).node.nextIndex.get p ∧
    prevIndex ((w.hosts i).node.nextIndex.get p) + 1 = (w.hosts i).node.nextIndex.get p ∧
    ∃ args, (w.hosts i).replication p cut = ((w.hosts i).node, .send args) ∧
      args.prevLogIndex = prevIndex ((w.hosts i).node.nextIndex.get p) ∧
      (w.hosts i).node.log.term args.prevLogIndex = .ok args.prevLogTerm ∧
      args.entries = (w.hosts i).node.log.entries.drop args.prevLogIndex ∧
      args.entries.map (·.index) = List.range' (args.prevLogIndex + 1)
        ((w.hosts i).node.log.lastIndex - args.prevLogIndex) := by
  obtain ⟨a, ht, hrange⟩ := hw.inRange
  obtain ⟨hlow, hhigh⟩ := hrange.range i hl p hp
  obtain ⟨t, hterm⟩ := hrange.term_prev ht hl hp
  have hhost := ht.simulated.host i
  have hu := ht.uncompacted.host i
  have hprev : prevIndex ((w.hosts i).node.nextIndex.get p) =
      (w.hosts i).node.nextIndex.get p - 1 := if_neg (by omega)
  have hes : (w.hosts i).node.log.slice ((w.hosts i).node.nextIndex.get p)
      ((w.hosts i).node.log.lastIndex + 1) =
      (w.hosts i).node.log.entries.drop (prevIndex ((w.hosts i).node.nextIndex.get p)) := by
    rw [hhost.represents.slice (by rw [hu.snapIndex]; omega), (hhost.log_eq hu).1, hprev]
  have hcut : (if cut then (w.hosts i).pending else none) = none := by rw [hu.pending, ite_self]
  refine ⟨by omega, hhigh, hlow, by rw [hprev]; omega,
    (w.hosts i).node.appendArgs p t (w.hosts i).node.log, ?_, rfl, hterm, hes, ?_⟩
  · rw [Host.replication, hcut, Node.replicateTo, if_neg (by simp [hl]), hterm]
  · have hcons := (ht.simulated.sound ht.uncompacted i).2.drop
      (prevIndex ((w.hosts i).node.nextIndex.get p))
    simp only [Node.appendArgs, hes, hcons.map_index, List.length_drop]
    rw [hhost.represents.lastIndex, (hhost.log_eq hu).1, Nat.add_comm 1]

/-- After a rejection the leader `a` of term 4 is back at index 1 for `b`. -/
theorem replication_indices_in_range_trio : ∃ (w : World) (args : AppendEntriesArgs),
    (w.hosts "a").node.nextIndex.get "b" = 1 ∧
    1 ≤ (w.hosts "a").node.nextIndex.get "b" ∧
    (w.hosts "a").node.nextIndex.get "b" ≤ (w.hosts "a").node.log.lastIndex + 1 ∧
    (w.hosts "a").replication "b" false = ((w.hosts "a").node, .send args) ∧
    args.entries.map (·.index) = List.range' (args.prevLogIndex + 1)
      ((w.hosts "a").node.log.lastIndex - args.prevLogIndex) := by
  have hw : Runs trio (noCompaction trio)
      (conflictAtB ++ [.deliver 10 none] ++ [.receive 10]) := by decide +kernel
  have hnext : ((run trio (noCompaction trio) (conflictAtB ++ [.deliver 10 none] ++
      [.receive 10])).hosts "a").node.nextIndex.get "b" = 1 := by decide +kernel
  obtain ⟨hlow, hhigh, -, -, args, hsend, -, -, -, hes⟩ :=
    replication_indices_in_range (Reach.run hw) (by decide +kernel)
      (show "b" ∈ trio.peers "a" by decide) false
  exact ⟨_, args, hnext, hlow, hhigh, hsend, hes⟩

end Raft

end VaultFS
