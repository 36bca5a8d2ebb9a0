import VaultFS.Raft.Cluster.FollowerSim

/-!
# Every step keeps the simulation

Two conditions on a step are needed, one on each side of a request to append
entries. The log of the leader must still have everything behind the previous
index when the entries are sliced out of it (`sendsAboveSnapshot`); otherwise the
slice is empty, and the request claims that the follower is up to date. The log of
the follower must still have everything that the request carries
(`appendsAboveSnapshot`); otherwise the handler takes a compacted entry for a
missing one. `aboveSnapshot` is both, and a step that meets it keeps the
simulation (`Sim.step`).
-/

namespace VaultFS

namespace Raft

open ReplicatedLog Transition

/-- The leader and the peer of a `replicateTo` section, and whether the
`SetSnapshot` of the apply loop falls into it. -/
def Event.replication : Event → Option (String × String × Bool)
  | .act i (.replicateTo peer cut) => some (i, peer, cut)
  | _ => none

def Replication.sends : Replication → Bool
  | .send _ => true
  | _ => false

def Host.replication (h : Host) (peer : String) (cut : Bool) : Node × Replication :=
  h.node.replicateTo peer (if cut then h.pending else none)

/-- A request to append entries is cut out of a log that has not compacted the
entry at the next index of the peer. -/
def sendsAboveSnapshot (w : World) (e : Event) : Prop :=
  ∀ r ∈ e.replication, ((w.hosts r.1).replication r.2.1 r.2.2).2.sends = true →
    ((w.hosts r.1).replication r.2.1 r.2.2).1.log.snapIndex <
      (w.hosts r.1).node.nextIndex.get r.2.1

instance (w : World) (e : Event) : Decidable (sendsAboveSnapshot w e) :=
  inferInstanceAs (Decidable (∀ r ∈ e.replication, _))

/-- Requests to append entries are about entries that neither side has
compacted. -/
def aboveSnapshot (w : World) (e : Event) : Prop :=
  sendsAboveSnapshot w e ∧ appendsAboveSnapshot w e

instance (w : World) (e : Event) : Decidable (aboveSnapshot w e) :=
  inferInstanceAs (Decidable (_ ∧ _))

theorem Configured.members {cl : Cluster} {w : World} (h : Configured cl w) {i : String}
    (hi : i ∈ cl.ids) : (w.hosts i).node.members.Nodup ∧
      (∀ p ∈ (w.hosts i).node.members, p ∈ cl.ids) ∧
      (w.hosts i).node.members.length = cl.size := by
  have hmem : (w.hosts i).node.members = i :: cl.peers i := by
    rw [Node.members, h.id i, h.peers i]
  rw [hmem]
  refine ⟨List.nodup_cons.mpr ⟨?_, ?_⟩, ?_, Configured.length_peers hi⟩
  · exact fun hp => (Configured.mem_ids_of_mem_peers hi hp).2 rfl
  · exact (cl.peers_perm i hi).nodup_iff.mpr (cl.nodup.erase i)
  · intro p hp
    rcases List.mem_cons.mp hp with rfl | hp
    · exact hi
    · exact (Configured.mem_ids_of_mem_peers hi hp).1

namespace HostSim

variable {a : State String Entry} {i : String} {h : Host}

/-- The entries that the apply loop copies are committed. -/
theorem applySlice (hs : HostSim a i h) {applied commit : ℕ}
    (ha : h.applyLoop = .read applied commit) :
    HostSim a i { h with
      applyLoop := .batch (h.node.log.slice (applied + 1) (commit + 1)) } := by
  have happ := hs.applying
  rw [ha] at happ
  refine { hs with applying := ?_ }
  intro e he
  obtain ⟨k, hk, hFk⟩ := hs.represents.mem_slice he
  have hindex := hs.represents.consecutive k e hFk
  have hkc : k < h.node.commitIndex := by
    simp only [Applying] at happ
    omega
  refine ⟨⟨by omega, ?_⟩, by simp only; omega⟩
  rw [hindex, Nat.add_sub_cancel_left]
  exact hs.committed.chosen hkc hFk

/-- The next entry is delivered. -/
theorem applySend (hs : HostSim a i h) {e : Entry} {rest : List Entry}
    (ha : h.applyLoop = .batch (e :: rest)) :
    HostSim a i { h with
      applyLoop := .sent e rest
      delivered := if h.node.commitCh then h.delivered ++ [e] else h.delivered } := by
  have happ := hs.applying
  rw [ha] at happ
  refine { hs with applying := happ, delivered := ?_ }
  intro e' he'
  simp only at he'
  split at he'
  · rcases List.mem_append.mp he' with hold | hnew
    · exact hs.delivered e' hold
    · rw [List.mem_singleton.mp hnew]
      exact (happ e List.mem_cons_self).1
  · exact hs.delivered e' he'

theorem applyMark (hs : HostSim a i h) {e : Entry} {rest : List Entry}
    (ha : h.applyLoop = .sent e rest) :
    HostSim a i { h with
      node := { h.node with lastApplied := e.index }, applyLoop := .batch rest } := by
  have happ := hs.applying
  rw [ha] at happ
  exact { hs with
    applied_le := (happ e List.mem_cons_self).2
    applying := fun e' he' => happ e' (List.mem_cons_of_mem e he') }

/-- The `SetSnapshot` of the apply loop. -/
theorem compact (hs : HostSim a i h) {d : Compaction} (ha : h.applyLoop = .compact d) :
    HostSim a i { h with
      node := { h.node with log := h.node.log.setSnapshot d.index d.term }
      applyLoop := .idle } := by
  have happ := hs.applying
  rw [ha] at happ
  exact { hs.setSnapshot happ.1 happ.2 with applying := trivial }

/-- The term that `sendSnapshot` reads behind the `SetSnapshot` of the apply loop can
be given for the index that it read before. -/
theorem stamped_compact (hs : HostSim a i h) {d : Compaction} (ha : h.applyLoop = .compact d) :
    a.Stamped (a.log i) h.node.log.snapIndex (h.node.log.setSnapshot d.index d.term).snapTerm
      h.node.currentTerm := by
  obtain ⟨hle, ht⟩ : d.index ≤ h.node.commitIndex ∧
      a.Noted i (a.log i) d.index d.term h.node.currentTerm := by
    have happ := hs.applying
    rwa [ha] at happ
  rcases h.node.log.setSnapshot_cases d.index d.term with ⟨-, hsame⟩ | ⟨hlt, -, hterm⟩
  · rw [hsame]
    exact hs.noted.stamped
  · rw [hterm]
    exact ht.stamped.earlier (hs.committed.of_le hle) hlt

/-- The `SetSnapshot` that falls into the handling of a request. -/
theorem intrusion (hs : HostSim a i h) {cut : Option ℕ} {y : Intrusion}
    (hy : y ∈ h.intrusion cut) :
    y.index ≤ h.node.commitIndex ∧
      a.Noted i (a.log i) y.index y.term h.node.currentTerm := by
  have happ := hs.applying
  rwa [Host.mem_intrusion hy] at happ

end HostSim

/-- What looking at a vote can do to a candidate and to its election. -/
inductive Node.Outcome (n : Node) (el : Election) (term : ℕ) : Node × Election → Prop where
  | kept (el' : Election) (honce : el'.once = el.once) : Outcome n el term (n, el')
  | later (t : ℕ) (hlt : n.currentTerm < t) : Outcome n el term (n.becomeFollower t, el)
  | won (el' : Election) (hcand : n.state = .candidate) (hterm : n.currentTerm = term)
      (honce : el.once = false) (honce' : el'.once = true) :
      Outcome n el term (n.becomeLeader, el')

theorem Node.onceBecomeLeader_outcome {n : Node} {el el' : Election} {term : ℕ}
    (hcand : n.state = .candidate) (hterm : n.currentTerm = term) (hsame : el'.once = el.once) :
    n.Outcome el term (n.onceBecomeLeader el') := by
  unfold Node.onceBecomeLeader
  cases honce : el'.once with
  | false => exact .won _ hcand hterm (hsame ▸ honce) rfl
  | true => exact .kept _ (honce.symm.trans hsame)

theorem Node.winAlone_outcome (n : Node) (el : Election) (term : ℕ) :
    n.Outcome el term (n.winAlone el term) := by
  unfold Node.winAlone
  split
  · rename_i hc
    exact Node.onceBecomeLeader_outcome hc.1 hc.2 rfl
  · exact .kept el rfl

theorem Node.countVote_outcome (n : Node) (el : Election) (term : ℕ) (reply : RequestVoteReply) :
    n.Outcome el term (n.countVote el term reply) := by
  rcases n.countVote_cases el term reply with
    ⟨hlt, hr⟩ | hr | ⟨-, -, -, hr⟩ | ⟨-, hcand, hterm, -, hr⟩
  · rw [hr]
    exact .later _ hlt
  · rw [hr]
    exact .kept el rfl
  · rw [hr]
    exact .kept _ rfl
  · rw [hr]
    exact Node.onceBecomeLeader_outcome hcand hterm rfl

namespace Sim

variable {cl : Cluster} {w : World} {sh : Shadow} {a : State String Entry} {i : String}

theorem init (cl : Cluster) : Sim cl (World.init cl) Shadow.init State.init where
  reachable := .init
  host := HostSim.init cl
  full _ := rfl
  sent := rfl
  call c call F hc := by simp [World.init] at hc
  election :=
    { led := by simp [State.init, World.Led, World.elections, World.init]
      granted := by simp [World.Granted, World.init]
      stood := by simp [World.elections, World.init] }

/-- A host acts without any change to the abstract state. -/
theorem quiet (h : Sim cl w sh a) {x : Action} {h' : Host} (hhost : HostSim a i h')
    (hel : h'.elections = w.elections i) :
    Sim cl (w.put i h' (w.calls ++ [])) (sh.next w (w.put i h' (w.calls ++ [])) (.act i x)) a :=
  h.act h.reachable (Framed.refl w a i) hhost (Agree.refl _ _ _) (by simp)
    (h.election.put le_rfl (fun _ hU => hU) hel (Kept.nothing w i h'))

/-- A leader sends a request. -/
theorem send (h : Sim cl w sh a) {x : Action} {h' : Host} {call : Call}
    (hcfg : Configured cl w) (hhost : HostSim a i h') (hel : h'.elections = w.elections i)
    (hl : (w.hosts i).node.state = .leader) (hsrc : call.src = (w.hosts i).node.id)
    (hvote : call.rpc.isVote = false) (hterm : call.rpc.term = (w.hosts i).node.currentTerm)
    (hcall : CallSim a call.src call.dst (a.log i) call.rpc) :
    Sim cl (w.put i h' (w.calls ++ [call]))
      (sh.next w (w.put i h' (w.calls ++ [call])) (.act i x)) a := by
  refine h.act h.reachable (Framed.refl w a i) hhost (Agree.refl _ _ _) ?_ ?_
  · intro call' hc
    rw [List.mem_singleton.mp hc]
    exact hcall
  · refine h.election.put le_rfl (fun _ hU => hU) hel (Kept.append ?_ ?_ rfl)
    · intro call' hc
      rw [List.mem_singleton.mp hc]
      exact Call.not_granted_of_not_vote hvote
    · intro call' hc _
      rw [List.mem_singleton.mp hc, hsrc, hcfg.id i]
      exact ⟨hl, hterm.symm⟩

/-- A node stands for election. -/
theorem stand (h : Sim cl w sh a) (hv : Voting cl w) {x : Action} {h' : Host} {cs : List Call}
    (hhost : ∀ {b}, HostSim b i { w.hosts i with
      node := { (w.hosts i).node with
        state := .candidate, currentTerm := (w.hosts i).node.currentTerm + 1
        votedFor := (w.hosts i).node.id, leaderID := "" } } → HostSim b i h')
    (hel : h'.elections = Function.update (w.elections i) ((w.hosts i).node.currentTerm + 1)
      (some ⟨1, false⟩))
    (hcs : ∀ call ∈ cs, call.src = i ∧ call.rpc = .requestVote
      ⟨(w.hosts i).node.currentTerm + 1, (w.hosts i).node.id, (w.hosts i).node.log.lastIndex,
        (w.hosts i).node.log.lastTerm⟩ none) :
    ∃ b, a ≤ b ∧ Sim cl (w.put i h' (w.calls ++ cs))
      (sh.next w (w.put i h' (w.calls ++ cs)) (.act i x)) b := by
  have hs := h.host i
  have hlt : a.term i < (w.hosts i).node.currentTerm + 1 := by
    rw [hs.term]
    exact Nat.lt_succ_self _
  have hstep : Step (quorums cl) a (a.stand i ((w.hosts i).node.currentTerm + 1)
      (w.hosts i).node.log.lastTerm) :=
    .stand i _ _ hlt (hs.term ▸ h.inv.claim_of_stamped hs.stamped_lastTerm)
  have hab := h.inv.le hstep
  have hnot : ∀ call ∈ cs, ∀ v U c, ¬ call.Granted v U c :=
    fun call hc => Call.not_granted_of_none (hcs call hc).2
  refine ⟨_, hab, ?_⟩
  refine h.act (h.reachable.step hstep)
    ⟨hab, fun j hj => by simp [State.stand, hj], fun _ _ => rfl, fun _ _ => rfl, fun _ _ _ => rfl⟩
    (hhost (hs.stand hab)) (Agree.refl _ _ _) ?_ ?_
  · intro call hc
    rw [(hcs call hc).1, (hcs call hc).2]
    exact ⟨by simp [State.stand], hs.represents.lastIndex⟩
  · refine h.election.update hab (by rw [World.put_elections, hel]) ?_ ?_ ?_
      (Or.inr ⟨rfl, rfl, rfl⟩)
    · rintro ⟨el, hel', -⟩
      have hle : _ ≤ (w.hosts i).node.currentTerm := hv.election_le i _ el hel'
      omega
    · simp [State.stand]
    · rintro v U c ⟨call, hc, hg⟩
      rcases List.mem_append.mp hc with hold | hnew
      · exact ⟨call, hold, hg⟩
      · exact absurd hg (hnot call hnew v U c)

/-- A candidate is elected. That its term has no leader yet is election safety. -/
theorem elect (h : Sim cl w sh a) (hcfg : Configured cl w) (hi : i ∈ cl.ids) {w' : World}
    (hv' : Voting cl w') {el : Election} (hcand : (w.hosts i).node.state = .candidate)
    (hel : w.elections i (w.hosts i).node.currentTerm = some el) (honce : el.once = false)
    (hled : w'.Led i (w.hosts i).node.currentTerm) (hmono : ∀ j U, w.Led j U → w'.Led j U)
    (hgr : ∀ v U c, w'.Granted v U c → w.Granted v U c) :
    ∃ b, Framed w a b i ∧ Reachable (quorums cl) b ∧ b.log = a.log ∧ b.voted = a.voted ∧
      (∀ U, b.lead U ≠ none ↔ a.lead U ≠ none ∨ U = (w.hosts i).node.currentTerm) ∧
      HostSim b i { w.hosts i with node := (w.hosts i).node.becomeLeader } := by
  have hs := h.host i
  have hnone : a.lead (w.hosts i).node.currentTerm = none := by
    by_contra hsome
    obtain ⟨j, hj⟩ := (h.election.led _).mp hsome
    obtain rfl := hv'.led_unique j i _ (hmono j _ hj) hled
    obtain ⟨el', hel', honce'⟩ := hj
    obtain rfl : el' = el := Option.some.inj (hel'.symm.trans hel)
    rw [honce] at honce'
    cases honce'
  obtain ⟨V, hV, hvotes⟩ := hv'.won i _ hled
  have hvoted : ∀ v ∈ V, a.voted v (w.hosts i).node.currentTerm i := by
    intro v hmem
    rcases hvotes v hmem with rfl | hg
    · exact h.election.stood v _ (by simp [hel])
    · exact (h.election.granted v _ i (hgr v _ i hg)).resolve_right (not_not.mpr hnone)
  obtain ⟨t, ht⟩ := hs.candidate hcand hnone
  have hstep : Step (quorums cl) a (a.elect (w.hosts i).node.currentTerm (a.log i)) :=
    .elect i _ V _ t hnone ht hV hvoted
  have hab := h.inv.le hstep
  have hr' := h.reachable.step hstep
  refine ⟨a.elect (w.hosts i).node.currentTerm (a.log i),
    ⟨hab, fun _ _ => rfl, fun _ _ => rfl, fun _ _ => rfl, ?_⟩, hr', rfl, rfl, ?_,
    hs.becomeLeader h.inv hr'.inv hab hcand hnone (hcfg.members hi).1⟩
  · intro j _ hl
    refine Function.update_of_ne ?_ _ _
    intro heq
    have hsome := (h.host j).leader hl
    rw [heq, hnone] at hsome
    cases hsome
  · intro U
    by_cases hU : U = (w.hosts i).node.currentTerm
    · simp [State.elect, hU]
    · simp [State.elect, hU]

/-- A leader appends an entry. -/
theorem propose (h : Sim cl w sh a) (hcfg : Configured cl w) (hv : Voting cl w) (hi : i ∈ cl.ids)
    {command : List UInt8} {n : Node} (hn : (w.hosts i).node.propose command = .ok n) :
    ∃ b, a ≤ b ∧ Sim cl (w.put i { w.hosts i with node := n } (w.calls ++ []))
      (sh.next w (w.put i { w.hosts i with node := n } (w.calls ++ []))
        (.act i (.propose command))) b := by
  obtain ⟨hl, rfl⟩ := Node.propose_ok hn
  have hs := h.host i
  obtain ⟨-, hids, hsize⟩ := hcfg.members hi
  have hlead := hs.leader hl
  have hstep : Step (quorums cl) a (a.append i (w.hosts i).node.currentTerm
      ⟨(w.hosts i).node.log.lastIndex + 1, (w.hosts i).node.currentTerm, command⟩) :=
    .append i _ _ hs.term hlead rfl
  have hab := h.inv.le hstep
  obtain ⟨b, hsame, hr', hnew⟩ :=
    (hs.append hl (hcfg.id i) command hab).advance (h.reachable.step hstep) hl hids hsize
  have hlog : b.log i = a.log i ++
      [⟨(w.hosts i).node.log.lastIndex + 1, (w.hosts i).node.currentTerm, command⟩] := by
    rw [hsame.log]
    simp [State.append]
  refine ⟨b, hab.trans hsame.le, h.act hr' ⟨hab.trans hsame.le, ?_, ?_, ?_, ?_⟩ hnew ?_ (by simp)
    (h.election.put (hab.trans hsame.le) ?_ rfl (Kept.nothing w i _))⟩
  · exact fun _ _ => by rw [hsame.term]; rfl
  · exact fun j hj => by simp [hsame.log, State.append, hj]
  · exact fun _ _ => by rw [hsame.floor]; rfl
  · intro j hj hlj
    rw [hsame.lead]
    refine Function.update_of_ne ?_ _ _
    intro heq
    have hledj := hv.leader_led j hlj
    have hledi := hv.leader_led i hl
    rw [show (w.role j).currentTerm = (w.role i).currentTerm from heq] at hledj
    exact hj (hv.led_unique j i _ hledj hledi)
  · rw [hlog]
    refine (Agree.of_isPrefix (List.prefix_append _ _)).mono le_rfl ?_
    simp only [Node.advanceCommitIndex_log]
    exact hs.snap_le.trans hs.commit_le
  · intro U hU
    rw [hsame.lead] at hU
    by_cases hUT : U = (w.hosts i).node.currentTerm
    · rw [hUT, hlead]
      simp
    · simpa [State.append, hUT] using hU

/-- A candidate looks at a vote, or at its own one when it has no peers. -/
theorem tally (h : Sim cl w sh a) (hcfg : Configured cl w) (hi : i ∈ cl.ids) {w' : World}
    (hv' : Voting cl w') {term : ℕ} {el : Election} {r : Node × Election}
    (hel : w.elections i term = some el) (hr : (w.hosts i).node.Outcome el term r)
    (hel' : w'.elections =
      Function.update w.elections i (Function.update (w.elections i) term (some r.2)))
    (hgr : ∀ v U c, w'.Granted v U c → w.Granted v U c) :
    ∃ b, Framed w a b i ∧ Reachable (quorums cl) b ∧ b.log = a.log ∧
      HostSim b i { w.hosts i with node := r.1 } ∧ ElectionSim w' b := by
  have hs := h.host i
  have hstood : a.voted i term i := h.election.stood i term (by simp [hel])
  -- a result that does not change who has won
  have hkept : ∀ {b}, a ≤ b → b.lead = a.lead → r.2.once = el.once → ElectionSim w' b := by
    intro b hab hlead honce
    have hiff : w.Led i term ↔ el.once = true := by simp [World.Led, hel]
    refine h.election.update hab hel' (fun hl => honce ▸ hiff.mp hl) ?_ hgr
      (hab.voted_imp i term i hstood)
    intro U
    rw [hlead, honce]
    refine (or_iff_left_of_imp ?_).symm
    rintro ⟨rfl, htrue⟩
    exact (h.election.led U).mpr ⟨i, hiff.mpr htrue⟩
  cases hr with
  | kept el' honce =>
      exact ⟨a, Framed.refl w a i, h.reachable, rfl, hs, hkept le_rfl rfl honce⟩
  | later t hlt =>
      obtain ⟨b, hab, hlog, hr', hnew⟩ := hs.learn h.reachable hlt
      exact ⟨b, hab.framed w, hr', hlog, hnew, hkept hab.le hab.lead rfl⟩
  | won el' hcand hterm honce honce' =>
      subst hterm
      have hself : w'.Led i (w.hosts i).node.currentTerm := ⟨el', by simp [hel'], honce'⟩
      have hmono : ∀ j U, w.Led j U → w'.Led j U := by
        rintro j U ⟨el₀, hel₀, honce₀⟩
        by_cases hj : j = i
        · subst hj
          by_cases hU : U = (w.hosts j).node.currentTerm
          · exact hU ▸ hself
          · exact ⟨el₀, by simp [hel', hU, hel₀], honce₀⟩
        · exact ⟨el₀, by simp [hel', hj, hel₀], honce₀⟩
      obtain ⟨b, hframe, hr', hlog, hvoted, hlead, hnew⟩ :=
        h.elect hcfg hi hv' hcand hel honce hself hmono hgr
      refine ⟨b, hframe, hr', hlog, hnew, h.election.update hframe.le hel' (fun _ => honce') ?_
        hgr (hvoted ▸ hstood)⟩
      intro U
      rw [hlead U]
      simp [honce']

theorem acted (h : Sim cl w sh a) (hcfg : Configured cl w) (hv : Voting cl w) (hi : i ∈ cl.ids)
    {x : Action} {h' : Host} {cs : List Call}
    (ha : Acted (w.hosts i) w.calls.length x h' cs) (hok : sendsAboveSnapshot w (.act i x))
    (hv' : Voting cl (w.put i h' (w.calls ++ cs))) :
    ∃ b, a ≤ b ∧ Sim cl (w.put i h' (w.calls ++ cs))
      (sh.next w (w.put i h' (w.calls ++ cs)) (.act i x)) b := by
  have hs := h.host i
  have hid := hcfg.id i
  cases ha with
  | stand n args hfree hn hq =>
      obtain ⟨-, rfl, rfl⟩ := Node.maybeStartElection_some hn
      refine h.stand hv (fun hb => { hb with }) rfl ?_
      intro call hc
      obtain ⟨p, -, rfl⟩ := List.mem_map.mp hc
      exact ⟨hid, rfl⟩
  | standAlone n args hfree hn hq =>
      obtain ⟨-, rfl, rfl⟩ := Node.maybeStartElection_some hn
      exact h.stand hv (fun hb => { hb with }) rfl (by simp)
  | winAlone term el he hel =>
      obtain ⟨b, hframe, hr', hlog, hnew, hel'⟩ := h.tally hcfg hi hv' hel
        ((w.hosts i).node.winAlone_outcome el term) (by rw [World.put_elections]; rfl)
        fun v U c hg => (((Kept.nothing w i _).granted v U c).mp hg).resolve_right id
      exact ⟨b, hframe.le, h.act hr' hframe { hnew with } (hlog ▸ Agree.refl _ _ _) (by simp) hel'⟩
  | heartbeat hfree hl => exact ⟨a, le_rfl, h.quiet { hs with } rfl⟩
  | notLeader peer hw => exact ⟨a, le_rfl, h.quiet { hs with } rfl⟩
  | needSnapshot peer hw hl => exact ⟨a, le_rfl, h.quiet { hs with } rfl⟩
  | append peer prevTerm hw hl ht =>
      have hlt : (w.hosts i).node.log.snapIndex < (w.hosts i).node.nextIndex.get peer := by
        simpa [Host.replication, Node.replicateTo, hl, ht, Replication.sends] using
          hok (i, peer, false) rfl
      exact ⟨a, le_rfl, h.send hcfg { hs with } rfl hl rfl rfl rfl
        (hs.appendArgs hid hl ht hs.represents hlt)⟩
  | appendCut peer prevTerm d hw hl ht ha =>
      have hcut := hs.compact ha
      have hlt : ((w.hosts i).node.log.setSnapshot d.index d.term).snapIndex <
          (w.hosts i).node.nextIndex.get peer := by
        simpa [Host.replication, Node.replicateTo, Host.pending, ha, hl, ht, Replication.sends]
          using hok (i, peer, true) rfl
      exact ⟨a, le_rfl, h.send hcfg { hcut with } rfl hl rfl rfl rfl
        (hs.appendArgs hid hl ht hcut.represents hlt)⟩
  | snapshotNotLeader peer hw => exact ⟨a, le_rfl, h.quiet { hs with } rfl⟩
  | snapshot peer hw hl =>
      exact ⟨a, le_rfl, h.send hcfg { hs with } rfl hl rfl rfl rfl
        (hs.snapshotArgs hl peer hs.noted.stamped)⟩
  | snapshotCut peer d hw hl ha =>
      exact ⟨a, le_rfl, h.send hcfg { hs.compact ha with } rfl hl rfl rfl rfl
        (hs.snapshotArgs hl peer (hs.stamped_compact ha))⟩
  | propose command n hn => exact h.propose hcfg hv hi hn
  | takeSnapshot data term ht =>
      exact ⟨a, le_rfl, h.quiet (hs.setSnapshot hs.applied_le (hs.noted_of_term ht)) rfl⟩
  | applyNothing ha hle => exact ⟨a, le_rfl, h.quiet { hs with } rfl⟩
  | applyRead ha hlt =>
      exact ⟨a, le_rfl, h.quiet { hs with applying := show _ ≤ _ from le_rfl } rfl⟩
  | applySlice applied commit ha => exact ⟨a, le_rfl, h.quiet (hs.applySlice ha) rfl⟩
  | applySend e rest ha => exact ⟨a, le_rfl, h.quiet (hs.applySend ha) rfl⟩
  | applyMark e rest ha => exact ⟨a, le_rfl, h.quiet (hs.applyMark ha) rfl⟩
  | applyCheck ha =>
      refine ⟨a, le_rfl, h.quiet { hs with applying := ?_ } rfl⟩
      simp only
      split <;> trivial
  | applyUnavailable ha => exact ⟨a, le_rfl, h.quiet { hs with applying := trivial } rfl⟩
  | applyMeasure term ha ht =>
      exact ⟨a, le_rfl,
        h.quiet { hs with applying := ⟨hs.applied_le, hs.noted_of_term ht⟩ } rfl⟩
  | applyCompact d ha => exact ⟨a, le_rfl, h.quiet (hs.compact ha) rfl⟩

/-- A step that is not an action of a host makes no calls, and takes compacted
entries over only when it handles a snapshot. -/
theorem source_deliver {c : ℕ} {cut : Option ℕ} {call : Call} (hc : w.calls[c]? = some call)
    (hrpc : call.rpc.snapshotRequest = none) (w' : World) (j : String) :
    sh.source w w' (.deliver c cut) j = sh.full j := by
  obtain ⟨src, dst, rpc, waiting⟩ := call
  unfold Shadow.source
  simp only [hc]
  split
  · rename_i heq
    simp only [Option.some.injEq, Call.mk.injEq] at heq
    obtain ⟨-, -, rfl, -⟩ := heq
    cases hrpc
  · rfl

theorem source_snapshot {c : ℕ} {src dst : String} {args : InstallSnapshotArgs} {waiting : Bool}
    (hc : w.calls[c]? = some ⟨src, dst, .installSnapshot args none, waiting⟩) (w' : World)
    (j : String) : sh.source w w' (.deliver c none) j =
      if dst = j ∧ (w.hosts j).node.log.snapIndex < (w'.hosts j).node.log.snapIndex then
        (sh.sent[c]?).getD []
      else sh.full j := by
  simp [Shadow.source, hc]

/-- The recorded full log of the sender of a call. -/
theorem exists_sent (h : Sim cl w sh a) {c : ℕ} {call : Call} (hc : w.calls[c]? = some call) :
    ∃ F, sh.sent[c]? = some F ∧ CallSim a call.src call.dst F call.rpc := by
  have hlt := (List.getElem?_eq_some_iff.mp hc).1
  rw [← h.sent] at hlt
  exact ⟨_, List.getElem?_eq_getElem hlt, h.call c call _ hc (List.getElem?_eq_getElem hlt)⟩

/-- A host handles a request to append entries; `x` is the `SetSnapshot` that falls
into the handling. -/
theorem deliverAppend (h : Sim cl w sh a) {c : ℕ} {cut : Option ℕ} {src dst : String}
    {args : AppendEntriesArgs} {waiting : Bool}
    (hc : w.calls[c]? = some ⟨src, dst, .appendEntries args none, waiting⟩)
    {x : Option Intrusion} {h' : Host} (hx : (w.hosts dst).intrusion cut = x)
    (hok : appendsAboveSnapshot w (.deliver c cut))
    (hnode : h'.node = ((w.hosts dst).node.handleAppendEntries args x).1)
    (hhost : ∀ {b}, HostSim b dst { w.hosts dst with
      node := ((w.hosts dst).node.handleAppendEntries args x).1 } → HostSim b dst h')
    (hel : h'.elections = w.elections dst) :
    ∃ b, a ≤ b ∧
      Sim cl (w.put dst h' (w.calls.set c ⟨src, dst, .appendEntries args
          (some ((w.hosts dst).node.handleAppendEntries args x).2), waiting⟩))
        (sh.next w (w.put dst h' (w.calls.set c ⟨src, dst, .appendEntries args
          (some ((w.hosts dst).node.handleAppendEntries args x).2), waiting⟩))
          (.deliver c cut)) b := by
  have hs := h.host dst
  subst hx
  obtain ⟨F, hF, hcall⟩ := h.exists_sent hc
  obtain ⟨b, hab, hr', hnew, hag, -, -, hmatched⟩ := hs.handleAppendEntries h.reachable hcall
    (hok _ hc args rfl) fun _ hy => hs.intrusion hy
  refine ⟨b, hab.le, h.set hr' (hab.framed w) (hhost hnew) hc (fun _ => rfl) ?_ ?_ ?_
    (h.election.put hab.le (fun U hU => hab.lead ▸ hU) hel (Kept.answer hc rfl rfl
      (Call.not_granted_of_not_vote rfl) (Call.not_granted_of_not_vote rfl)))⟩
  · exact fun j _ => source_deliver hc rfl _ j
  · rw [source_deliver hc rfl, h.full, hnode]
    exact hag
  · intro F' hF' hold
    obtain rfl : F' = F := Option.some.inj (hF'.symm.trans hF)
    obtain ⟨hsent, hprev, hes, hle, hcom, -⟩ := hold
    refine ⟨hsent, hprev, hes, hle, hcom, ?_⟩
    intro r hr hsucc
    obtain rfl := Option.some.inj hr
    exact (hmatched hsucc).1

theorem delivered (h : Sim cl w sh a) (hcfg : Configured cl w) (hv : Voting cl w) {c : ℕ}
    {cut : Option ℕ} {call : Call} {h' : Host} {rpc : Rpc} (hc : w.calls[c]? = some call)
    (hd : Delivered (w.hosts call.dst) cut call.rpc h' rpc)
    (hok : appendsAboveSnapshot w (.deliver c cut)) :
    ∃ b, a ≤ b ∧
      Sim cl (w.put call.dst h' (w.calls.set c { call with rpc := rpc }))
        (sh.next w (w.put call.dst h' (w.calls.set c { call with rpc := rpc }))
          (.deliver c cut)) b := by
  obtain ⟨src, dst, request, waiting⟩ := call
  have hs := h.host dst
  have hmem := List.mem_of_getElem? hc
  obtain ⟨F, hF, hcall⟩ := h.exists_sent hc
  simp only at hd hcall
  cases hd with
  | vote args =>
      obtain ⟨b, hab, hlog, hr', hnew, hvoted⟩ := hs.handleRequestVote h.reachable hcall
      refine ⟨b, hab.le, h.set hr' (hab.framed w) hnew hc (fun _ => rfl) ?_ ?_
        (fun _ _ hold => hold) (h.election.of_same hab.le (fun U hU => hab.lead ▸ hU) ?_ ?_)⟩
      · exact fun j _ => source_deliver hc rfl _ j
      · rw [source_deliver hc rfl, h.full, hlog]
        exact Agree.refl _ _ _
      · rw [World.put_elections]
        exact Function.update_eq_self dst w.elections
      · intro v U c' hg
        rcases exists_mem_of_set hg with hold | ⟨rfl, rfl, args', reply, hrpc, rfl, hgr⟩
        · exact Or.inl hold
        · simp only [Rpc.requestVote.injEq, Option.some.injEq] at hrpc
          obtain ⟨rfl, rfl⟩ := hrpc
          exact Or.inr (hvoted hgr)
  | snapshot args =>
      have hnl : (w.hosts dst).node.currentTerm = args.term →
          (w.hosts dst).node.state ≠ .leader := by
        intro hterm hl
        have hledd : w.Led dst args.term := hterm ▸ hv.leader_led dst hl
        have hleds : w.Led src args.term := hv.announced_led src _ ⟨_, hmem, rfl, rfl, rfl⟩
        exact (hcfg.dst hmem).2 (hv.led_unique dst src _ hledd hleds)
      obtain ⟨b, hab, hr', hnew, hsnap⟩ := hs.handleInstallSnapshot h.reachable hcall hnl
      refine ⟨b, hab.le, h.set hr' (hab.framed w) hnew hc (fun _ => rfl) ?_ ?_
        (fun _ _ hold => hold) (h.election.put hab.le (fun U hU => hab.lead ▸ hU) rfl
          (Kept.answer hc rfl rfl (Call.not_granted_of_not_vote rfl)
            (Call.not_granted_of_not_vote rfl)))⟩
      · intro j hj
        rw [source_snapshot hc, if_neg fun hd => hj hd.1.symm]
      · rw [source_snapshot hc, World.put_hosts_self]
        rcases hsnap with ⟨heq, hlog⟩ | ⟨hlt, hag⟩
        · rw [if_neg (by simp only [heq]; omega), h.full, hlog]
          exact Agree.refl _ _ _
        · rw [if_pos ⟨rfl, hlt⟩, hF]
          exact hag
  | append args => exact h.deliverAppend hc (x := none) rfl hok rfl (fun hb => hb) rfl
  | appendCut args k d ha hsucc =>
      exact h.deliverAppend hc (Host.intrusion_of_compact ha k) hok rfl
        (fun hb => { hb with applying := trivial }) rfl

/-- The caller stops waiting, and the abstract state keeps every log. -/
theorem stop (h : Sim cl w sh a) {b : State String Entry} {e : Event} {c : ℕ} {call : Call}
    {h' : Host} (hc : w.calls[c]? = some call) (he : e = .receive c ∨ e = .giveUp c)
    (hreach : Reachable (quorums cl) b) (hframe : Framed w a b call.src) (hlog : b.log = a.log)
    (hhost : HostSim b call.src h')
    (hel : ElectionSim (w.put call.src h' (w.calls.set c { call with waiting := false })) b) :
    Sim cl (w.put call.src h' (w.calls.set c { call with waiting := false }))
      (sh.next w (w.put call.src h' (w.calls.set c { call with waiting := false })) e) b := by
  have hsource : ∀ w' j, sh.source w w' e j = sh.full j := by
    rcases he with rfl | rfl
    · exact fun _ _ => rfl
    · exact fun _ _ => rfl
  refine h.set hreach hframe hhost hc ?_ (fun j _ => hsource _ j) ?_ (fun _ _ hold => hold) hel
  · rcases he with rfl | rfl
    · exact fun _ => rfl
    · exact fun _ => rfl
  · rw [hsource, h.full, hlog]
    exact Agree.refl _ _ _

theorem received (h : Sim cl w sh a) (hcfg : Configured cl w) (hv : Voting cl w) {c : ℕ}
    {call : Call} {h' : Host} (hc : w.calls[c]? = some call)
    (hr : Received (w.hosts call.src) c call.dst call.rpc h')
    (hv' : Voting cl (w.put call.src h' (w.calls.set c { call with waiting := false }))) :
    ∃ b, a ≤ b ∧
      Sim cl (w.put call.src h' (w.calls.set c { call with waiting := false }))
        (sh.next w (w.put call.src h' (w.calls.set c { call with waiting := false })) (.receive c))
        b := by
  have hmem := List.mem_of_getElem? hc
  obtain ⟨hsrc, hdst, -⟩ := hcfg.call _ hmem
  obtain ⟨F, hF, hcall⟩ := h.exists_sent hc
  obtain ⟨src, dst, rpc, waiting⟩ := call
  have hs := h.host src
  obtain ⟨-, hids, hsize⟩ := hcfg.members hsrc
  rw [← hcfg.peers src] at hdst
  simp only at hr hdst hcall
  cases hr with
  | vote args reply el hel =>
      obtain ⟨b, hframe, hr', hlog, hnew, hel'⟩ := h.tally hcfg hsrc hv' hel
        ((w.hosts src).node.countVote_outcome el args.term reply)
        (by rw [World.put_elections]; rfl)
        fun v U c hg => (((Kept.stop hc).granted v U c).mp hg).resolve_right id
      exact ⟨b, hframe.le, h.stop hc (Or.inl rfl) hr' hframe hlog { hnew with } hel'⟩
  | append args reply =>
      obtain ⟨b, hab, hlog, hr', hnew⟩ := hs.handleAppendReply h.reachable hids hsize hdst hcall
      exact ⟨b, hab.le, h.stop hc (Or.inl rfl) hr' (hab.framed w) hlog { hnew with }
        (h.election.put hab.le (fun U hU => hab.lead ▸ hU) rfl (Kept.stop hc))⟩
  | snapshot args reply =>
      have hterm : args.term ≤ (w.hosts src).node.currentTerm := by
        obtain ⟨el, hel, -⟩ := hv.announced_led src _ ⟨_, hmem, rfl, rfl, rfl⟩
        exact hv.election_le src _ el hel
      obtain ⟨b, hab, hlog, hr', hnew⟩ := hs.handleSnapshotReply h.reachable hdst hterm hcall
      exact ⟨b, hab.le, h.stop hc (Or.inl rfl) hr' (hab.framed w) hlog { hnew with }
        (h.election.put hab.le (fun U hU => hab.lead ▸ hU) rfl (Kept.stop hc))⟩

/-- A step that meets the condition keeps the simulation, and the abstract history
grows. -/
theorem step {w' : World} {e : Event} (h : Sim cl w sh a) (hcfg : Configured cl w)
    (hv : Voting cl w) (hok : aboveSnapshot w e) (hs : Raft.step cl w e = some w') :
    ∃ b, a ≤ b ∧ Sim cl w' (sh.next w w' e) b := by
  have hv' := hv.step hcfg hs
  cases step_moved hs with
  | act i x h' cs hi hact => exact h.acted hcfg hv hi (Host.act_acted hact) hok.1 hv'
  | deliver c cut call h' rpc hc hdel =>
      exact h.delivered hcfg hv hc (Host.deliver_delivered hdel) hok.2
  | receive c call h' hc hw hrec => exact h.received hcfg hv hc (Host.receive_received hrec) hv'
  | giveUp c call hc hw =>
      exact ⟨a, le_rfl, h.stop hc (Or.inr rfl) h.reachable (Framed.refl w a _) rfl
        { h.host call.src with } (h.election.put le_rfl (fun _ hU => hU) rfl (Kept.stop hc))⟩

end Sim

/-- A world that is reached by steps that meet the condition, together with an
abstract state that it represents. -/
def Simulated (cl : Cluster) (w : World) (a : State String Entry) : Prop :=
  Configured cl w ∧ Voting cl w ∧ ∃ sh, Sim cl w sh a

theorem Simulated.init (cl : Cluster) : Simulated cl (World.init cl) State.init :=
  ⟨Configured.init cl, Voting.init cl, Shadow.init, Sim.init cl⟩

theorem Simulated.step {cl : Cluster} {w w' : World} {e : Event} {a : State String Entry}
    (h : Simulated cl w a) (hok : aboveSnapshot w e) (hs : Raft.step cl w e = some w') :
    ∃ b, Simulated cl w' b ∧ a ≤ b := by
  obtain ⟨hcfg, hv, sh, hsim⟩ := h
  obtain ⟨b, hab, hsim'⟩ := hsim.step hcfg hv hok hs
  exact ⟨b, ⟨hcfg.step hs, hv.step hcfg hs, _, hsim'⟩, hab⟩

/-- The histories along a run extend one another. -/
theorem Simulated.path {cl : Cluster} {w w' : World} {a : State String Entry}
    (h : Simulated cl w a) (hp : Path (Raft.step cl) aboveSnapshot w w') :
    ∃ b, Simulated cl w' b ∧ a ≤ b :=
  hp.simulate h fun _ _ _ _ hsim hok hs => hsim.step hok hs

/-- **Refinement.** Every run that meets the condition is one of the abstract
protocol. -/
theorem Reach.simulated {cl : Cluster} {w : World} (h : Reach cl aboveSnapshot w) :
    ∃ a, Simulated cl w a := by
  obtain ⟨a, ha, -⟩ := (Simulated.init cl).path h
  exact ⟨a, ha⟩

end Raft

end VaultFS
