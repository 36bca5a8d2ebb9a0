import VaultFS.Raft.Cluster.Simulation

/-!
# The leader's part of the simulation

What a candidate does when it wins, and a leader when it appends, counts
acknowledgements and commits. A commit in the source is a commit of the abstract
protocol only when all nodes of the quorum acknowledged the index; a node may
also be counted because it was brought up to date by a snapshot, and then the
index is committed already.
-/

namespace VaultFS

namespace Raft

open ReplicatedLog

/-- The two states have the same terms and logs. -/
structure SameLogs (a b : State String Entry) : Prop where
  le : a ≤ b
  term : b.term = a.term
  log : b.log = a.log
  floor : b.floor = a.floor
  lead : b.lead = a.lead

theorem SameLogs.refl (a : State String Entry) : SameLogs a a := ⟨le_rfl, rfl, rfl, rfl, rfl⟩

theorem SameLogs.hostSim {a b : State String Entry} (hab : SameLogs a b) {i : String}
    {h : Host} (hs : HostSim a i h) : HostSim b i h :=
  hs.frame hab.le (by rw [hab.term]) (by rw [hab.log]) (by rw [hab.floor])
    fun _ => by rw [hab.lead]

/-- The states differ at most in the term, the log and the floor of the node `i`,
and in what was voted, acknowledged and committed. -/
structure Touched (a b : State String Entry) (i : String) : Prop where
  le : a ≤ b
  term : ∀ j, j ≠ i → b.term j = a.term j
  log : ∀ j, j ≠ i → b.log j = a.log j
  floor : ∀ j, j ≠ i → b.floor j = a.floor j
  lead : b.lead = a.lead

namespace Touched

variable {a b c : State String Entry} {i : String}

theorem refl (a : State String Entry) (i : String) : Touched a a i :=
  ⟨le_rfl, fun _ _ => rfl, fun _ _ => rfl, fun _ _ => rfl, rfl⟩

theorem trans (hab : Touched a b i) (hbc : Touched b c i) : Touched a c i where
  le := hab.le.trans hbc.le
  term j hj := (hbc.term j hj).trans (hab.term j hj)
  log j hj := (hbc.log j hj).trans (hab.log j hj)
  floor j hj := (hbc.floor j hj).trans (hab.floor j hj)
  lead := hbc.lead.trans hab.lead

theorem bump {t : ℕ} (h : a.term i < t) : Touched a (a.bump i t) i :=
  ⟨State.le_bump h, fun j hj => by simp [State.bump, hj], fun _ _ => rfl, fun _ _ => rfl, rfl⟩

theorem of_sameLogs (h : SameLogs a b) (i : String) : Touched a b i :=
  ⟨h.le, fun _ _ => by rw [h.term], fun _ _ => by rw [h.log], fun _ _ => by rw [h.floor], h.lead⟩

theorem framed (h : Touched a b i) (w : World) : Framed w a b i :=
  ⟨h.le, h.term, h.log, h.floor, fun _ _ _ => by rw [h.lead]⟩

end Touched

namespace HostSim

variable {cl : Cluster} {a : State String Entry} {i : String} {h : Host}

/-- A node learns of a later term. -/
theorem learn (hs : HostSim a i h) (hr : Reachable (quorums cl) a) {t : ℕ}
    (hlt : h.node.currentTerm < t) :
    ∃ b, Touched a b i ∧ b.log = a.log ∧ Reachable (quorums cl) b ∧
      HostSim b i { h with node := h.node.becomeFollower t } := by
  have hlt' : a.term i < t := by rwa [hs.term]
  exact ⟨a.bump i t, Touched.bump hlt', rfl, hr.step (.bump i t hlt'), hs.bump hlt⟩

/-- A node stands in the next term. -/
theorem stand (hs : HostSim a i h) {t : ℕ} (hab : a ≤ a.stand i (h.node.currentTerm + 1) t) :
    HostSim (a.stand i (h.node.currentTerm + 1) t) i
      { h with node := { h.node with state := .candidate, currentTerm := h.node.currentTerm + 1,
                                     votedFor := h.node.id, leaderID := "" } } :=
  { hs with
    term := by simp [State.stand]
    noted := hs.noted.mono hab (Nat.le_succ _)
    committed := hs.committed.mono hab (Nat.le_succ _)
    applying := hs.applying.mono hab (Nat.le_succ _) le_rfl (Agree.refl _ _ _)
    delivered := fun e he => (hs.delivered e he).mono hab
    candidate := fun _ _ => ⟨t, by simp [State.stand]⟩
    leader := nofun
    tracking := nofun
    own := nofun
    matched := nofun }

/-- A candidate becomes the leader of its term. -/
theorem becomeLeader (hs : HostSim a i h) (hinv : Inv (quorums cl) a)
    (hinv' : Inv (quorums cl) (a.elect h.node.currentTerm (a.log i)))
    (hab : a ≤ a.elect h.node.currentTerm (a.log i)) (hcand : h.node.state = .candidate)
    (hnone : a.lead h.node.currentTerm = none) (hnodup : h.node.members.Nodup) :
    HostSim (a.elect h.node.currentTerm (a.log i)) i
      { h with node := h.node.becomeLeader } := by
  obtain ⟨hkeys, hown, hzero, -⟩ := Node.becomeLeader_indices hnodup hcand
  have hlead : (a.elect h.node.currentTerm (a.log i)).lead h.node.currentTerm =
      some (a.log i) := by simp [State.elect]
  have hpos := hinv'.lead_pos _ _ hlead
  have hn : h.node.becomeLeader = { h.node with
      state := .leader
      leaderID := h.node.id
      nextIndex := h.node.becomeLeader.nextIndex
      matchIndex := h.node.becomeLeader.matchIndex } := by
    unfold Node.becomeLeader
    rw [if_neg (by simp [hcand])]
  rw [hs.represents.lastIndex] at hown
  rw [hn]
  refine
    { hs with
      noted := hs.noted.mono hab le_rfl
      committed := hs.committed.mono hab le_rfl
      applying := hs.applying.mono hab le_rfl le_rfl (Agree.refl _ _ _)
      delivered := fun e he => (hs.delivered e he).mono hab
      candidate := fun hc => by cases hc
      leader := fun _ => hlead
      tracking := fun _ => ⟨hnodup, hkeys⟩
      own := fun _ => hown
      matched := ?_ }
  -- no entry of the log is of the new term
  obtain ⟨t, ht⟩ := hs.candidate hcand hnone
  obtain ⟨-, B, f, hB, hsound, -⟩ := hinv.cand i _ _ t ht
  intro _ p hp
  refine ⟨a.log i, hlead, ?_, ?_⟩
  · rcases List.mem_cons.mp hp with rfl | hp
    · exact hown.le
    · simp only [hzero p hp]
      exact Nat.zero_le _
  · intro n _ ht
    obtain ⟨k, e, -, he, het⟩ := termAt_pos ht hpos
    have := hsound.le e (List.mem_of_getElem? he)
    simp only at het
    omega

/-- A leader appends an entry to its log. -/
theorem append (hs : HostSim a i h) (hl : h.node.state = .leader) (hid : h.node.id = i)
    (command : List UInt8)
    (hab : a ≤ a.append i h.node.currentTerm
      ⟨h.node.log.lastIndex + 1, h.node.currentTerm, command⟩) :
    HostSim (a.append i h.node.currentTerm
        ⟨h.node.log.lastIndex + 1, h.node.currentTerm, command⟩) i
      { h with node := { h.node with
          log := h.node.log.append [⟨h.node.log.lastIndex + 1, h.node.currentTerm, command⟩]
          matchIndex := h.node.matchIndex.set h.node.id (h.node.log.lastIndex + 1) } } := by
  have hlast := hs.represents.lastIndex
  generalize hL : (⟨h.node.log.lastIndex + 1, h.node.currentTerm, command⟩ : Entry) = e at hab
  have hindex : e.index = (a.log i).length + 1 := by rw [← hL, ← hlast]
  have hlog : (a.append i h.node.currentTerm e).log i = a.log i ++ [e] := by simp [State.append]
  have hpre : Agree 0 (a.log i).length (a.log i) (a.log i ++ [e]) :=
    Agree.of_isPrefix (List.prefix_append _ _)
  have hlead : (a.append i h.node.currentTerm e).lead h.node.currentTerm =
      some (a.log i ++ [e]) := by simp [State.append]
  obtain ⟨hnodup, hkeys⟩ := hs.tracking hl
  have hmem : h.node.id ∈ h.node.matchIndex.keys := hkeys.mem_iff.mpr (by simp [Node.members])
  refine
    { hs with
      represents := ?_
      noted := ?_
      committed := ?_
      commit_le := ?_
      applying := ?_
      delivered := fun e he => (hs.delivered e he).mono hab
      candidate := fun hc => ?_
      leader := fun _ => by rw [hlog, hlead]
      tracking := fun _ => ⟨hnodup, (IndexMap.keys_set_of_mem hmem _).trans hkeys⟩
      own := fun _ => ?_
      matched := ?_ }
  · rw [hlog]
    refine hs.represents.append ?_
    intro k e' he'
    obtain ⟨rfl, rfl⟩ : k = 0 ∧ e = e' := by simpa [List.getElem?_cons] using he'
    exact hindex
  · rw [hlog]
    exact (hs.noted.mono hab le_rfl).congr (hpre.mono le_rfl hs.represents.snap_le).symm
  · rw [hlog]
    exact (hs.committed.mono hab le_rfl).congr (hpre.mono le_rfl hs.commit_le).symm
  · have := hs.commit_le
    rw [hlog, List.length_append]
    simp only
    omega
  · rw [hlog]
    exact hs.applying.mono hab le_rfl le_rfl (hpre.mono le_rfl hs.commit_le)
  · simp only [hl] at hc
    cases hc
  · rw [hlog, hlast]
    simp
  · intro _ p hp
    have hmatched := (hs.matched hl p hp).mono hab
    by_cases hpi : p = h.node.id
    · subst hpi
      simp only [IndexMap.get_set_self, hlast]
      rw [hs.own hl] at hmatched
      exact hmatched.succ hlead (by simp) (Or.inr ⟨hid, rfl, rfl⟩)
    · simp only [IndexMap.get_set_ne _ hpi]
      exact hmatched

/-- The commit index moves up to a committed index. -/
theorem raiseCommit (hs : HostSim a i h) {c : ℕ} (hle : h.node.commitIndex ≤ c)
    (hc : c ≤ (a.log i).length) (hcom : a.CommittedUpTo (a.log i) c h.node.currentTerm) :
    HostSim a i { h with node := { h.node with commitIndex := c, applySig := true } } :=
  { hs with
    committed := hcom
    commit_le := hc
    snap_le := hs.snap_le.trans hle
    applied_le := hs.applied_le.trans hle
    applying := hs.applying.mono le_rfl le_rfl hle (Agree.refl _ _ _) }

/-- What is held by a quorum and was created by the leader itself is committed,
if it was not committed before. -/
theorem commit (hs : HostSim a i h) (hr : Reachable (quorums cl) a) (hl : h.node.state = .leader)
    (hids : ∀ p ∈ h.node.members, p ∈ cl.ids) (hsize : h.node.members.length = cl.size) {c : ℕ}
    (ht : termAt (a.log i) c = some h.node.currentTerm)
    (hq : (h.node.members.length + 1) / 2 ≤ (h.node.holders c).length) :
    ∃ b, SameLogs a b ∧ Reachable (quorums cl) b ∧
      b.CommittedUpTo (a.log i) c h.node.currentTerm := by
  have hlead := hs.leader hl
  by_cases hold : ∃ n, c ≤ n ∧ a.committed h.node.currentTerm n
  · obtain ⟨n, hcn, hcom⟩ := hold
    obtain ⟨L, hL, hown, -⟩ := hr.inv.committed_ack _ _ hcom
    obtain rfl : a.log i = L := Option.some.inj (hlead.symm.trans hL)
    exact ⟨a, SameLogs.refl a, hr, Or.inr ⟨_, n, _, le_rfl, hcom, hlead, hcn,
      termAt_le_length hown, Agree.refl _ _ _⟩⟩
  · have htrack : h.node.Tracking := ⟨(hs.tracking hl).1, (hs.tracking hl).2⟩
    have hack : ∀ q ∈ (h.node.holders c).toFinset, a.ack q h.node.currentTerm c := by
      intro q hmem
      obtain ⟨hqm, hcq⟩ := List.mem_filter.mp (List.mem_toFinset.mp hmem)
      obtain ⟨L, hL, -, hall⟩ := hs.matched hl q hqm
      obtain rfl : a.log i = L := Option.some.inj (hlead.symm.trans hL)
      exact (hall c (by simpa using hcq) ht).resolve_right hold
    have hQ : (quorums cl).commit (h.node.holders c).toFinset := by
      refine ⟨?_, ?_⟩
      · intro q hmem
        have := (List.mem_filter.mp (List.mem_toFinset.mp hmem)).1
        exact List.mem_toFinset.mpr (hids q this)
      · rwa [htrack.card_holders, ← hsize]
    have hstep : Step (quorums cl) a (a.commit h.node.currentTerm c) :=
      .commit _ c _ _ hlead ht hQ hack
    refine ⟨a.commit h.node.currentTerm c, ⟨hr.inv.le hstep, rfl, rfl, rfl, rfl⟩,
      hr.step hstep, Or.inr ⟨_, c, a.log i, le_rfl, Or.inr ⟨rfl, rfl⟩, hlead,
        le_rfl, termAt_le_length ht, Agree.refl _ _ _⟩⟩

theorem advance (hs : HostSim a i h) (hr : Reachable (quorums cl) a) (hl : h.node.state = .leader)
    (hids : ∀ p ∈ h.node.members, p ∈ cl.ids) (hsize : h.node.members.length = cl.size) :
    ∃ b, SameLogs a b ∧ Reachable (quorums cl) b ∧
      HostSim b i { h with node := h.node.advanceCommitIndex } := by
  have htrack : h.node.Tracking := ⟨(hs.tracking hl).1, (hs.tracking hl).2⟩
  rw [htrack.advanceCommitIndex_eq]
  split
  · rename_i hc
    have hsnap := hs.snap_le
    have ht := ((hs.represents.termAt_of_term hc.2).resolve_right (by omega)).1
    obtain ⟨b, hab, hr', hcom⟩ := hs.commit hr hl hids hsize ht
      ((htrack.le_newCommit_iff _).mp le_rfl)
    rw [← hab.log] at hcom ht
    exact ⟨b, hab, hr', (hab.hostSim hs).raiseCommit hc.1.le (termAt_le_length ht) hcom⟩
  · exact ⟨a, SameLogs.refl a, hr, hs⟩

/-- The match index of another node changes. -/
theorem setMatch (hs : HostSim a i h) (hl : h.node.state = .leader) {p : String}
    (hp : p ∈ h.node.peers) {m : ℕ} (hm : Matched a p h.node.currentTerm m)
    (next : IndexMap) :
    HostSim a i { h with node := { h.node with
      matchIndex := h.node.matchIndex.set p m, nextIndex := next } } := by
  obtain ⟨hnodup, hkeys⟩ := hs.tracking hl
  have hne : h.node.id ≠ p := fun heq => (List.nodup_cons.mp hnodup).1 (heq ▸ hp)
  have hmem : p ∈ h.node.matchIndex.keys :=
    hkeys.mem_iff.mpr (List.mem_cons_of_mem _ hp)
  refine
    { hs with
      tracking := fun _ => ⟨hnodup, (IndexMap.keys_set_of_mem hmem m).trans hkeys⟩
      own := fun _ => (IndexMap.get_set_ne _ hne m).trans (hs.own hl)
      matched := fun _ q hq => ?_ }
  by_cases hqp : q = p
  · subst hqp
    simpa only [IndexMap.get_set_self] using hm
  · simpa only [IndexMap.get_set_ne _ hqp] using hs.matched hl q hq

end HostSim

/-- A node that has been brought up to a committed index by a snapshot counts for
that index with every later leader. -/
theorem Matched.of_committed {cl : Cluster} {a : State String Entry}
    (hinv : Inv (quorums cl) a) {F L : List Entry} {s U T : ℕ} (p : String)
    (hcom : a.CommittedUpTo F s U) (hUT : U ≤ T) (hL : a.lead T = some L) :
    Matched a p T s := by
  obtain ⟨hag, hle⟩ := hinv.committedUpTo_lead hcom hL hUT
  refine ⟨L, hL, hle, ?_⟩
  intro n hn ht
  rcases hcom with rfl | ⟨T', n', L', hT', hcom, hL', hsn, -, hag'⟩
  · obtain ⟨k, e, hk, -⟩ := termAt_pos ht (hinv.lead_pos T L hL)
    omega
  · have ht' : termAt L' n = some T := by
      rw [← termAt_congr hag' hn, termAt_congr hag hn, ht]
    have := hinv.termAt_lead_le hL' ht'
    obtain rfl : T' = T := by omega
    exact Or.inr ⟨n', hn.trans hsn, hcom⟩

namespace HostSim

variable {cl : Cluster} {a : State String Entry} {i : String} {h : Host} {F : List Entry}

/-- What a leader sends is its log behind the previous index, if it has not
compacted any of it. -/
theorem appendArgs (hs : HostSim a i h) (hid : h.node.id = i) (hl : h.node.state = .leader)
    {peer : String}
    {prevTerm : ℕ} (ht : h.node.log.term (prevIndex (h.node.nextIndex.get peer)) = .ok prevTerm)
    {l : RaftLog} (hrep : Represents (a.log i) l) (hlt : l.snapIndex < h.node.nextIndex.get peer) :
    CallSim a h.node.id peer (a.log i)
      (.appendEntries (h.node.appendArgs peer prevTerm l) none) := by
  have hprev : prevIndex (h.node.nextIndex.get peer) = h.node.nextIndex.get peer - 1 := by
    rw [prevIndex, if_neg (by omega)]
  refine ⟨⟨hs.represents.consecutive, a.log i, hs.leader hl, List.prefix_rfl⟩,
    hid.symm ▸ hs.noted_of_term ht, ?_, hs.commit_le, hs.committed, by simp⟩
  simp only [Node.appendArgs, hprev]
  exact hrep.slice hlt

theorem snapshotArgs (hs : HostSim a i h) (hl : h.node.state = .leader) (peer : String)
    {l : RaftLog} (ht : a.Stamped (a.log i) h.node.log.snapIndex l.snapTerm h.node.currentTerm) :
    CallSim a h.node.id peer (a.log i) (.installSnapshot (h.node.snapshotArgs l) none) :=
  ⟨⟨hs.represents.consecutive, a.log i, hs.leader hl, List.prefix_rfl⟩, ht,
    hs.committed.of_le hs.snap_le⟩

/-- A leader handles the reply to a request to append entries. -/
theorem handleAppendReply (hs : HostSim a i h) (hr : Reachable (quorums cl) a)
    (hids : ∀ p ∈ h.node.members, p ∈ cl.ids) (hsize : h.node.members.length = cl.size)
    {peer src : String} (hp : peer ∈ h.node.peers) {args : AppendEntriesArgs}
    {reply : AppendEntriesReply}
    (hcall : CallSim a src peer F (.appendEntries args (some reply))) :
    ∃ b, Touched a b i ∧ b.log = a.log ∧ Reachable (quorums cl) b ∧
      HostSim b i { h with node := h.node.handleAppendReply peer args reply } := by
  obtain ⟨-, hprev, hes, -, -, hmatched⟩ := hcall
  rcases h.node.handleAppendReply_cases peer args reply with
    ⟨hlt, heq⟩ | heq | ⟨hl, ht, hsucc, m, x, heq, hm, -⟩ | ⟨-, -, -, x, heq, -⟩
  · rw [heq]
    exact hs.learn hr hlt
  · rw [heq]
    exact ⟨a, Touched.refl a i, rfl, hr, hs⟩
  · rw [heq]
    have hset : HostSim a i { h with node := { h.node with matchIndex := m, nextIndex := x } } := by
      rcases hm with rfl | rfl
      · exact { hs with }
      · have hlen : args.prevLogIndex + args.entries.length = F.length := by
          have := hprev.stamped.le_length
          rw [hes, List.length_drop]
          omega
        rw [hlen]
        exact hs.setMatch hl hp (ht ▸ hmatched reply rfl hsucc) x
    obtain ⟨b, hab, hr', hadv⟩ := hset.advance hr hl hids hsize
    exact ⟨b, Touched.of_sameLogs hab i, hab.log, hr', hadv⟩
  · rw [heq]
    exact ⟨a, Touched.refl a i, rfl, hr, { hs with }⟩

/-- A leader handles the reply to a snapshot, which may be of an earlier term. -/
theorem handleSnapshotReply (hs : HostSim a i h) (hr : Reachable (quorums cl) a)
    {peer src : String} (hp : peer ∈ h.node.peers) {args : InstallSnapshotArgs}
    {reply : InstallSnapshotReply} (hterm : args.term ≤ h.node.currentTerm)
    (hcall : CallSim a src peer F (.installSnapshot args (some reply))) :
    ∃ b, Touched a b i ∧ b.log = a.log ∧ Reachable (quorums cl) b ∧
      HostSim b i { h with node := h.node.handleSnapshotReply peer args reply } := by
  rcases h.node.handleSnapshotReply_cases peer args reply with ⟨hlt, heq⟩ | heq | ⟨hl, m, heq, hm⟩
  · rw [heq]
    exact hs.learn hr hlt
  · rw [heq]
    exact ⟨a, Touched.refl a i, rfl, hr, hs⟩
  · rw [heq]
    refine ⟨a, Touched.refl a i, rfl, hr, ?_⟩
    rcases hm with rfl | rfl
    · exact { hs with }
    · exact hs.setMatch hl hp (Matched.of_committed hr.inv peer hcall.2.2 hterm (hs.leader hl)) _

end HostSim

end Raft

end VaultFS
