import VaultFS.Raft.Cluster.LeaderSim

/-!
# The follower's part of the simulation

What a node does when it learns of a term, votes, takes over entries of a leader
or installs a snapshot.
-/

namespace ReplicatedLog

variable {ε : Type*} {F F' L G : List ε} {m : ℕ}

/-- Merging in a piece of a log makes the log agree with it. -/
theorem Merged.agree_self (h : Merged F L m F') : Agree 0 m F' L := by
  rcases h with ⟨hag, rfl⟩ | ⟨-, rfl⟩
  · exact hag
  · exact Agree.of_take L m

/-- A piece of a log is a piece of every longer one. -/
theorem Merged.of_isPrefix (h : Merged F G m F') (hpre : G <+: L) (hm : m ≤ G.length) :
    Merged F L m F' := by
  have hGL : Agree 0 m G L := (Agree.of_isPrefix hpre).mono le_rfl hm
  rcases h with ⟨hag, rfl⟩ | ⟨hnot, rfl⟩
  · exact Or.inl ⟨hag.trans hGL, rfl⟩
  · exact Or.inr ⟨fun hag => hnot (hag.trans hGL.symm), hGL.take_eq⟩

/-- A log that takes over the whole of a beginning of another log stays as it is or
becomes that beginning. -/
theorem Merged.eq_or (h : Merged F L G.length F') (hpre : G <+: L) : F' = F ∨ F' = G := by
  rcases h with ⟨-, rfl⟩ | ⟨-, rfl⟩
  · exact Or.inl rfl
  · exact Or.inr (List.prefix_iff_eq_take.mp hpre).symm

/-- Log matching without a bound on the index: below the floor both logs have the
committed entries. -/
theorem Inv.agree_of_termAt_eq {ν : Type*} [HasTerm ε] {𝒬 : Quorums ν} {a : State ν ε}
    (h : Inv 𝒬 a) {q : ν} {k t : ℕ} (hL : a.lead (a.term q) = some L)
    (htF : termAt (a.log q) k = some t) (htL : termAt L k = some t) :
    Agree 0 k (a.log q) L := by
  by_cases hk : a.floor q ≤ k
  · exact h.agree_of_termAt (h.node q) hL le_rfl hk htF htL
  · exact (h.committedUpTo_lead (h.node q).committed hL le_rfl).1.mono le_rfl (by omega)

end ReplicatedLog

namespace VaultFS

namespace Raft

open ReplicatedLog

namespace HostSim

variable {cl : Cluster} {a b : State String Entry} {i : String} {h : Host}

theorem observe (hs : HostSim a i h) (hr : Reachable (quorums cl) a) (t : ℕ) :
    ∃ b, Touched a b i ∧ b.log = a.log ∧ Reachable (quorums cl) b ∧
      HostSim b i { h with node := h.node.observe t } := by
  unfold Node.observe
  split
  · rename_i hlt
    exact hs.learn hr hlt
  · exact ⟨a, Touched.refl a i, rfl, hr, hs⟩

theorem acceptLeader (hs : HostSim a i h) (hr : Reachable (quorums cl) a) {t : ℕ}
    (ht : h.node.currentTerm ≤ t) (leaderID : String) :
    ∃ b, Touched a b i ∧ b.log = a.log ∧ Reachable (quorums cl) b ∧
      HostSim b i { h with node := h.node.acceptLeader t leaderID } := by
  unfold Node.acceptLeader
  rcases ht.eq_or_lt with rfl | hlt
  · refine ⟨a, Touched.refl a i, rfl, hr, ?_⟩
    split
    · exact { hs.stepDown with }
    · exact { hs with }
  · obtain ⟨b, hab, hlog, hr', hnew⟩ := hs.learn hr hlt
    rw [if_pos (Or.inl hlt)]
    exact ⟨b, hab, hlog, hr', { hnew with }⟩

/-- A follower has a new log that keeps what is committed. -/
theorem relog (hs : HostSim a i h) (hf : h.node.state = .follower) {l : RaftLog} (hab : a ≤ b)
    (hterm : b.term i = a.term i) (hfloor : b.floor i = a.floor i)
    (hrep : Represents (b.log i) l)
    (hst : a.Noted i (a.log i) l.snapIndex l.snapTerm h.node.currentTerm)
    (hsnap : h.node.log.snapIndex ≤ l.snapIndex) (hle : l.snapIndex ≤ h.node.commitIndex)
    (hag : Agree 0 h.node.commitIndex (a.log i) (b.log i)) :
    HostSim b i { h with node := { h.node with log := l } } where
  term := hterm.trans hs.term
  represents := hrep
  noted := (hst.mono hab le_rfl).congr (hag.mono le_rfl hle).symm
  floor_le := by
    rw [hfloor]
    exact hs.floor_le.trans hsnap
  committed := (hs.committed.mono hab le_rfl).congr hag.symm
  commit_le := hag.length_le hs.commit_le
  snap_le := hle
  applied_le := hs.applied_le
  applying := hs.applying.mono hab le_rfl le_rfl hag
  delivered e he := (hs.delivered e he).mono hab
  candidate hc := by
    simp only [hf] at hc
    cases hc
  leader hl := by
    simp only [hf] at hl
    cases hl
  tracking hl := by
    simp only [hf] at hl
    cases hl
  own hl := by
    simp only [hf] at hl
    cases hl
  matched hl := by
    simp only [hf] at hl
    cases hl

end HostSim

namespace Node

/-- The loop of `HandleAppendEntries` moves the snapshot only by an intruding
`SetSnapshot`. -/
theorem snapFrom_appendNew (x : Option Intrusion) (k : ℕ) (l : RaftLog) (es : List Entry) :
    RaftLog.SnapFrom x l (appendNew x k l es) := by
  induction es generalizing k l with
  | nil => exact .refl x l
  | cons e es ih =>
      have hl := RaftLog.SnapFrom.intrude x l k
      simp only [appendNew]
      split
      · exact hl
      · split
        · unfold RaftLog.truncateAfter
          split
          · exact hl
          · exact hl
        · exact hl.trans (ih (k + 1) (l.intrude x k))

theorem snapFrom_handleAppendEntries (n : Node) (args : AppendEntriesArgs)
    (x : Option Intrusion) : RaftLog.SnapFrom x n.log (n.handleAppendEntries args x).1.log := by
  have hlog := log_of_progress (n.acceptLeader_progress args.term args.leaderID)
  rcases n.handleAppendEntries_cases args x with ⟨-, h⟩ | ⟨-, t, -, h⟩ | ⟨-, -, h⟩
  · rw [h]
    exact .refl x n.log
  · rw [h, hlog]
    exact .refl x n.log
  · rw [h, followCommit_log]
    simp only [mergedLog, hlog]
    have hloop := snapFrom_appendNew x 0 n.log args.entries
    cases x with
    | none => exact hloop
    | some y => exact hloop.trans (.setSnapshot _ rfl)

/-- The commit index follows that of the leader. -/
theorem commitIndex_handleAppendEntries (n : Node) (args : AppendEntriesArgs)
    (x : Option Intrusion) :
    (n.handleAppendEntries args x).1.commitIndex = n.commitIndex ∨
      (n.handleAppendEntries args x).1.commitIndex ≤ args.leaderCommit := by
  have hcommit := commitIndex_of_progress (n.acceptLeader_progress args.term args.leaderID)
  rcases n.handleAppendEntries_cases args x with ⟨-, h⟩ | ⟨-, t, -, h⟩ | ⟨-, -, h⟩
  · rw [h]
    exact Or.inl rfl
  · rw [h, hcommit]
    exact Or.inl rfl
  · rw [h]
    unfold followCommit
    split
    · refine Or.inr ?_
      simp only
      split
      · exact le_rfl
      · omega
    · exact Or.inl hcommit

end Node

namespace HostSim

variable {cl : Cluster} {a : State String Entry} {i : String} {h : Host}
  {args : AppendEntriesArgs} {x : Option Intrusion} {F : List Entry}

/-- What the receiver has committed, the sender has as far as its log goes. -/
theorem agree_committed (hs : HostSim a i h) (hr : Reachable (quorums cl) a)
    (hterm : h.node.currentTerm = args.term) {L : List Entry}
    (hlead : a.lead args.term = some L) (hpre : F <+: L) :
    Agree 0 (min h.node.commitIndex F.length) (a.log i) F := by
  have hcommitted := hs.committed
  rw [hterm] at hcommitted
  have hagL := (hr.inv.committedUpTo_lead hcommitted hlead le_rfl).1
  exact (hagL.mono le_rfl (Nat.min_le_left _ _)).trans
    ((Agree.of_isPrefix hpre).mono le_rfl (Nat.min_le_right _ _)).symm

/-- If the log check passes, the receiver has what the sender has up to the previous
index. At the end of its snapshot this is because it is committed, whatever term is
given there. -/
theorem agree_prev (hs : HostSim a i h) (hr : Reachable (quorums cl) a)
    (hterm : h.node.currentTerm = args.term) {L : List Entry}
    (hlead : a.lead args.term = some L) (hpre : F <+: L)
    (hprev : a.Stamped F args.prevLogIndex args.prevLogTerm args.term)
    (hcheck : h.node.checkPrev args = none) :
    Agree 0 args.prevLogIndex (a.log i) F ∧
      (args.prevLogIndex = 0 ∨ a.floor i ≤ args.prevLogIndex) := by
  have hfloor := hs.floor_le
  rcases Indexed.term_of_checkPrev hcheck with h0 | ht
  · exact ⟨Agree.empty (by omega), Or.inl h0⟩
  · rcases hs.represents.termAt_of_term ht with ⟨htq, h0 | hlt⟩ | ⟨-, hend, -⟩
    · exact ⟨Agree.empty (by omega), Or.inl h0⟩
    · have htF := hr.inv.termAt_of_stamped (hr.inv.node i) hlead hpre hprev (by omega) htq
      have hlead' : a.lead (a.term i) = some L := by rw [hs.term, hterm, hlead]
      have hagree := hr.inv.agree_of_termAt_eq hlead' htq (termAt_of_isPrefix htF hpre)
      exact ⟨hagree.trans ((Agree.of_isPrefix hpre).mono le_rfl hprev.le_length).symm,
        Or.inr (by omega)⟩
    · have hsnap := hs.snap_le
      have hlen := hprev.le_length
      exact ⟨(hs.agree_committed hr hterm hlead hpre).mono le_rfl (by omega), Or.inr (by omega)⟩

/-- There is an index above the floor up to which the receiver has what the sender
has. It is the previous index of the request, except for a request from the
beginning that finds the first entry compacted. -/
theorem anchor (hs : HostSim a i h) (hr : Reachable (quorums cl) a)
    (hterm : h.node.currentTerm = args.term) {L : List Entry}
    (hlead : a.lead args.term = some L) (hF : Consecutive 1 F) (hpre : F <+: L)
    (hpos : 0 < F.length) (hprev : a.Stamped F args.prevLogIndex args.prevLogTerm args.term)
    (hes : args.entries = F.drop args.prevLogIndex) (hcheck : h.node.checkPrev args = none)
    (hclear : Node.clearLookups x 0 h.node.log args.entries = true)
    (hx : ∀ y ∈ x, y.index ≤ h.node.commitIndex) :
    ∃ p, a.floor i ≤ p ∧ p ≤ F.length ∧ Agree 0 p (a.log i) F := by
  obtain ⟨hag, h0 | hfloor⟩ := hs.agree_prev hr hterm hlead hpre hprev hcheck
  · have hagF := hs.agree_committed hr hterm hlead hpre
    obtain ⟨e, es, rfl⟩ := List.exists_cons_of_length_pos hpos
    rw [hes, h0, List.drop_zero] at hclear
    simp only [Node.clearLookups, Bool.and_eq_true, decide_eq_true_eq] at hclear
    have hsnap := RaftLog.SnapFrom.intrude x h.node.log 0
    have hle := hsnap.le
    have hcommit := hsnap.le_of hs.snap_le hx
    have hfloor := hs.floor_le
    have hindex := hF.head
    rcases hclear.1 with hlt | ⟨heq, -⟩
    · exact ⟨0, by omega, Nat.zero_le _, Agree.empty le_rfl⟩
    · exact ⟨1, by omega, hpos, hagF.mono le_rfl (by omega)⟩
  · exact ⟨_, hfloor, hprev.le_length, hag⟩

/-- The receiver's log after the loop of `HandleAppendEntries`. -/
theorem merge (hs : HostSim a i h) (hr : Reachable (quorums cl) a)
    (hterm : h.node.currentTerm = args.term) {L : List Entry}
    (hlead : a.lead args.term = some L) (hF : Consecutive 1 F) (hpre : F <+: L)
    (hprev : a.Stamped F args.prevLogIndex args.prevLogTerm args.term)
    (hes : args.entries = F.drop args.prevLogIndex)
    (hcheck : h.node.checkPrev args = none)
    (hclear : Node.clearLookups x 0 h.node.log args.entries = true)
    (hx : ∀ y ∈ x, y.index ≤ h.node.commitIndex) :
    ∃ b, Touched a b i ∧ b.term = a.term ∧ b.floor = a.floor ∧ Reachable (quorums cl) b ∧
      Merged (a.log i) L F.length (b.log i) ∧
      Represents (b.log i) (Node.appendNew x 0 h.node.log args.entries) ∧
      Matched b i args.term F.length := by
  have hFL : Agree 0 F.length F L := Agree.of_isPrefix hpre
  have hlead' : a.lead (a.term i) = some L := by rw [hs.term, hterm, hlead]
  have hmatch : ∀ j t, termAt (a.log i) j = some t → termAt F j = some t →
      Agree 0 j (a.log i) F := by
    intro j t htF htL
    have hagree := hr.inv.agree_of_termAt_eq hlead' htF (termAt_of_isPrefix htL hpre)
    exact hagree.trans (hFL.mono le_rfl (termAt_le_length htL)).symm
  have hagprev := (hs.agree_prev hr hterm hlead hpre hprev hcheck).1
  obtain ⟨F', hmerged, hrep⟩ := hs.represents.appendNew
    (hs.agree_committed hr hterm hlead hpre) hs.commit_le hs.snap_le (by rw [List.take_length, hes])
    hprev.le_length le_rfl hF hagprev (fun j t _ => hmatch j t) hx hclear
  replace hmerged := hmerged.of_isPrefix hpre le_rfl
  by_cases hpos : 0 < F.length
  · obtain ⟨p, hfloor, hp, hagp⟩ :=
      hs.anchor hr hterm hlead hF hpre hpos hprev hes hcheck hclear hx
    obtain ⟨t, htF⟩ := exists_termAt hp
    have htp : termAt (a.log i) p = some t := by rw [termAt_congr hagp le_rfl, htF]
    have htL := termAt_of_isPrefix htF hpre
    have hstep : Step (quorums cl) a (a.accept i args.term F.length L F') :=
      .accept i args.term p F.length L F' (hs.term.trans hterm) hlead hfloor hp hpre.length_le
        t htp htL hmerged
    have hlog : (a.accept i args.term F.length L F').log i = F' := by simp [State.accept]
    refine ⟨a.accept i args.term F.length L F',
      ⟨hr.inv.le hstep, fun _ _ => rfl, fun j hj => by simp [State.accept, hj], fun _ _ => rfl,
        rfl⟩,
      rfl, rfl, hr.step hstep, by rwa [hlog], by rwa [hlog], L, hlead, hpre.length_le, ?_⟩
    intro n hn ht
    by_cases hnf : a.floor i < n
    · exact Or.inl (Or.inr ⟨rfl, rfl, hnf, hn, ht⟩)
    · have hown := hr.inv.floor_own i L n hlead' (by omega) (by rw [hs.term, hterm]; exact ht)
      rw [hs.term, hterm] at hown
      exact Or.inr hown
  · have hzero : F.length = 0 := by omega
    have hsame : F' = a.log i := by
      rcases hmerged with ⟨-, hsame⟩ | ⟨hnot, -⟩
      · exact hsame
      · exact absurd (Agree.empty (by omega)) hnot
    rw [hsame] at hmerged hrep
    refine ⟨a, Touched.refl a i, rfl, rfl, hr, hmerged, hrep, L, hlead, by omega, ?_⟩
    intro n hn ht
    obtain ⟨k, e, hk, -⟩ := termAt_pos ht (hr.inv.lead_pos _ _ hlead)
    omega

/-- A follower of the term handles a request to append entries. -/
theorem appendEntries (hs : HostSim a i h) (hr : Reachable (quorums cl) a)
    (hterm : h.node.currentTerm = args.term) (hf : h.node.state = .follower) {dst : String}
    {reply : Option AppendEntriesReply} {src : String}
    (hcall : CallSim a src dst F (.appendEntries args reply))
    (hcheck : h.node.checkPrev args = none)
    (hclear : Node.clearLookups x 0 h.node.log args.entries = true)
    (hx : ∀ y ∈ x, y.index ≤ h.node.commitIndex ∧
      a.Noted i (a.log i) y.index y.term h.node.currentTerm) :
    ∃ b, Touched a b i ∧ Reachable (quorums cl) b ∧
      (Matched b i args.term F.length ∧ Agree 0 F.length (b.log i) F) ∧
      Agree 0 (h.node.mergedLog args x).snapIndex (a.log i) (b.log i) ∧
      (b.log i = a.log i ∨ b.log i = F) ∧
      h.node.commitIndex ≤ (Node.followCommit { h.node with log := h.node.mergedLog args x }
        args.leaderCommit).commitIndex ∧
      HostSim b i { h with node :=
        (Node.followCommit { h.node with log := h.node.mergedLog args x } args.leaderCommit) } := by
  obtain ⟨⟨hF, L, hlead, hpre⟩, hprev, hes, hle, hcom, -⟩ := hcall
  obtain ⟨b, hab, hbterm, hbfloor, hr', hmerged, hrep, hmatched⟩ :=
    hs.merge hr hterm hlead hF hpre hprev.stamped hes hcheck hclear fun y hy => (hx y hy).1
  have hcommitted := hs.committed
  rw [hterm] at hcommitted
  have hagL := (hr.inv.committedUpTo_lead hcommitted hlead le_rfl).1
  have hag : Agree 0 h.node.commitIndex (a.log i) (b.log i) :=
    (hmerged.agree (Agree.refl _ _ _) hagL.symm).symm
  -- the log after the loop, with the snapshot it has then
  have hloop : HostSim b i { h with node := { h.node with
      log := Node.appendNew x 0 h.node.log args.entries } } := by
    have hfrom := Node.snapFrom_appendNew x 0 h.node.log args.entries
    refine hs.relog hf hab.le (by rw [hbterm]) (by rw [hbfloor]) hrep ?_ hfrom.le
      (hfrom.le_of hs.snap_le fun y hy => (hx y hy).1) hag
    rcases hfrom with ⟨hindex, hsame⟩ | ⟨y, hy, -, hindex, hsame⟩
    · rw [hindex, hsame]
      exact hs.noted
    · rw [hindex, hsame]
      exact (hx y hy).2
  have hlog : HostSim b i { h with node := { h.node with log := h.node.mergedLog args x } } := by
    unfold Node.mergedLog
    cases x with
    | none => exact hloop
    | some y =>
        obtain ⟨hy, hty⟩ := hx y rfl
        exact hloop.setSnapshot hy ((hty.mono hab.le le_rfl).congr (hag.mono le_rfl hy).symm)
  have hbF : Agree 0 F.length (b.log i) F := hmerged.agree_self.trans (Agree.of_isPrefix hpre).symm
  refine ⟨b, hab, hr', ⟨hmatched, hbF⟩, hag.mono le_rfl hlog.snap_le, hmerged.eq_or hpre, ?_⟩
  have hlast : (h.node.mergedLog args x).lastIndex = (b.log i).length := hlog.represents.lastIndex
  have hlen := hbF.symm.length_le le_rfl
  unfold Node.followCommit
  split
  · rename_i hgt
    simp only at hgt
    have hc : (if args.leaderCommit < (h.node.mergedLog args x).lastIndex then args.leaderCommit
        else (h.node.mergedLog args x).lastIndex) = args.leaderCommit := by
      split
      · rfl
      · omega
    simp only [hc]
    refine ⟨hgt.le, hlog.raiseCommit hgt.le (hle.trans hlen) ?_⟩
    simp only [hterm]
    exact (hcom.mono hab.le le_rfl).congr (hbF.mono le_rfl hle)
  · exact ⟨le_rfl, hlog⟩

/-- A node of the term installs a snapshot. -/
theorem install (hs : HostSim a i h) (hr : Reachable (quorums cl) a) {args : InstallSnapshotArgs}
    (hterm : h.node.currentTerm = args.term) (hnl : h.node.state ≠ .leader) {src dst : String}
    {reply : Option InstallSnapshotReply}
    (hcall : CallSim a src dst F (.installSnapshot args reply))
    (hsnap : h.node.log.snapIndex < args.lastIncludedIndex) :
    ∃ b, Touched a b i ∧ Reachable (quorums cl) b ∧ Agree 0 args.lastIncludedIndex F (b.log i) ∧
      HostSim b i { h with node := { h.node with
        log := h.node.log.setSnapshot args.lastIncludedIndex args.lastIncludedTerm
        commitIndex := max h.node.commitIndex args.lastIncludedIndex
        lastApplied := max h.node.lastApplied args.lastIncludedIndex } } := by
  obtain ⟨⟨hF, L, hlead, hpre⟩, htF, hcomF⟩ := hcall
  generalize hidx : args.lastIncludedIndex = s at *
  have hsF : s ≤ F.length := htF.le_length
  have hFL : Agree 0 s F L := (Agree.of_isPrefix hpre).mono le_rfl hsF
  have hsL : s ≤ L.length := hsF.trans hpre.length_le
  have hcomL : a.CommittedUpTo L s args.term := hcomF.congr hFL.symm
  have hstep : Step (quorums cl) a (a.install i s L) :=
    .install i args.term s L (hs.term.trans hterm) hlead hsL (hs.floor_le.trans hsnap.le) hcomL
  have hab := hr.inv.le hstep
  have hlog : (a.install i s L).log i = L.take s ++ (a.log i).drop s := by simp [State.install]
  have hnew : Agree 0 s ((a.install i s L).log i) L := by
    intro j _ hj
    rw [hlog, Agree.getElem?_splice hsL, if_pos hj]
  have hrep : Represents ((a.install i s L).log i)
      (h.node.log.setSnapshot s args.lastIncludedTerm) := by
    rw [hlog]
    refine hs.represents.splice hsnap ?_ hsL args.lastIncludedTerm
    rw [← hFL.take_eq]
    exact hF.take s
  obtain ⟨-, hsnap', hsnapTerm⟩ :=
    (h.node.log.setSnapshot_cases s args.lastIncludedTerm).resolve_left (by omega)
  -- what the node had committed is what the leader has there
  have hcommitted := hs.committed
  rw [hterm] at hcommitted
  have hold : Agree 0 h.node.commitIndex (a.log i) ((a.install i s L).log i) := by
    intro j hj hjc
    rw [hlog, Agree.getElem?_splice hsL]
    split
    · exact (hr.inv.committedUpTo_lead hcommitted hlead le_rfl).1 j hj hjc
    · rfl
  refine ⟨a.install i s L, ⟨hab, fun _ _ => rfl, fun j hj => by simp [State.install, hj],
      fun j hj => by simp [State.install, hj], rfl⟩,
    hr.step hstep, hFL.trans hnew.symm, ?_⟩
  refine
    { term := hs.term
      represents := hrep
      noted := ?_
      floor_le := ?_
      committed := ?_
      commit_le := Nat.max_le.mpr ⟨hold.length_le hs.commit_le, hnew.symm.length_le hsL⟩
      snap_le := ?_
      applied_le := max_le_max hs.applied_le le_rfl
      applying := hs.applying.mono hab le_rfl (Nat.le_max_left _ _) hold
      delivered := fun e he => (hs.delivered e he).mono hab
      candidate := fun _ hnone => ?_
      leader := fun hl => absurd hl hnl
      tracking := fun hl => absurd hl hnl
      own := fun hl => absurd hl hnl
      matched := fun hl => absurd hl hnl }
  · simp only [hsnap', hsnapTerm, hterm]
    refine Or.inr ⟨?_, (htF.mono hab le_rfl).congr (hnew.trans hFL.symm)⟩
    simpa [State.install] using Nat.zero_lt_of_lt hsnap
  · simp [State.install, hsnap']
  · simp only [hterm]
    rcases Nat.le_total h.node.commitIndex s with hle | hle
    · rw [Nat.max_eq_right hle]
      exact (hcomL.mono hab le_rfl).congr hnew
    · rw [Nat.max_eq_left hle]
      exact (hcommitted.mono hab le_rfl).congr hold.symm
  · simp only [hsnap']
    exact Nat.le_max_right _ _
  · simp only [hterm] at hnone
    have hsome : (a.install i s L).lead args.term = some L := hlead
    rw [hnone] at hsome
    cases hsome

/-- The comparison of logs in `HandleRequestVote`. -/
theorem upToDate (hs : HostSim a i h) (hr : Reachable (quorums cl) a) {args : RequestVoteArgs}
    (hindex : args.lastLogIndex = F.length)
    (hup : h.node.logUpToDate args.lastLogIndex args.lastLogTerm = true) :
    UpToDate F args.lastLogTerm (a.log i) := by
  have hle := hr.inv.le_of_stamped hs.stamped_lastTerm (termAt_length _)
  unfold Node.logUpToDate at hup
  rw [hindex, hs.represents.lastIndex] at hup
  split at hup
  · exact Or.inl (hle.trans_lt (of_decide_eq_true hup))
  · rename_i heq
    have hlen := of_decide_eq_true hup
    unfold UpToDate
    omega

/-- A node handles a vote request. A vote that it grants counts only while the
term has no leader. -/
theorem handleRequestVote (hs : HostSim a i h) (hr : Reachable (quorums cl) a)
    {args : RequestVoteArgs} {reply : Option RequestVoteReply} {src dst : String}
    (hcall : CallSim a src dst F (.requestVote args reply)) :
    ∃ b, Touched a b i ∧ b.log = a.log ∧ Reachable (quorums cl) b ∧
      HostSim b i { h with node := (h.node.handleRequestVote args).1 } ∧
      ((h.node.handleRequestVote args).2.voteGranted = true →
        b.voted i args.term src ∨ b.lead args.term ≠ none) := by
  obtain ⟨b, hab, hlog, hr', hobs⟩ := hs.observe hr args.term
  rcases h.node.handleRequestVote_cases args with ⟨-, heq⟩ | ⟨-, heq⟩ | ⟨hle, -, hup, heq⟩
  · rw [heq]
    exact ⟨a, Touched.refl a i, rfl, hr, hs, nofun⟩
  · rw [heq]
    exact ⟨b, hab, hlog, hr', hobs, nofun⟩
  · rw [heq]
    obtain ⟨hcand, hindex⟩ := hcall.mono hab.le
    by_cases hlead : b.lead args.term = none
    · have hstep : Step (quorums cl) b (b.vote i args.term src) :=
        .vote i src args.term F _ (hobs.term.trans (Node.observe_currentTerm hle)) hlead hcand
          (hobs.upToDate hr' hindex hup)
      have hsame : SameLogs b (b.vote i args.term src) := ⟨hr'.inv.le hstep, rfl, rfl, rfl, rfl⟩
      exact ⟨b.vote i args.term src, hab.trans (Touched.of_sameLogs hsame i), hlog,
        hr'.step hstep, { hsame.hostSim hobs with }, fun _ => Or.inl (Or.inr ⟨rfl, rfl, rfl⟩)⟩
    · exact ⟨b, hab, hlog, hr', { hobs with }, fun _ => Or.inr hlead⟩

/-- A node handles a request to append entries. -/
theorem handleAppendEntries (hs : HostSim a i h) (hr : Reachable (quorums cl) a) {src dst : String}
    {reply : Option AppendEntriesReply} (hcall : CallSim a src dst F (.appendEntries args reply))
    (hclear : h.node.currentTerm ≤ args.term → h.node.checkPrev args = none →
      Node.clearLookups x 0 h.node.log args.entries = true)
    (hx : ∀ y ∈ x, y.index ≤ h.node.commitIndex ∧
      a.Noted i (a.log i) y.index y.term h.node.currentTerm) :
    ∃ b, Touched a b i ∧ Reachable (quorums cl) b ∧
      HostSim b i { h with node := (h.node.handleAppendEntries args x).1 } ∧
      Agree 0 (h.node.handleAppendEntries args x).1.log.snapIndex (a.log i) (b.log i) ∧
      (b.log i = a.log i ∨ b.log i = F) ∧
      h.node.commitIndex ≤ (h.node.handleAppendEntries args x).1.commitIndex ∧
      ((h.node.handleAppendEntries args x).2.success = true →
        Matched b i args.term F.length ∧ Agree 0 F.length (b.log i) F) := by
  rcases h.node.handleAppendEntries_cases args x with
    ⟨-, heq⟩ | ⟨hle, t, -, heq⟩ | ⟨hle, hprev, heq⟩
  · rw [heq]
    exact ⟨a, Touched.refl a i, hr, hs, Agree.refl _ _ _, Or.inl rfl, le_rfl, nofun⟩
  · rw [heq]
    obtain ⟨b, hab, hlog, hr', hacc⟩ := hs.acceptLeader hr hle args.leaderID
    exact ⟨b, hab, hr', hacc, hlog ▸ Agree.refl _ _ _, Or.inl (by rw [hlog]),
      (Node.commitIndex_of_progress
        (h.node.acceptLeader_progress args.term args.leaderID)).ge, nofun⟩
  · rw [heq]
    obtain ⟨b, hab, hlog, hr', hacc⟩ := hs.acceptLeader hr hle args.leaderID
    have hold := h.node.acceptLeader_progress args.term args.leaderID
    obtain ⟨hterm, hf⟩ : (h.node.acceptLeader args.term args.leaderID).currentTerm = args.term ∧
        (h.node.acceptLeader args.term args.leaderID).state = .follower := by
      rcases Node.acceptLeader_role args.leaderID hle with ⟨heq, hfol, hrole⟩ | ⟨-, hrole⟩
      · exact ⟨(congrArg Role.currentTerm hrole).trans heq, (congrArg Role.state hrole).trans hfol⟩
      · exact ⟨congrArg Role.currentTerm hrole, congrArg Role.state hrole⟩
    have hclear' := hclear hle (Indexed.checkPrev_acceptLeader .. ▸ hprev)
    rw [← Node.log_of_progress hold] at hclear'
    obtain ⟨c, hbc, hr'', hmatched, hag, hfull, hcommit, hnew⟩ := hacc.appendEntries hr' hterm hf
      (hcall.mono hab.le) hprev hclear' (by
        intro y hy
        rw [hlog, hterm]
        exact ⟨(hx y hy).1.trans (Node.commitIndex_of_progress hold).ge,
          (hx y hy).2.mono hab.le hle⟩)
    refine ⟨c, hab.trans hbc, hr'', hnew, ?_, ?_, ?_, fun _ => hmatched⟩
    · rw [Node.followCommit_log, ← hlog]
      exact hag
    · rw [← hlog]
      exact hfull
    · exact (Node.commitIndex_of_progress hold).ge.trans hcommit

/-- A node handles a snapshot. If it installs it, its log begins like that of the
sender. -/
theorem handleInstallSnapshot (hs : HostSim a i h) (hr : Reachable (quorums cl) a)
    {args : InstallSnapshotArgs} {reply : Option InstallSnapshotReply} {src dst : String}
    (hcall : CallSim a src dst F (.installSnapshot args reply))
    (hnl : h.node.currentTerm = args.term → h.node.state ≠ .leader) :
    ∃ b, Touched a b i ∧ Reachable (quorums cl) b ∧
      HostSim b i { h with node := (h.node.handleInstallSnapshot args).1 } ∧
      ((h.node.handleInstallSnapshot args).1.log.snapIndex = h.node.log.snapIndex ∧
          b.log i = a.log i ∨
        h.node.log.snapIndex < (h.node.handleInstallSnapshot args).1.log.snapIndex ∧
          Agree 0 (h.node.handleInstallSnapshot args).1.log.snapIndex F (b.log i)) := by
  obtain ⟨b, hab, hlog, hr', hobs⟩ := hs.observe hr args.term
  have hold := h.node.observe_progress args.term
  rcases h.node.handleInstallSnapshot_cases args with ⟨-, heq⟩ | ⟨-, -, heq⟩ | ⟨hle, hlt, heq⟩
  · rw [heq]
    exact ⟨a, Touched.refl a i, hr, hs, Or.inl ⟨rfl, rfl⟩⟩
  · rw [heq]
    refine ⟨b, hab, hr', { hobs with }, Or.inl ⟨?_, by rw [hlog]⟩⟩
    exact congrArg RaftLog.snapIndex (Node.log_of_progress hold)
  · rw [heq]
    have hnl' : (h.node.observe args.term).state ≠ .leader := by
      rcases Node.observe_role h.node args.term with hrole | ⟨-, hrole⟩
      · have hterm := (congrArg Role.currentTerm hrole).symm.trans (Node.observe_currentTerm hle)
        exact fun hl => hnl hterm ((congrArg Role.state hrole).symm.trans hl)
      · exact fun hl => nomatch (congrArg Role.state hrole).symm.trans hl
    obtain ⟨c, hbc, hr'', hag, hnew⟩ := hobs.install hr' (Node.observe_currentTerm hle) hnl'
      (hcall.mono hab.le) (by rwa [Node.log_of_progress hold])
    simp only [Node.log_of_progress hold, Node.commitIndex_of_progress hold,
      Node.lastApplied_of_progress hold] at hnew
    have hsnap := h.node.log.snapIndex_setSnapshot args.lastIncludedIndex args.lastIncludedTerm
    rw [Nat.max_eq_right hlt.le] at hsnap
    refine ⟨c, hab.trans hbc, hr'', { hnew with }, Or.inr ?_⟩
    simp only [hsnap]
    exact ⟨hlt, hag⟩

end HostSim

end Raft

end VaultFS
