import VaultFS.Raft.Cluster.Round
import VaultFS.Raft.Cluster.Uncompacted

/-!
# A lagging follower catches up

A leader makes round after round with one peer. A rejected request moves the next
index of the peer down, by whichever rule the leader uses. When the previous entry is
no longer in the leader's log, a snapshot puts the peer at the beginning of that log,
and the round after it succeeds. So the number of rounds is bounded by the next index.

This needs the two logs to be compacted in a way that the next index can tell
(`roundAboveSnapshot`). A request that is cut out of a log from its compacted part
carries nothing and succeeds, and a peer that has compacted more than the leader
rejects what it has and ignores the snapshot. It also needs that both nodes have the
right term for the end of their snapshots (`Exact`): a peer that got another one from
a leader that read its index and its term at different times rejects the entries
behind its snapshot from a leader that has the entry there.
-/

namespace ReplicatedLog

variable {ν ε : Type*} [HasTerm ε] {𝒬 : Quorums ν} {a : State ν ε}

/-- A term of a sound log that a leader has at the same index or behind it is the leader's term
at that index. -/
theorem Inv.termAt_of_sound (h : Inv 𝒬 a) {F L : List ε} {f B U j k t : ℕ} (hF : a.Sound F f B)
    (hL : a.lead U = some L) (hlow : Agree 0 f F L) (hkj : k ≤ j) (htF : termAt F k = some t)
    (htL : termAt L j = some t) : termAt L k = some t := by
  by_cases hk : k ≤ f
  · rw [← termAt_congr hlow hk, htF]
  · obtain ⟨k, rfl⟩ : ∃ m, k = m + 1 := ⟨k - 1, by omega⟩
    obtain ⟨j, rfl⟩ : ∃ m, j = m + 1 := ⟨j - 1, by omega⟩
    obtain ⟨e, he, hte⟩ := termAt_succ_eq_some.mp htF
    obtain ⟨e', he', hte'⟩ := termAt_succ_eq_some.mp htL
    have hag := h.agree_of_common_term hF hL (by omega) (by omega) he he' (hte.trans hte'.symm)
    rw [hag k (by omega) (Nat.lt_succ_self k)] at he
    exact termAt_succ_eq_some.mpr ⟨e, he, hte⟩

end ReplicatedLog

namespace VaultFS

namespace Raft

open ReplicatedLog Transition

namespace Node

theorem scanHint_le (l : RaftLog) (t i : ℕ) : scanHint l t i ≤ i := by
  induction i with
  | zero => exact le_rfl
  | succ i ih =>
      unfold scanHint
      split
      · cases l.term i with
        | error e => exact le_rfl
        | ok t' =>
            simp only
            split
            · exact le_rfl
            · exact ih.trans (Nat.le_succ i)
      · exact le_rfl

/-- The index that a rejection suggests is not behind the previous index. -/
theorem conflictHint_le (n : Node) (prev prevTerm : ℕ) :
    (n.conflictHint prev prevTerm).1 ≤ prev := by
  unfold conflictHint
  split
  · assumption
  · exact scanHint_le n.log prevTerm prev

/-- The leader's scan keeps the suggestion or stops at an entry of the term. -/
theorem scanConflict_cases (l : RaftLog) (t fallback i : ℕ) :
    scanConflict l t fallback i = fallback ∨
      ∃ j ≤ i, l.term j = .ok t ∧ scanConflict l t fallback i = j + 1 := by
  induction i with
  | zero => exact Or.inl rfl
  | succ i ih =>
      unfold scanConflict
      split
      · cases ht : l.term (i + 1) with
        | error e => exact Or.inl rfl
        | ok t' =>
            simp only
            split
            · rename_i heq
              exact Or.inr ⟨i + 1, le_rfl, by rw [ht, heq], rfl⟩
            · split
              · exact Or.inl rfl
              · rcases ih with hfall | ⟨j, hj, htj, heq⟩
                · exact Or.inl hfall
                · exact Or.inr ⟨j, hj.trans (Nat.le_succ i), htj, heq⟩
      · exact Or.inl rfl

/-- What the leader does with a rejection of its term that suggests an index. -/
theorem handleAppendReply_reject {n : Node} {peer : String} {args : AppendEntriesArgs}
    {reply : AppendEntriesReply} (hl : n.state = .leader) (ht : n.currentTerm = args.term)
    (hreply : reply.term = args.term) (hfail : reply.success = false)
    (hpos : 0 < reply.conflictIndex) :
    n.handleAppendReply peer args reply =
      { n with
        nextIndex := n.nextIndex.set peer (if reply.conflictTerm ≠ 0 then
          scanConflict n.log reply.conflictTerm reply.conflictIndex n.log.lastIndex
          else reply.conflictIndex) } := by
  unfold handleAppendReply
  rw [if_neg (by omega), if_neg (by simp [hl, ht]), if_neg (by simp [hfail]), if_pos hpos]
  split
  · rfl
  · rfl

theorem replicateTo_send {n : Node} {peer : String} {args : AppendEntriesArgs}
    (h : n.replicateTo peer none = (n, .send args)) :
    ∃ prevTerm, n.log.term (prevIndex (n.nextIndex.get peer)) = .ok prevTerm ∧
      args = n.appendArgs peer prevTerm n.log := by
  rcases n.replicateTo_cases peer none with ⟨-, heq⟩ | ⟨-, heq⟩ | ⟨-, t, log, ht, rfl, heq⟩
  · rw [heq] at h
    cases h
  · rw [heq] at h
    cases h
  · rw [heq] at h
    simp only [Prod.mk.injEq, Replication.send.injEq] at h
    exact ⟨t, ht, h.2.symm⟩

/-- A rejection is about an entry that is missing or of another term. -/
theorem checkPrev_some {n : Node} {args : AppendEntriesArgs} {t : ℕ}
    (h : n.checkPrev args = some t) : 0 < args.prevLogIndex ∧
      ((t = 0 ∧ ∃ err, n.log.term args.prevLogIndex = .error err) ∨
        n.log.term args.prevLogIndex = .ok t ∧ t ≠ args.prevLogTerm) := by
  unfold checkPrev at h
  split at h
  · rename_i hpos
    refine ⟨hpos, ?_⟩
    cases ht : n.log.term args.prevLogIndex with
    | error e =>
        simp only [ht, Option.some.injEq] at h
        exact Or.inl ⟨h.symm, e, rfl⟩
    | ok t' =>
        simp only [ht] at h
        split at h
        · rename_i hne
          obtain rfl := Option.some.inj h
          exact Or.inr ⟨rfl, hne⟩
        · cases h
  · cases h

/-- A leader that gets a reply of its term keeps its role. -/
theorem handleAppendReply_same {n : Node} {peer : String} {args : AppendEntriesArgs}
    {reply : AppendEntriesReply} (hreply : reply.term ≤ n.currentTerm) :
    (n.handleAppendReply peer args reply).role = n.role := by
  rcases n.handleAppendReply_cases peer args reply with
    ⟨hlt, -⟩ | heq | ⟨-, -, -, m, x, heq, -⟩ | ⟨-, -, -, x, heq, -⟩
  · omega
  · rw [heq]
  · rw [heq]
    exact advanceCommitIndex_role _
  · rw [heq]
    rfl

/-- A request without entries from the beginning succeeds and leaves the log alone. -/
theorem handleAppendEntries_empty {n : Node} (args : AppendEntriesArgs)
    (h : n.currentTerm ≤ args.term) (hprev : args.prevLogIndex = 0) (hes : args.entries = []) :
    (n.handleAppendEntries args none).1.currentTerm = args.term ∧
      (n.handleAppendEntries args none).2.success = true ∧
      (n.handleAppendEntries args none).2.term = args.term ∧
      (n.handleAppendEntries args none).1.log = n.log := by
  obtain ⟨hterm, hreply⟩ := handleAppendEntries_term h none
  refine ⟨hterm, ?_, hreply, ?_⟩ <;>
    rcases n.handleAppendEntries_cases args none with ⟨hlt, -⟩ | ⟨-, t, hcheck, -⟩ | ⟨-, -, heq⟩
  · omega
  · have := (checkPrev_some hcheck).1
    omega
  · rw [heq]
  · omega
  · have := (checkPrev_some hcheck).1
    omega
  · rw [heq, followCommit_log]
    simp only [mergedLog, hes, appendNew]
    exact log_of_progress (n.acceptLeader_progress args.term args.leaderID)

theorem advanceCommitIndex_indices (n : Node) :
    n.advanceCommitIndex.nextIndex = n.nextIndex ∧
      n.advanceCommitIndex.matchIndex = n.matchIndex := by
  rcases n.advanceCommitIndex_cases with h | ⟨c, h, -⟩
  · rw [h]
    exact ⟨rfl, rfl⟩
  · rw [h]
    exact ⟨rfl, rfl⟩

/-- A success that matches nothing leaves the indices of the peer alone. -/
theorem handleAppendReply_empty {n : Node} (peer : String) (args : AppendEntriesArgs)
    {reply : AppendEntriesReply} (hreply : reply.term ≤ n.currentTerm)
    (hsucc : reply.success = true) (hnone : args.prevLogIndex + args.entries.length = 0)
    (hnext : n.nextIndex.get peer = 1) (hmatch : n.matchIndex.get peer = 0) :
    (n.handleAppendReply peer args reply).role = n.role ∧
      (n.handleAppendReply peer args reply).nextIndex.get peer = 1 ∧
      (n.handleAppendReply peer args reply).matchIndex.get peer = 0 := by
  refine ⟨handleAppendReply_same hreply, ?_⟩
  rcases n.handleAppendReply_cases peer args reply with
    ⟨hlt, -⟩ | heq | ⟨-, -, -, m, x, heq, hm, rfl⟩ | ⟨-, -, hfail, -⟩
  · omega
  · rw [heq]
    exact ⟨hnext, hmatch⟩
  · have hget : IndexMap.get m peer = 0 := by
      rcases hm with rfl | rfl
      · exact hmatch
      · rw [IndexMap.get_set_self, hnone]
    rw [heq, (advanceCommitIndex_indices _).1, (advanceCommitIndex_indices _).2]
    exact ⟨by simp [hget], hget⟩
  · rw [hsucc] at hfail
    cases hfail

end Node

/-- In the state before a round: a request that carries entries starts above the
leader's snapshot, and above that of the peer unless the peer has compacted at most one
entry; a peer that gets a snapshot has not compacted more than the leader. -/
def roundAboveSnapshot (w : World) (l p : String) : Prop :=
  (((w.hosts l).node.replicateTo p none).2 = .snapshot →
    (w.hosts p).node.log.snapIndex ≤ (w.hosts l).node.log.snapIndex) ∧
  (((w.hosts l).node.replicateTo p none).2.sends = true →
    (w.hosts l).node.log.snapIndex < (w.hosts l).node.nextIndex.get p ∧
      ((w.hosts p).node.log.snapIndex ≤ 1 ∨
        (w.hosts p).node.log.snapIndex < (w.hosts l).node.nextIndex.get p))

instance (w : World) (l p : String) : Decidable (roundAboveSnapshot w l p) :=
  inferInstanceAs (Decidable (_ ∧ _))

/-- The two nodes have recorded the terms of the entries at the ends of their
snapshots. -/
structure BothExact (w : World) (sh : Shadow) (l p : String) : Prop where
  leader : Exact (sh.full l) (w.hosts l).node.log
  follower : Exact (sh.full p) (w.hosts p).node.log

/-- The snapshot and the log of `p` together cover the log of `l` and agree with it. -/
structure CaughtUp (w : World) (sh : Shadow) (l p : String) : Prop where
  leader : Represents (sh.full l) (w.hosts l).node.log
  follower : Represents (sh.full p) (w.hosts p).node.log
  exact : BothExact w sh l p
  agree : Agree 0 (w.hosts l).node.log.lastIndex (sh.full p) (sh.full l)

section Round

variable {cl : Cluster} {a : State String Entry} {l p : String} {hl hp : Host} {L : List Entry}

/-- What the peer has compacted is in the log of a leader that is not behind it. -/
theorem HostSim.agree_snap (hs : HostSim a p hp) (hinv : ReplicatedLog.Inv (quorums cl) a) {U : ℕ}
    (hL : a.lead U = some L) (hU : hp.node.currentTerm ≤ U) :
    Agree 0 hp.node.log.snapIndex (a.log p) L :=
  (hinv.committedUpTo_lead hs.committed hL hU).1.mono le_rfl hs.snap_le

/-- A request that starts above the snapshot of the peer, or at the only entry that the
peer has compacted, looks up nothing that is compacted. -/
theorem HostSim.clearLookups (hs : HostSim a p hp) (hx : Exact (a.log p) hp.node.log)
    (hinv : ReplicatedLog.Inv (quorums cl) a) {U : ℕ} (hL : a.lead U = some L)
    (hU : hp.node.currentTerm ≤ U) (hcons : Consecutive 1 L) {prev : ℕ}
    (hprev : hp.node.log.snapIndex ≤ 1 ∨ hp.node.log.snapIndex ≤ prev) :
    Node.clearLookups none 0 hp.node.log (L.drop prev) = true := by
  have hbehind : ∀ m ≥ hp.node.log.snapIndex, ∀ e ∈ L.drop m, hp.node.log.snapIndex < e.index := by
    intro m hm e he
    obtain ⟨k, hk⟩ := List.mem_iff_getElem?.mp he
    rw [hcons.drop m k e hk]
    omega
  by_cases hle : hp.node.log.snapIndex ≤ prev
  · exact Node.clearLookups_of_lt 0 (hbehind prev hle)
  · -- the first entry is the last one of the snapshot
    have hone : hp.node.log.snapIndex = 1 := by omega
    obtain rfl : prev = 0 := by omega
    have hag := hs.agree_snap hinv hL hU
    rw [Exact, termAt_congr hag le_rfl, hone] at hx
    obtain ⟨e, he, hte⟩ := termAt_succ_eq_some.mp hx
    cases L with
    | nil => cases he
    | cons x xs =>
        obtain rfl : x = e := Option.some.inj he
        have hindex := hcons.head
        have hrest : Node.clearLookups none 1 hp.node.log xs = true :=
          Node.clearLookups_of_lt 1 (by simpa using hbehind 1 hone.le)
        simp only [List.drop_zero, Node.clearLookups, RaftLog.intrude, Bool.and_eq_true]
        refine ⟨decide_eq_true (Or.inr ⟨by omega, hte.symm⟩), ?_⟩
        cases hp.node.log.term x.index with
        | error e => rfl
        | ok t =>
            simp only
            split
            · rfl
            · exact hrest

/-- A rejected request moves the next index of the peer to the previous index of the
request or below it. -/
theorem HostSim.next_le_of_rejected (hsl : HostSim a l hl) (hsp : HostSim a p hp)
    (hxl : Exact (a.log l) hl.node.log) (hxp : Exact (a.log p) hp.node.log)
    (hinv : ReplicatedLog.Inv (quorums cl) a) (hlead : hl.node.state = .leader)
    (hterm : hp.node.currentTerm ≤ hl.node.currentTerm) {args : AppendEntriesArgs}
    (hprev : termAt (a.log l) args.prevLogIndex = some args.prevLogTerm) {t : ℕ}
    (hcheck : hp.node.checkPrev args = some t) (n : Node) :
    (if (n.conflictHint args.prevLogIndex t).2 ≠ 0 then
      Node.scanConflict hl.node.log (n.conflictHint args.prevLogIndex t).2
        (n.conflictHint args.prevLogIndex t).1 hl.node.log.lastIndex
      else (n.conflictHint args.prevLogIndex t).1) ≤ args.prevLogIndex := by
  have hle := n.conflictHint_le args.prevLogIndex t
  split
  · rename_i hct
    rcases Node.scanConflict_cases hl.node.log (n.conflictHint args.prevLogIndex t).2
      (n.conflictHint args.prevLogIndex t).1 hl.node.log.lastIndex with
      heq | ⟨j, -, htj, heq⟩
    · omega
    · -- the hint names the term that the peer has at the previous index
      have hhint : (n.conflictHint args.prevLogIndex t).2 = t := by
        unfold Node.conflictHint at hct ⊢
        split
        · rename_i hlong
          rw [if_pos hlong] at hct
          exact absurd rfl hct
        · rfl
      rw [hhint] at hct htj heq ⊢
      obtain ⟨htp, hne⟩ := (Node.checkPrev_some hcheck).2.resolve_left fun h => hct h.1
      rw [heq]
      by_contra hgt
      have hL := hsl.leader hlead
      have hlow := (hinv.committedUpTo_lead (hinv.node p).committed hL (hsp.term.trans_le hterm)).1
      have hcommon := hinv.termAt_of_sound (hinv.node p) hL hlow (by omega)
        (hsp.represents.termAt_of_exact hxp htp).1 (hsl.represents.termAt_of_exact hxl htj).1
      rw [hprev] at hcommon
      exact hne (Option.some.inj hcommon).symm
  · exact hle

end Round

/-- The node `l` leads, and its peer `p` is not in a later term. -/
structure Leading (w : World) (l p : String) : Prop where
  leader : (w.hosts l).node.state = .leader
  behind : (w.hosts p).node.currentTerm ≤ (w.hosts l).node.currentTerm

/-- The leader and its peer have compacted the same part, and the next request starts
right behind it. -/
def Aligned (w : World) (l p : String) : Prop :=
  (w.hosts l).node.nextIndex.get p = (w.hosts l).node.log.snapIndex + 1 ∧
    (w.hosts p).node.log.snapIndex = (w.hosts l).node.log.snapIndex

instance (w : World) (l p : String) : Decidable (Aligned w l p) :=
  inferInstanceAs (Decidable (_ ∧ _))

/-- A bound for the rounds that fail. -/
def lag (w : World) (l p : String) : ℕ :=
  if Aligned w l p then 0 else (w.hosts l).node.nextIndex.get p + 1

namespace Recorded

variable {cl : Cluster} {w : World} {sh : Shadow} {l p : String}

theorem represents (h : Recorded cl w sh) (j : String) :
    Represents (sh.full j) (w.hosts j).node.log := by
  obtain ⟨a, hsim⟩ := h.sim
  rw [hsim.full]
  exact (hsim.host j).represents

/-- What the peer has compacted is in the leader's log. -/
theorem agree_snap (h : Recorded cl w sh) (hlead : Leading w l p) :
    Agree 0 (w.hosts p).node.log.snapIndex (sh.full p) (sh.full l) := by
  obtain ⟨a, hsim⟩ := h.sim
  rw [hsim.full, hsim.full]
  exact (hsim.host p).agree_snap hsim.inv ((hsim.host l).leader hlead.leader) hlead.behind

/-- A peer that has compacted as much as the leader has the leader's term for it. -/
theorem exact_iff (h : Recorded cl w sh) (hlead : Leading w l p)
    (hx : Exact (sh.full l) (w.hosts l).node.log)
    (hsnap : (w.hosts p).node.log.snapIndex = (w.hosts l).node.log.snapIndex) :
    Exact (sh.full p) (w.hosts p).node.log ↔
      (w.hosts p).node.log.snapTerm = (w.hosts l).node.log.snapTerm := by
  rw [Exact, termAt_congr (h.agree_snap hlead) le_rfl, hsnap, hx, Option.some.injEq, eq_comm]

/-- A round that sends entries lets the peer catch up, or its request is rejected and
the next index of the peer goes down. -/
theorem send_progress (h : Recorded cl w sh) (hi : l ∈ cl.ids) (hp : p ∈ cl.peers l)
    (hlead : Leading w l p) (hx : BothExact w sh l p) {args : AppendEntriesArgs}
    (hrep : (w.hosts l).node.replicateTo p none = ((w.hosts l).node, .send args))
    (habove : (w.hosts l).node.log.snapIndex < (w.hosts l).node.nextIndex.get p)
    (hpeer : (w.hosts p).node.log.snapIndex ≤ 1 ∨
      (w.hosts p).node.log.snapIndex < (w.hosts l).node.nextIndex.get p) :
    ∃ w' sh', round cl l p (w, sh) = some (w', sh') ∧ Recorded cl w' sh' ∧ Leading w' l p ∧
      BothExact w' sh' l p ∧
      (w'.hosts l).node.log = (w.hosts l).node.log ∧ sh'.full l = sh.full l ∧
      (CaughtUp w' sh' l p ∨ (w.hosts p).node.checkPrev args ≠ none ∧
        (w'.hosts l).node.nextIndex.get p < (w.hosts l).node.nextIndex.get p) := by
  obtain ⟨a, hsim⟩ := h.sim
  have hinv := hsim.inv
  have hsl := hsim.host l
  have hsp := hsim.host p
  obtain ⟨prevTerm, ht, hargs⟩ := Node.replicateTo_send hrep
  have hcall := hsl.appendArgs (h.configured.id l) hlead.leader ht hsl.represents habove
  rw [← hargs] at hcall
  have hprevIndex : args.prevLogIndex + 1 = (w.hosts l).node.nextIndex.get p := by
    have hpos : (w.hosts l).node.nextIndex.get p ≠ 0 := by omega
    simp only [hargs, Node.appendArgs, prevIndex, if_neg hpos]
    omega
  have hterm : args.term = (w.hosts l).node.currentTerm := by
    rw [hargs]
    rfl
  have hbehind : (w.hosts p).node.currentTerm ≤ args.term := hterm ▸ hlead.behind
  have hxl := hx.leader
  have hxp := hx.follower
  rw [hsim.full] at hxl hxp
  have hprev : termAt (a.log l) args.prevLogIndex = some args.prevLogTerm := by
    rw [hargs]
    exact (hsl.represents.termAt_of_exact hxl ht).1
  have hclear : Node.clearLookups none 0 (w.hosts p).node.log args.entries = true := by
    rw [hcall.2.2.1]
    exact hsp.clearLookups hxp hinv (hsl.leader hlead.leader) hlead.behind
      hsl.represents.consecutive (by omega)
  obtain ⟨w', sh', hround, hrec, hl', hp', hfull, hfullp⟩ :=
    h.round_send hi hp hrep habove fun _ => hclear
  obtain ⟨htermp, htermr⟩ := Node.handleAppendEntries_term hbehind none
  have hrole : (w'.hosts l).node.role = (w.hosts l).node.role := by
    rw [hl']
    exact Node.handleAppendReply_same (by omega)
  have hlog : (w'.hosts l).node.log = (w.hosts l).node.log := by
    rw [hl', (Node.handleAppendReply_advances _ _ _ _).log]
  have hleading : Leading w' l p := by
    refine ⟨(congrArg Role.state hrole).trans hlead.leader, ?_⟩
    rw [hp', htermp, hterm]
    exact (congrArg Role.currentTerm hrole).ge
  have hexact : BothExact w' sh' l p := by
    obtain ⟨hindex, hsame⟩ :=
      ((w.hosts p).node.snapFrom_handleAppendEntries args none).resolve_right (by simp)
    rw [← hp'] at hindex hsame
    refine ⟨by rw [hlog, hfull]; exact hx.leader, ?_⟩
    rw [hfullp]
    exact hx.follower.take_append hindex hsame _
  refine ⟨w', sh', hround, hrec, hleading, hexact, hlog, hfull, ?_⟩
  rcases (w.hosts p).node.handleAppendEntries_cases args none with
    ⟨hlt, -⟩ | ⟨-, t, hcheck, heq⟩ | ⟨-, hcheck, heq⟩
  · omega
  · refine Or.inr ?_
    rw [Indexed.checkPrev_acceptLeader] at hcheck
    have hnext := hsl.next_le_of_rejected hsp hxl hxp hinv hlead.leader hlead.behind hprev hcheck
      ((w.hosts p).node.acceptLeader args.term args.leaderID)
    have hpos := Node.conflictHint_pos ((w.hosts p).node.acceptLeader args.term args.leaderID)
      (Node.checkPrev_some hcheck).1 t
    rw [heq] at hl'
    rw [hl', Node.handleAppendReply_reject hlead.leader hterm.symm rfl rfl hpos,
      IndexMap.get_set_self, hcheck]
    exact ⟨Option.some_ne_none t, (Nat.lt_succ_of_le hnext).trans_eq hprevIndex⟩
  · refine Or.inl ⟨hrec.represents l, hrec.represents p, hexact, ?_⟩
    obtain ⟨b, -, -, hnew, hag, -, -, hagree⟩ := hsp.handleAppendEntries hsim.reachable hcall
      (fun _ _ => hclear) (fun _ hmem => by cases hmem)
    -- the record of the peer is the log that the simulation gives it
    have hb : sh'.full p = b.log p := by
      rw [hfullp, hsim.full, hp']
      exact hnew.represents.take_append hag
    rw [hb, hfull, hlog, hsim.full, hsl.represents.lastIndex]
    exact (hagree (by rw [heq])).2

/-- After a round that sends a snapshot the peer is where the leader's log begins. -/
theorem snapshot_progress (h : Recorded cl w sh) (hi : l ∈ cl.ids) (hp : p ∈ cl.peers l)
    (hlead : Leading w l p) (hx : BothExact w sh l p)
    (hrep : (w.hosts l).node.replicateTo p none = ((w.hosts l).node, .snapshot))
    (hsnap : (w.hosts p).node.log.snapIndex ≤ (w.hosts l).node.log.snapIndex) :
    ∃ w' sh', round cl l p (w, sh) = some (w', sh') ∧ Recorded cl w' sh' ∧ Leading w' l p ∧
      BothExact w' sh' l p ∧
      (w'.hosts l).node.log = (w.hosts l).node.log ∧ sh'.full l = sh.full l ∧
      Aligned w' l p := by
  obtain ⟨w', sh', hround, hrec, hl', hp', hfull⟩ := h.round_snapshot hi hp hlead.leader hrep
  have hlog : (w'.hosts l).node.log = (w.hosts l).node.log := by
    rw [hl', Node.log_of_progress (Node.handleSnapshotReply_progress ..)]
  -- the peer takes the term over and has the leader's snapshot, installed now or before
  obtain ⟨hterm, hreply, hsnap', hsnapTerm⟩ :
      (w'.hosts p).node.currentTerm = (w.hosts l).node.currentTerm ∧
      ((w.hosts p).node.handleInstallSnapshot (w.hosts l).node.snapshot).2.term =
        (w.hosts l).node.currentTerm ∧
      (w'.hosts p).node.log.snapIndex = (w.hosts l).node.log.snapIndex ∧
      (w'.hosts p).node.log.snapTerm = (w.hosts l).node.log.snapTerm := by
    have hobs := Node.observe_currentTerm hlead.behind
    rcases (w.hosts p).node.handleInstallSnapshot_cases (w.hosts l).node.snapshot with
      ⟨hlt, -⟩ | ⟨-, hle, heq⟩ | ⟨-, hlt, heq⟩
    · exact absurd hlt (Nat.not_lt.mpr hlead.behind)
    · rw [hp', heq]
      refine ⟨hobs, rfl, ?_⟩
      simp only [Node.log_of_progress (Node.observe_progress ..)]
      have hsame := hsnap.antisymm hle
      exact ⟨hsame, (h.exact_iff hlead hx.leader hsame).mp hx.follower⟩
    · rw [hp', heq]
      exact ⟨hobs, rfl, ((RaftLog.setSnapshot_cases ..).resolve_left (by omega)).2⟩
  have hnode : (w'.hosts l).node.state = .leader ∧
      (w'.hosts l).node.currentTerm = (w.hosts l).node.currentTerm ∧
      (w'.hosts l).node.nextIndex.get p = (w.hosts l).node.log.snapIndex + 1 := by
    rw [hl', Node.handleSnapshotReply, if_neg (by omega), if_neg (by simp [hlead.leader])]
    exact ⟨hlead.leader, rfl, IndexMap.get_set_self ..⟩
  have hlead' : Leading w' l p := ⟨hnode.1, by rw [hterm, hnode.2.1]⟩
  have hxl : Exact (sh'.full l) (w'.hosts l).node.log := by
    rw [hlog, hfull]
    exact hx.leader
  refine ⟨w', sh', hround, hrec, hlead', ⟨hxl, ?_⟩, hlog, hfull, ?_, ?_⟩
  · exact (hrec.exact_iff hlead' hxl (by rw [hsnap', hlog])).mpr (by rw [hsnapTerm, hlog])
  · rw [hnode.2.2, hlog]
  · rw [hsnap', hlog]

/-- A request that starts right behind the common compacted part is sent and passes the
check of the peer. -/
theorem aligned_send (h : Recorded cl w sh) (hlead : Leading w l p) (hx : BothExact w sh l p)
    (hal : Aligned w l p) :
    ∃ args, (w.hosts l).node.replicateTo p none = ((w.hosts l).node, .send args) ∧
      (w.hosts p).node.checkPrev args = none := by
  obtain ⟨hnext, hsnap⟩ := hal
  have hprev : prevIndex ((w.hosts l).node.nextIndex.get p) = (w.hosts l).node.log.snapIndex := by
    rw [hnext]
    rfl
  -- both have the same term at the end of what they have compacted
  have hterms := (h.exact_iff hlead hx.leader hsnap).mp hx.follower
  have hterm : ∀ n : RaftLog, n.snapIndex = (w.hosts l).node.log.snapIndex →
      n.snapTerm = (w.hosts l).node.log.snapTerm →
      n.term (w.hosts l).node.log.snapIndex = .ok (w.hosts l).node.log.snapTerm := by
    intro n hn hnt
    rcases Nat.eq_zero_or_pos (w.hosts l).node.log.snapIndex with h0 | hpos
    · have hzero := hx.leader
      rw [Exact, h0, termAt_zero] at hzero
      rw [h0, ← Option.some.inj hzero]
      rfl
    · rw [← hn, RaftLog.term_snapIndex (by omega), hnt]
  refine ⟨(w.hosts l).node.appendArgs p (w.hosts l).node.log.snapTerm (w.hosts l).node.log,
    ?_, ?_⟩
  · rw [Node.replicateTo, if_neg (by simp [hlead.leader]), hprev, hterm _ rfl rfl]
  · simp [Node.checkPrev, Node.appendArgs, hprev, hterm _ hsnap hterms]

/-- In a round that meets the condition the peer catches up, or there are fewer rounds
left that can fail. -/
theorem progress (h : Recorded cl w sh) (hi : l ∈ cl.ids) (hp : p ∈ cl.peers l)
    (hlead : Leading w l p) (hx : BothExact w sh l p) (hok : roundAboveSnapshot w l p) :
    ∃ w' sh', round cl l p (w, sh) = some (w', sh') ∧ Recorded cl w' sh' ∧ Leading w' l p ∧
      BothExact w' sh' l p ∧
      (w'.hosts l).node.log = (w.hosts l).node.log ∧ sh'.full l = sh.full l ∧
      (CaughtUp w' sh' l p ∨ lag w' l p < lag w l p) := by
  rcases (w.hosts l).node.replicateTo_cases p none with
    ⟨hno, -⟩ | ⟨-, hrep⟩ | ⟨-, t, log, -, rfl, hrep⟩
  · exact absurd hlead.leader hno
  · obtain ⟨w', sh', hround, hrec, hlead', hx', hlog, hfull, hal⟩ :=
      h.snapshot_progress hi hp hlead hx hrep (hok.1 (by rw [hrep]))
    refine ⟨w', sh', hround, hrec, hlead', hx', hlog, hfull, Or.inr ?_⟩
    have hnot : ¬ Aligned w l p := by
      intro hal₀
      obtain ⟨args, hsend, -⟩ := h.aligned_send hlead hx hal₀
      rw [hrep] at hsend
      cases hsend
    rw [lag, lag, if_pos hal, if_neg hnot]
    exact Nat.succ_pos _
  · obtain ⟨habove, hpeer⟩ := hok.2 (by rw [hrep]; rfl)
    obtain ⟨w', sh', hround, hrec, hlead', hx', hlog, hfull, hdone⟩ :=
      h.send_progress hi hp hlead hx hrep habove hpeer
    refine ⟨w', sh', hround, hrec, hlead', hx', hlog, hfull, hdone.imp_right ?_⟩
    rintro ⟨hrej, hnext⟩
    have hnot : ¬ Aligned w l p := by
      intro hal
      obtain ⟨args, hsend, hcheck⟩ := h.aligned_send hlead hx hal
      rw [hrep] at hsend
      simp only [Prod.mk.injEq, Replication.send.injEq] at hsend
      exact hrej (hsend.2 ▸ hcheck)
    rw [lag, lag, if_neg hnot]
    split
    · exact Nat.succ_pos _
    · exact Nat.succ_lt_succ hnext

/-- Rounds that all meet the condition let the peer catch up. -/
theorem catches_up (n : ℕ) (h : Recorded cl w sh) (hi : l ∈ cl.ids) (hp : p ∈ cl.peers l)
    (hlead : Leading w l p) (hx : BothExact w sh l p) (hlag : lag w l p ≤ n)
    (hok : ∀ k ≤ n, ∀ w' sh', rounds cl l p k (w, sh) = some (w', sh') →
      roundAboveSnapshot w' l p) :
    ∃ k ≤ n + 1, ∃ w' sh', rounds cl l p k (w, sh) = some (w', sh') ∧
      (w'.hosts l).node.log = (w.hosts l).node.log ∧ sh'.full l = sh.full l ∧
      CaughtUp w' sh' l p := by
  induction n generalizing w sh with
  | zero =>
      obtain ⟨w', sh', hround, -, -, -, hlog, hfull, hdone⟩ :=
        h.progress hi hp hlead hx (hok 0 le_rfl w sh rfl)
      refine ⟨1, le_rfl, w', sh', by simp [rounds, hround], hlog, hfull, ?_⟩
      exact hdone.resolve_right (by omega)
  | succ n ih =>
      obtain ⟨w₁, sh₁, hround, hrec, hlead', hx', hlog, hfull, hdone | hlt⟩ :=
        h.progress hi hp hlead hx (hok 0 (Nat.zero_le _) w sh rfl)
      · exact ⟨1, by omega, w₁, sh₁, by simp [rounds, hround], hlog, hfull, hdone⟩
      · have hnext : ∀ k, rounds cl l p (k + 1) (w, sh) = rounds cl l p k (w₁, sh₁) := by
          intro k
          simp [rounds, hround]
        obtain ⟨k, hk, w', sh', hr, hlog', hfull', hdone⟩ := ih hrec hlead' hx' (by omega)
          fun k hk w' sh' hr => hok (k + 1) (by omega) w' sh' ((hnext k).trans hr)
        exact ⟨k + 1, by omega, w', sh', (hnext k).trans hr, hlog'.trans hlog,
          hfull'.trans hfull, hdone⟩

end Recorded

section Run

variable {cl : Cluster} {w : World} {sh : Shadow} {l p : String}

/-- **Catching up.** In a run that meets the condition, a leader makes round after
round with a peer that is not in a later term, where both have the right terms for
their snapshots. If the first rounds meet their condition as well, as many as two more
than the next index of the peer, then after one of them the snapshot and the log of the
peer cover the leader's log and agree with it. -/
theorem follower_catches_up (h : Traced cl aboveSnapshot w sh) (hi : l ∈ cl.ids)
    (hp : p ∈ cl.peers l) (hl : (w.hosts l).node.state = .leader)
    (hterm : (w.hosts p).node.currentTerm ≤ (w.hosts l).node.currentTerm)
    (hexact : BothExact w sh l p)
    (hok : ∀ k < (w.hosts l).node.nextIndex.get p + 2, ∀ w' sh',
      rounds cl l p k (w, sh) = some (w', sh') → roundAboveSnapshot w' l p) :
    ∃ k ≤ (w.hosts l).node.nextIndex.get p + 2, ∃ w' sh',
      rounds cl l p k (w, sh) = some (w', sh') ∧
      (w'.hosts l).node.log = (w.hosts l).node.log ∧ sh'.full l = sh.full l ∧
      CaughtUp w' sh' l p := by
  have hlag : lag w l p ≤ (w.hosts l).node.nextIndex.get p + 1 := by
    unfold lag
    split
    · exact Nat.zero_le _
    · exact le_rfl
  exact h.recorded.catches_up _ hi hp ⟨hl, hterm⟩ hexact hlag fun k hk => hok k (by omega)

/-- Node `a` of three has committed two entries with the help of `b`, has compacted
them and has appended a third; `c` has only the first one. -/
def laggingC : List Event :=
  commitTwo ++ applies "a" 2 ++ [.act "a" (.takeSnapshot []), .act "a" (.propose [3])]

theorem follower_catches_up_trio : ∃ (w : World) (sh : Shadow),
    (w.hosts "a").node.log = ⟨[⟨3, 1, [3]⟩], 2, 1⟩ ∧
    (w.hosts "c").node.log = ⟨[⟨1, 1, [1]⟩], 0, 0⟩ ∧
    ∃ k ≤ 4, ∃ w' sh', rounds trio "a" "c" k (w, sh) = some (w', sh') ∧
      (w'.hosts "a").node.log = (w.hosts "a").node.log ∧ sh'.full "a" = sh.full "a" ∧
      CaughtUp w' sh' "a" "c" := by
  have hw : TracedRuns trio aboveSnapshot laggingC := by decide +kernel
  have hnext : ((tracedRun trio aboveSnapshot laggingC).1.hosts "a").node.nextIndex.get "c" =
      2 := by decide +kernel
  have hlead : ((tracedRun trio aboveSnapshot laggingC).1.hosts "a").node.state = .leader ∧
      ((tracedRun trio aboveSnapshot laggingC).1.hosts "a").node.currentTerm = 1 ∧
      ((tracedRun trio aboveSnapshot laggingC).1.hosts "c").node.currentTerm = 1 := by
    decide +kernel
  have hok : ∀ k < 4, (rounds trio "a" "c" k (tracedRun trio aboveSnapshot laggingC)).all
      (fun s => decide (roundAboveSnapshot s.1 "a" "c")) = true := by decide +kernel
  have hup := follower_catches_up (l := "a") (p := "c") (Traced.run hw) (by decide) (by decide)
    hlead.1 (by rw [hlead.2.1, hlead.2.2]) ⟨by decide +kernel, by decide +kernel⟩ (by
      intro k hk w' sh' hr
      rw [hnext] at hk
      have hall := hok k hk
      rw [hr] at hall
      simpa using hall)
  rw [hnext] at hup
  exact ⟨_, _, by decide +kernel, by decide +kernel, hup⟩

/-- The leader has compacted its first entry and takes the peer to need it next. -/
structure Stuck (w : World) (l p : String) : Prop extends Leading w l p where
  compacted : 0 < (w.hosts l).node.log.snapIndex
  next : (w.hosts l).node.nextIndex.get p = 1
  matched : (w.hosts l).node.matchIndex.get p = 0

variable (sh) in
/-- The request then carries nothing, and its success leaves everything as it is. -/
theorem Stuck.round (h : Stuck w l p) (hcfg : Configured cl w) (hi : l ∈ cl.ids)
    (hp : p ∈ cl.peers l) : ∃ w' sh', Raft.round cl l p (w, sh) = some (w', sh') ∧
      Configured cl w' ∧ Stuck w' l p ∧
      (w'.hosts l).node.log = (w.hosts l).node.log ∧
      (w'.hosts p).node.log = (w.hosts p).node.log := by
  have hne := (Configured.mem_ids_of_mem_peers hi hp).2.symm
  have hrep : (w.hosts l).node.replicateTo p none = ((w.hosts l).node, .send
      ⟨(w.hosts l).node.currentTerm, (w.hosts l).node.id, 0, 0, [],
        (w.hosts l).node.commitIndex⟩) := by
    have hslice : (w.hosts l).node.log.slice 1 ((w.hosts l).node.log.lastIndex + 1) = [] := by
      simp [RaftLog.slice, Nat.succ_le_of_lt h.compacted]
    rw [Node.replicateTo, if_neg (by simp [h.leader])]
    simp [h.next, prevIndex, RaftLog.term, Node.appendArgs, hslice]
  obtain ⟨w₀, w₁, w', hs₀, hs₁, hs', -, -, -, -, hl', hp'⟩ := round_send_steps hcfg hi hne hrep
  generalize hargs : (⟨(w.hosts l).node.currentTerm, (w.hosts l).node.id, 0, 0, [],
    (w.hosts l).node.commitIndex⟩ : AppendEntriesArgs) = args at hrep hl' hp'
  obtain ⟨hterm, hsucc, hreply, hlog⟩ := Node.handleAppendEntries_empty (n := (w.hosts p).node)
    args (by rw [← hargs]; exact h.behind) (by rw [← hargs]) (by rw [← hargs])
  have hT : args.term = (w.hosts l).node.currentTerm := by rw [← hargs]
  obtain ⟨hrole, hnext, hmatch⟩ := Node.handleAppendReply_empty (n := (w.hosts l).node) p
    args (hreply.trans hT).le hsucc (by rw [← hargs]; rfl) h.next h.matched
  have hlogl := ((w.hosts l).node.handleAppendReply_advances p args
    ((w.hosts p).node.handleAppendEntries args none).2).log
  rw [← hl'] at hrole hnext hmatch hlogl
  rw [← hp'] at hterm hlog
  have hround : Raft.round cl l p (w, sh) = some (w',
      ((sh.next (w.spawn l p) w₀ (.act l (.replicateTo p false))).next w₀ w₁
        (.deliver w.calls.length none)).next w₁ w' (.receive w.calls.length)) := by
    simp [Raft.round, roundEvents, hrep, exec, tracedStep, hs₀, hs₁, hs']
  refine ⟨w', _, hround, (((hcfg.spawn hp).step hs₀).step hs₁).step hs',
    ⟨⟨(congrArg Role.state hrole).trans h.leader, ?_⟩, hlogl ▸ h.compacted, hnext, hmatch⟩,
    hlogl, hlog⟩
  rw [hterm, hT]
  exact (congrArg Role.currentTerm hrole).ge

variable (sh) in
/-- And so it goes on. -/
theorem Stuck.rounds (h : Stuck w l p) (hcfg : Configured cl w) (hi : l ∈ cl.ids)
    (hp : p ∈ cl.peers l) (k : ℕ) : ∃ w' sh', Raft.rounds cl l p k (w, sh) = some (w', sh') ∧
      (w'.hosts l).node.log = (w.hosts l).node.log ∧
      (w'.hosts p).node.log = (w.hosts p).node.log := by
  induction k generalizing w sh with
  | zero => exact ⟨w, sh, rfl, rfl, rfl⟩
  | succ k ih =>
      obtain ⟨w₁, sh₁, hround, hcfg₁, hstuck, hl₁, hp₁⟩ := h.round sh hcfg hi hp
      obtain ⟨w', sh', hrounds, hl', hp'⟩ := ih sh₁ hstuck hcfg₁
      exact ⟨w', sh', by simp [Raft.rounds, hround, hrounds], hl'.trans hl₁, hp'.trans hp₁⟩

/-- Node `a` of three exchanges an empty request with `c`, then commits an entry with
the help of `b` and compacts it. -/
def compactedBeforeC : List Event :=
  electA ++ [.act "a" .heartbeat, .act "a" (.replicateTo "c" false), .deliver 2 none, .receive 2,
    .act "a" (.propose [1]), .act "a" (.replicateTo "b" false), .deliver 3 none, .receive 3] ++
  applies "a" 1 ++ [.act "a" (.takeSnapshot [])]

/-- Node `c` never gets the entry. -/
theorem follower_never_catches_up : ∃ (w : World) (sh : Shadow), Traced trio aboveSnapshot w sh ∧
    (w.hosts "a").node.state = .leader ∧
    (w.hosts "c").node.currentTerm ≤ (w.hosts "a").node.currentTerm ∧
    (w.hosts "a").node.log.lastIndex = 1 ∧
    ∀ k, ∃ w' sh', rounds trio "a" "c" k (w, sh) = some (w', sh') ∧
      (w'.hosts "c").node.log = RaftLog.newRaftLog ∧ ¬ CaughtUp w' sh' "a" "c" := by
  have hw : TracedRuns trio aboveSnapshot compactedBeforeC := by decide +kernel
  have hlast : ((tracedRun trio aboveSnapshot compactedBeforeC).1.hosts "a").node.log.lastIndex =
      1 := by decide +kernel
  have hlog : ((tracedRun trio aboveSnapshot compactedBeforeC).1.hosts "c").node.log =
      RaftLog.newRaftLog := by decide +kernel
  have hstuck : Stuck (tracedRun trio aboveSnapshot compactedBeforeC).1 "a" "c" :=
    ⟨⟨by decide +kernel, by decide +kernel⟩, by decide +kernel, by decide +kernel,
      by decide +kernel⟩
  refine ⟨_, _, Traced.run hw, hstuck.leader, hstuck.behind, hlast, ?_⟩
  intro k
  obtain ⟨w', sh', hrounds, hl', hp'⟩ := hstuck.rounds (tracedRun trio aboveSnapshot
    compactedBeforeC).2 (Traced.run hw).recorded.configured (by decide) (by decide) k
  refine ⟨w', sh', hrounds, hp'.trans hlog, ?_⟩
  intro hup
  have hlen := hup.leader.lastIndex
  have hag := hup.agree
  rw [hl', hlast] at hlen hag
  have hle := hag.symm.length_le hlen.le
  rw [← hup.follower.lastIndex, hp', hlog] at hle
  exact absurd hle (by decide)

end Run

end Raft

end VaultFS
