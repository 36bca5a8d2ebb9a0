import VaultFS.Raft.Cluster.CatchUp
import VaultFS.Raft.Cluster.Leadership
import VaultFS.Raft.Cluster.Safety

/-!
# Fast log back-up

A follower that rejects a request names the first index of the run of equal terms in which
its log differs from the leader's, and the leader looks for the last entry of that term in its
own log. Whatever the two scans find, at the new next index the logs have different terms, and
it is not above the previous index of the request. So a rejection makes progress and never
goes below what the logs have in common.

That the leader's scan does not stop too high needs that all entries of one term come from the
log of one leader; that it does not stop too low needs that terms along a log never go down.
-/

namespace ReplicatedLog

variable {ν ε : Type*} [HasTerm ε] {𝒬 : Quorums ν} {a : State ν ε} {F : List ε} {B k t : ℕ}

theorem Inv.termAt_pos (h : Inv 𝒬 a) (hF : a.Sound F 0 B) (hk : 0 < k)
    (ht : termAt F k = some t) : 0 < t := by
  obtain ⟨k, rfl⟩ : ∃ m, k = m + 1 := ⟨k - 1, by omega⟩
  obtain ⟨e, he, rfl⟩ := termAt_succ_eq_some.mp ht
  obtain ⟨L, hL, -⟩ := hF.matched k e (Nat.zero_le k) he
  exact h.lead_pos _ L hL

end ReplicatedLog

namespace VaultFS

namespace Raft

open ReplicatedLog Transition

namespace Node

variable {l : RaftLog} {F : List Entry} {t i : ℕ}

/-- The term at an index inside a log that was never compacted can be looked up. -/
theorem term_of_le (hl : Represents F l) (hsnap : l.snapIndex = 0) (hi : i ≤ F.length) :
    ∃ t, l.term i = .ok t ∧ termAt F i = some t := by
  cases ht : l.term i with
  | ok t => exact ⟨t, rfl, ((hl.termAt_of_term ht).resolve_right (by omega)).1⟩
  | error err =>
      rcases Nat.eq_zero_or_pos i with rfl | hpos
      · simp [RaftLog.term] at ht
      · have := hl.length_lt_of_error ht (by omega)
        omega

/-- The follower's scan stays in the run of entries of the conflicting term. -/
theorem termAt_scanHint (hl : Represents F l) (hi : 0 < i) (ht : termAt F i = some t) :
    termAt F (scanHint l t i) = some t := by
  induction i with
  | zero => exact absurd hi (Nat.lt_irrefl 0)
  | succ i ih =>
      unfold scanHint
      split
      · cases hlook : l.term i with
        | error err => exact ht
        | ok t' =>
            simp only
            split
            · exact ht
            · rename_i hsnap heq
              rw [not_not.mp heq] at hlook
              exact ih (by omega) ((hl.termAt_of_term hlook).resolve_right (by omega)).1
      · exact ht

/-- The leader's scan finds the last entry of the conflicting term, or there is none up to
where it starts. -/
theorem scanConflict_spec (t fallback : ℕ) (hl : Represents F l) (hsnap : l.snapIndex = 0)
    (hsorted : ∀ j k t t', j ≤ k → termAt F j = some t → termAt F k = some t' → t ≤ t')
    (hi : i ≤ F.length) :
    (scanConflict l t fallback i = fallback ∧ ∀ k, 0 < k → k ≤ i → termAt F k ≠ some t) ∨
    ∃ j, scanConflict l t fallback i = j + 1 ∧ termAt F j = some t ∧
      ∀ k t', j < k → k ≤ i → termAt F k = some t' → t < t' := by
  induction i with
  | zero => exact Or.inl ⟨rfl, fun k hk hk' => by omega⟩
  | succ i ih =>
      obtain ⟨t₀, hlook, ht₀⟩ := term_of_le hl hsnap hi
      unfold scanConflict
      rw [if_pos (by omega), hlook]
      simp only
      split
      · rename_i heq
        exact Or.inr ⟨i + 1, rfl, heq ▸ ht₀, fun k t' hk hk' => by omega⟩
      · rename_i hne
        split
        · -- everything up to here is older than the conflicting term
          rename_i hlt
          refine Or.inl ⟨rfl, fun k _ hk htk => ?_⟩
          have := hsorted k (i + 1) t t₀ hk htk ht₀
          omega
        · rename_i hge
          rcases ih (by omega) with ⟨hfall, hnone⟩ | ⟨j, heq, htj, habove⟩
          · refine Or.inl ⟨hfall, fun k hpos hk => ?_⟩
            rcases Nat.lt_or_eq_of_le hk with hlt | rfl
            · exact hnone k hpos (by omega)
            · rw [ht₀]
              simpa using hne
          · refine Or.inr ⟨j, heq, htj, fun k t' hjk hk htk => ?_⟩
            rcases Nat.lt_or_eq_of_le hk with hlt | rfl
            · exact habove k t' hjk (by omega) htk
            · obtain rfl := Option.some.inj (ht₀.symm.trans htk)
              omega

/-- The next index that a leader with the log `l` takes from a rejection. -/
def backUp (l : RaftLog) (reply : AppendEntriesReply) : ℕ :=
  if reply.conflictTerm ≠ 0 then
    scanConflict l reply.conflictTerm reply.conflictIndex l.lastIndex
  else reply.conflictIndex

/-- What the leader does with a rejection of its term. -/
theorem handleAppendReply_backUp {n : Node} {peer : String} {args : AppendEntriesArgs}
    {reply : AppendEntriesReply} (hl : n.state = .leader) (ht : n.currentTerm = args.term)
    (hreply : reply.term = args.term) (hfail : reply.success = false)
    (hpos : 0 < reply.conflictIndex) : n.handleAppendReply peer args reply =
      { n with nextIndex := n.nextIndex.set peer (backUp n.log reply) } :=
  handleAppendReply_reject hl ht hreply hfail hpos

/-- The reply of a node to a request that fails its log check, when it finds the term `t`. -/
def rejection (n : Node) (args : AppendEntriesArgs) (t : ℕ) : AppendEntriesReply :=
  ⟨args.term, false, (n.conflictHint args.prevLogIndex t).1,
    (n.conflictHint args.prevLogIndex t).2⟩

/-- Where the leader goes after a rejection: the logs differ there, and it is not above the
previous index of the request. -/
theorem backUp_rejection {𝒬 : Quorums String} {a : State String Entry} {n : Node}
    {args : AppendEntriesArgs} {G L : List Entry} {B U : ℕ} (hinv : ReplicatedLog.Inv 𝒬 a)
    (hL : a.lead U = some L) (hG : a.Sound G 0 B) (hl : Represents L l) (hl₀ : l.snapIndex = 0)
    (hn : Represents G n.log) (hn₀ : n.log.snapIndex = 0)
    (hprev : termAt L args.prevLogIndex = some args.prevLogTerm)
    (hcheck : n.checkPrev args = some t) :
    termAt L (backUp l (n.rejection args t)) ≠ termAt G (backUp l (n.rejection args t)) ∧
      backUp l (n.rejection args t) ≤ args.prevLogIndex := by
  obtain ⟨hpos, hwhy⟩ := checkPrev_some hcheck
  have hprevL : args.prevLogIndex ≤ L.length := termAt_le_length hprev
  rcases hwhy with ⟨-, err, herr⟩ | ⟨hlook, hne⟩
  · -- the follower's log is too short
    have hshort : G.length < args.prevLogIndex := hn.length_lt_of_error herr (by omega)
    have hnext : backUp l (n.rejection args t) = G.length + 1 := by
      simp [backUp, rejection, conflictHint, hn.lastIndex, hshort]
    rw [hnext]
    refine ⟨?_, hshort⟩
    obtain ⟨t', -, ht'⟩ := term_of_le hl hl₀ (show G.length + 1 ≤ L.length by omega)
    rw [ht']
    simp [termAt]
  · -- the follower has an entry of another term
    have htG := ((hn.termAt_of_term hlook).resolve_right (by omega)).1
    have hlong := termAt_le_length htG
    have ht : t ≠ 0 := (hinv.termAt_pos hG hpos htG).ne'
    have hnext : backUp l (n.rejection args t) =
        scanConflict l t (scanHint n.log t args.prevLogIndex) L.length := by
      simp [backUp, rejection, conflictHint, hn.lastIndex, hl.lastIndex, Nat.not_lt.mpr hlong, ht]
    rw [hnext]
    rcases scanConflict_spec t (scanHint n.log t args.prevLogIndex) hl hl₀
      (fun j k t t' => hinv.termAt_mono (hinv.sound_lead hL)) le_rfl with
      ⟨heq, hnone⟩ | ⟨j, heq, htj, habove⟩
    · rw [heq]
      refine ⟨?_, scanHint_le n.log t args.prevLogIndex⟩
      rw [termAt_scanHint hn hpos htG]
      intro hsame
      exact hnone _ (scanHint_pos n.log t hpos) (termAt_le_length hsame) hsame
    · rw [heq]
      -- all entries of the term come from one leader, so the leader's last one is below
      have hjp : j < args.prevLogIndex := by
        by_contra hge
        have hcommon := hinv.termAt_of_sound hG hL (Agree.empty le_rfl) (Nat.le_of_not_lt hge)
          htG htj
        rw [hprev] at hcommon
        exact hne (Option.some.inj hcommon).symm
      refine ⟨?_, hjp⟩
      intro hsame
      obtain ⟨t', -, ht'⟩ := term_of_le hl hl₀ (show j + 1 ≤ L.length by omega)
      have hlt := habove (j + 1) t' (Nat.lt_succ_self j) (by omega) ht'
      have hle := hinv.termAt_mono hG (show j + 1 ≤ args.prevLogIndex from hjp)
        (hsame.symm.trans ht') htG
      omega

end Node

/-- The node rejects the request by its log check. -/
def Node.Rejects (n : Node) (args : AppendEntriesArgs) : Prop :=
  n.currentTerm ≤ args.term ∧ n.checkPrev args ≠ none

instance (n : Node) (args : AppendEntriesArgs) : Decidable (n.Rejects args) :=
  inferInstanceAs (Decidable (_ ∧ _))

/-- A rejection is answered with the hint of the follower's log. -/
theorem Node.Rejects.reply {n : Node} {args : AppendEntriesArgs} (h : n.Rejects args) :
    ∃ t, n.checkPrev args = some t ∧ n.handleAppendEntries args none =
      (n.acceptLeader args.term args.leaderID, n.rejection args t) := by
  have hlog := log_of_progress (n.acceptLeader_progress args.term args.leaderID)
  have hcheck : (n.acceptLeader args.term args.leaderID).checkPrev args = n.checkPrev args := by
    simp only [checkPrev, hlog]
  obtain ⟨t, ht⟩ := Option.ne_none_iff_exists'.mp h.2
  refine ⟨t, ht, ?_⟩
  have hle := h.1
  rcases n.handleAppendEntries_cases args none with ⟨hlt, -⟩ | ⟨-, t', ht', hr⟩ | ⟨-, hnone, -⟩
  · omega
  · rw [hcheck, ht, Option.some.injEq] at ht'
    subst ht'
    rw [hr]
    simp only [rejection, conflictHint, hlog]
  · rw [hcheck, ht] at hnone
    cases hnone

/-- The leader handles a rejection of its term. -/
theorem nextIndex_of_rejection {cl : Cluster} {w w' : World} {c : ℕ} {src dst : String}
    {args : AppendEntriesArgs} {reply : AppendEntriesReply} {waiting : Bool}
    (hc : w.calls[c]? = some ⟨src, dst, .appendEntries args (some reply), waiting⟩)
    (hlead : (w.hosts src).node.state = .leader)
    (hterm : (w.hosts src).node.currentTerm = args.term) (hreply : reply.term = args.term)
    (hfail : reply.success = false) (hpos : 0 < reply.conflictIndex)
    (hs : step cl w (.receive c) = some w') :
    (w'.hosts src).node.nextIndex.get dst = Node.backUp (w.hosts src).node.log reply := by
  cases step_moved hs with
  | receive _ call h' hc' hwait hr =>
      obtain rfl := Option.some.inj (hc.symm.trans hc')
      cases Host.receive_received hr with
      | append =>
          rw [World.put_hosts_self]
          simp only [Node.handleAppendReply_backUp hlead hterm hreply hfail hpos,
            IndexMap.get_set_self]

/-- A request of a leader, in a world of a run without compaction: the leader's log has the
previous entry. -/
theorem Simulated.termAt_prev {cl : Cluster} {w : World} {a : State String Entry} {c : ℕ}
    {src dst : String} {args : AppendEntriesArgs} {reply : Option AppendEntriesReply}
    {waiting : Bool} (h : Simulated cl w a) (hu : Uncompacted w)
    (hc : w.calls[c]? = some ⟨src, dst, .appendEntries args reply, waiting⟩)
    {L : List Entry} (hL : a.lead args.term = some L) :
    termAt L args.prevLogIndex = some args.prevLogTerm := by
  obtain ⟨-, -, sh, hsim⟩ := h
  obtain ⟨F, -, ⟨-, L', hL', hpre⟩, hprev, -⟩ := hsim.exists_sent hc
  obtain rfl := Option.some.inj (hL.symm.trans hL')
  rcases hprev with ht | ⟨hfloor, -⟩
  · exact termAt_of_isPrefix ht hpre
  · exact absurd ((hsim.host src).floor_le.trans_eq (hu.host src).snapIndex) (Nat.not_le.mpr hfloor)

/-- **Fast log back-up.** A follower rejects a request by its log check. When the leader, still
in the term of the request, handles the reply, the next index is at most the previous index of
the request, and above what its log and the log that the follower had have in common. -/
theorem next_index_after_rejection {cl : Cluster} {v v' w w' : World} {c : ℕ} {cut : Option ℕ}
    {src dst : String} {args : AppendEntriesArgs} {waiting : Bool}
    (hv : Reach cl (noCompaction cl) v)
    (hc : v.calls[c]? = some ⟨src, dst, .appendEntries args none, waiting⟩)
    (hrej : (v.hosts dst).node.Rejects args) (hok : noCompaction cl v (.deliver c cut))
    (hdel : step cl v (.deliver c cut) = some v') (hp : Path (step cl) (noCompaction cl) v' w)
    (hlead : (w.hosts src).node.state = .leader)
    (hterm : (w.hosts src).node.currentTerm = args.term)
    (hrec : step cl w (.receive c) = some w') :
    common (w.hosts src).node.log.entries (v.hosts dst).node.log.entries + 1 ≤
        (w'.hosts src).node.nextIndex.get dst ∧
      (w'.hosts src).node.nextIndex.get dst ≤ args.prevLogIndex := by
  obtain ⟨a, b, ha, hb, hab, hua, hub⟩ :=
    simulated_pair hv ((Path.single hok hdel).trans hp)
  obtain ⟨t, hcheck, hreply⟩ := hrej.reply
  -- the reply is still there when the leader handles it
  have hcall : ∃ waiting', w.calls[c]? = some ⟨src, dst, .appendEntries args
      (some ((v.hosts dst).node.handleAppendEntries args none).2), waiting'⟩ := by
    cases step_moved hdel with
    | deliver _ _ call h₁ rpc hc₁ hd =>
        obtain rfl := Option.some.inj (hc.symm.trans hc₁)
        have hnew : rpc = .appendEntries args
            (some ((v.hosts dst).node.handleAppendEntries args none).2) := by
          cases Host.deliver_delivered hd with
          | append => rfl
          | appendCut _ k d happ => exact absurd happ ((hua.host dst).ne_compact d)
        subst hnew
        exact answered_of_path hp (by
          rw [World.put_calls, List.getElem?_set_self (List.getElem?_eq_some_iff.mp hc).1]) rfl
  obtain ⟨waiting', hcall⟩ := hcall
  rw [hreply] at hcall
  -- both logs, in the history at the end
  obtain ⟨hlogL, -⟩ := (hb.host src).log_eq (hub.host src)
  obtain ⟨hlogG, -⟩ := (ha.host dst).log_eq (hua.host dst)
  have hL := (hb.host src).leader hlead
  have hrepL := (hb.host src).represents
  have hrepG := (ha.host dst).represents
  rw [hlogL] at hL hrepL
  rw [hlogG] at hrepG
  have hG := (ha.sound hua dst).1.mono hab le_rfl
  have hprev := hb.termAt_prev hub hcall (hterm ▸ hL)
  have hpos : 0 < ((v.hosts dst).node.rejection args t).conflictIndex :=
    (v.hosts dst).node.conflictHint_pos (Node.checkPrev_some hcheck).1 t
  obtain ⟨hne, hle⟩ := Node.backUp_rejection hb.inv hL hG hrepL (hub.host src).snapIndex hrepG
    (hua.host dst).snapIndex hprev hcheck
  rw [nextIndex_of_rejection hcall hlead hterm rfl rfl hpos hrec]
  exact ⟨common_lt_of_termAt_ne hne, hle⟩

/-- Node `b` appends two entries in term 1 that nobody else gets. Node `a` appends two entries
in term 2, is elected again in term 4 and sends a heartbeat to `b`. -/
def conflictAtB : List Event :=
  [.act "b" .electionTimeout, .deliver 1 none, .receive 1, .act "b" (.propose [1]),
    .act "b" (.propose [2]), .act "a" .electionTimeout, .act "a" .electionTimeout,
    .deliver 5 none, .receive 5, .act "a" (.propose [3]), .act "a" (.propose [4]),
    .act "c" .electionTimeout, .deliver 6 none, .act "a" .electionTimeout, .deliver 9 none,
    .receive 9, .act "a" .heartbeat, .act "a" (.replicateTo "b" false)]

theorem next_index_after_rejection_trio : ∃ v w w' : World,
    common (w.hosts "a").node.log.entries (v.hosts "b").node.log.entries + 1 ≤
      (w'.hosts "a").node.nextIndex.get "b" ∧
    (w'.hosts "a").node.nextIndex.get "b" ≤ 2 ∧ (w.hosts "a").node.nextIndex.get "b" = 3 := by
  have hv : Runs trio (noCompaction trio) conflictAtB := by decide +kernel
  have hw : Runs trio (noCompaction trio) (conflictAtB ++ [.deliver 10 none]) := by decide +kernel
  have hw' : Runs trio (noCompaction trio)
      (conflictAtB ++ [.deliver 10 none] ++ [.receive 10]) := by decide +kernel
  have hcall : (run trio (noCompaction trio) conflictAtB).calls[10]? =
      some ⟨"a", "b", .appendEntries ⟨4, "a", 2, 2, [], 0⟩ none, true⟩ := by decide +kernel
  obtain ⟨hlow, hhigh⟩ := next_index_after_rejection (Reach.run hv) hcall (by decide +kernel)
    (final_concat hw).1 (final_concat hw).2 .refl (by decide +kernel) (by decide +kernel)
    (final_concat hw').2
  exact ⟨_, _, _, hlow, hhigh, by decide +kernel⟩

end Raft

end VaultFS
