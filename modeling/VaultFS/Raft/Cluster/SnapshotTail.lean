import VaultFS.Raft.Cluster.CommitSoundness

/-!
# What an installed snapshot leaves of a log

`SetSnapshot` keeps every entry behind the snapshot. That is right when a node
compacts its own log. When a node installs a snapshot of the leader, its own entries
behind it may be those of a deposed leader, and they are kept as well. Nothing is kept
from a log that ends with the snapshot. And if the node has committed the entry at the
end of the snapshot, the leader has the same entry there, so that what is kept was
behind an entry of the leader; the term in the request is the one of that entry unless
`sendSnapshot` was overtaken by a compaction between its two reads.

Whatever is kept is sorted in itself, and log matching holds between any two logs above
their snapshots. Both come from `State.Sound`, which speaks about the log above the
floor.
-/

namespace VaultFS

namespace Raft

open ReplicatedLog Transition

namespace RaftLog

/-- The entry at an index above the snapshot. -/
def entryAt (l : RaftLog) (index : ℕ) : Option Entry :=
  if l.snapIndex < index then l.entries[index - l.snapIndex - 1]? else none

/-- The terms along the log never go down, from that of the snapshot on. -/
def Ascending (l : RaftLog) : Prop := (l.snapTerm :: l.entries.map (·.term)).Pairwise (· ≤ ·)

instance (l : RaftLog) : Decidable l.Ascending := inferInstanceAs (Decidable (List.Pairwise _ _))

/-- Log matching above both snapshots. -/
def MatchesBeyond (l l' : RaftLog) : Prop :=
  ∀ (index : ℕ) (e e' : Entry), l.entryAt index = some e → l'.entryAt index = some e' →
    e.term = e'.term →
    ∀ k, max l.snapIndex l'.snapIndex < k → k ≤ index → l.entryAt k = l'.entryAt k

end RaftLog

namespace Represents

variable {F : List Entry} {l : RaftLog} {index : ℕ}

theorem entryAt (h : Represents F l) (hlt : l.snapIndex < index) :
    l.entryAt index = F[index - 1]? := by
  rw [RaftLog.entryAt, if_pos hlt, h.entries, List.getElem?_drop]
  congr 1
  omega

/-- Above the snapshot a lookup finds the term of the full log. -/
theorem term_of_termAt (h : Represents F l) {t : ℕ} (hlt : l.snapIndex < index)
    (ht : termAt F index = some t) : l.term index = .ok t := by
  cases hterm : l.term index with
  | ok u =>
      rcases h.termAt_of_term hterm with ⟨hu, -⟩ | ⟨-, heq, -⟩
      · rw [Option.some.inj (ht.symm.trans hu)]
      · omega
  | error err =>
      have hlen := h.length_lt_of_error hterm hlt
      have hle := termAt_le_length ht
      omega

end Represents

namespace HostSim

variable {cl : Cluster} {a : State String Entry} {i : String} {h : Host} {index term : ℕ}

/-- A node that has committed an index has the term of a current leader there. -/
theorem termAt_of_committed (hs : HostSim a i h) (hinv : ReplicatedLog.Inv (quorums cl) a)
    {F : List Entry} {U : ℕ} (hsent : SentBy a F U) (hU : h.node.currentTerm ≤ U)
    (hcommit : index ≤ h.node.commitIndex) (hterm : termAt F index = some term) :
    termAt (a.log i) index = some term := by
  obtain ⟨-, L, hlead, hpre⟩ := hsent
  have hag := (hinv.committedUpTo_lead hs.committed hlead hU).1
  rw [termAt_congr hag hcommit]
  exact termAt_of_isPrefix hterm hpre

/-- What is behind an entry above the snapshot is not older than the entry. -/
theorem term_le_behind (hs : HostSim a i h) (hinv : ReplicatedLog.Inv (quorums cl) a)
    (hlt : h.node.log.snapIndex < index) (hterm : termAt (a.log i) index = some term) :
    ∀ e ∈ (a.log i).drop index, term ≤ e.term := by
  intro e he
  obtain ⟨k, hk⟩ := List.mem_iff_getElem?.mp he
  rw [List.getElem?_drop] at hk
  obtain ⟨s, rfl⟩ : ∃ s, index = s + 1 := ⟨index - 1, by omega⟩
  obtain ⟨x, hx, hxt⟩ := termAt_succ_eq_some.mp hterm
  have hfloor := hs.floor_le
  rw [← hxt]
  exact hinv.sorted_of_sound (hinv.node i) (by omega) (by omega) hx hk

/-- A snapshot that is not newer than what is behind it leaves a sorted log. -/
theorem ascending_setSnapshot (hs : HostSim a i h) (hinv : ReplicatedLog.Inv (quorums cl) a)
    (hlt : h.node.log.snapIndex < index) (hbehind : ∀ e ∈ (a.log i).drop index, term ≤ e.term) :
    (h.node.log.setSnapshot index term).Ascending := by
  rw [hs.represents.setSnapshot_eq term hlt]
  refine List.pairwise_cons.mpr ⟨?_, ?_⟩
  · intro t ht
    obtain ⟨e, he, rfl⟩ := List.mem_map.mp ht
    exact hbehind e he
  · rw [List.pairwise_map, List.pairwise_iff_getElem]
    intro j k hj hk hjk
    have hget : ∀ n (hn : n < ((a.log i).drop index).length),
        (a.log i)[index + n]? = some (((a.log i).drop index).get ⟨n, hn⟩) := by
      intro n hn
      rw [← List.getElem?_drop]
      exact List.getElem?_eq_getElem hn
    have hfloor := hs.floor_le
    exact hinv.sorted_of_sound (hinv.node i) (by omega) (by omega) (hget j hj) (hget k hk)

/-- Log matching needs no condition on the installed snapshots. -/
theorem matchesBeyond {j : String} {h' : Host} (hs : HostSim a i h)
    (hs' : HostSim a j h') (hinv : ReplicatedLog.Inv (quorums cl) a) :
    h.node.log.MatchesBeyond h'.node.log := by
  intro index e e' he he' hterm k hlo hk
  have hfloor := hs.floor_le
  have hfloor' := hs'.floor_le
  have hsnap : h.node.log.snapIndex < index ∧ h'.node.log.snapIndex < index := by omega
  rw [hs.represents.entryAt hsnap.1] at he
  rw [hs'.represents.entryAt hsnap.2] at he'
  have hag := (hinv.node i).agree (hinv.node j) (by omega) (by omega) he he' hterm
  rw [hs.represents.entryAt (by omega), hs'.represents.entryAt (by omega)]
  exact hag (k - 1) (by omega) (by omega)

end HostSim

section Run

variable {cl : Cluster} {w w' : World} {sh : Shadow}

/-- Where an accepted snapshot leaves the log of the receiver. -/
theorem deliver_snapshot_log {c : ℕ} {call : Call} {args : InstallSnapshotArgs}
    (hs : step cl w (.deliver c none) = some w') (hc : w.calls[c]? = some call)
    (hrpc : call.rpc = .installSnapshot args none)
    (hle : (w.hosts call.dst).node.currentTerm ≤ args.term)
    (hlt : (w.hosts call.dst).node.log.snapIndex < args.lastIncludedIndex) :
    (w'.hosts call.dst).node.log = (w.hosts call.dst).node.log.setSnapshot
      args.lastIncludedIndex args.lastIncludedTerm := by
  cases step_moved hs with
  | deliver _ _ call₀ h' rpc hc₀ hdel =>
      obtain rfl : call = call₀ := Option.some.inj (hc.symm.trans hc₀)
      rw [hrpc] at hdel
      cases Host.deliver_delivered hdel with
      | snapshot _ =>
          rw [World.put_hosts_self]
          rcases (w.hosts call.dst).node.handleInstallSnapshot_cases args with
            ⟨hold, -⟩ | ⟨-, hold, -⟩ | ⟨-, -, heq⟩
          · omega
          · omega
          · simp only [heq]

/-- **Snapshot tails.** A node accepts a snapshot that its sender took of the full log
`F`. Either the node's log ends with the snapshot or before it, or the node has
committed the last index of the snapshot and the snapshot has the term of `F` there.
Then what the node keeps was behind an entry of that term, the terms along its log never
go down and log matching holds with every node. -/
theorem install_keeps_consistent_tail (hw : Traced cl aboveSnapshot w sh) {c : ℕ} {call : Call}
    {args : InstallSnapshotArgs} {F : List Entry} (hc : w.calls[c]? = some call)
    (hrpc : call.rpc = .installSnapshot args none) (hF : sh.sent[c]? = some F)
    (hle : (w.hosts call.dst).node.currentTerm ≤ args.term)
    (hlt : (w.hosts call.dst).node.log.snapIndex < args.lastIncludedIndex)
    (hends : (w.hosts call.dst).node.log.lastIndex ≤ args.lastIncludedIndex ∨
      args.lastIncludedIndex ≤ (w.hosts call.dst).node.commitIndex ∧
        termAt F args.lastIncludedIndex = some args.lastIncludedTerm)
    (hs : step cl w (.deliver c none) = some w') :
    ((∀ e ∈ (w'.hosts call.dst).node.log.entries, e.index ≤ args.lastIncludedIndex) ∨
        (w.hosts call.dst).node.log.term args.lastIncludedIndex = .ok args.lastIncludedTerm) ∧
      (w'.hosts call.dst).node.log.Ascending ∧
      ∀ j, (w'.hosts call.dst).node.log.MatchesBeyond (w'.hosts j).node.log := by
  obtain ⟨hcfg, hv, a, hsim⟩ := hw.simulated
  have hhost := hsim.host call.dst
  have hinv := hsim.inv
  have hcall := hsim.call c call F hc hF
  rw [hrpc] at hcall
  have hok : aboveSnapshot w (.deliver c none) := by
    refine ⟨nofun, ?_⟩
    intro call' hc' args' hargs'
    obtain rfl : call = call' := Option.some.inj (hc.symm.trans hc')
    rw [hrpc] at hargs'
    cases hargs'
  obtain ⟨b, -, hsim'⟩ := hsim.step hcfg hv hok hs
  have hmatch : ∀ j, (w'.hosts call.dst).node.log.MatchesBeyond (w'.hosts j).node.log :=
    fun j => (hsim'.host call.dst).matchesBeyond (hsim'.host j) hsim'.inv
  have hlog := deliver_snapshot_log hs hc hrpc hle hlt
  rcases hends with hend | ⟨hcommit, hterm⟩
  · rw [hhost.represents.lastIndex] at hend
    have hnone : (a.log call.dst).drop args.lastIncludedIndex = [] := List.drop_eq_nil_of_le hend
    refine ⟨Or.inl ?_, ?_, hmatch⟩
    · rw [hlog, hhost.represents.setSnapshot_eq _ hlt, hnone]
      exact fun e he => nomatch he
    · rw [hlog]
      refine hhost.ascending_setSnapshot hinv hlt ?_
      rw [hnone]
      exact fun e he => nomatch he
  · have hown := hhost.termAt_of_committed hinv hcall.1 hle hcommit hterm
    refine ⟨Or.inr (hhost.represents.term_of_termAt hlt hown), ?_, hmatch⟩
    rw [hlog]
    exact hhost.ascending_setSnapshot hinv hlt (hhost.term_le_behind hinv hlt hown)

/-- Node `a` of three has committed two entries and appended a third. It has sent all
of them to `c` without hearing from it, and now sends a snapshot of the first two. -/
def snapshotOverMatch : List Event :=
  commitTwo ++ [.act "a" (.propose [3]), .act "a" (.replicateTo "c" false), .deliver 5 none,
    .giveUp 5] ++ applies "a" 2 ++ [.act "a" (.takeSnapshot []), .act "a" .heartbeat,
    .act "a" (.replicateTo "c" false), .act "a" (.sendSnapshot "c" false)]

theorem install_keeps_consistent_tail_trio : ∃ w w' : World,
    (w.hosts "c").node.log = ⟨[⟨1, 1, [1]⟩, ⟨2, 1, [2]⟩, ⟨3, 1, [3]⟩], 0, 0⟩ ∧
    (w'.hosts "c").node.log = ⟨[⟨3, 1, [3]⟩], 2, 1⟩ ∧
    ((∀ e ∈ (w'.hosts "c").node.log.entries, e.index ≤ 2) ∨
        (w.hosts "c").node.log.term 2 = .ok 1) ∧
      (w'.hosts "c").node.log.Ascending ∧
      ∀ j, (w'.hosts "c").node.log.MatchesBeyond (w'.hosts j).node.log := by
  have hw : TracedRuns trio aboveSnapshot snapshotOverMatch := by decide +kernel
  have hw' : TracedRuns trio aboveSnapshot (snapshotOverMatch ++ [.deliver 6 none]) := by
    decide +kernel
  have hold : ((tracedRun trio aboveSnapshot snapshotOverMatch).1.hosts "c").node.log =
      ⟨[⟨1, 1, [1]⟩, ⟨2, 1, [2]⟩, ⟨3, 1, [3]⟩], 0, 0⟩ := by decide +kernel
  have hterm : ((tracedRun trio aboveSnapshot snapshotOverMatch).1.hosts
      "c").node.currentTerm = 1 := by decide +kernel
  have hcommit : ((tracedRun trio aboveSnapshot snapshotOverMatch).1.hosts
      "c").node.commitIndex = 2 := by decide +kernel
  have hc : (tracedRun trio aboveSnapshot snapshotOverMatch).1.calls[6]? = some ⟨"a", "c",
      .installSnapshot ⟨1, "a", 2, 1⟩ none, true⟩ := by decide +kernel
  have hF : (tracedRun trio aboveSnapshot snapshotOverMatch).2.sent[6]? =
      some [⟨1, 1, [1]⟩, ⟨2, 1, [2]⟩, ⟨3, 1, [3]⟩] := by decide +kernel
  have hnew : ((tracedRun trio aboveSnapshot
      (snapshotOverMatch ++ [.deliver 6 none])).1.hosts "c").node.log = ⟨[⟨3, 1, [3]⟩], 2, 1⟩ := by
    decide +kernel
  have hs := (step_tracedRun hw').2
  have htail := install_keeps_consistent_tail (Traced.run hw) hc rfl hF hterm.le
    (by rw [hold]; decide) (Or.inr ⟨hcommit.ge, by decide⟩) hs
  exact ⟨_, _, hold, hnew, htail⟩

/-- Node `b` leads term one. It commits an entry on every node and appends two more
that nobody else gets. Then `a` leads term two, commits another second entry with the
help of `c` and compacts its log, and so it sends `b` a snapshot. -/
def snapshotOverConflict : List Event :=
  [.act "b" .electionTimeout, .deliver 1 none, .receive 1, .act "b" (.propose [1]),
    .act "b" .heartbeat, .act "b" (.replicateTo "a" false), .deliver 2 none, .receive 2,
    .act "b" (.replicateTo "c" false), .deliver 3 none, .receive 3, .act "b" (.propose [2]),
    .act "b" (.propose [3]), .act "a" .electionTimeout, .deliver 5 none, .receive 5,
    .act "a" (.propose [4]), .act "a" .heartbeat, .act "a" (.replicateTo "c" false),
    .deliver 6 none, .receive 6] ++
  applies "a" 2 ++ [.act "a" (.takeSnapshot []), .act "a" (.replicateTo "b" false),
    .act "a" (.sendSnapshot "b" false)]

/-- Node `b` keeps its third entry, although its second one was another one. -/
theorem install_keeps_conflicting_tail : ∃ w w' : World, Reach trio aboveSnapshot w ∧
    w.calls[7]? = some ⟨"a", "b", .installSnapshot ⟨2, "a", 2, 2⟩ none, true⟩ ∧
    (w.hosts "b").node.currentTerm ≤ 2 ∧ step trio w (.deliver 7 none) = some w' ∧
    (w.hosts "b").node.log = ⟨[⟨1, 1, [1]⟩, ⟨2, 1, [2]⟩, ⟨3, 1, [3]⟩], 0, 0⟩ ∧
    (w.hosts "b").node.log.term 2 = .ok 1 ∧
    (w'.hosts "b").node.log = ⟨[⟨3, 1, [3]⟩], 2, 2⟩ ∧
    ¬ (w'.hosts "b").node.log.Ascending := by
  have hw : Runs trio aboveSnapshot snapshotOverConflict := by decide +kernel
  have hw' : Runs trio aboveSnapshot (snapshotOverConflict ++ [.deliver 7 none]) := by
    decide +kernel
  have hold : ((run trio aboveSnapshot snapshotOverConflict).hosts "b").node.log =
      ⟨[⟨1, 1, [1]⟩, ⟨2, 1, [2]⟩, ⟨3, 1, [3]⟩], 0, 0⟩ := by decide +kernel
  have hnew : ((run trio aboveSnapshot (snapshotOverConflict ++ [.deliver 7 none])).hosts
      "b").node.log = ⟨[⟨3, 1, [3]⟩], 2, 2⟩ := by decide +kernel
  refine ⟨_, _, Reach.run hw, by decide +kernel, by decide +kernel, (final_concat hw').2, hold,
    ?_, hnew, ?_⟩
  · rw [hold]
    rfl
  · simp only [Raft.run] at hnew
    rw [hnew]
    decide

end Run

end Raft

end VaultFS
