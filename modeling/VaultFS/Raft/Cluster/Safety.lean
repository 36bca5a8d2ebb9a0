import VaultFS.Raft.Cluster.Uncompacted

/-!
# Safety of the replicated log

State-machine safety, leader completeness and log matching for the nodes of a
cluster, in runs without compaction and for every number of nodes. Each of them is
read off the simulation: the abstract protocol has the property, and a log that was
never compacted is its full log.
-/

namespace VaultFS

namespace Raft

open ReplicatedLog Transition

/-- Entries with consecutive indices are cut at an index by their indices. -/
theorem Consecutive.filter_le {es : List Entry} {s : ℕ} (h : Consecutive s es) (m : ℕ) :
    es.filter (fun e => e.index ≤ m) = es.take (m + 1 - s) := by
  induction es generalizing s with
  | nil => simp
  | cons e es ih =>
      have hhead := h.head
      have htail := ih h.tail
      by_cases hle : e.index ≤ m
      · obtain ⟨k, hk⟩ : ∃ k, m + 1 - s = k + 1 := ⟨m - s, by omega⟩
        rw [List.filter_cons_of_pos (by simpa using hle), htail, hk, List.take_succ_cons]
        congr 2
        omega
      · rw [List.filter_cons_of_neg (by simpa using hle), htail]
        simp [show m + 1 - s = 0 by omega, show m + 1 - (s + 1) = 0 by omega]

theorem Consecutive.getElem?_of_mem {es : List Entry} {e : Entry} (h : Consecutive 1 es)
    (he : e ∈ es) : 0 < e.index ∧ es[e.index - 1]? = some e := by
  obtain ⟨k, hk⟩ := List.mem_iff_getElem?.mp he
  have hindex := h k e hk
  exact ⟨by omega, by rw [hindex, Nat.add_sub_cancel_left, hk]⟩

theorem Simulated.host {cl : Cluster} {w : World} {a : State String Entry}
    (h : Simulated cl w a) (i : String) : HostSim a i (w.hosts i) := by
  obtain ⟨-, -, sh, hsim⟩ := h
  exact hsim.host i

theorem Simulated.inv {cl : Cluster} {w : World} {a : State String Entry}
    (h : Simulated cl w a) : Inv (quorums cl) a := by
  obtain ⟨-, -, sh, hsim⟩ := h
  exact hsim.inv

/-- A log that was never compacted is its full log. -/
theorem HostSim.log_eq {a : State String Entry} {i : String} {h : Host} (hs : HostSim a i h)
    (hu : h.Uncompacted) : a.log i = h.node.log.entries ∧ a.floor i = 0 := by
  have hsnap := hu.snapIndex
  refine ⟨?_, by have := hs.floor_le; omega⟩
  rw [hs.represents.entries, hsnap, List.drop_zero]

/-- Two worlds of a run without compaction, and the histories they represent. -/
theorem simulated_pair {cl : Cluster} {w w' : World} (hw : Reach cl (noCompaction cl) w)
    (hp : Path (step cl) (noCompaction cl) w w') :
    ∃ a b, Simulated cl w a ∧ Simulated cl w' b ∧ a ≤ b ∧ Uncompacted w ∧ Uncompacted w' := by
  obtain ⟨-, -, hun⟩ := uncompacted_path .refl hw
  obtain ⟨hreach, hpath, hun'⟩ := uncompacted_path hw hp
  obtain ⟨a, ha⟩ := hreach.simulated
  obtain ⟨b, hb, hab⟩ := ha.path hpath
  exact ⟨a, b, ha, hb, hab, hun, hun'⟩

/-- Node `a` of three is elected and commits an entry that `b` has as well. -/
def commitA : List Event :=
  electA ++ [.act "a" (.propose [1]), .act "a" .heartbeat, .act "a" (.replicateTo "b" false),
    .deliver 2 none, .receive 2]

/-- Node `a` sends the entry and its commit index to `c`. -/
def tellC : List Event := [.act "a" (.replicateTo "c" false), .deliver 3 none]

/-- Node `b` is elected in the next term by the vote of `c`. -/
def electB : List Event := [.act "b" .electionTimeout, .deliver 4 none, .receive 4]

/-- **State-machine safety.** Two entries with the same index that were delivered,
by two nodes or by one node at two times, have the same term and command. -/
theorem state_machine_safety {cl : Cluster} {w w' : World} (hw : Reach cl (noCompaction cl) w)
    (hw' : Path (step cl) (noCompaction cl) w w') {i j : String} {e e' : Entry}
    (he : e ∈ (w.hosts i).delivered) (he' : e' ∈ (w'.hosts j).delivered)
    (hindex : e.index = e'.index) : e.term = e'.term ∧ e.command = e'.command := by
  obtain ⟨a, b, ha, hb, hab, -, -⟩ := simulated_pair hw hw'
  have hchosen := ((ha.host i).delivered e he).mono hab
  have hchosen' := (hb.host j).delivered e' he'
  obtain rfl : e = e' := hb.inv.chosen_unique hchosen.2 (hindex ▸ hchosen'.2)
  exact ⟨rfl, rfl⟩

theorem state_machine_safety_trio : ∃ (w w' : World) (e e' : Entry),
    e ∈ (w.hosts "a").delivered ∧ e' ∈ (w'.hosts "c").delivered ∧ e.index = e'.index ∧
    e.term = e'.term ∧ e.command = e'.command := by
  have hw : Runs trio (noCompaction trio) (commitA ++ applies "a" 1) := by decide
  have hw' : Runs trio (noCompaction trio)
      (commitA ++ applies "a" 1 ++ (tellC ++ applies "c" 1)) := by decide
  exact ⟨run trio (noCompaction trio) (commitA ++ applies "a" 1),
    run trio (noCompaction trio) (commitA ++ applies "a" 1 ++ (tellC ++ applies "c" 1)),
    ⟨1, 1, [1]⟩, ⟨1, 1, [1]⟩, by decide, by decide, rfl,
    state_machine_safety (i := "a") (j := "c") (Reach.run hw) (path_run hw') (by decide) (by decide)
      rfl⟩

/-- **Leader completeness.** What a node has in its log up to its commit index is at
the same place in the log of every leader of a later term, whether that leader was
elected before or after the commit. In particular this is so for a leader that has
just advanced its commit index, and for the log with which the later leader is
elected. -/
theorem later_leader_has_committed {cl : Cluster} {w w' : World}
    (hw : Reach cl (noCompaction cl) w) (hw' : Reach cl (noCompaction cl) w')
    (hrun : Path (step cl) (noCompaction cl) w w' ∨ Path (step cl) (noCompaction cl) w' w)
    {l j : String} {e : Entry} (he : e ∈ (w.hosts l).node.log.entries)
    (hcommit : e.index ≤ (w.hosts l).node.commitIndex) (hj : (w'.hosts j).node.state = .leader)
    (hterm : (w.hosts l).node.currentTerm < (w'.hosts j).node.currentTerm) :
    0 < e.index ∧ (w'.hosts j).node.log.entries[e.index - 1]? = some e := by
  -- it is enough that the leader's full log has the committed part of the other one
  have hsame : ∀ {a b : State String Entry}, HostSim a l (w.hosts l) → HostSim b j (w'.hosts j) →
      (w.hosts l).Uncompacted → (w'.hosts j).Uncompacted →
      Agree 0 (w.hosts l).node.commitIndex (a.log l) (b.log j) →
      0 < e.index ∧ (w'.hosts j).node.log.entries[e.index - 1]? = some e := by
    intro a b ha hb hua hub hag
    rw [← (ha.log_eq hua).1] at he
    obtain ⟨hpos, hget⟩ := ha.represents.consecutive.getElem?_of_mem he
    rw [hag _ (Nat.zero_le _) (by omega), (hb.log_eq hub).1] at hget
    exact ⟨hpos, hget⟩
  rcases hrun with hafter | hbefore
  · obtain ⟨a, b, ha, hb, hab, hua, hub⟩ := simulated_pair hw hafter
    have hcom := (ha.host l).committed.mono hab le_rfl
    have hlead := (hb.host j).leader hj
    exact hsame (ha.host l) (hb.host j) (hua.host l) (hub.host j)
      (hb.inv.committedUpTo_lead hcom hlead hterm.le).1
  · obtain ⟨b, a, hb, ha, hba, hub, hua⟩ := simulated_pair hw' hbefore
    have hlead := (hb.host j).leader hj
    exact hsame (ha.host l) (hb.host j) (hua.host l) (hub.host j)
      (hb.inv.committedUpTo_lead_of_le ha.inv hba (ha.host l).committed hlead hterm)

theorem later_leader_has_committed_trio : ∃ (w w' : World) (e : Entry),
    (w.hosts "a").node.state = .leader ∧ (w.hosts "a").node.currentTerm = 1 ∧
    (w.hosts "a").node.commitIndex = 1 ∧ e ∈ (w.hosts "a").node.log.entries ∧
    (w'.hosts "b").node.state = .leader ∧ (w'.hosts "b").node.currentTerm = 2 ∧
    0 < e.index ∧ (w'.hosts "b").node.log.entries[e.index - 1]? = some e := by
  have hw : Runs trio (noCompaction trio) commitA := by decide
  have hw' : Runs trio (noCompaction trio) (commitA ++ electB) := by decide
  exact ⟨run trio (noCompaction trio) commitA, run trio (noCompaction trio) (commitA ++ electB),
    ⟨1, 1, [1]⟩, by decide, by decide, by decide, by decide, by decide, by decide,
    later_leader_has_committed (l := "a") (j := "b") (Reach.run hw) (Reach.run hw')
      (Or.inl (path_run hw')) (by decide) (by decide) (by decide) (by decide)⟩

/-- The abstract log of a node that was never compacted. -/
theorem Simulated.sound {cl : Cluster} {w : World} {a : State String Entry}
    (h : Simulated cl w a) (hu : Uncompacted w) (i : String) :
    a.Sound (w.hosts i).node.log.entries 0 (a.term i) ∧
      Consecutive 1 (w.hosts i).node.log.entries := by
  obtain ⟨hlog, hfloor⟩ := (h.host i).log_eq (hu.host i)
  have hsound := h.inv.node i
  rw [hlog, hfloor] at hsound
  exact ⟨hsound, hlog ▸ (h.host i).represents.consecutive⟩

/-- **Log matching.** Two logs that have an entry with the same index and term are
the same up to that index, and terms along a log never go down. -/
theorem log_matching {cl : Cluster} {w : World} (hw : Reach cl (noCompaction cl) w) :
    (∀ (i j : String) (e e' : Entry), e ∈ (w.hosts i).node.log.entries →
      e' ∈ (w.hosts j).node.log.entries → e.index = e'.index → e.term = e'.term →
      (w.hosts i).node.log.entries.filter (fun x => x.index ≤ e.index) =
        (w.hosts j).node.log.entries.filter (fun x => x.index ≤ e.index)) ∧
    ∀ i, (w.hosts i).node.log.entries.Pairwise fun x y => x.term ≤ y.term := by
  obtain ⟨-, a, -, ha, -, -, hu⟩ := simulated_pair .refl hw
  refine ⟨?_, ?_⟩
  · intro i j e e' he he' hindex hterm
    obtain ⟨hi, hci⟩ := ha.sound hu i
    obtain ⟨hj, hcj⟩ := ha.sound hu j
    obtain ⟨hpos, hget⟩ := hci.getElem?_of_mem he
    obtain ⟨-, hget'⟩ := hcj.getElem?_of_mem he'
    have hag := hi.agree hj (Nat.zero_le _) (Nat.zero_le _) hget (hindex ▸ hget') hterm
    rw [Nat.sub_add_cancel hpos] at hag
    rw [hci.filter_le, hcj.filter_le, Nat.add_sub_cancel]
    exact hag.take_eq
  · intro i
    obtain ⟨hi, -⟩ := ha.sound hu i
    rw [List.pairwise_iff_getElem]
    intro j k hj hk hjk
    exact ha.inv.sorted_of_sound hi (Nat.zero_le j) hjk.le (List.getElem?_eq_getElem hj)
      (List.getElem?_eq_getElem hk)

theorem log_matching_trio : ∃ w : World,
    (w.hosts "a").node.log.entries = [⟨1, 1, [1]⟩] ∧
    (w.hosts "b").node.log.entries.filter (fun x => x.index ≤ 1) =
      (w.hosts "c").node.log.entries.filter (fun x => x.index ≤ 1) := by
  have hw : Runs trio (noCompaction trio) (commitA ++ tellC) := by decide
  exact ⟨run trio (noCompaction trio) (commitA ++ tellC), by decide,
    (log_matching (Reach.run hw)).1 "b" "c" ⟨1, 1, [1]⟩ ⟨1, 1, [1]⟩ (by decide) (by decide) rfl rfl⟩

theorem Consecutive.filter_gt {es : List Entry} {s : ℕ} (h : Consecutive s es) (m : ℕ) :
    es.filter (fun x => m < x.index) = es.drop (m + 1 - s) := by
  induction es generalizing s with
  | nil => simp
  | cons x xs ih =>
      rw [List.filter_cons, ih h.tail, h.head]
      by_cases hm : m < s
      · rw [if_pos (by simpa using hm), Nat.sub_eq_zero_of_le (by omega),
          Nat.sub_eq_zero_of_le (by omega)]
        rfl
      · rw [if_neg (by simpa using hm), show m + 1 - s = m + 1 - (s + 1) + 1 by omega,
          List.drop_succ_cons]

/-- What a log keeps above an index is what the full log has above it and the snapshot. -/
theorem Represents.filter_gt {F : List Entry} {l : RaftLog} (h : Represents F l) (m : ℕ) :
    l.entries.filter (fun x => m < x.index) = F.drop (max l.snapIndex m) := by
  rw [(RaftLog.contiguous_iff.mp h.contiguous).filter_gt, h.entries, List.drop_drop]
  congr 1
  omega

/-- **A leader only appends.** Logs may be compacted here, if every step meets `aboveSnapshot`. A
node that leads a term leads it as long as it is in that term. Its log does not get shorter
meanwhile, and keeps every entry that neither the earlier nor the later snapshot covers. -/
theorem leader_append_only {cl : Cluster} {w w' : World} (hw : Reach cl aboveSnapshot w)
    (hp : Path (step cl) aboveSnapshot w w') {i : String}
    (hi : (w.hosts i).node.state = .leader)
    (hterm : (w'.hosts i).node.currentTerm = (w.hosts i).node.currentTerm) :
    (w'.hosts i).node.state = .leader ∧
    (w.hosts i).node.log.lastIndex ≤ (w'.hosts i).node.log.lastIndex ∧
    (w.hosts i).node.log.entries.filter (fun e => (w'.hosts i).node.log.snapIndex < e.index) <+:
      (w'.hosts i).node.log.entries.filter (fun e => (w.hosts i).node.log.snapIndex < e.index) := by
  have hled := hw.led hp (hw.voting.leader_led i hi)
  have hi' : (w'.hosts i).node.state = .leader :=
    (Reach.voting (hw.trans hp)).led_leader i _ hled hterm
  obtain ⟨a, ha⟩ := hw.simulated
  obtain ⟨b, hb, hab⟩ := ha.path hp
  -- the history keeps one log for each term's leader, and it grows
  obtain ⟨L, hL, hpre⟩ := hab.lead_le _ _ ((ha.host i).leader hi)
  obtain rfl : b.log i = L :=
    Option.some.inj (((hb.host i).leader hi').symm.trans (hterm ▸ hL))
  have hr := (ha.host i).represents
  have hr' := (hb.host i).represents
  refine ⟨hi', ?_, ?_⟩
  · rw [hr.lastIndex, hr'.lastIndex]
    exact hpre.length_le
  · rw [hr.filter_gt, hr'.filter_gt, Nat.max_comm]
    exact hpre.drop _

/-- Node `a` compacts its log and proposes again. -/
theorem leader_append_only_trio : ∃ w w' : World,
    (w.hosts "a").node.log.entries = [⟨1, 1, [1]⟩] ∧
    (w'.hosts "a").node.log.snapIndex = 1 ∧ (w'.hosts "a").node.log.entries = [⟨2, 1, [2]⟩] ∧
    (w'.hosts "a").node.state = .leader ∧
    (w.hosts "a").node.log.lastIndex ≤ (w'.hosts "a").node.log.lastIndex := by
  have hw : Runs trio aboveSnapshot commitA := by decide
  have hw' : Runs trio aboveSnapshot (commitA ++ (applies "a" 1 ++
      [.act "a" (.takeSnapshot []), .act "a" (.propose [2])])) := by decide
  have hall := leader_append_only (i := "a") (Reach.run hw) (path_run hw') (by decide) (by decide)
  exact ⟨_, _, by decide, by decide, by decide, hall.1, hall.2.1⟩

end Raft

end VaultFS
