import VaultFS.Raft.Cluster.Refinement

/-!
# What a follower commits

A follower that takes over the commit index of a leader commits its own entries up
to that index. They are the leader's entries, whether the leader still holds them or
has compacted them, as long as requests are about entries that neither side has
compacted. To speak about entries that a log no longer holds, a run is recorded
together with its `Shadow`.
-/

namespace VaultFS

namespace Raft

open ReplicatedLog Transition

/-- A step of a cluster together with the record of the full logs. -/
def tracedStep (cl : Cluster) (s : World × Shadow) (e : Event) : Option (World × Shadow) :=
  (step cl s.1 e).map fun w' => (w', s.2.next s.1 w' e)

/-- The worlds that are reached by steps that meet a condition, with their record. -/
def Traced (cl : Cluster) (ok : World → Event → Prop) (w : World) (sh : Shadow) : Prop :=
  Path (tracedStep cl) (fun s e => ok s.1 e) (World.init cl, Shadow.init) (w, sh)

section Run

variable (cl : Cluster) (ok : World → Event → Prop) [∀ w e, Decidable (ok w e)]

/-- The steps are enabled in turn from the start and meet the condition. -/
def TracedRuns (es : List Event) : Prop :=
  Enabled (guarded (tracedStep cl) fun s e => ok s.1 e) (World.init cl, Shadow.init) es

instance (es : List Event) : Decidable (TracedRuns cl ok es) :=
  inferInstanceAs (Decidable (Enabled _ _ _))

/-- The world that the steps lead to, with its record. -/
def tracedRun (es : List Event) : World × Shadow :=
  final (guarded (tracedStep cl) fun s e => ok s.1 e) (World.init cl, Shadow.init) es

variable {cl ok}

theorem Traced.run {es : List Event} (h : TracedRuns cl ok es) :
    Traced cl ok (tracedRun cl ok es).1 (tracedRun cl ok es).2 :=
  Path.final h

theorem step_tracedRun {es : List Event} {e : Event} (h : TracedRuns cl ok (es ++ [e])) :
    ok (tracedRun cl ok es).1 e ∧
      step cl (tracedRun cl ok es).1 e = some (tracedRun cl ok (es ++ [e])).1 := by
  obtain ⟨hok, hs⟩ := final_concat h
  obtain ⟨w', hw', heq⟩ := Option.map_eq_some_iff.mp hs
  refine ⟨hok, hw'.trans ?_⟩
  rw [tracedRun, ← heq]

end Run

variable {cl : Cluster} {w w' : World} {sh : Shadow}

/-- The record is the one of the simulation. -/
theorem Traced.simulated (h : Traced cl aboveSnapshot w sh) :
    Configured cl w ∧ Voting cl w ∧ ∃ a, Sim cl w sh a := by
  refine Path.invariant (I := fun s => Configured cl s.1 ∧ Voting cl s.1 ∧ ∃ a, Sim cl s.1 s.2 a) h
    ⟨Configured.init cl, Voting.init cl, _, Sim.init cl⟩ ?_
  rintro ⟨w, sh⟩ e s' ⟨hcfg, hv, a, hsim⟩ hok hs
  obtain ⟨w', hstep, rfl⟩ := Option.map_eq_some_iff.mp hs
  obtain ⟨b, -, hsim'⟩ := hsim.step hcfg hv hok hstep
  exact ⟨hcfg.step hstep, hv.step hcfg hstep, b, hsim'⟩

/-- Where the handling of a request to append entries leaves the receiver. -/
theorem deliver_append {c : ℕ} {cut : Option ℕ} {call : Call} {args : AppendEntriesArgs}
    (hs : step cl w (.deliver c cut) = some w') (hc : w.calls[c]? = some call)
    (hrpc : call.rpc = .appendEntries args none) :
    (w'.hosts call.dst).node = ((w.hosts call.dst).node.handleAppendEntries args
        ((w.hosts call.dst).intrusion cut)).1 ∧
      ∃ call' reply, w'.calls[c]? = some call' ∧ call'.rpc = .appendEntries args (some reply) := by
  cases step_moved hs with
  | deliver _ _ call₀ h' rpc hc₀ hdel =>
      obtain rfl : call = call₀ := Option.some.inj (hc.symm.trans hc₀)
      rw [hrpc] at hdel
      obtain ⟨hnode, rfl⟩ := (Host.deliver_delivered hdel).append_inv
      have hlt := (List.getElem?_eq_some_iff.mp hc).1
      exact ⟨by rw [World.put_hosts_self, hnode], _, _, List.getElem?_set_self hlt, rfl⟩

/-- **Commit soundness.** When a request to append entries raises the commit index
of a node, every entry that becomes committed is the entry that the sender had at
that index when it built the request. -/
theorem commit_matches_sender (h : Traced cl aboveSnapshot w sh) {c : ℕ} {cut : Option ℕ}
    (hok : aboveSnapshot w (.deliver c cut)) (hs : step cl w (.deliver c cut) = some w')
    {call : Call} {args : AppendEntriesArgs} (hc : w.calls[c]? = some call)
    (hrpc : call.rpc = .appendEntries args none) {F : List Entry} (hF : sh.sent[c]? = some F)
    {i : ℕ} (hlo : (w.hosts call.dst).node.commitIndex < i)
    (hhi : i ≤ (w'.hosts call.dst).node.commitIndex) :
    ∃ e ∈ (w'.hosts call.dst).node.log.entries, e.index = i ∧ F[i - 1]? = some e := by
  obtain ⟨hcfg, hv, a, hsim⟩ := h.simulated
  obtain ⟨b, hab, hsim'⟩ := hsim.step hcfg hv hok hs
  obtain ⟨hnode, call', reply, hc', hrpc'⟩ := deliver_append hs hc hrpc
  have hold := hsim.host call.dst
  have hnew := hsim'.host call.dst
  obtain ⟨k, rfl⟩ : ∃ k, i = k + 1 := ⟨i - 1, by omega⟩
  rw [Nat.add_sub_cancel]
  -- the follower has a committed entry there, which it has not compacted
  have hlen := hnew.commit_le
  obtain ⟨e, he⟩ : ∃ e, (b.log call.dst)[k]? = some e :=
    ⟨_, List.getElem?_eq_getElem (by omega)⟩
  have hsnap : (w'.hosts call.dst).node.log.snapIndex ≤ k := by
    rw [hnode]
    refine (((w.hosts call.dst).node.snapFrom_handleAppendEntries args
      ((w.hosts call.dst).intrusion cut)).le_of hold.snap_le
        fun y hy => (hold.intrusion hy).1).trans ?_
    omega
  have hentry : (w'.hosts call.dst).node.log.entries[k -
      (w'.hosts call.dst).node.log.snapIndex]? = some e := by
    rw [hnew.represents.entries, List.getElem?_drop, Nat.add_sub_cancel' hsnap, he]
  -- the sender has a committed entry there as well
  have hlc : (w'.hosts call.dst).node.commitIndex ≤ args.leaderCommit := by
    rcases (w.hosts call.dst).node.commitIndex_handleAppendEntries args
      ((w.hosts call.dst).intrusion cut) with heq | hle
    · rw [hnode] at hhi
      omega
    · rw [hnode]
      exact hle
  have hcall := hsim'.call c call' F hc' hF
  rw [hrpc'] at hcall
  obtain ⟨-, -, -, hleF, hcomF, -⟩ := hcall
  obtain ⟨e', he'⟩ : ∃ e', F[k]? = some e' := ⟨_, List.getElem?_eq_getElem (by omega)⟩
  obtain rfl : e = e' := hsim'.inv.chosen_unique (hnew.committed.chosen (by omega) he)
    (hcomF.chosen (by omega) he')
  refine ⟨e, List.mem_of_getElem? hentry, ?_, he'⟩
  rw [hnew.represents.consecutive k e he, Nat.add_comm]

/-- Node `a` of three is elected, commits an entry with the help of `b`, applies it and
compacts its log; its request to `c` is lost. Then it appends another entry and sends it
to `b`. -/
def sendCompacted : List Event :=
  electA ++ [.act "a" (.propose [1]), .act "a" .heartbeat, .act "a" (.replicateTo "b" false),
    .deliver 2 none, .receive 2, .act "a" (.replicateTo "c" false), .giveUp 3] ++
  applies "a" 1 ++ [.act "a" (.takeSnapshot []), .act "a" (.propose [2]), .act "a" .heartbeat,
    .act "a" (.replicateTo "b" false)]

theorem commit_matches_sender_trio : ∃ (w w' : World) (F : List Entry),
    (w.hosts "a").node.log = ⟨[⟨2, 1, [2]⟩], 1, 1⟩ ∧
    (w.hosts "b").node.commitIndex = 0 ∧ (w'.hosts "b").node.commitIndex = 1 ∧
    F = [⟨1, 1, [1]⟩, ⟨2, 1, [2]⟩] ∧
    ∃ e ∈ (w'.hosts "b").node.log.entries, e.index = 1 ∧ F[0]? = some e := by
  have hw : TracedRuns trio aboveSnapshot sendCompacted := by decide +kernel
  have hw' : TracedRuns trio aboveSnapshot (sendCompacted ++ [.deliver 4 none]) := by
    decide +kernel
  have hlog : ((tracedRun trio aboveSnapshot sendCompacted).1.hosts "a").node.log =
      ⟨[⟨2, 1, [2]⟩], 1, 1⟩ := by decide +kernel
  have hc : (tracedRun trio aboveSnapshot sendCompacted).1.calls[4]? = some ⟨"a", "b",
      .appendEntries ⟨1, "a", 1, 1, [⟨2, 1, [2]⟩], 1⟩ none, true⟩ := by decide +kernel
  have hF : (tracedRun trio aboveSnapshot sendCompacted).2.sent[4]? =
      some [⟨1, 1, [1]⟩, ⟨2, 1, [2]⟩] := by decide +kernel
  have hold : ((tracedRun trio aboveSnapshot sendCompacted).1.hosts "b").node.commitIndex = 0 := by
    decide +kernel
  have hnew : ((tracedRun trio aboveSnapshot
      (sendCompacted ++ [.deliver 4 none])).1.hosts "b").node.commitIndex = 1 := by decide +kernel
  obtain ⟨hok, hs⟩ := step_tracedRun hw'
  have hcommit := commit_matches_sender (Traced.run hw) hok hs hc rfl hF (i := 1)
    (by rw [hold]; decide) hnew.ge
  exact ⟨_, _, _, hlog, hold, hnew, rfl, hcommit⟩

/-- Node `b` leads term one and appends an entry that nobody else gets; `a` leads
term two, commits an entry with the help of `c`, applies it and compacts its log,
and only then sends its first request to `b`. -/
def compactBeforeSending : List Event :=
  [.act "b" .electionTimeout, .deliver 1 none, .receive 1, .act "b" (.propose [1]),
    .act "a" .electionTimeout, .act "a" .electionTimeout, .deliver 5 none, .receive 5,
    .act "a" (.propose [2]), .act "a" .heartbeat, .act "a" (.replicateTo "c" false),
    .deliver 6 none, .receive 6] ++
  applies "a" 1 ++ [.act "a" (.takeSnapshot []), .act "a" (.replicateTo "b" false)]

/-- The request carries no entries, and `b` commits its own entry instead of the
leader's. -/
theorem commit_differs_from_sender : ∃ (w w' : World) (sh : Shadow) (args : AppendEntriesArgs),
    Traced trio anyStep w sh ∧ step trio w (.deliver 7 none) = some w' ∧
    w.calls[7]? = some ⟨"a", "b", .appendEntries args none, true⟩ ∧
    (w.hosts "b").node.commitIndex = 0 ∧ (w'.hosts "b").node.commitIndex = 1 ∧
    (w'.hosts "b").node.log.entries = [⟨1, 1, [1]⟩] ∧ sh.sent[7]? = some [⟨1, 2, [2]⟩] := by
  have hw : TracedRuns trio anyStep compactBeforeSending := by decide +kernel
  have hw' : TracedRuns trio anyStep (compactBeforeSending ++ [.deliver 7 none]) := by
    decide +kernel
  exact ⟨(tracedRun trio anyStep compactBeforeSending).1,
    (tracedRun trio anyStep (compactBeforeSending ++ [.deliver 7 none])).1,
    (tracedRun trio anyStep compactBeforeSending).2, ⟨2, "a", 0, 0, [], 1⟩, Traced.run hw,
    (step_tracedRun hw').2, by decide +kernel, by decide +kernel, by decide +kernel,
    by decide +kernel, by decide +kernel⟩

end Raft

end VaultFS
