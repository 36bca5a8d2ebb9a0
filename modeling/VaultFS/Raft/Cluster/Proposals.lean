import VaultFS.Raft.Cluster.Delivery
import VaultFS.Raft.Cluster.Safety
import VaultFS.Transition.Recording

/-!
# Where entries come from

Every entry in a cluster was made by one call of `Propose`, which gave it its index
and its term. The runs here are recorded with these calls (`World.proposal`). Two
proposals never share both index and term, and an entry was proposed when
everything below it in its leader's log had already been proposed; so the entries
that are committed, which all stand in one log, were proposed in the order of their
indices.

The entries that are around at some time are all recorded (`Sourced`). This includes
the full logs of the nodes and of the senders of calls, where a compacted entry can
still come from.
-/

namespace VaultFS

namespace Raft

open ReplicatedLog Transition

/-- The entry that a step appends for a client. -/
def World.proposal (w : World) : Event → Option Entry
  | .act i (.propose command) =>
      some ⟨(w.hosts i).node.log.lastIndex + 1, (w.hosts i).node.currentTerm, command⟩
  | _ => none

section Membership

variable {l : RaftLog} {x : Entry}

theorem RaftLog.mem_setSnapshot {index term : ℕ} (hx : x ∈ (l.setSnapshot index term).entries) :
    x ∈ l.entries := by
  unfold RaftLog.setSnapshot at hx
  split at hx
  · exact hx
  · simp only at hx
    split at hx
    · cases hx
    · exact List.mem_of_mem_drop hx

theorem RaftLog.mem_of_mem_slice {lo hi : ℕ} (hx : x ∈ l.slice lo hi) : x ∈ l.entries := by
  unfold RaftLog.slice at hx
  split at hx
  · cases hx
  · simp only at hx
    split at hx
    · cases hx
    · exact List.mem_of_mem_take (List.mem_of_mem_drop hx)

theorem RaftLog.mem_truncateAfter {index : ℕ} (hx : x ∈ (l.truncateAfter index).entries) :
    x ∈ l.entries := by
  unfold RaftLog.truncateAfter at hx
  split at hx
  · cases hx
  · exact List.mem_of_mem_take hx

theorem RaftLog.mem_intrude {y : Option Intrusion} {k : ℕ} (hx : x ∈ (l.intrude y k).entries) :
    x ∈ l.entries := by
  unfold RaftLog.intrude at hx
  split at hx
  · exact hx
  · split at hx
    · exact RaftLog.mem_setSnapshot hx
    · exact hx

theorem Node.mem_appendNew {y : Option Intrusion} {k : ℕ} {es : List Entry}
    (hx : x ∈ (Node.appendNew y k l es).entries) : x ∈ l.entries ∨ x ∈ es := by
  induction es generalizing k l with
  | nil => exact Or.inl hx
  | cons e es ih =>
      unfold Node.appendNew at hx
      split at hx
      · exact (List.mem_append.mp hx).imp_left RaftLog.mem_intrude
      · split at hx
        · exact (List.mem_append.mp hx).imp_left fun h =>
            RaftLog.mem_intrude (RaftLog.mem_truncateAfter h)
        · exact (ih hx).imp RaftLog.mem_intrude (List.mem_cons_of_mem e)

theorem Node.mem_handleAppendEntries {n : Node} {args : AppendEntriesArgs} {y : Option Intrusion}
    (hx : x ∈ (n.handleAppendEntries args y).1.log.entries) :
    x ∈ n.log.entries ∨ x ∈ args.entries := by
  have hlog : (n.acceptLeader args.term args.leaderID).log = n.log :=
    Node.log_of_progress (n.acceptLeader_progress _ _)
  rcases n.handleAppendEntries_cases args y with ⟨-, h⟩ | ⟨-, t, -, h⟩ | ⟨-, -, h⟩
  · rw [h] at hx
    exact Or.inl hx
  · rw [h, hlog] at hx
    exact Or.inl hx
  · rw [h, Node.followCommit_log] at hx
    simp only [Node.mergedLog, hlog] at hx
    cases y with
    | none => exact Node.mem_appendNew hx
    | some y => exact Node.mem_appendNew (RaftLog.mem_setSnapshot hx)

end Membership

section Origin

variable {h h' : Host} {x : Entry}

theorem Acted.mem_entries {c : ℕ} {a : Action} {cs : List Call} (ha : Acted h c a h' cs)
    (hx : x ∈ h'.node.log.entries) : x ∈ h.node.log.entries ∨
      ∃ command, a = .propose command ∧
        x = ⟨h.node.log.lastIndex + 1, h.node.currentTerm, command⟩ := by
  cases ha with
  | stand n args _ hn =>
      obtain ⟨-, rfl, -⟩ := Node.maybeStartElection_some hn
      exact Or.inl hx
  | standAlone n args _ hn =>
      obtain ⟨-, rfl, -⟩ := Node.maybeStartElection_some hn
      exact Or.inl hx
  | winAlone term el =>
      simp only [Node.log_of_progress (h.node.winAlone_progress el term)] at hx
      exact Or.inl hx
  | propose command n hn =>
      obtain ⟨-, rfl⟩ := Node.propose_ok hn
      simp only [Node.advanceCommitIndex_log, RaftLog.append] at hx
      rcases List.mem_append.mp hx with hold | hnew
      · exact Or.inl hold
      · exact Or.inr ⟨command, rfl, List.mem_singleton.mp hnew⟩
  | appendCut | snapshotCut | takeSnapshot | applyCompact =>
      exact Or.inl (RaftLog.mem_setSnapshot hx)
  | _ => exact Or.inl hx

theorem Delivered.mem_entries {cut : Option ℕ} {rpc rpc' : Rpc}
    (hd : Delivered h cut rpc h' rpc') (hx : x ∈ h'.node.log.entries) :
    x ∈ h.node.log.entries ∨ ∃ args ∈ rpc.appendRequest, x ∈ args.entries := by
  cases hd with
  | vote args =>
      simp only [Node.log_of_progress (h.node.handleRequestVote_progress args)] at hx
      exact Or.inl hx
  | snapshot args =>
      rcases h.node.handleInstallSnapshot_cases args with ⟨-, hr⟩ | ⟨-, -, hr⟩ | ⟨-, -, hr⟩
      · simp only [hr] at hx
        exact Or.inl hx
      · simp only [hr, Node.log_of_progress (h.node.observe_progress args.term)] at hx
        exact Or.inl hx
      · simp only [hr] at hx
        exact Or.inl (RaftLog.mem_setSnapshot hx)
  | append args => exact (Node.mem_handleAppendEntries hx).imp_right fun hin => ⟨args, rfl, hin⟩
  | appendCut args =>
      exact (Node.mem_handleAppendEntries hx).imp_right fun hin => ⟨args, rfl, hin⟩

/-- The step brings the entry: it comes with the request that is handled, or it is proposed. -/
def World.Brings (w : World) (e : Event) (x : Entry) : Prop :=
  (∃ call ∈ w.handled e, ∃ args ∈ call.rpc.appendRequest, x ∈ args.entries) ∨
    w.proposal e = some x

theorem mem_entries_step {cl : Cluster} {w w' : World} {e : Event} (hs : step cl w e = some w')
    (j : String) (hx : x ∈ (w'.hosts j).node.log.entries) :
    x ∈ (w.hosts j).node.log.entries ∨ w.Brings e x := by
  have hput : ∀ {i : String} {h' : Host} {calls : List Call},
      (x ∈ h'.node.log.entries → x ∈ (w.hosts i).node.log.entries ∨ w.Brings e x) →
      x ∈ ((w.put i h' calls).hosts j).node.log.entries →
        x ∈ (w.hosts j).node.log.entries ∨ w.Brings e x := by
    intro i h' calls hi
    exact World.put_hosts (P := fun j h => x ∈ h.node.log.entries →
      x ∈ (w.hosts j).node.log.entries ∨ w.Brings e x) hi (fun _ _ => Or.inl) j
  cases step_moved hs with
  | act i a h' cs hi hact =>
      refine hput (fun hx => ?_) hx
      rcases (Host.act_acted hact).mem_entries hx with hold | ⟨command, rfl, rfl⟩
      · exact Or.inl hold
      · exact Or.inr (Or.inr rfl)
  | deliver c cut call h' rpc hc hdel =>
      refine hput (fun hx => ?_) hx
      rcases (Host.deliver_delivered hdel).mem_entries hx with hold | ⟨args, hargs, hin⟩
      · exact Or.inl hold
      · exact Or.inr (Or.inl ⟨call, hc, args, hargs, hin⟩)
  | receive c call h' hc hw hrec =>
      exact hput (fun hx => Or.inl (Indexed.log_received (Host.receive_received hrec) ▸ hx)) hx
  | giveUp c call hc hw =>
      refine hput (fun hx => ?_) hx
      exact Or.inl hx

end Origin

/-- The entries that the apply loop holds. -/
def ApplyLoop.held : ApplyLoop → List Entry
  | .batch es => es
  | .sent e es => e :: es
  | _ => []

/-- Every entry that a node or a call holds is one of the proposals. -/
structure Sourced (w : World) (sh : Shadow) (ps : List Entry) : Prop where
  full : ∀ i, sh.full i ⊆ ps
  sent : ∀ F ∈ sh.sent, F ⊆ ps
  held : ∀ i, (w.hosts i).applyLoop.held ⊆ ps
  delivered : ∀ i, (w.hosts i).delivered ⊆ ps

namespace Sourced

variable {cl : Cluster} {w w' : World} {sh : Shadow} {a : State String Entry} {ps : List Entry}
  {e : Event}

theorem init (cl : Cluster) : Sourced (World.init cl) Shadow.init [] where
  full _ := List.Subset.refl _
  sent F hF := by simp [Shadow.init] at hF
  held _ := List.Subset.refl _
  delivered _ := List.Subset.refl _

theorem entries (h : Sourced w sh ps) (hsim : Sim cl w sh a) (i : String) :
    (w.hosts i).node.log.entries ⊆ ps := by
  rw [(hsim.host i).represents.entries, ← hsim.full i]
  exact List.Subset.trans (List.drop_subset _ _) (h.full i)

/-- A request carries entries of its sender's full log. -/
theorem request (h : Sourced w sh ps) (hsim : Sim cl w sh a) {call : Call}
    (hcall : call ∈ w.handled e) {args : AppendEntriesArgs}
    (hargs : args ∈ call.rpc.appendRequest) : args.entries ⊆ ps := by
  obtain ⟨c, hc⟩ : ∃ c : ℕ, w.calls[c]? = some call := by
    cases e with
    | deliver c cut => exact ⟨c, hcall⟩
    | _ => cases hcall
  obtain ⟨F, hF, hcallsim⟩ := hsim.exists_sent hc
  obtain ⟨src, dst, rpc, waiting⟩ := call
  cases rpc with
  | appendEntries args' reply =>
      cases reply with
      | some reply => cases hargs
      | none =>
          obtain rfl := Option.some.inj hargs
          rw [hcallsim.2.2.1]
          exact List.Subset.trans (List.drop_subset _ _) (h.sent F (List.mem_of_getElem? hF))
  | _ => cases hargs

theorem entries_step (h : Sourced w sh ps) (hsim : Sim cl w sh a) (hs : Raft.step cl w e = some w')
    (j : String) : (w'.hosts j).node.log.entries ⊆ ps ++ (w.proposal e).toList := by
  intro x hx
  rcases mem_entries_step hs j hx with hold | ⟨call, hcall, args, hargs, hin⟩ | hnew
  · exact List.mem_append_left _ (h.entries hsim j hold)
  · exact List.mem_append_left _ (h.request hsim hcall hargs hin)
  · exact List.mem_append_right _ (by simp [hnew])

theorem source (h : Sourced w sh ps) (j : String) : sh.source w w' e j ⊆ ps := by
  unfold Shadow.source
  split
  · split
    · split
      · rename_i c _ _ _ _ _ _ _ _
        cases hF : sh.sent[c]? with
        | none => exact List.nil_subset _
        | some F => exact h.sent F (List.mem_of_getElem? hF)
      · exact h.full j
    · exact h.full j
  · exact h.full j

theorem nextFull (h : Sourced w sh ps) (hsim : Sim cl w sh a) (hs : Raft.step cl w e = some w')
    (j : String) : sh.nextFull w w' e j ⊆ ps ++ (w.proposal e).toList := by
  refine List.append_subset.mpr ⟨?_, h.entries_step hsim hs j⟩
  exact List.Subset.trans (List.take_subset _ _)
    (List.Subset.trans (h.source j) (List.subset_append_left _ _))

theorem step (h : Sourced w sh ps) (hsim : Sim cl w sh a) (hs : Raft.step cl w e = some w') :
    Sourced w' (sh.next w w' e) (ps ++ (w.proposal e).toList) := by
  have hps : ps ⊆ ps ++ (w.proposal e).toList := List.subset_append_left _ _
  refine ⟨h.nextFull hsim hs, ?_, fun i => ?_, fun i => ?_⟩
  · intro F hF
    have hold : F ∈ sh.sent → F ⊆ ps ++ (w.proposal e).toList :=
      fun hF => List.Subset.trans (h.sent F hF) hps
    cases e with
    | act i x =>
        rcases List.mem_append.mp hF with hF | hF
        · exact hold hF
        · rw [List.eq_of_mem_replicate hF]
          exact h.nextFull hsim hs i
    | _ => exact hold hF
  · have hheld := h.held i
    have hpace := step_paced hs i
    generalize hp : (w'.hosts i).pace = p at hpace
    have hloop : (w'.hosts i).applyLoop = p.applyLoop := congrArg Pace.applyLoop hp
    rw [hloop]
    cases hpace with
    | kept | installed => exact List.Subset.trans hheld hps
    | sliced applied commit ha =>
        intro x hx
        exact hps (h.entries hsim i (RaftLog.mem_of_mem_slice hx))
    | sent x rest ha =>
        rw [ha] at hheld
        exact List.Subset.trans hheld hps
    | marked x rest ha =>
        rw [ha] at hheld
        exact List.Subset.trans (List.subset_cons_self x rest) (List.Subset.trans hheld hps)
    | checked x ha hx =>
        rcases hx with rfl | rfl
        · exact List.nil_subset _
        · exact List.nil_subset _
    | _ => exact List.nil_subset _
  · have hheld := h.held i
    have hdel := List.Subset.trans (h.delivered i) hps
    have hpace := step_paced hs i
    generalize hp : (w'.hosts i).pace = p at hpace
    have hdelivered : (w'.hosts i).delivered = p.delivered := congrArg Pace.delivered hp
    rw [hdelivered]
    cases hpace with
    | sent x rest ha =>
        rw [ha] at hheld
        simp only
        split
        · exact List.append_subset.mpr ⟨hdel,
            List.cons_subset.mpr ⟨hps (hheld List.mem_cons_self), List.nil_subset _⟩⟩
        · exact hdel
    | _ => exact hdel

end Sourced

/-- Every proposal stands at its index in the log of the leader of its term, and what stands below
it there was proposed before it. -/
def Rooted (a : State String Entry) (ps : List Entry) : Prop :=
  ∀ (k : ℕ) (p : Entry), ps[k]? = some p → 0 < p.index ∧ ∃ L, a.lead p.term = some L ∧
    L[p.index - 1]? = some p ∧ L.take (p.index - 1) ⊆ ps.take k

theorem Rooted.mono {a b : State String Entry} {ps : List Entry} (h : Rooted a ps) (hab : a ≤ b) :
    Rooted b ps := by
  intro k p hp
  obtain ⟨hpos, L, hL, hget, hsub⟩ := h k p hp
  obtain ⟨L', hL', hpre⟩ := hab.lead_le p.term L hL
  have hlt : p.index - 1 < L.length := (List.getElem?_eq_some_iff.mp hget).1
  have hag := Agree.of_isPrefix hpre
  refine ⟨hpos, L', hL', ?_, ?_⟩
  · rw [← hag _ (Nat.zero_le _) hlt, hget]
  · rw [← (hag.mono le_rfl hlt.le).take_eq]
    exact hsub

theorem Rooted.concat {b : State String Entry} {ps F : List Entry} {p : Entry}
    (h : Rooted b ps) (hlead : b.lead p.term = some (F ++ [p])) (hindex : p.index = F.length + 1)
    (hF : F ⊆ ps) : Rooted b (ps ++ [p]) := by
  intro k q hq
  rcases Growth.getElem?_concat_cases hq with ⟨hlt, hold⟩ | ⟨rfl, rfl⟩
  · obtain ⟨hpos, L, hL, hget, hsub⟩ := h k q hold
    refine ⟨hpos, L, hL, hget, ?_⟩
    rwa [List.take_append_of_le_length hlt.le]
  · refine ⟨by omega, F ++ [q], hlead, ?_, ?_⟩
    · rw [hindex, Nat.add_sub_cancel, List.getElem?_concat_length]
    · rw [hindex, Nat.add_sub_cancel, List.take_left, List.take_left]
      exact hF

/-- No two proposals have the same index and the same term. -/
def Distinct (ps : List Entry) : Prop := (ps.map fun p => (p.index, p.term)).Nodup

/-- What the record of the proposals says about a world. -/
structure Accounted (cl : Cluster) (w : World) (ps : List Entry) : Prop where
  configured : Configured cl w
  voting : Voting cl w
  distinct : Distinct ps
  sim : ∃ sh a, Sim cl w sh a ∧ Sourced w sh ps ∧ Rooted a ps

namespace Accounted

variable {cl : Cluster} {w w' : World} {ps : List Entry} {e : Event}

theorem init (cl : Cluster) : Accounted cl (World.init cl) [] where
  configured := Configured.init cl
  voting := Voting.init cl
  distinct := List.nodup_nil
  sim := ⟨Shadow.init, State.init, Sim.init cl, Sourced.init cl, by simp [Rooted]⟩

/-- The full log of a leader that proposes. -/
theorem full_of_proposal {sh : Shadow} {a b : State String Entry} {i : String}
    {command : List UInt8} (hsim : Sim cl w sh a)
    (hs : Raft.step cl w (.act i (.propose command)) = some w')
    (hsim' : Sim cl w' (sh.next w w' (.act i (.propose command))) b) :
    let p : Entry := ⟨(w.hosts i).node.log.lastIndex + 1, (w.hosts i).node.currentTerm, command⟩
    a.lead p.term = some (a.log i) ∧ b.lead p.term = some (a.log i ++ [p]) ∧
      p.index = (a.log i).length + 1 := by
  intro p
  cases step_moved hs with
  | act _ _ h' cs hi hact =>
      cases Host.act_acted hact with
      | propose _ n hn =>
          obtain ⟨hleader, rfl⟩ := Node.propose_ok hn
          have hhost := hsim.host i
          have hhost' := hsim'.host i
          have hfull := hsim'.full i
          have hrole := Node.advanceCommitIndex_role
            { (w.hosts i).node with
              log := (w.hosts i).node.log.append [p]
              matchIndex := (w.hosts i).node.matchIndex.set (w.hosts i).node.id
                ((w.hosts i).node.log.lastIndex + 1) }
          simp only [Shadow.next, Shadow.nextFull, Shadow.source, World.put_hosts_self,
            Node.advanceCommitIndex_log, RaftLog.append, ← List.append_assoc, hsim.full i] at hfull
          rw [hhost.represents.entries, List.take_append_drop] at hfull
          simp only [World.put_hosts_self] at hhost'
          have hlead := hhost'.leader ((congrArg Role.state hrole).trans hleader)
          refine ⟨hhost.leader hleader, ?_, ?_⟩
          · rw [← hfull] at hlead
            rw [← hlead]
            exact congrArg b.lead (congrArg Role.currentTerm hrole).symm
          · exact congrArg (· + 1) hhost.represents.lastIndex

theorem step (h : Accounted cl w ps) (hok : aboveSnapshot w e)
    (hs : Raft.step cl w e = some w') : Accounted cl w' (ps ++ (w.proposal e).toList) := by
  obtain ⟨sh, a, hsim, hsourced, hrooted⟩ := h.sim
  obtain ⟨b, hab, hsim'⟩ := hsim.step h.configured h.voting hok hs
  have hsourced' := hsourced.step hsim hs
  have hcfg' := h.configured.step hs
  have hvoting' := h.voting.step h.configured hs
  cases hprop : w.proposal e with
  | none =>
      rw [hprop] at hsourced'
      simp only [Option.toList_none, List.append_nil] at hsourced' ⊢
      exact ⟨hcfg', hvoting', h.distinct, _, b, hsim', hsourced', hrooted.mono hab⟩
  | some p =>
      rw [hprop] at hsourced'
      obtain ⟨i, command, rfl, rfl⟩ : ∃ i command, e = .act i (.propose command) ∧
          p = ⟨(w.hosts i).node.log.lastIndex + 1, (w.hosts i).node.currentTerm, command⟩ := by
        unfold World.proposal at hprop
        split at hprop
        · exact ⟨_, _, rfl, (Option.some.inj hprop).symm⟩
        · cases hprop
      obtain ⟨hlead, hlead', hindex⟩ := full_of_proposal hsim hs hsim'
      refine ⟨hcfg', hvoting', ?_, _, b, hsim', hsourced',
        (hrooted.mono hab).concat hlead' hindex (hsim.full i ▸ hsourced.full i)⟩
      -- an earlier proposal of this term stands below the new index
      rw [Distinct, Option.toList_some, List.map_append, List.map_singleton,
        ← List.concat_eq_append, List.nodup_concat]
      refine ⟨fun hmem => ?_, h.distinct⟩
      obtain ⟨q, hq, heq⟩ := List.mem_map.mp hmem
      obtain ⟨hqi, hqt⟩ := Prod.mk.inj heq
      obtain ⟨k, hk⟩ := List.mem_iff_getElem?.mp hq
      obtain ⟨-, L, hL, hget, -⟩ := hrooted k q hk
      rw [hqt] at hL
      obtain rfl : a.log i = L := Option.some.inj (hlead.symm.trans hL)
      have hlt := (List.getElem?_eq_some_iff.mp hget).1
      omega

end Accounted

/-- What a node has delivered is a part of what was proposed, in the order of the proposals. -/
theorem Accounted.delivered_sublist {cl : Cluster} {w : World} {ps : List Entry}
    (hacc : Accounted cl w ps) (hgap : GaplessWorld cl w) {i : String}
    (hi : cl.commitCh i = true) : (w.hosts i).delivered.Sublist ps := by
  obtain ⟨sh, a, hsim, hsourced, hrooted⟩ := hacc.sim
  have hchosen := (hsim.host i).delivered
  refine Growth.sublist_of_pairwise (hsourced.delivered i) ?_
  rw [List.pairwise_iff_getElem]
  intro j k hj hk hjk m hm
  -- the two entries stand in one log, that of the leader who made the second one
  have hxi := (hgap.2 i hi).delivered j _ (List.getElem?_eq_getElem hj)
  have hyi := (hgap.2 i hi).delivered k _ (List.getElem?_eq_getElem hk)
  obtain ⟨-, L, hL, -, hsub⟩ := hrooted m _ hm
  have hget := hsim.inv.chosen_below (hchosen _ (List.getElem_mem hj)).2
    (hchosen _ (List.getElem_mem hk)).2 (by omega) hL
  refine hsub (List.mem_of_getElem? (i := ((w.hosts i).delivered[j]).index - 1) ?_)
  rw [List.getElem?_take_of_lt (by omega), hget]

/-- **Deliveries are proposals.** In a run that meets `caughtUp`, no two calls of `Propose` make
entries with the same index and term, and what a node has delivered is a part of what was proposed,
in the order of the proposals: nothing is made up, no proposal is delivered twice, and of two
proposals that are delivered the earlier one comes first. -/
theorem delivered_sublist_proposals {cl : Cluster} {w : World} {ps : List Entry}
    (h : Path (recording (step cl) World.proposal) (fun s e => caughtUp s.1 e)
      (World.init cl, []) (w, ps)) :
    Distinct ps ∧ ∀ i, cl.commitCh i = true → (w.hosts i).delivered.Sublist ps := by
  have hacc : Accounted cl w ps := h.recording_invariant (Accounted.init cl)
    fun _ _ _ _ hi hok hs => hi.step hok.1 hs
  have hgap : GaplessWorld cl w := Path.invariant h.unrecorded (GaplessWorld.init cl)
    fun _ _ _ hi hok hs => hi.step hok hs
  exact ⟨hacc.distinct, fun i hi => hacc.delivered_sublist hgap hi⟩

/-- Node `a` commits and delivers an entry, and `b` proposes another one in the next term. -/
theorem delivered_sublist_proposals_trio : ∃ (w : World) (ps : List Entry),
    ps = [⟨1, 1, [1]⟩, ⟨2, 2, [2]⟩] ∧ (w.hosts "a").delivered = [⟨1, 1, [1]⟩] ∧
    Distinct ps ∧ (w.hosts "a").delivered.Sublist ps := by
  have hen : Enabled (guarded (recording (step trio) World.proposal) fun s e => caughtUp s.1 e)
      (World.init trio, []) (commitA ++ applies "a" 1 ++ electB ++ [.act "b" (.propose [2])]) := by
    decide
  have hall := delivered_sublist_proposals (Path.final hen)
  exact ⟨_, _, by decide, by decide, hall.1, hall.2 "a" rfl⟩

end Raft

end VaultFS
