import VaultFS.Raft.Cluster.IndexOrder

/-!
# What the apply loop delivers

The apply loop delivers every index once and in order as long as it decides itself
where to go on. A snapshot that reaches beyond everything the loop has delivered or
copied moves `lastApplied` past entries that are then never delivered; the condition
`caughtUp` excludes this.
-/

namespace VaultFS

namespace Raft

open ReplicatedLog Transition

/-- The entries that the apply loop has copied from the log and not delivered yet. -/
def ApplyLoop.copied : ApplyLoop → List Entry
  | .batch es => es
  | .sent _ es => es
  | _ => []

/-- A snapshot that is installed by a node with a `CommitCh` ends within what its
apply loop has delivered or copied. -/
def installsWithinCopy (w : World) (e : Event) : Prop :=
  ∀ r ∈ w.installs e, (w.hosts r.1).node.commitCh = true →
    r.2 ≤ (w.hosts r.1).delivered.length + (w.hosts r.1).applyLoop.copied.length

instance (w : World) (e : Event) : Decidable (installsWithinCopy w e) :=
  inferInstanceAs (Decidable (∀ r ∈ w.installs e, _ → _))

def caughtUp (w : World) (e : Event) : Prop := aboveSnapshot w e ∧ installsWithinCopy w e

instance (w : World) (e : Event) : Decidable (caughtUp w e) := inferInstanceAs (Decidable (_ ∧ _))

/-- The apply loop of a node that has delivered `d` entries goes on with the next
one. While it works on a batch it does not read `lastApplied`, which has to be `d`
again only when the batch is used up. -/
def InStep (d lastApplied : ℕ) : ApplyLoop → Prop
  | .read applied _ => applied = d ∧ lastApplied = d
  | .batch es => Consecutive (d + 1) es ∧ (es = [] → lastApplied = d)
  | .sent e es => e.index = d ∧ Consecutive (d + 1) es
  | _ => lastApplied = d

/-- A snapshot is installed that ends within what the loop has delivered or copied. -/
theorem InStep.install {d lastApplied s : ℕ} {x : ApplyLoop} (h : InStep d lastApplied x)
    (hs : s ≤ d + x.copied.length) : InStep d (max lastApplied s) x := by
  cases x with
  | batch es =>
      refine ⟨h.1, fun hnil => ?_⟩
      have happ := h.2 hnil
      simp only [ApplyLoop.copied, hnil, List.length_nil] at hs
      omega
  | sent e rest => exact h
  | _ =>
      simp only [InStep, ApplyLoop.copied, List.length_nil] at h hs ⊢
      omega

namespace Pace

structure Gapless (p : Pace) : Prop where
  delivered : Consecutive 1 p.delivered
  loop : InStep p.delivered.length p.lastApplied p.applyLoop

variable {w : World} {e : Event} {j : String} {h : Host} {p : Pace}

theorem Gapless.step (hg : h.pace.Gapless) (hlog : h.node.log.Contiguous)
    (hch : h.node.commitCh = true)
    (hok : ∀ s, w.installs e = some (j, s) → s ≤ h.delivered.length + h.applyLoop.copied.length)
    (hp : Paced w e j h p) : p.Gapless := by
  obtain ⟨hdel, hloop⟩ := hg
  simp only [Host.pace] at hdel hloop
  cases hp with
  | kept s hs hle => exact ⟨hdel, hloop⟩
  | installed s hs hin => exact ⟨hdel, hloop.install (hok s hin)⟩
  | read ha =>
      rw [ha] at hloop
      exact ⟨hdel, hloop, hloop⟩
  | sliced applied commit ha =>
      rw [ha] at hloop
      obtain ⟨rfl, happ⟩ := hloop
      exact ⟨hdel, hlog.slice _ _, fun _ => happ⟩
  | sent x rest ha =>
      rw [ha] at hloop
      obtain ⟨hes, -⟩ := hloop
      have hx := hes.head
      have hone : Consecutive (1 + h.delivered.length) [x] := by
        rw [Nat.add_comm]
        exact hes.take 1
      rw [hch, if_pos rfl]
      refine ⟨hdel.append hone, ?_, ?_⟩
      · rw [hx, List.length_append, List.length_singleton]
      · rw [List.length_append, List.length_singleton]
        exact hes.tail
  | marked x rest ha =>
      rw [ha] at hloop
      exact ⟨hdel, hloop.2, fun _ => hloop.1⟩
  | checked x ha hx =>
      rw [ha] at hloop
      have happ := hloop.2 rfl
      rcases hx with rfl | rfl
      · exact ⟨hdel, happ⟩
      · exact ⟨hdel, happ⟩
  | dropped ha =>
      rw [ha] at hloop
      exact ⟨hdel, hloop⟩
  | measured term ha =>
      rw [ha] at hloop
      exact ⟨hdel, hloop⟩
  | compacted d s ha hs hle =>
      rw [ha] at hloop
      exact ⟨hdel, hloop⟩

end Pace

section Gapless

variable {cl : Cluster} {w w' : World}

/-- The invariant of the runs whose steps are all `caughtUp`. -/
def GaplessWorld (cl : Cluster) (w : World) : Prop :=
  (∃ a, Simulated cl w a) ∧ ∀ i, cl.commitCh i = true → (w.hosts i).pace.Gapless

theorem GaplessWorld.init (cl : Cluster) : GaplessWorld cl (World.init cl) :=
  ⟨⟨_, Simulated.init cl⟩, fun _ _ => ⟨Consecutive.nil _, rfl⟩⟩

theorem GaplessWorld.step {e : Event} (h : GaplessWorld cl w) (hok : caughtUp w e)
    (hs : Raft.step cl w e = some w') : GaplessWorld cl w' := by
  obtain ⟨⟨a, hsim⟩, hgap⟩ := h
  obtain ⟨b, hsim', -⟩ := hsim.step hok.1 hs
  obtain ⟨hcfg, -, sh, hrel⟩ := hsim
  refine ⟨⟨b, hsim'⟩, fun i hi => ?_⟩
  have hch : (w.hosts i).node.commitCh = true :=
    (congrArg Static.commitCh (hcfg.static i)).trans hi
  exact (hgap i hi).step (hrel.host i).represents.contiguous hch
    (fun s hin => hok.2 (i, s) hin hch) (step_paced hs i)

/-- What two nodes deliver without gaps is committed, so it agrees. -/
theorem isPrefix_of_chosen {a : State String Entry} {𝒬 : Quorums String}
    (ha : ReplicatedLog.Inv 𝒬 a) {es es' : List Entry} (h : Consecutive 1 es)
    (h' : Consecutive 1 es') (hes : ∀ e ∈ es, ChosenAt a e) (hes' : ∀ e ∈ es', ChosenAt a e)
    (hle : es.length ≤ es'.length) : es <+: es' := by
  have hag : Agree 0 es.length es es' := by
    intro k _ hk
    have he := List.getElem?_eq_getElem hk
    have he' := List.getElem?_eq_getElem (hk.trans_le hle)
    have hc := (hes _ (List.mem_of_getElem? he)).2
    have hc' := (hes' _ (List.mem_of_getElem? he')).2
    rw [h k _ he] at hc
    rw [h' k _ he'] at hc'
    rw [he, he', ha.chosen_unique hc hc']
  rw [← List.take_length (l := es), hag.take_eq]
  exact List.take_prefix _ _

/-- **Gap-free delivery.** In a run whose steps are all `caughtUp`, a node with a
`CommitCh` has delivered the indices from one up to some number in order, and of the
commands that two nodes have delivered, one sequence is the beginning of the other. -/
theorem delivery_gap_free (hw : Reach cl caughtUp w) :
    (∀ i, cl.commitCh i = true → ∃ k, (w.hosts i).delivered.map (·.index) = List.range' 1 k) ∧
    ∀ i j, cl.commitCh i = true → cl.commitCh j = true →
      (w.hosts i).delivered.map (·.command) <+: (w.hosts j).delivered.map (·.command) ∨
      (w.hosts j).delivered.map (·.command) <+: (w.hosts i).delivered.map (·.command) := by
  obtain ⟨⟨a, -, -, sh, hsim⟩, hgap⟩ := Path.invariant hw (GaplessWorld.init cl)
    fun _ _ _ hi hok hs => hi.step hok hs
  refine ⟨fun i hi => ⟨(w.hosts i).delivered.length, ?_⟩, fun i j hi hj => ?_⟩
  · apply List.ext_getElem (by simp)
    intro k hk hk'
    rw [List.length_map] at hk
    have := (hgap i hi).delivered k _ (List.getElem?_eq_getElem hk)
    simpa using this
  · have hdi := (hgap i hi).delivered
    have hdj := (hgap j hj).delivered
    rcases Nat.le_total (w.hosts i).delivered.length (w.hosts j).delivered.length with
      hle | hle
    · exact Or.inl ((isPrefix_of_chosen hsim.inv hdi hdj (hsim.host i).delivered
        (hsim.host j).delivered hle).map _)
    · exact Or.inr ((isPrefix_of_chosen hsim.inv hdj hdi (hsim.host j).delivered
        (hsim.host i).delivered hle).map _)

/-- Node `c` gets both entries as well, but its last reply is lost; it has delivered
them when the snapshot arrives. -/
def installAfterApplying : List Event :=
  commitTwo ++ [.act "a" (.replicateTo "c" false), .deliver 5 none, .giveUp 5] ++
  applies "a" 2 ++ [.act "a" (.takeSnapshot []), .act "a" .heartbeat,
    .act "a" (.replicateTo "c" false), .act "a" (.sendSnapshot "c" false)] ++ applies "c" 2 ++
  [.deliver 6 none]

theorem delivery_gap_free_trio : ∃ w : World,
    (w.hosts "c").node.log.snapIndex = 2 ∧
    (∃ k, (w.hosts "c").delivered.map (·.index) = List.range' 1 k) ∧
    ((w.hosts "b").delivered.map (·.command) <+: (w.hosts "c").delivered.map (·.command) ∨
      (w.hosts "c").delivered.map (·.command) <+: (w.hosts "b").delivered.map (·.command)) := by
  have hw : Runs trio caughtUp installAfterApplying := by decide +kernel
  have hsnap : ((run trio caughtUp installAfterApplying).hosts "c").node.log.snapIndex = 2 := by
    decide +kernel
  have hgap := delivery_gap_free (Reach.run hw)
  exact ⟨_, hsnap, hgap.1 "c" rfl, hgap.2 "b" "c" rfl rfl⟩

/-- Node `c` delivers the first entry, installs the snapshot, and then delivers the
third entry. -/
def installThenDeliver : List Event :=
  snapshotToC ++ applies "c" 1 ++ [.deliver 5 none, .receive 5, .act "a" (.propose [3]),
    .act "a" .heartbeat, .act "a" (.replicateTo "b" false), .deliver 6 none, .receive 6,
    .act "a" (.replicateTo "c" false), .deliver 7 none] ++ applies "c" 1

/-- The second entry is never delivered. -/
theorem delivery_with_gap : ∃ w : World, Reach trio aboveSnapshot w ∧
    (w.hosts "c").delivered.map (·.index) = [1, 3] ∧
    (w.hosts "a").delivered.map (·.index) = [1, 2] := by
  have hw : Runs trio aboveSnapshot installThenDeliver := by decide +kernel
  have hc : ((run trio aboveSnapshot installThenDeliver).hosts "c").delivered.map (·.index) =
      [1, 3] := by decide +kernel
  have ha : ((run trio aboveSnapshot installThenDeliver).hosts "a").delivered.map (·.index) =
      [1, 2] := by decide +kernel
  exact ⟨_, Reach.run hw, hc, ha⟩

/-- An action that sends nothing meets the condition. -/
theorem caughtUp_act {i : String} {x : Action} (h : (Event.act i x).replication = none) :
    caughtUp w (.act i x) := by
  refine ⟨⟨fun r hr => ?_, fun call hcall => nomatch hcall⟩, fun r hr => nomatch hr⟩
  rw [h] at hr
  cases hr

/-- A step delivers at most one entry. -/
theorem Paced.delivered_isPrefix {e : Event} {j : String} {h : Host} {p : Pace}
    (hp : Paced w e j h p) :
    h.delivered <+: p.delivered ∧ p.delivered.length ≤ h.delivered.length + 1 := by
  have hsame : h.delivered <+: h.delivered ∧ h.delivered.length ≤ h.delivered.length + 1 :=
    ⟨List.prefix_rfl, Nat.le_succ _⟩
  cases hp with
  | sent x rest ha =>
      simp only
      split
      · exact ⟨List.prefix_append _ _, by simp⟩
      · exact hsame
  | _ => exact hsame

theorem GaplessWorld.isPrefix {i j : String} (h : GaplessWorld cl w) (hi : cl.commitCh i = true)
    (hj : cl.commitCh j = true)
    (hle : (w.hosts i).delivered.length ≤ (w.hosts j).delivered.length) :
    (w.hosts i).delivered <+: (w.hosts j).delivered := by
  obtain ⟨⟨a, -, -, sh, hsim⟩, hgap⟩ := h
  exact isPrefix_of_chosen hsim.inv (hgap i hi).delivered (hgap j hj).delivered
    (hsim.host i).delivered (hsim.host j).delivered hle

/-- The longest list of entries that a node has delivered. -/
structure Frontier (cl : Cluster) (w : World) (D : List Entry) : Prop where
  held : D = [] ∨ ∃ j, cl.commitCh j = true ∧ (w.hosts j).delivered = D
  le : ∀ i, cl.commitCh i = true → (w.hosts i).delivered <+: D

theorem Frontier.init (cl : Cluster) : Frontier cl (World.init cl) [] where
  held := Or.inl rfl
  le _ _ := List.prefix_rfl

/-- A step moves the frontier by at most one entry. -/
theorem Frontier.step {e : Event} {D : List Entry} (hD : Frontier cl w D) (h' : GaplessWorld cl w')
    (hs : Raft.step cl w e = some w') :
    Frontier cl w' D ∨ ∃ x, Frontier cl w' (D ++ [x]) := by
  have hgrow := fun i => (step_paced hs i).delivered_isPrefix
  have hlen : ∀ i, cl.commitCh i = true → (w'.hosts i).delivered.length ≤ D.length + 1 :=
    fun i hi => (hgrow i).2.trans (Nat.succ_le_succ (hD.le i hi).length_le)
  by_cases hnew : ∃ i, cl.commitCh i = true ∧ D.length < (w'.hosts i).delivered.length
  · obtain ⟨i, hi, hlt⟩ := hnew
    have hpre : D <+: (w'.hosts i).delivered := by
      rcases hD.held with rfl | ⟨j, hj, rfl⟩
      · exact List.nil_prefix
      · have hjlen := (hgrow j).1.length_le
        rcases Nat.le_total (w'.hosts j).delivered.length (w'.hosts i).delivered.length with
          hle | hle
        · exact (hgrow j).1.trans (h'.isPrefix hj hi hle)
        · exact List.prefix_of_prefix_length_le (hgrow j).1 (h'.isPrefix hi hj hle) hlt.le
    obtain ⟨rest, hrest⟩ := hpre
    have hone : rest.length = 1 := by
      have := hlen i hi
      rw [← hrest, List.length_append] at this hlt
      omega
    obtain ⟨x, rfl⟩ := List.length_eq_one_iff.mp hone
    refine Or.inr ⟨x, Or.inr ⟨i, hi, hrest.symm⟩, fun k hk => ?_⟩
    rw [hrest]
    exact h'.isPrefix hk hi ((hlen k hk).trans hlt)
  · -- nobody is ahead, and who was at the frontier still is
    have hle : ∀ i, cl.commitCh i = true → (w'.hosts i).delivered.length ≤ D.length :=
      fun i hi => Nat.le_of_not_lt fun hlt => hnew ⟨i, hi, hlt⟩
    refine Or.inl ?_
    rcases hD.held with rfl | ⟨j, hj, rfl⟩
    · refine ⟨Or.inl rfl, fun i hi => ?_⟩
      rw [List.length_eq_zero_iff.mp (Nat.le_zero.mp (hle i hi))]
    · have heq : (w.hosts j).delivered = (w'.hosts j).delivered :=
        (hgrow j).1.eq_of_length_le (hle j hj)
      refine ⟨Or.inr ⟨j, hj, heq.symm⟩, fun i hi => ?_⟩
      rw [heq] at hle ⊢
      exact h'.isPrefix hi hj (hle i hi)

end Gapless

end Raft

end VaultFS
