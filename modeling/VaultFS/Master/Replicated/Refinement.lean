import VaultFS.Master.Cluster.Parts
import VaultFS.Master.Replicated.Basic
import Mathlib.Data.Countable.Basic
import Mathlib.Logic.Equiv.List

/-!
# Masters on Raft do what masters on a committed sequence do

`Master.Cluster` takes one sequence of committed commands for granted, from which every master
receives. Here this is shown of the masters whose commands go through Raft nodes: every run of
them is a run over one sequence, with the same servers and the same calls. The sequence is the
longest list of entries that a node has delivered (`Raft.Frontier`), and it grows by a command
that some call had accepted by its node and that is not in it yet, because an entry that is
delivered was made by exactly one call of `Propose` (`Raft.Accounted`).
-/

namespace VaultFS.Master

open KeyValue Metadata Transition

namespace Cluster

variable {σ : Type*} [Store σ Char FileInfo]

/-- A step of a server alone does not depend on what is committed. -/
theorem step_servers {cl : Raft.Cluster} (clock : String → ℕ → Time) (w : Replicated.World σ)
    {e : Event String} (he : Replicated.runsAlone cl e = true) (committed : List Entry) :
    step clock (w.servers committed) e =
      (step clock (w.servers []) e).map fun v => { v with committed } := by
  -- what a step does with a call is the same on both sides
  have hcall : ∀ {c : ℕ} {f g : Call String → Option (World String σ)},
      (∀ call, f call = (g call).map fun v => { v with committed }) →
      w.calls[c]?.bind f = (w.calls[c]?.bind g).map fun v => { v with committed } := by
    intro c f g hfg
    rw [Option.map_bind]
    exact congrArg _ (funext hfg)
  cases e with
  | call m cmd => rfl
  | propose c leader => cases he
  | commit c => cases he
  | deliver m => cases he
  | register c => exact hcall fun call => by split <;> rfl
  | lookup m =>
      simp only [step, Replicated.World.servers]
      split <;> rfl
  | send m =>
      simp only [step, Replicated.World.servers]
      split
      · exact hcall fun call => by split <;> rfl
      · rfl
  | receive c => exact hcall fun call => by split <;> rfl
  | cancel c deadline => exact hcall fun call => by split <;> rfl
  | unregister c => exact hcall fun call => by split <;> rfl

variable {clock : String → ℕ → Time} {init : String → Server σ} {w w' : World String σ}

/-- A call that has not come to its node yet has nothing accepted. -/
def Unproposed (w : World String σ) : Prop :=
  ∀ (c : ℕ) call, w.calls[c]? = some call → call.stage = .started ∨ call.stage = .registered →
    call.proposed = false

theorem Unproposed.step {e : Event String} (h : Unproposed w) (hs : step clock w e = some w') :
    Unproposed w' := by
  intro c call' hc' hstage
  cases hc : w.calls[c]? with
  | some call =>
      obtain ⟨call'', hc'', hstep⟩ := call_step hs hc
      obtain rfl := Option.some.inj (hc'.symm.trans hc'')
      cases hstep with
      | same => exact h c _ hc hstage
      | register hst => exact h c call hc (Or.inl hst)
      | send he hl => exact h c call hc hstage
      | accepted | leave | receive | unregister => simp at hstage
  | none =>
      rcases World.heads_step hs with heq | ⟨m, cmd, rfl, -⟩
      · have hhead := World.heads_eq_some hc'
        rw [heq, World.heads, List.getElem?_map, hc] at hhead
        cases hhead
      · cases hs
        rcases Growth.getElem?_concat_cases hc' with ⟨-, hold⟩ | ⟨-, rfl⟩
        · cases hc.symm.trans hold
        · rfl

theorem Unproposed.of_path {ok : World String σ → Event String → Prop}
    (h : Path (Cluster.step clock) ok (World.start init) w) : Unproposed w :=
  h.invariant (fun c call hc => by simp [World.start] at hc) fun _ _ _ hu _ hs => hu.step hs

end Cluster

namespace Replicated

variable {σ : Type*} {cl : Raft.Cluster} {codec : Codec} {w w' : World σ}

/-- Every accepted entry carries the command of its call, and no call has two of them. -/
structure Accepted (codec : Codec) (w : World σ) : Prop where
  call : ∀ p ∈ w.accepted, ∃ call, w.calls[p.2]? = some call ∧ call.proposed = true ∧
    p.1.command = codec.encode call.cmd
  once : (w.accepted.map Prod.snd).Nodup

/-- The entries `D` carry the commands `K`, each for the call that had it accepted. -/
def Carries (codec : Codec) (accepted : List (Raft.Entry × ℕ)) :
    List Raft.Entry → List Cluster.Entry → Prop :=
  List.Forall₂ fun x e => (x, e.call) ∈ accepted ∧ x.command = codec.encode e.cmd

namespace Carries

variable {accepted accepted' : List (Raft.Entry × ℕ)} {D : List Raft.Entry}
  {K : List Cluster.Entry} {x : Raft.Entry}

theorem mono (h : Carries codec accepted D K) (hsub : accepted ⊆ accepted') :
    Carries codec accepted' D K :=
  List.Forall₂.imp (fun _ _ hx => ⟨hsub hx.1, hx.2⟩) h

theorem concat (h : Carries codec accepted D K) {e : Cluster.Entry}
    (hx : (x, e.call) ∈ accepted) (hcmd : x.command = codec.encode e.cmd) :
    Carries codec accepted (D ++ [x]) (K ++ [e]) :=
  List.rel_append h (.cons ⟨hx, hcmd⟩ .nil)

theorem exists_entry (h : Carries codec accepted D K) {k : ℕ} (hx : D[k]? = some x) :
    ∃ e, K[k]? = some e ∧ (x, e.call) ∈ accepted ∧ x.command = codec.encode e.cmd := by
  obtain ⟨hk, rfl⟩ := List.getElem?_eq_some_iff.mp hx
  have hk' : k < K.length := List.Forall₂.length_eq h ▸ hk
  exact ⟨K[k], List.getElem?_eq_getElem hk', List.Forall₂.get h hk hk'⟩

theorem map_command (h : Carries codec accepted D K) :
    D.map (·.command) = K.map fun e => codec.encode e.cmd := by
  rw [← List.forall₂_eq_eq_eq, List.forall₂_map_left_iff, List.forall₂_map_right_iff]
  exact List.Forall₂.imp (fun _ _ hx => hx.2) h

/-- The next entry is of a call that has nothing in the sequence: another entry of the call would
be the same one, at two places of the list. -/
theorem call_ne (h : Carries codec accepted D K) (honce : (accepted.map Prod.snd).Nodup)
    (hcons : Raft.Consecutive 1 (D ++ [x])) {c : ℕ} (hx : (x, c) ∈ accepted) {e : Cluster.Entry}
    (he : e ∈ K) : e.call ≠ c := by
  intro heq
  obtain ⟨k, hk, rfl⟩ := List.getElem_of_mem he
  have hlt : k < D.length := List.Forall₂.length_eq h ▸ hk
  have hsame : D[k] = x := congrArg Prod.fst
    (List.inj_on_of_nodup_map honce (List.Forall₂.get h hlt hk).1 hx heq)
  have hk : D[k]? = some x := hsame ▸ List.getElem?_eq_getElem hlt
  have hfirst := hcons k x ((List.getElem?_append_left hlt).trans hk)
  have hlast := hcons D.length _ List.getElem?_concat_length
  omega

end Carries

/-- How masters on Raft nodes represent masters over the sequence `K` of committed commands, when
`D` is the longest list of entries that a node has delivered. -/
structure Linked (cl : Raft.Cluster) (codec : Codec) (w : World σ) (D : List Raft.Entry)
    (K : List Cluster.Entry) : Prop where
  accounted : Raft.Accounted cl w.raft (w.accepted.map Prod.fst)
  gapless : Raft.GaplessWorld cl w.raft
  accepted : Accepted codec w
  frontier : Raft.Frontier cl w.raft D
  carries : Carries codec w.accepted D K

namespace Linked

theorem start (cl : Raft.Cluster) (codec : Codec) (init : String → Server σ) :
    Linked cl codec (World.start cl init) [] [] where
  accounted := .init cl
  gapless := .init cl
  accepted := ⟨fun _ hp => (nomatch hp), List.nodup_nil⟩
  frontier := .init cl
  carries := .nil

variable {D : List Raft.Entry} {K : List Cluster.Entry}

/-- An entry is known by its index and term, so that its call can be looked up. -/
theorem callOf (h : Linked cl codec w D K) {x : Raft.Entry} {c : ℕ} (hx : (x, c) ∈ w.accepted) :
    w.callOf x = c := by
  have hnodup : (w.accepted.map Prod.fst).Nodup := List.Nodup.of_map _ h.accounted.distinct
  unfold World.callOf
  cases hfind : w.accepted.find? fun p => p.1 = x with
  | none => simpa using List.find?_eq_none.mp hfind (x, c) hx
  | some p =>
      have hp : p.1 = x := by simpa using List.find?_some hfind
      have := List.inj_on_of_nodup_map hnodup (List.mem_of_find?_eq_some hfind) hx hp
      rw [this]
      rfl

/-- A call that comes to its node for the first time has nothing accepted. -/
theorem call_ne (h : Linked cl codec w D K) (hfresh : Cluster.Unproposed (w.servers K)) {c : ℕ}
    {call : Cluster.Call String} (hc : w.calls[c]? = some call) (hstage : call.stage = .registered)
    {p : Raft.Entry × ℕ} (hp : p ∈ w.accepted) : p.2 ≠ c := by
  intro heq
  obtain ⟨call', hc', hprop, -⟩ := h.accepted.call p hp
  rw [heq, hc] at hc'
  obtain rfl := Option.some.inj hc'
  rw [hfresh c call hc (Or.inr hstage)] at hprop
  cases hprop

variable [Store σ Char FileInfo] {clock : String → ℕ → Time}

variable (clock) in
/-- After a step of the nodes the frontier is where it was or one entry further. In the second
case the command of this entry is committed. -/
theorem advance {e : Raft.Event} {r : Raft.World} (hfront : Raft.Frontier cl r D)
    (hs : Raft.step cl r e = some w.raft)
    (hacc : Raft.Accounted cl w.raft (w.accepted.map Prod.fst))
    (hgap : Raft.GaplessWorld cl w.raft) (haccepted : Accepted codec w)
    (hcarries : Carries codec w.accepted D K) :
    ∃ D' K', Linked cl codec w D' K' ∧
      Path (Cluster.step clock) (fun _ _ => True) (w.servers K) (w.servers K') := by
  rcases hfront.step hgap hs with hsame | ⟨x, hx⟩
  · exact ⟨D, K, ⟨hacc, hgap, haccepted, hsame, hcarries⟩, .refl⟩
  · obtain ⟨j, hj, hdel⟩ := hx.held.resolve_left (by simp)
    obtain ⟨sh, a, -, hsourced, -⟩ := hacc.sim
    have hxmem : x ∈ w.accepted.map Prod.fst := hsourced.delivered j (by simp [hdel])
    obtain ⟨⟨y, c⟩, hp, hyx⟩ := List.mem_map.mp hxmem
    obtain rfl : y = x := hyx
    obtain ⟨call, hc, hprop, hcmd⟩ := haccepted.call _ hp
    refine ⟨D ++ [y], K ++ [⟨call.cmd, c⟩],
      ⟨hacc, hgap, haccepted, hx, hcarries.concat hp hcmd⟩, .single (e := .commit c) trivial ?_⟩
    have hcons : Raft.Consecutive 1 (D ++ [y]) := hdel ▸ (hgap.2 j hj).delivered
    change w.calls[c]?.bind _ = _
    rw [show w.calls[c]? = some call from hc]
    exact if_pos ⟨hprop, fun e he => hcarries.call_ne haccepted.once hcons hp he⟩

theorem raft (h : Linked cl codec w D K) {r : Raft.World} {e : Raft.Event}
    (hallow : w.allows e = true) (hok : Raft.caughtUp w.raft e)
    (hs : Raft.step cl w.raft e = some r) :
    ∃ D' K', Linked cl codec { w with raft := r } D' K' ∧
      Path (Cluster.step clock) (fun _ _ => True) (w.servers K) (w.servers K') := by
  have hnone : w.raft.proposal e = none := by
    unfold Raft.World.proposal
    split
    · cases hallow
    · rfl
  have hacc := h.accounted.step hok.1 hs
  rw [hnone, Option.toList_none, List.append_nil] at hacc
  exact advance clock (w := { w with raft := r }) h.frontier hs hacc (h.gapless.step hok hs)
    ⟨h.accepted.call, h.accepted.once⟩ h.carries

theorem accept (h : Linked cl codec w D K) (hfresh : Cluster.Unproposed (w.servers K)) {c : ℕ}
    {call : Cluster.Call String} (hc : w.calls[c]? = some call) (hstage : call.stage = .registered)
    {r : Raft.World} {x : Raft.Entry} {e : Raft.Event}
    (he : e = .act call.master (.propose (codec.encode call.cmd)))
    (hx : w.raft.proposal e = some x) (hs : Raft.step cl w.raft e = some r) (hw' : w' = { w with
      raft := r
      calls := w.calls.set c { call with stage := .waiting, proposed := true }
      accepted := w.accepted ++ [(x, c)] }) :
    ∃ D' K', Linked cl codec w' D' K' ∧
      Path (Cluster.step clock) (fun _ _ => True) (w.servers K) (w'.servers K') := by
  subst he
  have hok : Raft.caughtUp w.raft (.act call.master (.propose (codec.encode call.cmd))) :=
    Raft.caughtUp_act rfl
  have hacc := h.accounted.step hok.1 hs
  rw [hx, Option.toList_some] at hacc
  have hlt := (List.getElem?_eq_some_iff.mp hc).1
  have haccepted : Accepted codec w' := by
    subst hw'
    refine ⟨fun p hp => ?_, ?_⟩
    · rcases List.mem_append.mp hp with hp | hp
      · obtain ⟨call', hc', hrest⟩ := h.accepted.call p hp
        refine ⟨call', ?_, hrest⟩
        rw [List.getElem?_set_ne (h.call_ne hfresh hc hstage hp).symm, hc']
      · obtain rfl := List.mem_singleton.mp hp
        refine ⟨_, List.getElem?_set_self hlt, rfl, ?_⟩
        rw [← Option.some.inj hx]
    · rw [List.map_append, List.map_singleton, ← List.concat_eq_append, List.nodup_concat]
      refine ⟨fun hmem => ?_, h.accepted.once⟩
      obtain ⟨p, hp, heq⟩ := List.mem_map.mp hmem
      exact h.call_ne hfresh hc hstage hp heq
  subst hw'
  obtain ⟨D', K', hlinked, hpath⟩ := advance clock (K := K) h.frontier hs
    (by simpa using hacc) (h.gapless.step hok hs) haccepted
    (h.carries.mono (List.subset_append_left _ _))
  refine ⟨D', K', hlinked, Transition.Path.trans (.single (e := .propose c true) trivial ?_) hpath⟩
  change w.calls[c]?.bind _ = _
  rw [hc]
  simp only [Option.bind_some, hstage, if_true]
  rfl

/-- A step of the servers that leaves the nodes and what they have accepted alone. -/
theorem of_servers (h : Linked cl codec w D K) (hraft : w'.raft = w.raft)
    (haccepted : w'.accepted = w.accepted) {e : Cluster.Event String}
    (hs : Cluster.step clock (w.servers K) e = some (w'.servers K)) :
    Linked cl codec w' D K ∧
      Path (Cluster.step clock) (fun _ _ => True) (w.servers K) (w'.servers K) := by
  refine ⟨⟨?_, hraft ▸ h.gapless, ⟨fun p hp => ?_, haccepted ▸ h.accepted.once⟩, hraft ▸ h.frontier,
    haccepted ▸ h.carries⟩, .single trivial hs⟩
  · rw [hraft, haccepted]
    exact h.accounted
  · obtain ⟨call, hc, hprop, hcmd⟩ := h.accepted.call p (haccepted ▸ hp)
    obtain ⟨call', hc', hstep⟩ := Cluster.call_step hs hc
    refine ⟨call', hc', ?_⟩
    cases hstep with
    | accepted => exact ⟨rfl, hcmd⟩
    | same | register | leave | send | receive | unregister => exact ⟨hprop, hcmd⟩

theorem step {e : Event} (h : Linked cl codec w D K) (hcl : ∀ i, cl.commitCh i = true)
    (hfresh : Cluster.Unproposed (w.servers K)) (hok : caughtUp w e)
    (hs : Replicated.step cl codec clock w e = some w') :
    ∃ D' K', Linked cl codec w' D' K' ∧
      Path (Cluster.step clock) (fun _ _ => True) (w.servers K) (w'.servers K') := by
  cases e with
  | raft e =>
      obtain ⟨hallow, hs⟩ := Option.ite_none_right_eq_some.mp hs
      obtain ⟨r, hr, rfl⟩ := Option.map_eq_some_iff.mp hs
      exact h.raft hallow hok hr
  | propose c =>
      obtain ⟨call, hc, hs⟩ := Option.bind_eq_some_iff.mp hs
      split at hs
      · rename_i hstage
        simp only at hs
        split at hs
        · rename_i r hr
          exact h.accept hfresh hc hstage rfl rfl hr (Option.some.inj hs).symm
        · cases hs
          refine ⟨D, K, h.of_servers rfl rfl (e := .propose c false) ?_⟩
          change w.calls[c]?.bind _ = _
          rw [hc]
          simp only [Option.bind_some, hstage]
          rfl
      · cases hs
  | deliver m =>
      simp only [Replicated.step] at hs
      split at hs
      · rename_i hl
        obtain ⟨x, hx, hs⟩ := Option.bind_eq_some_iff.mp hs
        -- the entry carries the command that is next in the sequence
        obtain ⟨e, he, hmem, hcmd⟩ := h.carries.exists_entry
          (Growth.getElem?_of_prefix (h.frontier.le m (hcl m)) hx)
        rw [hcmd, codec.decode_encode] at hs
        simp only [Option.some.injEq] at hs
        subst hs
        refine ⟨D, K, h.of_servers rfl rfl (e := .deliver m) ?_⟩
        simp only [Cluster.step, World.servers, hl, he, h.callOf hmem, Option.bind_some]
        rfl
      · cases hs
  | server e =>
      obtain ⟨halone, hs⟩ := Option.ite_none_right_eq_some.mp hs
      obtain ⟨v, hv, rfl⟩ := Option.map_eq_some_iff.mp hs
      refine ⟨D, K, h.of_servers rfl rfl (e := e) ?_⟩
      rw [Cluster.step_servers clock w halone K, hv]
      rfl

end Linked

section Example

instance countableChar : Countable Char :=
  Function.Injective.countable (f := Char.toNat) fun _ _ h => Char.ext (UInt32.toNat_inj.mp h)

instance countableString : Countable String :=
  Function.Injective.countable (f := String.toList) fun _ _ h => String.toList_inj.mp h

instance countableOpKind : Countable OpKind :=
  Function.Injective.countable
    (f := fun kind => match kind with | .create => 0 | .finalize => 1 | .delete => 2)
    fun a b h => by cases a <;> cases b <;> simp_all

instance countableCommand : Countable Command :=
  Function.Injective.countable
    (f := fun cmd => (cmd.opID, cmd.kind, cmd.path, cmd.chunkIDs, cmd.size))
    fun a b h => by cases a; cases b; simp_all

/-- Commands are countable, so they can all be encoded; the given one is the empty string. -/
noncomputable def Codec.of (cmd : Command) : Codec where
  encode c := if c = cmd then [] else
    List.replicate ((exists_injective_nat Command).choose c + 1) 0
  decode
    | [] => some cmd
    | _ :: bs => Function.partialInv (exists_injective_nat Command).choose bs.length
  decode_encode c := by
    by_cases h : c = cmd
    · simp [h]
    · simp only [if_neg h, List.replicate_succ, List.length_replicate]
      exact Function.partialInv_left (exists_injective_nat Command).choose_spec c

instance {σ : Type*} (w : World σ) : (e : Event) → Decidable (caughtUp w e)
  | .raft e => inferInstanceAs (Decidable (Raft.caughtUp w.raft e))
  | .propose _ | .deliver _ | .server _ => inferInstanceAs (Decidable True)

/-- A write that is proposed to node `a`. -/
def writeA : Command := { kind := .create, path := ['/', 'f'] }

/-- Node `a` is elected, a client has its server create a file, and the entry is committed by `a`
and `b`, delivered by `a` and applied by its server. -/
def createAtA : List Event :=
  Raft.electA.map .raft ++ [.server (.call "a" writeA), .server (.register 0), .propose 0] ++
  [.act "a" .heartbeat, .act "a" (.replicateTo "b" false), .deliver 2 none, .receive 2,
    .act "a" .applyRead, .act "a" .applySlice, .act "a" .applySend].map .raft ++ [.deliver "a"]

noncomputable def createdAtA : World (SortedList Char FileInfo) :=
  final (guarded (step Raft.trio (.of { writeA with opID := 1 }) fun _ _ => 0) caughtUp)
    (World.start Raft.trio fun _ => Server.lone) createAtA

theorem enabled_createAtA : Enabled
    (guarded (step Raft.trio (.of { writeA with opID := 1 }) fun _ _ => 0) caughtUp)
    (World.start Raft.trio fun _ => Server.lone) createAtA := by
  decide +kernel

end Example

section Runs

variable [Store σ Char FileInfo] {clock : String → ℕ → Time} {init : String → Server σ}

theorem linked_of_path (hcl : ∀ i, cl.commitCh i = true)
    (h : Path (step cl codec clock) caughtUp (World.start cl init) w) :
    ∃ D K, Linked cl codec w D K ∧
      Path (Cluster.step clock) (fun _ _ => True) (Cluster.World.start init) (w.servers K) := by
  refine h.invariant (I := fun w => ∃ D K, Linked cl codec w D K ∧
    Path (Cluster.step clock) (fun _ _ => True) (Cluster.World.start init) (w.servers K))
    ⟨[], [], Linked.start cl codec init, .refl⟩ ?_
  rintro w e w' ⟨D, K, hl, hpath⟩ hok hs
  obtain ⟨D', K', hl', hpath'⟩ := hl.step hcl (Cluster.Unproposed.of_path hpath) hok hs
  exact ⟨D', K', hl', hpath.trans hpath'⟩

/-- **The masters refine masters over one sequence.** Every run of the masters on their Raft nodes
that meets `caughtUp` is a run of `Master.Cluster`: with the same servers and the same calls, over
one sequence of committed commands, of which every node has delivered a beginning. -/
theorem replicated_refines_cluster (hcl : ∀ i, cl.commitCh i = true)
    (h : Path (step cl codec clock) caughtUp (World.start cl init) w) :
    ∃ K, Path (Cluster.step clock) (fun _ _ => True) (Cluster.World.start init) (w.servers K) ∧
      ∀ m, (w.raft.hosts m).delivered.map (·.command) <+: K.map fun e => codec.encode e.cmd := by
  obtain ⟨D, K, hl, hpath⟩ := linked_of_path hcl h
  refine ⟨K, hpath, fun m => ?_⟩
  rw [← hl.carries.map_command]
  exact (hl.frontier.le m (hcl m)).map _

theorem replicated_refines_cluster_trio : (createdAtA.hosts "a").applied = 1 ∧
    ∃ K, Path (Cluster.step fun _ _ => 0) (fun _ _ => True)
        (Cluster.World.start fun _ => Server.lone) (createdAtA.servers K) ∧
      ∀ m, (createdAtA.raft.hosts m).delivered.map (·.command) <+:
        K.map fun e => (Codec.of { writeA with opID := 1 }).encode e.cmd :=
  ⟨by decide +kernel, replicated_refines_cluster (fun _ => rfl) (Path.final enabled_createAtA)⟩

/-- **One replicated namespace.** In a run that meets `caughtUp`, the namespace of every master is
what a beginning of one list of commands makes of the namespace it started with, whatever the clocks
say. The commands of the list are among those that the nodes have accepted, each one once and in the
order in which they were accepted. -/
theorem namespaces_replay_accepted [LawfulStore σ] (hcl : ∀ i, cl.commitCh i = true)
    (h : Path (step cl codec clock) caughtUp (World.start cl init) w) :
    ∃ cmds : List Command,
      (cmds.map codec.encode).Sublist (w.accepted.map fun p => p.1.command) ∧
      ∀ m, (w.hosts m).applied ≤ cmds.length ∧ Server.view (w.hosts m).server.ns =
        (Server.view (init m).ns).applyAll (cmds.take (w.hosts m).applied) := by
  obtain ⟨D, K, hl, hpath⟩ := linked_of_path hcl h
  have hsound := Cluster.Sound.of_path hpath
  have hsub : D.Sublist (w.accepted.map Prod.fst) := by
    rcases hl.frontier.held with rfl | ⟨j, hj, rfl⟩
    · exact List.nil_sublist _
    · exact hl.accounted.delivered_sublist hl.gapless hj
  refine ⟨K.map (·.cmd), ?_, fun m => ⟨?_, ?_⟩⟩
  · have := hsub.map (·.command)
    rw [hl.carries.map_command] at this
    simpa [Function.comp_def] using this
  · rw [List.length_map]
    exact hsound.applied_le m
  · have hserver : (w.hosts m).server = _ := hsound.server m
    rw [hserver, Cluster.World.replay, Server.view_applyAll, Cluster.World.received, List.map_take]
    rfl

theorem namespaces_replay_accepted_trio :
    (Server.view (createdAtA.hosts "a").server.ns ['/', 'f']).isSome = true ∧
    ∃ cmds : List Command, (cmds.map (Codec.of { writeA with opID := 1 }).encode).Sublist
        (createdAtA.accepted.map fun p => p.1.command) ∧
      ∀ m, (createdAtA.hosts m).applied ≤ cmds.length ∧
        Server.view (createdAtA.hosts m).server.ns =
          (Server.view Server.lone.ns).applyAll (cmds.take (createdAtA.hosts m).applied) :=
  ⟨by decide +kernel, namespaces_replay_accepted (fun _ => rfl) (Path.final enabled_createAtA)⟩

end Runs

end Replicated

end VaultFS.Master
