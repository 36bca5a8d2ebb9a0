import VaultFS.Growth.Basic
import VaultFS.Master.Cluster.Basic

/-!
# What holds in every run of the masters

The number of a command is unique among the commands of its master, a channel is registered under
the number of the call's own command, and the namespace of a master is what the commands it has
received make of the one it started with. None of this depends on a condition on the run.
-/

namespace VaultFS.Master

open Growth KeyValue Metadata Transition

namespace Server

variable {σ : Type*} [Store σ Char FileInfo]

theorem applyAll_append (clock : ℕ → Time) (s : Server σ) (cmds cmds' : List Command) :
    s.applyAll clock (cmds ++ cmds') =
      (((s.applyAll clock cmds).1.applyAll clock cmds').1,
        (s.applyAll clock cmds).2 ++ ((s.applyAll clock cmds).1.applyAll clock cmds').2) := by
  induction cmds generalizing s with
  | nil => rfl
  | cons cmd cmds ih => simp only [List.cons_append, applyAll, ih]

theorem length_applyAll (clock : ℕ → Time) (s : Server σ) (cmds : List Command) :
    (s.applyAll clock cmds).2.length = cmds.length := by
  induction cmds generalizing s with
  | nil => rfl
  | cons cmd cmds ih => simp only [applyAll, List.length_cons, ih]

end Server

namespace Cluster

variable {M σ : Type*}

namespace World

/-- The masters and commands of the calls, which never change. -/
def heads (w : World M σ) : List (M × Command) := w.calls.map fun call => (call.master, call.cmd)

theorem heads_eq_some {w : World M σ} {c : ℕ} {call : Call M} (h : w.calls[c]? = some call) :
    w.heads[c]? = some (call.master, call.cmd) := by
  simp [heads, h]

theorem heads_setCall {w : World M σ} {c : ℕ} {call call' : Call M} (h : w.calls[c]? = some call)
    (hm : call'.master = call.master) (hcmd : call'.cmd = call.cmd) :
    (w.setCall c call').heads = w.heads := by
  refine List.ext_getElem? fun i => ?_
  by_cases hi : c = i
  · subst hi
    have hself : (w.setCall c call').calls[c]? = some call' :=
      List.getElem?_set_self (List.getElem?_eq_some_iff.mp h).1
    rw [heads_eq_some hself, heads_eq_some h, hm, hcmd]
  · simp [heads, setCall, List.getElem?_set_ne hi]

/-- After a call is replaced, a call is the new one or an old one. -/
theorem getElem?_setCall {w : World M σ} {c i : ℕ} {call call' : Call M}
    (h : (w.setCall c call').calls[i]? = some call) :
    i = c ∧ call = call' ∨ i ≠ c ∧ w.calls[i]? = some call :=
  Growth.getElem?_set_cases h

variable [DecidableEq M]

/-- A property of all hosts is shown for the new host and the old ones. -/
theorem forall_setHost {w : World M σ} {m : M} {h : Host σ} {P : M → Host σ → Prop} (hm : P m h)
    (hold : ∀ m', m' ≠ m → P m' (w.hosts m')) (m' : M) : P m' ((w.setHost m h).hosts m') := by
  by_cases heq : m' = m
  · subst heq
    rwa [setHost_self]
  · rw [setHost_ne w h heq]
    exact hold m' heq

end World

variable [Store σ Char FileInfo] (init : M → Server σ) (clock : M → ℕ → Time)

/-- The commands a master has received. -/
def World.received (w : World M σ) (m : M) : List Command :=
  (w.committed.take (w.hosts m).applied).map (·.cmd)

/-- What they make of the server the master started with, and their results. -/
def World.replay (w : World M σ) (m : M) : Server σ × List (Except Error Unit) :=
  (init m).applyAll (clock m) (w.received m)

structure Sound (w : World M σ) : Prop where
  opID_le : ∀ (c : ℕ) m (cmd : Command), w.heads[c]? = some (m, cmd) → cmd.opID ≤ (w.hosts m).opSeq
  opID_inj : ∀ (c c' : ℕ) m (cmd cmd' : Command), w.heads[c]? = some (m, cmd) →
    w.heads[c']? = some (m, cmd') → cmd.opID = cmd'.opID → c = c'
  waiter : ∀ m id (c : ℕ), (w.hosts m).waiters.lookup id = some c →
    ∃ cmd : Command, w.heads[c]? = some (m, cmd) ∧ cmd.opID = id
  entry : ∀ e ∈ w.committed, ∃ m, w.heads[e.call]? = some (m, e.cmd)
  applied_le : ∀ m, (w.hosts m).applied ≤ w.committed.length
  server : ∀ m, (w.hosts m).server = (w.replay init clock m).1

variable {init clock} {w w' : World M σ} {e : Event M}

/-- A step that neither starts a call nor commits or applies a command, and registers channels
only under the numbers of their calls. -/
theorem Sound.of_same (h : Sound init clock w) (hheads : w'.heads = w.heads)
    (hcommitted : w'.committed = w.committed)
    (hhosts : ∀ m, (w'.hosts m).opSeq = (w.hosts m).opSeq ∧
      (w'.hosts m).applied = (w.hosts m).applied ∧ (w'.hosts m).server = (w.hosts m).server)
    (hwaiters : ∀ m id (c : ℕ), (w'.hosts m).waiters.lookup id = some c →
      (w.hosts m).waiters.lookup id = some c ∨
        ∃ cmd : Command, w.heads[c]? = some (m, cmd) ∧ cmd.opID = id) :
    Sound init clock w' where
  opID_le c m cmd hc := by
    rw [(hhosts m).1]
    exact h.opID_le c m cmd (hheads ▸ hc)
  opID_inj c c' m cmd cmd' hc hc' := h.opID_inj c c' m cmd cmd' (hheads ▸ hc) (hheads ▸ hc')
  waiter m id c hc := by
    rw [hheads]
    rcases hwaiters m id c hc with hold | hnew
    · exact h.waiter m id c hold
    · exact hnew
  entry := by
    rw [hheads, hcommitted]
    exact h.entry
  applied_le m := by
    rw [(hhosts m).2.1, hcommitted]
    exact h.applied_le m
  server m := by
    rw [(hhosts m).2.2, h.server m, World.replay, World.replay, World.received, World.received,
      (hhosts m).2.1, hcommitted]

theorem Sound.setCall (h : Sound init clock w) {c : ℕ} {call call' : Call M}
    (hc : w.calls[c]? = some call) (hm : call'.master = call.master) (hcmd : call'.cmd = call.cmd) :
    Sound init clock (w.setCall c call') :=
  h.of_same (World.heads_setCall hc hm hcmd) rfl (fun _ => ⟨rfl, rfl, rfl⟩) fun _ _ _ => Or.inl

theorem Sound.commit (h : Sound init clock w) {c : ℕ} {call : Call M}
    (hc : w.calls[c]? = some call) :
    Sound init clock { w with committed := w.committed ++ [⟨call.cmd, c⟩] } where
  opID_le := h.opID_le
  opID_inj := h.opID_inj
  waiter := h.waiter
  entry e he := by
    rcases List.mem_append.mp he with hold | hnew
    · exact h.entry e hold
    · obtain rfl := List.mem_singleton.mp hnew
      exact ⟨call.master, World.heads_eq_some hc⟩
  applied_le m := (h.applied_le m).trans (by simp)
  server m := by
    rw [h.server m, World.replay, World.replay, World.received, World.received,
      List.take_append_of_le_length (h.applied_le m)]

section Steps

variable [DecidableEq M]

theorem Sound.call (h : Sound init clock w) (m : M) (cmd : Command) :
    Sound init clock { w.setHost m { w.hosts m with opSeq := (w.hosts m).opSeq + 1 } with
      calls := w.calls ++
        [⟨m, { cmd with opID := (w.hosts m).opSeq + 1 }, .started, false, none⟩] } := by
  generalize hw' : ({ w.setHost m { w.hosts m with opSeq := (w.hosts m).opSeq + 1 } with
    calls := w.calls ++ [⟨m, { cmd with opID := (w.hosts m).opSeq + 1 }, .started, false, none⟩] } :
      World M σ) = w'
  have hheads : w'.heads = w.heads ++ [(m, { cmd with opID := (w.hosts m).opSeq + 1 })] := by
    rw [← hw']
    simp [World.heads]
  have hold : ∀ {c : ℕ} {x}, w.heads[c]? = some x → w'.heads[c]? = some x :=
    getElem?_of_prefix (hheads ▸ List.prefix_append _ _)
  have hhosts : ∀ m', (w'.hosts m').waiters = (w.hosts m').waiters ∧
      (w'.hosts m').applied = (w.hosts m').applied ∧ (w'.hosts m').server = (w.hosts m').server ∧
      (w.hosts m').opSeq ≤ (w'.hosts m').opSeq := by
    rw [← hw']
    exact World.forall_setHost (P := fun m' x => x.waiters = (w.hosts m').waiters ∧
      x.applied = (w.hosts m').applied ∧ x.server = (w.hosts m').server ∧
      (w.hosts m').opSeq ≤ x.opSeq) ⟨rfl, rfl, rfl, Nat.le_succ _⟩
      fun _ _ => ⟨rfl, rfl, rfl, le_rfl⟩
  have hopSeq : (w'.hosts m).opSeq = (w.hosts m).opSeq + 1 := by
    rw [← hw']
    exact congrArg Host.opSeq (World.setHost_self ..)
  have hcommitted : w'.committed = w.committed := by rw [← hw']; rfl
  -- a new number is above all numbers of the master
  have hfresh : ∀ {c : ℕ} {cmd'}, w.heads[c]? = some (m, cmd') →
      cmd'.opID ≠ (w.hosts m).opSeq + 1 := fun hc =>
    ((Nat.lt_succ_of_le (h.opID_le _ _ _ hc)).ne)
  refine ⟨?_, ?_, ?_, ?_, ?_, ?_⟩
  · intro c m' cmd' hc
    rw [hheads] at hc
    rcases getElem?_concat_cases hc with ⟨-, hc⟩ | ⟨-, heq⟩
    · exact (h.opID_le c m' cmd' hc).trans (hhosts m').2.2.2
    · cases heq
      exact hopSeq.ge
  · intro c c' m' cmd₁ cmd₂ hc hc' hid
    rw [hheads] at hc hc'
    rcases getElem?_concat_cases hc with ⟨-, hc⟩ | ⟨hc, heq⟩ <;>
      rcases getElem?_concat_cases hc' with ⟨-, hc'⟩ | ⟨hc', heq'⟩
    · exact h.opID_inj c c' m' cmd₁ cmd₂ hc hc' hid
    · cases heq'
      exact absurd hid (hfresh hc)
    · cases heq
      exact absurd hid.symm (hfresh hc')
    · exact hc.trans hc'.symm
  · intro m' id c hc
    rw [(hhosts m').1] at hc
    obtain ⟨cmd', hcmd, hid⟩ := h.waiter m' id c hc
    exact ⟨cmd', hold hcmd, hid⟩
  · intro e he
    rw [hcommitted] at he
    obtain ⟨m', hm'⟩ := h.entry e he
    exact ⟨m', hold hm'⟩
  · intro m'
    rw [(hhosts m').2.1, hcommitted]
    exact h.applied_le m'
  · intro m'
    rw [(hhosts m').2.2.1, h.server m', World.replay, World.replay, World.received, World.received,
      (hhosts m').2.1, hcommitted]

omit [Store σ Char FileInfo] in
/-- What is received after one more command. -/
theorem World.received_setHost {m : M} {e : Entry} {x : Host σ}
    (he : w.committed[(w.hosts m).applied]? = some e) (hx : x.applied = (w.hosts m).applied + 1) :
    (w.setHost m x).received m = w.received m ++ [e.cmd] := by
  simp [World.received, hx, List.take_add_one, he]

theorem Sound.deliver (h : Sound init clock w) {m : M} {e : Entry}
    (he : w.committed[(w.hosts m).applied]? = some e) (loop : Loop) :
    Sound init clock (w.setHost m { w.hosts m with
      server := ((w.hosts m).server.apply (clock m) e.cmd).1
      applied := (w.hosts m).applied + 1
      loop := loop }) := by
  generalize hx : ({ w.hosts m with
    server := ((w.hosts m).server.apply (clock m) e.cmd).1
    applied := (w.hosts m).applied + 1
    loop := loop } : Host σ) = x
  have hhosts : ∀ m', ((w.setHost m x).hosts m').waiters = (w.hosts m').waiters ∧
      ((w.setHost m x).hosts m').opSeq = (w.hosts m').opSeq :=
    World.forall_setHost (P := fun m' x => x.waiters = (w.hosts m').waiters ∧
      x.opSeq = (w.hosts m').opSeq) (by rw [← hx]; exact ⟨rfl, rfl⟩) fun _ _ => ⟨rfl, rfl⟩
  refine ⟨?_, h.opID_inj, ?_, h.entry, ?_, ?_⟩
  · intro c m' cmd hc
    rw [(hhosts m').2]
    exact h.opID_le c m' cmd hc
  · intro m' id c hc
    rw [(hhosts m').1] at hc
    exact h.waiter m' id c hc
  · refine World.forall_setHost (P := fun _ x => x.applied ≤ w.committed.length) ?_
      fun m' _ => h.applied_le m'
    rw [← hx]
    exact (List.getElem?_eq_some_iff.mp he).1
  · intro m'
    by_cases hm : m' = m
    · subst hm
      rw [World.replay, World.received_setHost he (by rw [← hx]), Server.applyAll_append,
        World.setHost_self, ← hx]
      simp only [Server.applyAll]
      rw [h.server m']
      rfl
    · rw [World.setHost_ne w x hm, h.server m', World.replay, World.replay, World.received,
        World.received, World.setHost_ne w x hm, World.setHost_committed]

/-- A host that goes on in its loop or registers a channel under the number of its call. -/
theorem Sound.setHost (h : Sound init clock w) {m : M} {x : Host σ}
    (hx : x.opSeq = (w.hosts m).opSeq ∧ x.applied = (w.hosts m).applied ∧
      x.server = (w.hosts m).server)
    (hw : ∀ id (c : ℕ), x.waiters.lookup id = some c → (w.hosts m).waiters.lookup id = some c ∨
      ∃ cmd : Command, w.heads[c]? = some (m, cmd) ∧ cmd.opID = id) :
    Sound init clock (w.setHost m x) := by
  refine h.of_same rfl rfl ?_ ?_
  · exact World.forall_setHost (P := fun m' x => x.opSeq = (w.hosts m').opSeq ∧
      x.applied = (w.hosts m').applied ∧ x.server = (w.hosts m').server) hx
      fun _ _ => ⟨rfl, rfl, rfl⟩
  · exact World.forall_setHost (P := fun m' x => ∀ id (c : ℕ), x.waiters.lookup id = some c →
      (w.hosts m').waiters.lookup id = some c ∨
        ∃ cmd : Command, w.heads[c]? = some (m', cmd) ∧ cmd.opID = id) hw fun _ _ _ _ => Or.inl

theorem Sound.step (h : Sound init clock w) (hs : step clock w e = some w') :
    Sound init clock w' := by
  cases step_cases hs with
  | call m cmd => exact h.call m cmd
  | @register c call hc hstage =>
      refine Sound.setCall ?_ hc rfl rfl
      refine h.setHost ⟨rfl, rfl, rfl⟩ ?_
      intro id c' hlookup
      by_cases hid : id = call.cmd.opID
      · subst hid
        rw [Finmap.lookup_insert] at hlookup
        cases hlookup
        exact Or.inr ⟨call.cmd, World.heads_eq_some hc, rfl⟩
      · rw [Finmap.lookup_insert_of_ne _ hid] at hlookup
        exact Or.inl hlookup
  | accepted hc hstage => exact h.setCall hc rfl rfl
  | refused hc hstage => exact h.setCall hc rfl rfl
  | commit hc hp hnew => exact h.commit hc
  | deliver hl he => exact h.deliver he _
  | found hl hw => exact h.setHost ⟨rfl, rfl, rfl⟩ fun _ _ => Or.inl
  | notFound hl hw => exact h.setHost ⟨rfl, rfl, rfl⟩ fun _ _ => Or.inl
  | @send m c res call hl hc hb =>
      refine Sound.setCall ?_ hc rfl rfl
      exact h.setHost ⟨rfl, rfl, rfl⟩ fun _ _ => Or.inl
  | receive hc hstage hb => exact h.setCall hc rfl rfl
  | cancel deadline hc hstage => exact h.setCall hc rfl rfl
  | @unregister c call res hc hstage =>
      refine Sound.setCall ?_ hc rfl rfl
      refine h.setHost ⟨rfl, rfl, rfl⟩ ?_
      intro id c' hlookup
      by_cases hid : id = call.cmd.opID
      · subst hid
        rw [Finmap.lookup_erase] at hlookup
        cases hlookup
      · rw [Finmap.lookup_erase_ne hid] at hlookup
        exact Or.inl hlookup

omit [DecidableEq M] in
theorem Sound.start : Sound init clock (World.start init) where
  opID_le _ _ _ hc := by simp [World.heads, World.start] at hc
  opID_inj _ _ _ _ _ hc := by simp [World.heads, World.start] at hc
  waiter _ _ _ hc := by simp [World.start] at hc
  entry _ he := by simp [World.start] at he
  applied_le _ := le_rfl
  server _ := rfl

/-- Calls are started, and stay. -/
theorem World.heads_step (hs : Cluster.step clock w e = some w') :
    w'.heads = w.heads ∨ ∃ m cmd, e = .call m cmd ∧
      w'.heads = w.heads ++ [(m, { cmd with opID := (w.hosts m).opSeq + 1 })] := by
  cases step_cases hs with
  | call m cmd => exact Or.inr ⟨m, cmd, rfl, by simp [World.heads]⟩
  | register hc hstage => exact Or.inl (World.heads_setCall hc rfl rfl)
  | accepted hc hstage => exact Or.inl (World.heads_setCall hc rfl rfl)
  | refused hc hstage => exact Or.inl (World.heads_setCall hc rfl rfl)
  | commit hc hp hnew => exact Or.inl rfl
  | deliver hl he => exact Or.inl rfl
  | found hl hw => exact Or.inl rfl
  | notFound hl hw => exact Or.inl rfl
  | send hl hc hb => exact Or.inl (World.heads_setCall hc rfl rfl)
  | receive hc hstage hb => exact Or.inl (World.heads_setCall hc rfl rfl)
  | cancel deadline hc hstage => exact Or.inl (World.heads_setCall hc rfl rfl)
  | unregister hc hstage => exact Or.inl (World.heads_setCall hc rfl rfl)

/-- What a step leaves behind is there to stay. -/
structure Later (w w' : World M σ) : Prop where
  committed : w.committed <+: w'.committed
  applied : ∀ m, (w.hosts m).applied ≤ (w'.hosts m).applied
  heads : w.heads <+: w'.heads

theorem Later.step (hs : step clock w e = some w') : Later w w' := by
  have hheads : w.heads <+: w'.heads := by
    rcases World.heads_step hs with heq | ⟨m, cmd, -, heq⟩
    · rw [heq]
    · rw [heq]
      exact List.prefix_append _ _
  -- a host in which nothing more has been applied
  have hhost : ∀ {m : M} {x : Host σ}, (w.hosts m).applied ≤ x.applied →
      ∀ m', (w.hosts m').applied ≤ ((w.setHost m x).hosts m').applied := fun hx =>
    World.forall_setHost (P := fun m' x => (w.hosts m').applied ≤ x.applied) hx fun _ _ => le_rfl
  cases step_cases hs with
  | call m cmd => exact ⟨List.prefix_rfl, hhost le_rfl, hheads⟩
  | register hc hstage => exact ⟨List.prefix_rfl, hhost le_rfl, hheads⟩
  | accepted hc hstage => exact ⟨List.prefix_rfl, fun _ => le_rfl, hheads⟩
  | refused hc hstage => exact ⟨List.prefix_rfl, fun _ => le_rfl, hheads⟩
  | commit hc hp hnew => exact ⟨List.prefix_append _ _, fun _ => le_rfl, hheads⟩
  | deliver hl he => exact ⟨List.prefix_rfl, hhost (Nat.le_succ _), hheads⟩
  | found hl hw => exact ⟨List.prefix_rfl, hhost le_rfl, hheads⟩
  | notFound hl hw => exact ⟨List.prefix_rfl, hhost le_rfl, hheads⟩
  | send hl hc hb => exact ⟨List.prefix_rfl, hhost le_rfl, hheads⟩
  | receive hc hstage hb => exact ⟨List.prefix_rfl, fun _ => le_rfl, hheads⟩
  | cancel deadline hc hstage => exact ⟨List.prefix_rfl, fun _ => le_rfl, hheads⟩
  | unregister hc hstage => exact ⟨List.prefix_rfl, hhost le_rfl, hheads⟩

theorem Later.of_path {ok : World M σ → Event M → Prop} (h : Path (Cluster.step clock) ok w w') :
    Later w w' := by
  induction h with
  | refl => exact ⟨List.prefix_rfl, fun _ => le_rfl, List.prefix_rfl⟩
  | tail _ _ hs ih =>
      have hlast := Later.step hs
      exact ⟨ih.committed.trans hlast.committed, fun m => (ih.applied m).trans (hlast.applied m),
        ih.heads.trans hlast.heads⟩

theorem Sound.of_path {ok : World M σ → Event M → Prop}
    (h : Path (Cluster.step clock) ok (World.start init) w) : Sound init clock w :=
  h.invariant Sound.start fun _ _ _ hu _ hs => hu.step hs

end Steps

end Cluster

end VaultFS.Master
