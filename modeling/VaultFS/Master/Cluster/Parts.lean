import VaultFS.Master.Cluster.Sound

/-!
# What a step does to one call and to one loop

A step changes at most one call and one host. Seen from one call there are only a few ways in which
it can go on (`CallStep`), and so it is with the loop of one master (`LoopStep`) and with what is
registered there (`waiter_step`). What holds of calls and loops along a run is shown for these.
-/

namespace VaultFS.Master.Cluster

open Growth KeyValue Metadata Transition

variable {M σ : Type*}

/-- The ways in which a call can change. -/
inductive CallStep (w : World M σ) (e : Event M) (c : ℕ) (call : Call M) : Call M → Prop where
  | same : CallStep w e c call call
  | register (hs : call.stage = .started) : CallStep w e c call { call with stage := .registered }
  | accepted (hs : call.stage = .registered) :
      CallStep w e c call { call with stage := .waiting, proposed := true }
  | leave {st : Status} (hs : call.stage = .registered ∨ call.stage = .waiting) :
      CallStep w e c call { call with stage := .leaving (.error st) }
  | send {m : M} {res : Except Error Unit} (he : e = .send m)
      (hl : (w.hosts m).loop = .sending c res) : CallStep w e c call { call with chan := some res }
  | receive {res : Except Error Unit} (hs : call.stage = .waiting) (hb : call.chan = some res) :
      CallStep w e c call { call with stage := .leaving (proposeResult res), chan := none }
  | unregister {res : Except Status Unit} (hs : call.stage = .leaving res) :
      CallStep w e c call { call with stage := .returned res }

theorem CallStep.master {w : World M σ} {e : Event M} {c : ℕ} {call call' : Call M}
    (h : CallStep w e c call call') : call'.master = call.master := by
  cases h <;> rfl

theorem CallStep.stage_ne {w : World M σ} {e : Event M} {c : ℕ} {call call' : Call M}
    (h : CallStep w e c call call') (hs : call.stage ≠ .started) : call'.stage ≠ .started := by
  cases h with
  | same | send => exact hs
  | register | accepted | leave | receive | unregister => exact nofun

theorem World.setCall_getElem? {w : World M σ} {c i : ℕ} {call call' : Call M}
    (h : w.calls[i]? = some call) :
    (w.setCall c call').calls[i]? = some (if i = c then call' else call) := by
  split
  · rename_i heq
    subst heq
    exact List.getElem?_set_self (List.getElem?_eq_some_iff.mp h).1
  · rename_i hne
    rw [World.setCall, List.getElem?_set_ne (Ne.symm hne), h]

variable [Store σ Char FileInfo]

/-- The ways in which the loop of a master can go on. -/
inductive LoopStep (clock : M → ℕ → Time) (w w' : World M σ) (m : M) : Event M → Loop → Prop where
  | same {e : Event M} {l : Loop} (hl : (w.hosts m).loop = l) : LoopStep clock w w' m e l
  | deliver {a : Entry} (hl : (w.hosts m).loop = .idle)
      (ha : w.committed[(w.hosts m).applied]? = some a)
      (hr : w'.received m = w.received m ++ [a.cmd]) :
      LoopStep clock w w' m (.deliver m)
        (.applied a ((w.hosts m).server.apply (clock m) a.cmd).2)
  | found {a : Entry} {res : Except Error Unit} {c : ℕ} (hl : (w.hosts m).loop = .applied a res)
      (hw : (w.hosts m).waiters.lookup a.cmd.opID = some c) :
      LoopStep clock w w' m (.lookup m) (.sending c res)
  | notFound {a : Entry} {res : Except Error Unit} (hl : (w.hosts m).loop = .applied a res) :
      LoopStep clock w w' m (.lookup m) .idle
  | send {c : ℕ} {res : Except Error Unit} {call : Call M} (hl : (w.hosts m).loop = .sending c res)
      (hc : w.calls[c]? = some call) (hb : call.chan = none) :
      LoopStep clock w w' m (.send m) .idle

variable [DecidableEq M] {clock : M → ℕ → Time} {w w' : World M σ} {e : Event M}

theorem call_step (hs : step clock w e = some w') {c : ℕ} {call : Call M}
    (hc : w.calls[c]? = some call) :
    ∃ call', w'.calls[c]? = some call' ∧ CallStep w e c call call' := by
  -- a step that replaces a call, seen from any call
  have hput : ∀ {u : World M σ} {c₀ : ℕ} {call₀ call' : Call M}, u.calls = w.calls →
      w.calls[c₀]? = some call₀ → CallStep w e c₀ call₀ call' →
      ∃ call'', (u.setCall c₀ call').calls[c]? = some call'' ∧ CallStep w e c call call'' := by
    intro u c₀ call₀ call' hu hc₀ hstep
    refine ⟨_, World.setCall_getElem? (hu ▸ hc), ?_⟩
    split
    · rename_i heq
      subst heq
      cases hc.symm.trans hc₀
      exact hstep
    · exact .same
  cases step_cases hs with
  | call m cmd => exact ⟨call, getElem?_of_prefix (List.prefix_append _ _) hc, .same⟩
  | register hc₀ hstage => exact hput rfl hc₀ (.register hstage)
  | accepted hc₀ hstage => exact hput rfl hc₀ (.accepted hstage)
  | refused hc₀ hstage => exact hput rfl hc₀ (.leave (Or.inl hstage))
  | commit hc₀ hp hnew => exact ⟨call, hc, .same⟩
  | deliver hl he => exact ⟨call, hc, .same⟩
  | found hl hw => exact ⟨call, hc, .same⟩
  | notFound hl hw => exact ⟨call, hc, .same⟩
  | send hl hc₀ hb => exact hput rfl hc₀ (.send rfl hl)
  | receive hc₀ hstage hb => exact hput rfl hc₀ (.receive hstage hb)
  | cancel deadline hc₀ hstage => exact hput rfl hc₀ (.leave (Or.inr hstage))
  | unregister hc₀ hstage => exact hput rfl hc₀ (.unregister hstage)

/-- A call was there before the step, or has just been started. -/
theorem call_origin (hs : step clock w e = some w') {c : ℕ} {call' : Call M}
    (hc : w'.calls[c]? = some call') :
    (∃ call, w.calls[c]? = some call ∧ CallStep w e c call call') ∨
      call'.stage = .started ∧ call'.chan = none := by
  cases hold : w.calls[c]? with
  | some call =>
      obtain ⟨call'', hc', hstep⟩ := call_step hs hold
      cases hc.symm.trans hc'
      exact Or.inl ⟨call, rfl, hstep⟩
  | none =>
      rcases World.heads_step hs with heq | ⟨m, cmd, rfl, -⟩
      · have hhead := World.heads_eq_some hc
        rw [heq, World.heads, List.getElem?_map, hold] at hhead
        cases hhead
      · cases hs
        rcases getElem?_concat_cases hc with ⟨-, hc⟩ | ⟨-, rfl⟩
        · cases hold.symm.trans hc
        · exact Or.inr ⟨rfl, rfl⟩

theorem loop_step (hs : step clock w e = some w') (m : M) :
    LoopStep clock w w' m e (w'.hosts m).loop := by
  -- a step that replaces a host, seen from any master
  have hput : ∀ {m₀ : M} {x : Host σ}, LoopStep clock w w' m₀ e x.loop →
      LoopStep clock w w' m e ((w.setHost m₀ x).hosts m).loop := fun hx =>
    World.forall_setHost (P := fun m x => LoopStep clock w w' m e x.loop) hx
      (fun _ _ => .same rfl) m
  cases step_cases hs with
  | call m₀ cmd => exact hput (.same rfl)
  | register hc hstage => exact hput (.same rfl)
  | accepted hc hstage => exact .same rfl
  | refused hc hstage => exact .same rfl
  | commit hc hp hnew => exact .same rfl
  | deliver hl he => exact hput (.deliver hl he (World.received_setHost he rfl))
  | found hl hw => exact hput (.found hl hw)
  | notFound hl hw => exact hput (.notFound hl)
  | send hl hc hb => exact hput (.send hl hc hb)
  | receive hc hstage hb => exact .same rfl
  | cancel deadline hc hstage => exact .same rfl
  | unregister hc hstage => exact hput (.same rfl)

/-- A loop comes to a send by finding a waiter. -/
theorem sending_step (hs : step clock w e = some w') {m : M} {c : ℕ} {res : Except Error Unit}
    (h : (w'.hosts m).loop = .sending c res) :
    (w.hosts m).loop = .sending c res ∨ e = .lookup m ∧ ∃ a, (w.hosts m).loop = .applied a res ∧
      (w.hosts m).waiters.lookup a.cmd.opID = some c := by
  have hstep := loop_step hs m
  rw [h] at hstep
  cases hstep with
  | same hl => exact Or.inl hl
  | found hl hw => exact Or.inr ⟨rfl, _, hl, hw⟩

/-- A registered channel was registered before, or is so by this step. -/
theorem waiter_step (hs : step clock w e = some w') {m : M} {n c : ℕ}
    (hc : (w'.hosts m).waiters.lookup n = some c) :
    (w.hosts m).waiters.lookup n = some c ∨
      ∀ call, w'.calls[c]? = some call → call.stage = .registered := by
  -- a host with no new waiters
  have hold : ∀ {m₀ : M} {x : Host σ},
      ((w.setHost m₀ x).hosts m).waiters.lookup n = some c →
      (∀ n c, x.waiters.lookup n = some c → (w.hosts m₀).waiters.lookup n = some c) →
      (w.hosts m).waiters.lookup n = some c := fun hc hx =>
    World.forall_setHost (P := fun m x => ∀ n c, x.waiters.lookup n = some c →
      (w.hosts m).waiters.lookup n = some c) hx (fun _ _ _ _ => id) m n c hc
  cases step_cases hs with
  | call m₀ cmd => exact Or.inl (hold hc fun _ _ => id)
  | @register c₀ call₀ hc₀ hstage =>
      by_cases hm : m = call₀.master
      · subst hm
        rw [World.setCall_hosts, World.setHost_self] at hc
        by_cases hid : n = call₀.cmd.opID
        · subst hid
          rw [Finmap.lookup_insert] at hc
          cases hc
          refine Or.inr fun call hcall => ?_
          rcases World.getElem?_setCall hcall with ⟨-, rfl⟩ | ⟨hne, -⟩
          · rfl
          · exact absurd rfl hne
        · rw [Finmap.lookup_insert_of_ne _ hid] at hc
          exact Or.inl hc
      · rw [World.setCall_hosts, World.setHost_ne _ _ hm] at hc
        exact Or.inl hc
  | accepted hc₀ hstage => exact Or.inl hc
  | refused hc₀ hstage => exact Or.inl hc
  | commit hc₀ hp hnew => exact Or.inl hc
  | deliver hl he => exact Or.inl (hold hc fun _ _ => id)
  | found hl hw => exact Or.inl (hold hc fun _ _ => id)
  | notFound hl hw => exact Or.inl (hold hc fun _ _ => id)
  | send hl hc₀ hb => exact Or.inl (hold hc fun _ _ => id)
  | receive hc₀ hstage hb => exact Or.inl hc
  | cancel deadline hc₀ hstage => exact Or.inl hc
  | @unregister c₀ call₀ res hc₀ hstage =>
      refine Or.inl (hold hc fun n' c' hlookup => ?_)
      by_cases hid : n' = call₀.cmd.opID
      · subst hid
        rw [Finmap.lookup_erase] at hlookup
        cases hlookup
      · rwa [Finmap.lookup_erase_ne hid] at hlookup

omit [DecidableEq M] in
/-- The call of a waiter. -/
theorem Sound.exists_call {init : M → Server σ} (hw : Sound init clock w) {m : M} {id c : ℕ}
    (hc : (w.hosts m).waiters.lookup id = some c) :
    ∃ call, w.calls[c]? = some call ∧ call.master = m := by
  obtain ⟨cmd, hcmd, -⟩ := hw.waiter m id c hc
  obtain ⟨call, hcall, heq⟩ := Option.map_eq_some_iff.mp ((List.getElem?_map ..).symm.trans hcmd)
  exact ⟨call, hcall, congrArg Prod.fst heq⟩

end VaultFS.Master.Cluster
