import VaultFS.Master.Cluster.Parts

/-!
# Acknowledged writes

A call of `propose` that returns without an error has received a result from the master's loop,
which looks for a waiter by the number of the command only. Numbers are unique on a master, but a
command of another master can have the number of a waiting call. As long as the loop finds waiters
only for commands of its own master, a call returns success only when its own command is committed
and applied (`acknowledged_own_write`).
-/

namespace VaultFS.Master.Cluster

open Growth KeyValue Metadata Transition

variable {M σ : Type*} [Store σ Char FileInfo] {init : M → Server σ}
  {clock : M → ℕ → Time} {w w' : World M σ}

/-- A master has applied the command of a call with the given result. -/
def Done (init : M → Server σ) (clock : M → ℕ → Time) (w : World M σ) (m : M) (c : ℕ)
    (res : Except Error Unit) : Prop :=
  ∃ (k : ℕ) (e : Entry), w.committed[k]? = some e ∧ e.call = c ∧
    (w.replay init clock m).2[k]? = some res

theorem World.received_prefix (hl : Later w w') (hw : Sound init clock w) (m : M) :
    w.received m <+: w'.received m := by
  obtain ⟨rest, hrest⟩ := hl.committed
  refine List.IsPrefix.map _ ?_
  rw [← hrest, ← List.take_append_of_le_length (hw.applied_le m)]
  exact List.take_prefix_take_left (hl.applied m)

theorem Done.mono {m : M} {c : ℕ} {res : Except Error Unit} (h : Done init clock w m c res)
    (hl : Later w w') (hw : Sound init clock w) : Done init clock w' m c res := by
  obtain ⟨k, e, he, hc, hres⟩ := h
  refine ⟨k, e, getElem?_of_prefix hl.committed he, hc, ?_⟩
  obtain ⟨rest, hrest⟩ := World.received_prefix hl hw m
  rw [World.replay, ← hrest, Server.applyAll_append]
  exact getElem?_of_prefix (List.prefix_append _ _) hres

/-- What the loop holds is a result of the command it is about. -/
def LoopHonest (init : M → Server σ) (clock : M → ℕ → Time) (w : World M σ) (m : M) : Loop → Prop
  | .idle => True
  | .applied e res => e ∈ w.committed ∧ Done init clock w m e.call res
  | .sending c res => (∃ cmd, w.heads[c]? = some (m, cmd)) ∧ Done init clock w m c res

/-- What a call has received, or is about to receive, is the result of its own command. -/
structure CallHonest (init : M → Server σ) (clock : M → ℕ → Time) (w : World M σ) (c : ℕ)
    (call : Call M) : Prop where
  chan : ∀ res, call.chan = some res → Done init clock w call.master c res
  stage : call.stage = .leaving (.ok ()) ∨ call.stage = .returned (.ok ()) →
    Done init clock w call.master c (.ok ())

structure Honest (init : M → Server σ) (clock : M → ℕ → Time) (w : World M σ) : Prop where
  loop : ∀ m, LoopHonest init clock w m (w.hosts m).loop
  call : ∀ c call, w.calls[c]? = some call → CallHonest init clock w c call

theorem LoopHonest.mono {m : M} {l : Loop} (h : LoopHonest init clock w m l) (hl : Later w w')
    (hw : Sound init clock w) : LoopHonest init clock w' m l := by
  cases l with
  | idle => trivial
  | applied e res => exact ⟨hl.committed.subset h.1, h.2.mono hl hw⟩
  | sending c res =>
      obtain ⟨⟨cmd, hcmd⟩, hdone⟩ := h
      exact ⟨⟨cmd, getElem?_of_prefix hl.heads hcmd⟩, hdone.mono hl hw⟩

theorem CallHonest.mono {c : ℕ} {call : Call M} (h : CallHonest init clock w c call)
    (hl : Later w w') (hw : Sound init clock w) : CallHonest init clock w' c call :=
  ⟨fun res hres => (h.chan res hres).mono hl hw, fun hs => (h.stage hs).mono hl hw⟩

/-- A waiter is found only for a command of the master itself. -/
def FindsOwn (w : World M σ) (m : M) : Loop → Prop
  | .applied e _ => ((w.hosts m).waiters.lookup e.cmd.opID).isSome →
      (w.calls[e.call]?).map (·.master) = some m
  | _ => True

def OwnEntry (w : World M σ) : Event M → Prop
  | .lookup m => FindsOwn w m (w.hosts m).loop
  | _ => True

/-- The waiter that is found is then the call that proposed the command. -/
theorem eq_of_ownEntry (hw : Sound init clock w) {m : M} {e : Entry} {res : Except Error Unit}
    {c : ℕ} (hok : OwnEntry w (.lookup m)) (hl : (w.hosts m).loop = .applied e res)
    (he : e ∈ w.committed) (hc : (w.hosts m).waiters.lookup e.cmd.opID = some c) : c = e.call := by
  simp only [OwnEntry, FindsOwn, hl, hc, Option.isSome_some, forall_const] at hok
  obtain ⟨call, hcall, hm⟩ := Option.map_eq_some_iff.mp hok
  obtain ⟨m', hhead⟩ := hw.entry e he
  rw [World.heads_eq_some hcall] at hhead
  obtain ⟨cmd, hcmd, hid⟩ := hw.waiter m e.cmd.opID c hc
  have hown : w.heads[e.call]? = some (m, e.cmd) := by
    obtain ⟨-, hcmd⟩ := Prod.mk.inj (Option.some.inj hhead)
    rw [World.heads_eq_some hcall, hm, hcmd]
  exact hw.opID_inj c e.call m cmd e.cmd hcmd hown hid

variable [DecidableEq M]

instance (w : World M σ) (m : M) : ∀ l, Decidable (FindsOwn w m l)
  | .applied _ _ => inferInstanceAs (Decidable (_ → _))
  | .idle => isTrue trivial
  | .sending _ _ => isTrue trivial

instance (w : World M σ) : ∀ e, Decidable (OwnEntry w e)
  | .lookup m => inferInstanceAs (Decidable (FindsOwn w m _))
  | .call _ _ | .register _ | .propose _ _ | .commit _ | .deliver _ | .send _ | .receive _
  | .cancel _ _ | .unregister _ => isTrue trivial

omit [DecidableEq M] in
/-- The loop has applied one more command. -/
theorem done_of_received (hw : Sound init clock w) {m : M} {a : Entry}
    (ha : w.committed[(w.hosts m).applied]? = some a) (hl : Later w w')
    (hr : w'.received m = w.received m ++ [a.cmd]) :
    Done init clock w' m a.call ((w.hosts m).server.apply (clock m) a.cmd).2 := by
  refine ⟨_, a, getElem?_of_prefix hl.committed ha, rfl, ?_⟩
  have hlen : (w.replay init clock m).2.length = (w.hosts m).applied := by
    rw [World.replay, Server.length_applyAll, World.received, List.length_map, List.length_take,
      min_eq_left (hw.applied_le m)]
  rw [World.replay, hr, Server.applyAll_append, ← World.replay, ← hw.server m]
  rw [List.getElem?_append_right hlen.le, hlen, Nat.sub_self]
  rfl

omit [DecidableEq M] in
theorem Honest.start : Honest init clock (World.start init) where
  loop _ := trivial
  call _ _ hc := by simp [World.start] at hc

section Step

variable {e : Event M} (h : Honest init clock w) (hw : Sound init clock w)
  (hs : step clock w e = some w')
include h hw hs

theorem Honest.loop_step (hok : OwnEntry w e) (m : M) :
    LoopHonest init clock w' m (w'.hosts m).loop := by
  have hl := Later.step hs
  have hm := (h.loop m).mono hl hw
  have hstep := Cluster.loop_step hs m
  generalize (w'.hosts m).loop = l at hstep ⊢
  cases hstep with
  | same hloop => exact hloop ▸ hm
  | deliver hidle ha hr =>
      exact ⟨hl.committed.subset (List.mem_of_getElem? ha), done_of_received hw ha hl hr⟩
  | @found a res c happlied hwaiter =>
      have hbefore := h.loop m
      rw [happlied] at hbefore hm
      obtain rfl := eq_of_ownEntry hw hok happlied hbefore.1 hwaiter
      obtain ⟨cmd, hcmd, -⟩ := hw.waiter m _ _ hwaiter
      exact ⟨⟨cmd, getElem?_of_prefix hl.heads hcmd⟩, hm.2⟩
  | notFound | send => trivial

theorem Honest.call_step {c : ℕ} {call' : Call M} (hc : w'.calls[c]? = some call') :
    CallHonest init clock w' c call' := by
  have hl := Later.step hs
  rcases call_origin hs hc with ⟨call, hcall, hstep⟩ | ⟨hstage, hchan⟩
  · have hold := (h.call c call hcall).mono hl hw
    cases hstep with
    | same => exact hold
    | register | accepted | leave => exact ⟨hold.chan, nofun⟩
    | @send m res he hsending =>
        -- the loop sends to the call of its own master
        have hm := h.loop m
        rw [hsending] at hm
        obtain ⟨⟨cmd, hcmd⟩, hdone⟩ := hm
        rw [World.heads_eq_some hcall] at hcmd
        obtain ⟨rfl, -⟩ := Prod.mk.inj (Option.some.inj hcmd)
        refine ⟨?_, hold.stage⟩
        rintro res' ⟨⟩
        exact hdone.mono hl hw
    | @receive res hwaiting hb =>
        refine ⟨nofun, ?_⟩
        rintro (hres | hres)
        · cases res with
          | ok u => exact hold.chan _ hb
          | error err => cases hres
        · cases hres
    | @unregister res hleaving =>
        refine ⟨hold.chan, ?_⟩
        rintro (hres | hres)
        · cases hres
        · cases hres
          exact hold.stage (Or.inl hleaving)
  · refine ⟨?_, ?_⟩
    · rw [hchan]
      exact nofun
    · rw [hstage]
      exact nofun

end Step

theorem Honest.of_path (h : Path (Cluster.step clock) OwnEntry (World.start init) w) :
    Honest init clock w :=
  (h.invariant (I := fun u => Sound init clock u ∧ Honest init clock u) ⟨.start, .start⟩
    fun _ _ _ hu hok hs => ⟨hu.1.step hs, hu.2.loop_step hu.1 hs hok,
      fun _ _ hc => hu.2.call_step hu.1 hs hc⟩).2

omit [DecidableEq M] in
/-- A command whose result is there is committed at a place the master has applied. -/
theorem Done.position {m m' : M} {c : ℕ} {cmd : Command} {res : Except Error Unit}
    (h : Done init clock w m c res) (hw : Sound init clock w)
    (hc : w.heads[c]? = some (m', cmd)) :
    ∃ k < (w.hosts m).applied, w.committed[k]? = some ⟨cmd, c⟩ ∧
      (w.replay init clock m).2[k]? = some res := by
  obtain ⟨k, e, he, rfl, hres⟩ := h
  have hk : k < (w.hosts m).applied := by
    have hlt := (List.getElem?_eq_some_iff.mp hres).1
    rw [World.replay, Server.length_applyAll, World.received, List.length_map,
      List.length_take] at hlt
    exact lt_of_lt_of_le hlt (min_le_left _ _)
  obtain ⟨m'', hm⟩ := hw.entry e (List.mem_of_getElem? he)
  rw [hc] at hm
  obtain ⟨-, hcmd⟩ := Prod.mk.inj (Option.some.inj hm)
  exact ⟨k, hk, by rw [he, hcmd], hres⟩

/-- In a run in which every waiter that is found is one for a command of the same master, a call
that has returned without an error has its own command committed, and its master has applied it
without an error. -/
theorem acknowledged_own_write (h : Path (step clock) OwnEntry (World.start init) w) {c : ℕ}
    {call : Call M} (hc : w.calls[c]? = some call) (hreturned : call.stage = .returned (.ok ())) :
    ∃ k < (w.hosts call.master).applied, w.committed[k]? = some ⟨call.cmd, c⟩ ∧
      (w.hosts call.master).server = (w.replay init clock call.master).1 ∧
      (w.replay init clock call.master).2[k]? = some (.ok ()) := by
  have hsound := Sound.of_path h
  have hdone := ((Honest.of_path h).call c call hc).stage (Or.inr hreturned)
  obtain ⟨k, hk, hcommitted, hres⟩ := hdone.position hsound (World.heads_eq_some hc)
  exact ⟨k, hk, hcommitted, hsound.server call.master, hres⟩

/-- A master accepts a command, which is committed, and applies it for its caller. -/
def ownWrite : List (Event Bool) :=
  [.call true { kind := .create, path := ['/', 'a'] }, .register 0, .propose 0 true, .commit 0,
    .deliver true, .lookup true, .send true, .receive 0, .unregister 0]

theorem acknowledged_own_write_pair :
    let clock : Bool → ℕ → Time := fun _ _ => 0
    let w := final (guarded (step clock) OwnEntry) pair ownWrite
    let call : Call Bool :=
      ⟨true, { opID := 1, kind := .create, path := ['/', 'a'] }, .returned (.ok ()), true, none⟩
    w.calls[0]? = some call ∧
      ∃ k < (w.hosts true).applied, w.committed[k]? = some ⟨call.cmd, 0⟩ ∧
        (w.hosts true).server = (w.replay (fun _ => Server.lone) clock true).1 ∧
        (w.replay (fun _ => Server.lone) clock true).2[k]? = some (.ok ()) := by
  intro clock w call
  have hcall : w.calls[0]? = some call := by decide +kernel
  exact ⟨hcall, acknowledged_own_write (Path.final (by decide +kernel)) hcall rfl⟩

/-- The first master accepts a command that is never committed; the second one becomes the leader,
and its first command has the same number. When the first master applies it, the caller there is
told that the write succeeded. -/
def foreignWrite : List (Event Bool) :=
  [.call true { kind := .create, path := ['/', 'a'] }, .register 0, .propose 0 true,
    .call false { kind := .create, path := ['/', 'b'] }, .register 1, .propose 1 true, .commit 1,
    .deliver true, .lookup true, .send true, .receive 0, .unregister 0]

theorem acknowledged_foreign_write :
    let w := final (step fun _ _ => 0) pair foreignWrite
    (w.calls[0]?).map (·.stage) = some (.returned (.ok ())) ∧
      w.committed = [⟨{ opID := 1, kind := .create, path := ['/', 'b'] }, 1⟩] ∧
      (w.hosts true).server.ns.find ['/', 'a'] = none := by
  decide +kernel

end VaultFS.Master.Cluster
