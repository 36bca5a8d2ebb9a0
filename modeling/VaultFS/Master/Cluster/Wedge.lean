import VaultFS.Master.Cluster.Parts

/-!
# A loop that is stuck

The loop of a master sends a result on a channel with room for one result, and outside the lock. A
call that leaves by its context does not receive any more, but its channel stays registered until
its deferred function has run. If the loop finds such a channel with a result in it already, it
never gets past the send (`Wedged.step`). No run in which the loop finds only channels with room
gets there, and as soon as a loop finds one without room it can be stuck one step later
(`never_wedged_iff`).
-/

namespace VaultFS.Master.Cluster

open KeyValue Metadata Transition

variable {M σ : Type*}

/-- The call is past its `select`. -/
def Stage.left : Stage → Bool
  | .leaving _ | .returned _ => true
  | _ => false

/-- The loop of the master is at a send to a full channel, and nobody will ever receive from it. -/
def Wedged (w : World M σ) (m : M) : Prop :=
  ∃ c res call, (w.hosts m).loop = .sending c res ∧ w.calls[c]? = some call ∧
    call.chan.isSome ∧ call.stage.left

/-- The channel that the loop is about to find has room. -/
def FindsRoom (w : World M σ) (m : M) : Loop → Prop
  | .applied e _ => ∀ c ∈ (w.hosts m).waiters.lookup e.cmd.opID,
      (w.calls[c]?).bind (·.chan) = none
  | _ => True

def HasRoom (w : World M σ) : Event M → Prop
  | .lookup m => FindsRoom w m (w.hosts m).loop
  | _ => True

instance (w : World M σ) (m : M) : ∀ l, Decidable (FindsRoom w m l)
  | .applied _ _ => inferInstanceAs (Decidable (∀ _ ∈ _, _))
  | .idle => isTrue trivial
  | .sending _ _ => isTrue trivial

instance (w : World M σ) : ∀ e, Decidable (HasRoom w e)
  | .lookup m => inferInstanceAs (Decidable (FindsRoom w m _))
  | .call _ _ | .register _ | .propose _ _ | .commit _ | .deliver _ | .send _ | .receive _
  | .cancel _ _ | .unregister _ => isTrue trivial

variable [Store σ Char FileInfo] [DecidableEq M] {init : M → Server σ} {clock : M → ℕ → Time}
  {w w' : World M σ} {e : Event M}

/-- A loop that is stuck stays stuck. -/
theorem Wedged.step {m : M} (h : Wedged w m) (hs : step clock w e = some w') :
    Wedged w' m ∧ (w'.hosts m).loop = (w.hosts m).loop := by
  obtain ⟨c, res, call, hl, hc, hb, hleft⟩ := h
  have hloop : (w'.hosts m).loop = .sending c res := by
    have hstep := loop_step hs m
    generalize (w'.hosts m).loop = l at hstep ⊢
    cases hstep with
    | same heq => exact heq.symm.trans hl
    | deliver hl' => cases hl.symm.trans hl'
    | found hl' _ => cases hl.symm.trans hl'
    | notFound hl' => cases hl.symm.trans hl'
    | send hl' hc' hb' =>
        cases hl.symm.trans hl'
        cases hc.symm.trans hc'
        simp [hb'] at hb
  refine ⟨?_, hloop.trans hl.symm⟩
  obtain ⟨call', hc', hstep⟩ := call_step hs hc
  refine ⟨c, res, call', hloop, hc', ?_⟩
  cases hstep with
  | same => exact ⟨hb, hleft⟩
  | register hs => simp [hs, Stage.left] at hleft
  | accepted hs => simp [hs, Stage.left] at hleft
  | leave hs => exact ⟨hb, rfl⟩
  | send he hl => exact ⟨rfl, hleft⟩
  | receive hs => simp [hs, Stage.left] at hleft
  | unregister hs => exact ⟨hb, rfl⟩

/-! ### What a loop sends to -/

/-- A registered call is past its start, and a loop sends to calls of its master. -/
structure Placed (w : World M σ) : Prop where
  registered : ∀ m id (c : ℕ) call, (w.hosts m).waiters.lookup id = some c →
    w.calls[c]? = some call → call.stage ≠ .started
  aimed : ∀ m (c : ℕ) res, (w.hosts m).loop = .sending c res →
    ∃ call, w.calls[c]? = some call ∧ call.master = m

/-- The loop of the master has room where it sends to. -/
def Clear (w : World M σ) (m : M) : Prop :=
  ∀ (c : ℕ) res call, (w.hosts m).loop = .sending c res → w.calls[c]? = some call → call.chan = none

omit [Store σ Char FileInfo] [DecidableEq M] in
theorem Clear.not_wedged {m : M} (h : Clear w m) : ¬Wedged w m := by
  rintro ⟨c, res, call, hl, hc, hb, -⟩
  simp [h c res call hl hc] at hb

theorem Placed.step (h : Placed w) (hw : Sound init clock w)
    (hs : Cluster.step clock w e = some w') : Placed w' where
  registered m id c call' hc hcall' := by
    rcases waiter_step hs hc with hold | hnew
    · obtain ⟨call, hcall, -⟩ := hw.exists_call hold
      obtain ⟨call'', hcall'', hstep⟩ := call_step hs hcall
      cases hcall'.symm.trans hcall''
      exact hstep.stage_ne (h.registered m id c call hold hcall)
    · rw [hnew call' hcall']
      exact nofun
  aimed m c res hl := by
    have hcall : ∃ call, w.calls[c]? = some call ∧ call.master = m := by
      rcases sending_step hs hl with hold | ⟨-, a, -, hfound⟩
      · exact h.aimed m c res hold
      · exact hw.exists_call hfound
    obtain ⟨call, hc, hm⟩ := hcall
    obtain ⟨call', hc', hstep⟩ := call_step hs hc
    exact ⟨call', hc', hstep.master.trans hm⟩

/-- A loop that has room keeps it, if it looks only for channels with room. -/
theorem Clear.step {m : M} (h : Clear w m) (hp : Placed w) (hw : Sound init clock w)
    (hok : e = .lookup m → HasRoom w e) (hs : Cluster.step clock w e = some w') : Clear w' m := by
  intro c res call' hl hc'
  rcases sending_step hs hl with hold | ⟨rfl, a, happlied, hfound⟩
  · obtain ⟨call, hc, hm⟩ := hp.aimed m c res hold
    obtain ⟨call'', hc'', hstep⟩ := call_step hs hc
    cases hc'.symm.trans hc''
    have hroom := h c res call hold hc
    cases hstep with
    | same | register | accepted | leave | unregister => exact hroom
    | receive => rfl
    | @send m' res' he hl' =>
        -- only the loop of its master sends to the call, and that is past the send then
        obtain ⟨call₀, hc₀, hm'⟩ := hp.aimed m' c res' hl'
        cases hc.symm.trans hc₀
        obtain rfl : m' = m := hm'.symm.trans hm
        subst he
        cases step_cases hs with
        | send hl₀ hcall hb => simp at hl
  · obtain ⟨call, hc, -⟩ := hw.exists_call hfound
    have hroom := hok rfl
    simp only [HasRoom, FindsRoom, happlied] at hroom
    have hchan := hroom c hfound
    rw [hc, Option.bind_some] at hchan
    obtain ⟨call'', hc'', hstep⟩ := call_step hs hc
    cases hc'.symm.trans hc''
    cases hstep with
    | same | register | accepted | leave | unregister => exact hchan
    | receive => rfl
    | send he _ => cases he

/-- A loop that has found a full channel is stuck, or is so when the call leaves next. -/
theorem wedged_of_no_room (hp : Placed w) (hw : Sound init clock w) {m : M}
    (hs : step clock w (.lookup m) = some w') (hno : ¬HasRoom w (.lookup m)) :
    ∃ w'', (w'' = w' ∨ ∃ e, step clock w' e = some w'') ∧ Wedged w'' m := by
  cases step_cases hs with
  | @notFound _ a res hl hwaiter =>
      exact absurd (by simp [HasRoom, FindsRoom, hl, hwaiter]) hno
  | @found _ a res c hl hwaiter =>
      obtain ⟨call, hc, -⟩ := hw.exists_call hwaiter
      have hfull : call.chan.isSome := by
        rw [Option.isSome_iff_ne_none]
        intro hnone
        exact hno (by simp [HasRoom, FindsRoom, hl, hwaiter, hc, hnone])
      generalize hw₁ : w.setHost m { w.hosts m with loop := .sending c res } = w₁
      have hl₁ : (w₁.hosts m).loop = .sending c res := by simp [← hw₁]
      have hc₁ : w₁.calls[c]? = some call := by rw [← hw₁, World.setHost_calls, hc]
      -- the call leaves when Raft does not accept its command, or when its context is done
      have hleaves : ∀ (e : Event M) (res' : Except Status Unit),
          step clock w₁ e = some (w₁.setCall c { call with stage := .leaving res' }) →
          ∃ w'', (w'' = w₁ ∨ ∃ e, step clock w₁ e = some w'') ∧ Wedged w'' m := by
        intro e res' hleave
        exact ⟨_, Or.inr ⟨e, hleave⟩, c, res, { call with stage := .leaving res' }, hl₁,
          List.getElem?_set_self (List.getElem?_eq_some_iff.mp hc₁).1, hfull, rfl⟩
      cases hstage : call.stage with
      | started => exact absurd hstage (hp.registered m _ c call hwaiter hc)
      | registered =>
          exact hleaves (.propose c false) (.error ⟨.unavailable, "not the leader"⟩)
            (by simp [step, hc₁, hstage])
      | waiting =>
          exact hleaves (.cancel c false) (.error (contextStatus false))
            (by simp [step, hc₁, hstage])
      | leaving res' => exact ⟨w₁, Or.inl rfl, c, res, call, hl₁, hc₁, hfull, by rw [hstage]; rfl⟩
      | returned res' => exact ⟨w₁, Or.inl rfl, c, res, call, hl₁, hc₁, hfull, by rw [hstage]; rfl⟩

/-- In a run in which the loops find only channels with room no loop is ever stuck; and when a loop
looks for a waiter, the channel it finds has room exactly when the loop cannot be stuck after it nor
one step later. -/
theorem never_wedged_iff (h : Path (step clock) HasRoom (World.start init) w) :
    (∀ m, ¬Wedged w m) ∧ ∀ m w', step clock w (.lookup m) = some w' →
      (HasRoom w (.lookup m) ↔
        ∀ w'', w'' = w' ∨ (∃ e, step clock w' e = some w'') → ¬Wedged w'' m) := by
  have hstart : Placed (World.start init) ∧ ∀ m, Clear (World.start init) m :=
    ⟨⟨by simp [World.start], by simp [World.start]⟩, fun m => by simp [Clear, World.start]⟩
  obtain ⟨hw, hp, hclear⟩ := h.invariant
    (I := fun u => Sound init clock u ∧ Placed u ∧ ∀ m, Clear u m) ⟨.start, hstart⟩
    fun u e u' hu hok hs => ⟨hu.1.step hs, hu.2.1.step hu.1 hs,
      fun m => (hu.2.2 m).step hu.2.1 hu.1 (fun _ => hok) hs⟩
  refine ⟨fun m => (hclear m).not_wedged, fun m w' hs => ⟨?_, ?_⟩⟩
  · intro hroom w'' hnext
    have hclear' : Clear w' m := (hclear m).step hp hw (fun _ => hroom) hs
    rcases hnext with rfl | ⟨e, hs'⟩
    · exact hclear'.not_wedged
    · -- the loop has just looked for a waiter and does not do so again
      refine (hclear'.step (hp.step hw hs) (hw.step hs) ?_ hs').not_wedged
      rintro rfl
      cases step_cases hs with
      | found hl hwaiter =>
          cases step_cases hs' with
          | found hl' _ | notFound hl' _ => simp at hl'
      | notFound hl hwaiter =>
          cases step_cases hs' with
          | found hl' _ | notFound hl' _ => simp at hl'
  · intro hnot
    by_contra hno
    obtain ⟨w'', hnext, hwedged⟩ := wedged_of_no_room hp hw hs hno
    exact hnot w'' hnext hwedged

/-- A master has applied the command of a call that waits for it. -/
def appliedWrite : List (Event Bool) :=
  [.call true { kind := .create, path := ['/', 'a'] }, .register 0, .propose 0 true, .commit 0,
    .deliver true]

theorem never_wedged_iff_pair :
    let clock : Bool → ℕ → Time := fun _ _ => 0
    let w := final (guarded (step clock) HasRoom) pair appliedWrite
    (w.hosts true).loop =
        .applied ⟨{ opID := 1, kind := .create, path := ['/', 'a'] }, 0⟩ (.ok ()) ∧
      (∀ m, ¬Wedged w m) ∧ ∀ m w', step clock w (.lookup m) = some w' →
        (HasRoom w (.lookup m) ↔
          ∀ w'', w'' = w' ∨ (∃ e, step clock w' e = some w'') → ¬Wedged w'' m) :=
  ⟨by decide +kernel, never_wedged_iff (Path.final (by decide +kernel))⟩

/-- The call leaves by its context after its result has been sent. Before its deferred function
runs, the master applies the first command of the other master, which has the same number. -/
def stuckWrite : List (Event Bool) :=
  appliedWrite ++ [.lookup true, .send true, .cancel 0 false,
    .call false { kind := .create, path := ['/', 'b'] }, .register 1, .propose 1 true, .commit 1,
    .deliver true, .lookup true, .unregister 0]

/-- The call has returned, and whatever happens the loop stays at the send to it. -/
theorem wedged_forever :
    let w := final (step fun _ _ => 0) pair stuckWrite
    (w.calls[0]?).map (·.stage) = some (.returned (.error (contextStatus false))) ∧
      ∀ w', Path (step fun _ _ => 0) (fun _ _ => True) w w' → Wedged w' true := by
  intro w
  have hcall : w.calls[0]? = some ⟨true, { opID := 1, kind := .create, path := ['/', 'a'] },
      .returned (.error (contextStatus false)), true, some (.ok ())⟩ := by
    decide +kernel
  have hwedged : Wedged w true := ⟨0, .ok (), _, by decide +kernel, hcall, rfl, rfl⟩
  refine ⟨by rw [hcall]; rfl, fun w' hpath => ?_⟩
  exact hpath.invariant (I := fun u => Wedged u true) hwedged fun _ _ _ hu _ hs => (hu.step hs).1

end VaultFS.Master.Cluster
