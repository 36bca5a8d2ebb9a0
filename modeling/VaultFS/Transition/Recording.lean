import VaultFS.Transition.Basic

/-!
# Runs that are written down

`recording step note` runs `step` and keeps a list of what `note` reads off each
step, in the order of the steps. The notes never influence the run. A property that
speaks about what has happened is stated over the notes, so the states of the system
itself need no history.
-/

namespace Transition

variable {σ ε β : Type*}

/-- The transition function together with the list of what its steps have shown. -/
def recording (step : σ → ε → Option σ) (note : σ → ε → Option β) (s : σ × List β) (e : ε) :
    Option (σ × List β) :=
  (step s.1 e).map fun t => (t, s.2 ++ (note s.1 e).toList)

variable {step : σ → ε → Option σ} {note : σ → ε → Option β} {ok : σ → ε → Prop}

theorem recording_eq_some {s t : σ × List β} {e : ε} :
    recording step note s e = some t ↔
      step s.1 e = some t.1 ∧ t.2 = s.2 ++ (note s.1 e).toList := by
  rw [recording, Option.map_eq_some_iff]
  constructor
  · rintro ⟨t', ht', rfl⟩
    exact ⟨ht', rfl⟩
  · rintro ⟨hstep, hnotes⟩
    exact ⟨t.1, hstep, by rw [← hnotes]⟩

namespace Path

/-- A recorded run is a run. -/
theorem unrecorded {s t : σ × List β}
    (h : Path (recording step note) (fun s e => ok s.1 e) s t) : Path step ok s.1 t.1 := by
  induction h with
  | refl => exact refl
  | tail _ hok hs ih => exact ih.tail hok (recording_eq_some.mp hs).1

/-- A relation between the states and the notes that holds at the start and that every
allowed step keeps holds at the end of every recorded run. -/
theorem recording_invariant {I : σ → List β → Prop} {s t : σ × List β}
    (h : Path (recording step note) (fun s e => ok s.1 e) s t) (hinit : I s.1 s.2)
    (hstep : ∀ t e t' ys, I t ys → ok t e → step t e = some t' →
      I t' (ys ++ (note t e).toList)) : I t.1 t.2 := by
  refine h.invariant (I := fun s => I s.1 s.2) hinit fun t e t' hI hok hs => ?_
  obtain ⟨hstep', hnotes⟩ := recording_eq_some.mp hs
  rw [hnotes]
  exact hstep _ _ _ _ hI hok hstep'

end Path

end Transition
