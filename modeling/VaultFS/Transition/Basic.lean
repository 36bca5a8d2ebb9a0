import Mathlib.Data.Nat.Notation
import Mathlib.Logic.Basic
import Mathlib.Order.Defs.PartialOrder

/-!
# Runs of a transition function

A system is a partial transition function `step : σ → ε → Option σ`. A run is
described in two ways: `exec` computes the state after a list of events, and
`Path step ok s t` says that `t` is reached from `s` by steps that all satisfy
the condition `ok`, which reads the state before the step and the event. The
condition carries every assumption that is made about a run.

Four rules take a property of one step to a property of runs: `Path.invariant`
for a predicate on states, `Path.strengthen` for a condition that follows from
another one where a predicate holds, `Path.simulate` for a relation to the
states of another system that only ever grow in a preorder, and `Path.map` for a
function to the states of another system. A measure that goes down in every step
bounds the length of a run (`length_add_le`).
-/

namespace Transition

variable {σ ε : Type*}

/-- The state after a list of events, if they are all enabled in turn. -/
def exec (step : σ → ε → Option σ) : σ → List ε → Option σ
  | s, [] => some s
  | s, e :: es => (step s e).bind fun s' => exec step s' es

/-- The transition function restricted to the steps that meet a condition. -/
def guarded (step : σ → ε → Option σ) (ok : σ → ε → Prop) [∀ s e, Decidable (ok s e)]
    (s : σ) (e : ε) : Option σ :=
  if ok s e then step s e else none

theorem exec_append (step : σ → ε → Option σ) (s : σ) (es es' : List ε) :
    exec step s (es ++ es') = (exec step s es).bind fun t => exec step t es' := by
  induction es generalizing s with
  | nil => rfl
  | cons e es ih =>
      cases h : step s e with
      | none => simp [exec, h]
      | some t => simp [exec, h, ih]

/-- The events are enabled in turn. -/
def Enabled (step : σ → ε → Option σ) (s : σ) (es : List ε) : Prop :=
  (exec step s es).isSome = true

instance (step : σ → ε → Option σ) (s : σ) (es : List ε) : Decidable (Enabled step s es) :=
  inferInstanceAs (Decidable (_ = true))

/-- The state after a list of events that are enabled in turn. -/
def final (step : σ → ε → Option σ) (s : σ) (es : List ε) : σ := (exec step s es).getD s

/-- `t` is reached from `s` by steps that all meet the condition `ok`. -/
inductive Path (step : σ → ε → Option σ) (ok : σ → ε → Prop) (s : σ) : σ → Prop where
  | refl : Path step ok s s
  | tail {t t' : σ} {e : ε} : Path step ok s t → ok t e → step t e = some t' →
      Path step ok s t'

namespace Path

variable {step : σ → ε → Option σ} {ok ok' : σ → ε → Prop} {s t u : σ}

theorem trans (h₁ : Path step ok s t) (h₂ : Path step ok t u) : Path step ok s u := by
  induction h₂ with
  | refl => exact h₁
  | tail _ hok hstep ih => exact ih.tail hok hstep

theorem single {e : ε} (hok : ok s e) (hstep : step s e = some t) : Path step ok s t :=
  refl.tail hok hstep

/-- A predicate that holds at the start and that every allowed step keeps holds
at the end of every run. -/
theorem invariant {I : σ → Prop} (h : Path step ok s t) (hinit : I s)
    (hstep : ∀ t e t', I t → ok t e → step t e = some t' → I t') : I t := by
  induction h with
  | refl => exact hinit
  | tail _ hok hs ih => exact hstep _ _ _ ih hok hs

/-- Along an invariant the condition on the steps may be replaced by one that
follows from it there. -/
theorem strengthen {I : σ → Prop} (h : Path step ok s t) (hinit : I s)
    (hstep : ∀ t e t', I t → ok t e → step t e = some t' → ok' t e ∧ I t') :
    Path step ok' s t ∧ I t := by
  induction h with
  | refl => exact ⟨refl, hinit⟩
  | tail _ hok hs ih =>
      obtain ⟨hok', hI⟩ := hstep _ _ _ ih.2 hok hs
      exact ⟨ih.1.tail hok' hs, hI⟩

/-- A relation to a second system that every allowed step keeps, with the second
system moving up in a preorder, is kept by every run. -/
theorem simulate {τ : Type*} [Preorder τ] {R : σ → τ → Prop} {a : τ}
    (h : Path step ok s t) (hinit : R s a)
    (hstep : ∀ t e t' a, R t a → ok t e → step t e = some t' → ∃ a', R t' a' ∧ a ≤ a') :
    ∃ a', R t a' ∧ a ≤ a' := by
  induction h with
  | refl => exact ⟨a, hinit, le_rfl⟩
  | tail _ hok hs ih =>
      obtain ⟨b, hb, hab⟩ := ih
      obtain ⟨c, hc, hbc⟩ := hstep _ _ _ b hb hok hs
      exact ⟨c, hc, le_trans hab hbc⟩

/-- A map to the states of a second system that takes every allowed step to a run there takes
every run to a run. -/
theorem map {τ ε' : Type*} {step' : τ → ε' → Option τ} {ok'' : τ → ε' → Prop} (f : σ → τ)
    {I : σ → Prop} (h : Path step ok s t) (hinit : I s)
    (hstep : ∀ t e t', I t → ok t e → step t e = some t' →
      I t' ∧ Path step' ok'' (f t) (f t')) : I t ∧ Path step' ok'' (f s) (f t) := by
  induction h with
  | refl => exact ⟨hinit, refl⟩
  | tail _ hok hs ih =>
      obtain ⟨hI, hpath⟩ := hstep _ _ _ ih.1 hok hs
      exact ⟨hI, ih.2.trans hpath⟩

/-- The condition on the steps may be replaced by a weaker one. -/
theorem mono (h : Path step ok s t) (hok : ∀ t e, ok t e → ok' t e) : Path step ok' s t := by
  induction h with
  | refl => exact refl
  | tail _ he hs ih => exact ih.tail (hok _ _ he) hs

/-- The events of a run, without any condition on them. -/
theorem of_events {es : List ε} (h : exec step s es = some t) :
    Path step (fun _ _ => True) s t := by
  induction es generalizing s with
  | nil => exact Option.some.inj h ▸ refl
  | cons e es ih =>
      obtain ⟨s', hs', hrest⟩ := Option.bind_eq_some_iff.mp h
      exact (single trivial hs').trans (ih hrest)

/-- A computed run is a run. -/
theorem of_exec [∀ s e, Decidable (ok s e)] {es : List ε}
    (h : exec (guarded step ok) s es = some t) : Path step ok s t := by
  induction es generalizing s with
  | nil =>
      simp only [exec, Option.some.injEq] at h
      exact h ▸ refl
  | cons e es ih =>
      simp only [exec, Option.bind_eq_some_iff] at h
      obtain ⟨s', hs', hrest⟩ := h
      by_cases hok : ok s e
      · simp only [guarded, if_pos hok] at hs'
        exact (single hok hs').trans (ih hrest)
      · simp [guarded, if_neg hok] at hs'

theorem final [∀ s e, Decidable (ok s e)] {es : List ε} (h : Enabled (guarded step ok) s es) :
    Path step ok s (final (guarded step ok) s es) := by
  obtain ⟨t, ht⟩ := Option.isSome_iff_exists.mp h
  rw [Transition.final, ht]
  exact of_exec ht

theorem final_append [∀ s e, Decidable (ok s e)] {es es' : List ε}
    (h : Enabled (guarded step ok) s (es ++ es')) :
    Path step ok (Transition.final (guarded step ok) s es)
      (Transition.final (guarded step ok) s (es ++ es')) := by
  obtain ⟨u, hu⟩ := Option.isSome_iff_exists.mp h
  have hsplit := hu
  rw [exec_append, Option.bind_eq_some_iff] at hsplit
  obtain ⟨t, ht, htu⟩ := hsplit
  rw [Transition.final, Transition.final, hu, ht]
  exact of_exec htu

end Path

theorem length_add_le {step : σ → ε → Option σ} {μ : σ → ℕ}
    (hstep : ∀ s e t, step s e = some t → μ t < μ s) {s t : σ} {es : List ε}
    (h : exec step s es = some t) : es.length + μ t ≤ μ s := by
  induction es generalizing s with
  | nil =>
      obtain rfl := Option.some.inj h
      exact Nat.le_of_eq (Nat.zero_add _)
  | cons e es ih =>
      obtain ⟨s', hs', hrest⟩ := Option.bind_eq_some_iff.mp h
      have hfirst := hstep s e s' hs'
      have := ih hrest
      rw [List.length_cons]
      omega

/-- The last step of a computed run. -/
theorem final_concat {step : σ → ε → Option σ} {ok : σ → ε → Prop} [∀ s e, Decidable (ok s e)]
    {s : σ} {es : List ε} {e : ε} (h : Enabled (guarded step ok) s (es ++ [e])) :
    ok (final (guarded step ok) s es) e ∧
      step (final (guarded step ok) s es) e = some (final (guarded step ok) s (es ++ [e])) := by
  obtain ⟨u, hu⟩ := Option.isSome_iff_exists.mp h
  have hsplit := hu
  rw [exec_append, Option.bind_eq_some_iff] at hsplit
  obtain ⟨t, ht, htu⟩ := hsplit
  have hlast : guarded step ok t e = some u := by simpa [exec] using htu
  rw [final, final, hu, ht]
  by_cases hok : ok t e
  · exact ⟨hok, by simpa [guarded, hok] using hlast⟩
  · simp [guarded, hok] at hlast

end Transition
