import Mathlib.Logic.Function.Basic
import VaultFS.Interaction.Basic

/-!
# Threads on a shared state

Threads run programs whose operations act on one shared state, one operation at a time and in any
order. A `Discipline` fixes what an operation of a thread does, an invariant of the shared state,
and what each thread may rely on about the operations of the others.

`Safe d i Q s p` says that the thread `i` with the program `p` keeps to the discipline from the
state `s` on, whatever the others do meanwhile, and that `Q` holds whenever it has ended. If all
threads are safe they stay so under every operation (`AllSafe.op`), and what a thread has
established when it ends is then true in the state it ends in (`AllSafe.ended`).
-/

namespace Interaction

structure Discipline (ι σ Op Ans : Type*) where
  serve : ι → σ → Op → Ans → Option σ
  Inv : σ → Prop
  rely : ι → σ → σ → Prop
  refl : ∀ i s, rely i s s
  trans : ∀ {i s t u}, rely i s t → rely i t u → rely i s u

variable {ι σ Op Ans α β : Type*} {d : Discipline ι σ Op Ans} {i : ι} {s t : σ}

/-- The step of a thread keeps the invariant and what the other threads rely on. -/
def Discipline.Keeps (d : Discipline ι σ Op Ans) (i : ι) (s t : σ) : Prop :=
  d.Inv t ∧ ∀ j, j ≠ i → d.rely j s t

def Safe (d : Discipline ι σ Op Ans) (i : ι) (Q : α → σ → Prop) :
    σ → Prog (fun _ : Op => Ans) α → Prop
  | s, .ret a => ∀ t, d.Inv t → d.rely i s t → Q a t
  | s, .ask o next => ∀ t, d.Inv t → d.rely i s t → ∀ a u, d.serve i t o a = some u →
      d.Keeps i t u ∧ Safe d i Q u (next a)

namespace Safe

variable {Q : α → σ → Prop} {p : Prog (fun _ : Op => Ans) α}

/-- The other threads' steps do not make a thread unsafe. -/
theorem mono (h : Safe d i Q s p) (hrely : d.rely i s t) : Safe d i Q t p := by
  cases p with
  | ret a => exact fun u hu htu => h u hu (d.trans hrely htu)
  | ask o next => exact fun u hu htu => h u hu (d.trans hrely htu)

theorem ret {a : α} (h : ∀ t, d.Inv t → d.rely i s t → Q a t) : Safe d i Q s (.ret a) := h

theorem op {o : Op} {Q : Ans → σ → Prop}
    (h : ∀ t, d.Inv t → d.rely i s t → ∀ a u, d.serve i t o a = some u →
      d.Keeps i t u ∧ ∀ v, d.Inv v → d.rely i u v → Q a v) : Safe d i Q s (.op o) :=
  h

theorem bind {R : β → σ → Prop} {f : α → Prog (fun _ : Op => Ans) β} (hs : d.Inv s)
    (hp : Safe d i Q s p) (hf : ∀ a t, d.Inv t → Q a t → Safe d i R t (f a)) :
    Safe d i R s (p.bind f) := by
  induction p generalizing s with
  | ret a => exact hf a s hs (hp s hs (d.refl i s))
  | ask o next ih =>
      intro t ht hst a u hu
      obtain ⟨hkeeps, hnext⟩ := hp t ht hst a u hu
      exact ⟨hkeeps, ih a hkeeps.1 hnext⟩

/-- A program all of whose operations are harmless is safe. -/
theorem of_only {P : Op → Prop} (hp : p.Only P)
    (h : ∀ s o a t, P o → d.Inv s → d.serve i s o a = some t → d.Keeps i s t) :
    Safe d i (fun _ _ => True) s p := by
  induction p generalizing s with
  | ret a => exact fun _ _ _ => trivial
  | ask o next ih =>
      intro t ht _ a u hu
      exact ⟨h t o a u hp.1 ht hu, ih a (hp.2 a)⟩

end Safe

/-- The invariant holds and all threads are safe. -/
def AllSafe (d : Discipline ι σ Op Ans) (Q : ι → α → σ → Prop) (s : σ)
    (threads : ι → Option (Prog (fun _ : Op => Ans) α)) : Prop :=
  d.Inv s ∧ ∀ i p, threads i = some p → Safe d i (Q i) s p

namespace AllSafe

variable {Q : ι → α → σ → Prop} {threads : ι → Option (Prog (fun _ : Op => Ans) α)}

theorem ended {a : α} (h : AllSafe d Q s threads) (hi : threads i = some (.ret a)) : Q i a s :=
  h.2 i _ hi s h.1 (d.refl i s)

/-- A step that is none of a thread's. -/
theorem env (h : AllSafe d Q s threads) (ht : d.Inv t)
    (hrely : ∀ i p, threads i = some p → d.rely i s t) : AllSafe d Q t threads :=
  ⟨ht, fun i p hi => (h.2 i p hi).mono (hrely i p hi)⟩

variable [DecidableEq ι]

theorem op {o : Op} {next : Ans → Prog (fun _ : Op => Ans) α} {a : Ans}
    (h : AllSafe d Q s threads) (hi : threads i = some (.ask o next))
    (hs : d.serve i s o a = some t) :
    AllSafe d Q t (Function.update threads i (some (next a))) := by
  obtain ⟨⟨hinv, hothers⟩, hnext⟩ := h.2 i _ hi s h.1 (d.refl i s) a t hs
  refine ⟨hinv, ?_⟩
  intro j p hj
  by_cases heq : j = i
  · subst heq
    rw [Function.update_self, Option.some.injEq] at hj
    exact hj ▸ hnext
  · rw [Function.update_of_ne heq] at hj
    exact (h.2 j p hj).mono (hothers j heq)

theorem start {p : Prog (fun _ : Op => Ans) α} (h : AllSafe d Q s threads)
    (hp : Safe d i (Q i) s p) : AllSafe d Q s (Function.update threads i (some p)) := by
  refine ⟨h.1, ?_⟩
  intro j q hj
  by_cases heq : j = i
  · subst heq
    rw [Function.update_self, Option.some.injEq] at hj
    exact hj ▸ hp
  · rw [Function.update_of_ne heq] at hj
    exact h.2 j q hj

theorem finish (h : AllSafe d Q s threads) (i : ι) :
    AllSafe d Q s (Function.update threads i none) := by
  refine ⟨h.1, ?_⟩
  intro j q hj
  by_cases heq : j = i
  · subst heq
    rw [Function.update_self] at hj
    cases hj
  · rw [Function.update_of_ne heq] at hj
    exact h.2 j q hj

end AllSafe

end Interaction
