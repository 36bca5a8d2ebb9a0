import Mathlib.Data.List.Nodup
import Mathlib.Logic.Function.Basic
import VaultFS.Interaction.Basic

/-!
# Interleaved programs and their serial order

Threads run programs on one shared state. An operation takes effect at once (`act`), and the
operations of different threads come in any order (`Pool.step`). `Prog.atomic` runs a program
without anything in between, and `Serial` says that the threads that have ended could as well have
run like that, one after the other.

`exists_serial` gives such an order, that of the threads' last operations, for programs that change
the shared state by their last operation only (`WritesLast`), if the steps of the run are all taken
by threads that are up to date (`Current`): started at that moment, such a thread would come to the
point at which it is.
-/

namespace Interaction

open Transition

variable {Op : Type*} {Res : Op → Type*} {ι σ α : Type*} (act : σ → (o : Op) → Res o × σ)

def Prog.atomic : Prog Res α → σ → α × σ
  | .ret a, s => (a, s)
  | .ask o next, s => (next (act s o).1).atomic (act s o).2

/-- Started in the state, the program comes to the second one and leaves the state as it is. -/
inductive Replays (s : σ) : Prog Res α → Prog Res α → Prop where
  | refl (p : Prog Res α) : Replays s p p
  | ask {o : Op} {next : Res o → Prog Res α} {p : Prog Res α} (hstate : (act s o).2 = s)
      (hnext : Replays s (next (act s o).1) p) : Replays s (.ask o next) p

/-- All operations but the last leave the state as it is. -/
def Prog.WritesLast : Prog Res α → Prop
  | .ret _ => True
  | .ask o next =>
      ((∀ s, (act s o).2 = s) ∧ ∀ r, (next r).WritesLast) ∨ ∀ r, ∃ a, next r = .ret a

/-- With the answers it was given, the program comes to the second one. -/
inductive Follows : Prog Res α → List (Sigma Res) → Prog Res α → Prop where
  | nil (p : Prog Res α) : Follows p [] p
  | cons {o : Op} {next : Res o → Prog Res α} {r : Res o} {l : List (Sigma Res)} {p : Prog Res α}
      (h : Follows (next r) l p) : Follows (.ask o next) (⟨o, r⟩ :: l) p

/-- The shared state, the programs that the threads have still to run, and what each of them has
been told. -/
structure Pool (Res : Op → Type*) (ι σ α : Type*) where
  shared : σ
  threads : ι → Prog Res α
  told : ι → List (Sigma Res)

def Pool.start (progs : ι → Prog Res α) (s : σ) : Pool Res ι σ α := ⟨s, progs, fun _ => []⟩

/-- A thread's next operation. -/
def Pool.step [DecidableEq ι] (w : Pool Res ι σ α) (i : ι) : Option (Pool Res ι σ α) :=
  match w.threads i with
  | .ret _ => none
  | .ask o next => some
      { shared := (act w.shared o).2
        threads := Function.update w.threads i (next (act w.shared o).1)
        told := Function.update w.told i (w.told i ++ [⟨o, (act w.shared o).1⟩]) }

/-- The state after programs that run one after the other. -/
def serially (progs : ι → Prog Res α) (s : σ) (order : List ι) : σ :=
  order.foldl (fun s i => ((progs i).atomic act s).2) s

structure Serial (progs : ι → Prog Res α) (s : σ) (w : Pool Res ι σ α) (order : List ι) : Prop where
  nodup : order.Nodup
  ended : ∀ i, i ∈ order ↔ ∃ a, w.threads i = .ret a
  shared : w.shared = serially act progs s order
  results : ∀ before i after, order = before ++ i :: after →
    w.threads i = .ret ((progs i).atomic act (serially act progs s before)).1

def Current (progs : ι → Prog Res α) (w : Pool Res ι σ α) (i : ι) : Prop :=
  Replays act w.shared (progs i) (w.threads i)

variable {act} {s : σ} {p q : Prog Res α} {progs : ι → Prog Res α} {w w' : Pool Res ι σ α} {i : ι}

theorem Replays.atomic_eq (h : Replays act s p q) : p.atomic act s = q.atomic act s := by
  induction h with
  | refl => rfl
  | ask hstate _ ih => rw [Prog.atomic, hstate, ih]

theorem Follows.concat {o : Op} {next : Res o → Prog Res α} {l : List (Sigma Res)} (r : Res o)
    (h : Follows p l (.ask o next)) : Follows p (l ++ [⟨o, r⟩]) (next r) := by
  generalize hq : Prog.ask o next = q at h
  induction h with
  | nil p =>
      subst hq
      exact .cons (.nil _)
  | cons _ ih => exact .cons (ih hq)

theorem serially_concat (s : σ) (order : List ι) (i : ι) :
    serially act progs s (order ++ [i]) =
      ((progs i).atomic act (serially act progs s order)).2 := by
  simp [serially]

variable [DecidableEq ι]

theorem Pool.step_ask {o : Op} {next : Res o → Prog Res α} (h : w.threads i = .ask o next) :
    w.step act i = some
      { shared := (act w.shared o).2
        threads := Function.update w.threads i (next (act w.shared o).1)
        told := Function.update w.told i (w.told i ++ [⟨o, (act w.shared o).1⟩]) } := by
  simp only [Pool.step, h]

/-- A thread that takes a step has an operation left. -/
theorem Pool.exists_ask (h : w.step act i = some w') :
    ∃ o next, w.threads i = .ask o next := by
  unfold Pool.step at h
  cases hi : w.threads i with
  | ret a => simp [hi] at h
  | ask o next => exact ⟨o, next, rfl⟩

theorem Pool.follows_step (h : ∀ i, Follows (progs i) (w.told i) (w.threads i))
    (hs : w.step act i = some w') : ∀ j, Follows (progs j) (w'.told j) (w'.threads j) := by
  obtain ⟨o, next, hi⟩ := Pool.exists_ask hs
  cases (Pool.step_ask hi).symm.trans hs
  intro j
  by_cases hj : j = i
  · subst hj
    simp only [Function.update_self]
    exact (hi ▸ h j).concat _
  · simp only [Function.update_of_ne hj]
    exact h j

theorem Pool.writesLast_step (h : ∀ i, (w.threads i).WritesLast act)
    (hs : w.step act i = some w') : ∀ j, (w'.threads j).WritesLast act := by
  obtain ⟨o, next, hi⟩ := Pool.exists_ask hs
  cases (Pool.step_ask hi).symm.trans hs
  intro j
  by_cases hj : j = i
  · subst hj
    simp only [Function.update_self]
    have hlast := h j
    rw [hi] at hlast
    rcases hlast with ⟨-, hnext⟩ | hret
    · exact hnext _
    · obtain ⟨a, ha⟩ := hret (act w.shared o).1
      rw [ha]
      trivial
  · simp only [Function.update_of_ne hj]
    exact h j

namespace Serial

variable {order : List ι}

omit [DecidableEq ι] in
theorem start (s : σ) (h : ∀ i, ∃ o next, progs i = .ask o next) :
    Serial act progs s (.start progs s) [] where
  nodup := .nil
  ended i := by
    obtain ⟨o, next, hi⟩ := h i
    simp [Pool.start, hi]
  shared := rfl
  results before i after heq := by simp at heq

omit [DecidableEq ι] in
theorem notMem {o : Op} {next : Res o → Prog Res α} (h : Serial act progs s w order)
    (hi : w.threads i = .ask o next) : i ∉ order := by
  intro hmem
  obtain ⟨a, ha⟩ := (h.ended i).mp hmem
  rw [hi] at ha
  cases ha

/-- A thread goes on: the order is as before. -/
theorem read {o : Op} {next : Res o → Prog Res α} (h : Serial act progs s w order)
    (hi : w.threads i = .ask o next) (hstate : (act w.shared o).2 = w.shared)
    (hnext : ∀ a, next (act w.shared o).1 ≠ .ret a) (hs : w.step act i = some w') :
    Serial act progs s w' order := by
  cases (Pool.step_ask hi).symm.trans hs
  have hnot := h.notMem hi
  refine ⟨h.nodup, ?_, hstate.trans h.shared, ?_⟩
  · intro j
    by_cases hj : j = i
    · subst hj
      simp only [Function.update_self, hnot, false_iff, not_exists]
      exact hnext
    · simp only [Function.update_of_ne hj]
      exact h.ended j
  · intro before j after heq
    have hj : j ≠ i := by
      rintro rfl
      exact hnot (heq ▸ List.mem_append_right before List.mem_cons_self)
    simp only [Function.update_of_ne hj]
    exact h.results before j after heq

/-- A thread that is up to date ends: it is the last one in the order. -/
theorem last {o : Op} {next : Res o → Prog Res α} {a : α} (h : Serial act progs s w order)
    (hcurrent : Current act progs w i) (hi : w.threads i = .ask o next)
    (ha : next (act w.shared o).1 = .ret a) (hs : w.step act i = some w') :
    Serial act progs s w' (order ++ [i]) := by
  cases (Pool.step_ask hi).symm.trans hs
  have hnot := h.notMem hi
  have hatomic : (progs i).atomic act w.shared = (a, (act w.shared o).2) := by
    rw [hcurrent.atomic_eq, hi, Prog.atomic, ha, Prog.atomic]
  refine ⟨?_, ?_, ?_, ?_⟩
  · rw [← List.concat_eq_append]
    exact h.nodup.concat hnot
  · intro j
    by_cases hj : j = i
    · subst hj
      simp [ha]
    · simp only [Function.update_of_ne hj, List.mem_append, List.mem_singleton, hj, or_false]
      exact h.ended j
  · rw [serially_concat, ← h.shared, hatomic]
  · intro before j after heq
    rcases List.eq_nil_or_concat' after with rfl | ⟨after, k, rfl⟩
    · obtain ⟨rfl, hlast⟩ := List.append_inj' heq rfl
      cases hlast
      simp only [Function.update_self, ha, ← h.shared, hatomic]
    · rw [← List.cons_append, ← List.append_assoc] at heq
      obtain ⟨rfl, -⟩ := List.append_inj' heq rfl
      have hj : j ≠ i := by
        rintro rfl
        exact hnot (List.mem_append_right before List.mem_cons_self)
      simp only [Function.update_of_ne hj]
      exact h.results before j after rfl

end Serial

/-- In a run in which the threads are up to date whenever they take a step, those that have ended
could have run one after the other. -/
theorem exists_serial (hask : ∀ i, ∃ o next, progs i = .ask o next)
    (hlast : ∀ i, (progs i).WritesLast act)
    (h : Path (Pool.step act) (Current act progs) (.start progs s) w) :
    ∃ order, Serial act progs s w order := by
  refine (h.invariant (I := fun u => (∃ order, Serial act progs s u order) ∧
    ∀ i, (u.threads i).WritesLast act) ⟨⟨[], .start s hask⟩, hlast⟩ ?_).1
  rintro u i u' ⟨⟨order, hserial⟩, hwrites⟩ hcurrent hs
  refine ⟨?_, Pool.writesLast_step hwrites hs⟩
  obtain ⟨o, next, hi⟩ := Pool.exists_ask hs
  cases hnext : next (act u.shared o).1 with
  | ret a => exact ⟨order ++ [i], hserial.last hcurrent hi hnext hs⟩
  | ask o' next' =>
      have hne : ∀ a, next (act u.shared o).1 ≠ .ret a := fun a => by simp [hnext]
      have hthread := hwrites i
      rw [hi] at hthread
      rcases hthread with ⟨hstate, -⟩ | hret
      · exact ⟨order, hserial.read hi (hstate u.shared) hne hs⟩
      · obtain ⟨a, ha⟩ := hret (act u.shared o).1
        exact absurd ha (hne a)

end Interaction
