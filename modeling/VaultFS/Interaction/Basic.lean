import VaultFS.Transition.Basic

/-!
# Programs that ask for operations

A program is a tree: it ends with a result, or it asks for an operation and goes on with the
answer. It fixes no meaning for the operations. A run takes place in a system that moves by itself,
as a transition function, and that answers an operation by a relation between the state before, the
answer and the state after (`Run`). The moves of the system come between any two operations, so
that whatever else goes on beside the program is in them.

A run of a program is taken apart at a result, at an operation and at a `bind` (`run_ret`,
`run_ask`, `run_bind`). `Prog.Only` says which operations a program can ask for at all,
`Prog.Yields` what it can end with, and `Prog.Until` what must have happened before it ends in a
certain way.
-/

namespace Interaction

open Transition

inductive Prog {Op : Type*} (Res : Op → Type*) (α : Type*) where
  | ret (a : α)
  | ask (op : Op) (next : Res op → Prog Res α)

namespace Prog

variable {Op : Type*} {Res : Op → Type*}

/-- Ask for an operation and end with its answer. -/
def op (o : Op) : Prog Res (Res o) := .ask o .ret

variable {α β : Type*}

def bind : Prog Res α → (α → Prog Res β) → Prog Res β
  | .ret a, f => f a
  | .ask o next, f => .ask o fun r => (next r).bind f

/-- All operations the program can ask for satisfy the predicate. -/
def Only (P : Op → Prop) : Prog Res α → Prop
  | .ret _ => True
  | .ask o next => P o ∧ ∀ r, (next r).Only P

theorem Only.bind {P : Op → Prop} {p : Prog Res α} {f : α → Prog Res β} (hp : p.Only P)
    (hf : ∀ a, (f a).Only P) : (p.bind f).Only P := by
  induction p with
  | ret a => exact hf a
  | ask o next ih => exact ⟨hp.1, fun r => ih r (hp.2 r)⟩

theorem Only.op {P : Op → Prop} {o : Op} (h : P o) : (Prog.op o : Prog Res (Res o)).Only P :=
  ⟨h, fun _ => trivial⟩

theorem Only.imp {P P' : Op → Prop} {p : Prog Res α} (hp : p.Only P) (h : ∀ o, P o → P' o) :
    p.Only P' := by
  induction p with
  | ret a => trivial
  | ask o next ih => exact ⟨h o hp.1, fun r => ih r (hp.2 r)⟩

/-- Whatever the answers, the program ends with a result that satisfies the predicate. -/
def Yields (P : α → Prop) : Prog Res α → Prop
  | .ret a => P a
  | .ask _ next => ∀ r, (next r).Yields P

theorem Yields.of_bind {Q : β → Prop} (p : Prog Res α) {f : α → Prog Res β}
    (hf : ∀ a, (f a).Yields Q) : (p.bind f).Yields Q := by
  induction p with
  | ret a => exact hf a
  | ask o next ih => exact fun r => ih r

/-- If the program ends with a result that does not satisfy `P`, it has had an answer for which `C`
holds. -/
def Until (C : (o : Op) → Res o → Prop) (P : α → Prop) : Prog Res α → Prop
  | .ret a => P a
  | .ask o next => ∀ r, C o r ∨ (next r).Until C P

theorem Until.op {C : (o : Op) → Res o → Prop} {o : Op} {P : Res o → Prop}
    (h : ∀ r, C o r ∨ P r) : (Prog.op o : Prog Res (Res o)).Until C P :=
  h

theorem Until.bind {C : (o : Op) → Res o → Prop} {P : α → Prop} {Q : β → Prop} {p : Prog Res α}
    {f : α → Prog Res β} (hp : p.Until C P) (hf : ∀ a, P a → (f a).Until C Q) :
    (p.bind f).Until C Q := by
  induction p with
  | ret a => exact hf a hp
  | ask o next ih => exact fun r => (hp r).imp_right (ih r)

instance : Monad (Prog Res) where
  pure := .ret
  bind := Prog.bind

end Prog

section Run

variable {Op : Type*} {Res : Op → Type*} {α β σ ε : Type*}

/-- `Run step ok serves s p a t`: from the state `s` the program can end with `a` in the state `t`,
with moves of the system that meet the condition `ok` in between. -/
inductive Run (step : σ → ε → Option σ) (ok : σ → ε → Prop)
    (serves : σ → (o : Op) → Res o → σ → Prop) : σ → Prog Res α → α → σ → Prop where
  | ret (s : σ) (a : α) : Run step ok serves s (.ret a) a s
  | move {s t u : σ} {e : ε} {p : Prog Res α} {a : α} (hok : ok s e) (hs : step s e = some t)
      (h : Run step ok serves t p a u) : Run step ok serves s p a u
  | ask {s t u : σ} {o : Op} {r : Res o} {next : Res o → Prog Res α} {a : α}
      (hr : serves s o r t) (h : Run step ok serves t (next r) a u) :
      Run step ok serves s (.ask o next) a u

variable {step : σ → ε → Option σ} {ok : σ → ε → Prop}
  {serves : σ → (o : Op) → Res o → σ → Prop} {s t : σ}

theorem Run.of_path {u : σ} {p : Prog Res α} {a : α} (hp : Path step ok s t)
    (h : Run step ok serves t p a u) : Run step ok serves s p a u := by
  induction hp with
  | refl => exact h
  | tail _ hok hs ih => exact ih (h.move hok hs)

theorem run_ret {a b : α} (h : Run step ok serves s (.ret a) b t) : b = a ∧ Path step ok s t := by
  generalize hp : (Prog.ret a : Prog Res α) = p at h
  induction h with
  | ret s b =>
      cases hp
      exact ⟨rfl, .refl⟩
  | move hok hs _ ih =>
      obtain ⟨hb, hpath⟩ := ih hp
      exact ⟨hb, (Path.single hok hs).trans hpath⟩
  | ask => cases hp

theorem run_ask {o : Op} {next : Res o → Prog Res α} {a : α}
    (h : Run step ok serves s (.ask o next) a t) :
    ∃ s' r t', Path step ok s s' ∧ serves s' o r t' ∧ Run step ok serves t' (next r) a t := by
  generalize hp : Prog.ask o next = p at h
  induction h with
  | ret => cases hp
  | move hok hs _ ih =>
      obtain ⟨s', r, t', hpath, hr, hrest⟩ := ih hp
      exact ⟨s', r, t', (Path.single hok hs).trans hpath, hr, hrest⟩
  | @ask s t' u o' r next' a hr hrest _ =>
      cases hp
      exact ⟨s, r, t', .refl, hr, hrest⟩

theorem run_bind {p : Prog Res α} {f : α → Prog Res β} {b : β}
    (h : Run step ok serves s (p.bind f) b t) :
    ∃ a u, Run step ok serves s p a u ∧ Run step ok serves u (f a) b t := by
  generalize hq : p.bind f = q at h
  induction h generalizing p with
  | ret s b =>
      cases p with
      | ret a =>
          have hfa : f a = .ret b := hq
          exact ⟨a, s, .ret s a, hfa ▸ .ret s b⟩
      | ask => cases hq
  | move hok hs _ ih =>
      obtain ⟨a, u, hp, hf⟩ := ih hq
      exact ⟨a, u, hp.move hok hs, hf⟩
  | @ask s t' u o r next b hr hrest ih =>
      cases p with
      | ret a =>
          have hfa : f a = .ask o next := hq
          exact ⟨a, s, .ret s a, hfa ▸ .ask hr hrest⟩
      | ask o' next' =>
          cases hq
          obtain ⟨a, v, hp, hf⟩ := ih rfl
          exact ⟨a, v, .ask hr hp, hf⟩

theorem run_op {o : Op} {r : Res o} (h : Run step ok serves s (.op o) r t) :
    ∃ s' t', Path step ok s s' ∧ serves s' o r t' ∧ Path step ok t' t := by
  obtain ⟨s', r', t', hpath, hr, hrest⟩ := run_ask h
  obtain ⟨rfl, hpath'⟩ := run_ret hrest
  exact ⟨s', t', hpath, hr, hpath'⟩

theorem Run.op {o : Op} {r : Res o} (h : serves s o r t) : Run step ok serves s (.op o) r t :=
  .ask h (.ret t r)

theorem Run.bind {u : σ} {p : Prog Res α} {f : α → Prog Res β} {a : α} {b : β}
    (hp : Run step ok serves s p a t) (hf : Run step ok serves t (f a) b u) :
    Run step ok serves s (p.bind f) b u := by
  induction hp with
  | ret => exact hf
  | move hok hs _ ih => exact .move hok hs (ih hf)
  | ask hr _ ih => exact .ask hr (ih hf)

/-- A run in a system that answers by moves of its own is a path. -/
theorem Run.path {p : Prog Res α} {a : α} (h : Run step ok serves s p a t)
    (hserves : ∀ s o r t, serves s o r t → Path step ok s t) : Path step ok s t := by
  induction h with
  | ret => exact .refl
  | move hok hs _ ih => exact (Path.single hok hs).trans ih
  | ask hr _ ih => exact (hserves _ _ _ _ hr).trans ih

/-- Operations are asked for only in states on the way from the first to the last. -/
theorem Run.within {s₀ t₀ : σ} {p : Prog Res α} {a : α} (h : Run step ok serves s p a t)
    (hserves : ∀ s o r t, serves s o r t → Path step ok s t) (hs : Path step ok s₀ s)
    (ht : Path step ok t t₀) :
    Run step ok (fun x o r y => serves x o r y ∧ Path step ok s₀ x ∧ Path step ok y t₀)
      s p a t := by
  induction h with
  | ret s a => exact .ret s a
  | move hok hmove _ ih => exact .move hok hmove (ih (hs.trans (.single hok hmove)) ht)
  | ask hr hrest ih =>
      exact .ask ⟨hr, hs, (hrest.path hserves).trans ht⟩ (ih (hs.trans (hserves _ _ _ _ hr)) ht)

/-- A run is one in a system that answers only the operations the program can ask for. -/
theorem Run.only {P : Op → Prop} {p : Prog Res α} {a : α} (h : Run step ok serves s p a t)
    (hp : p.Only P) : Run step ok (fun s o r t => P o ∧ serves s o r t) s p a t := by
  induction h with
  | ret s a => exact .ret s a
  | move hok hs _ ih => exact .move hok hs (ih hp)
  | ask hr _ ih => exact .ask ⟨hp.1, hr⟩ (ih (hp.2 _))

/-- A map to a second system that takes moves to runs, and answers to answers, takes runs of a
program to runs of it. -/
theorem Run.map {τ ε' : Type*} {step' : τ → ε' → Option τ} {ok' : τ → ε' → Prop}
    {serves' : τ → (o : Op) → Res o → τ → Prop} (f : σ → τ) {I : σ → Prop} {p : Prog Res α} {a : α}
    (h : Run step ok serves s p a t) (hinit : I s)
    (hstep : ∀ s e t, I s → ok s e → step s e = some t → I t ∧ Path step' ok' (f s) (f t))
    (hserves : ∀ s o r t, I s → serves s o r t → I t ∧ serves' (f s) o r (f t)) :
    Run step' ok' serves' (f s) p a (f t) := by
  induction h with
  | ret s a => exact .ret (f s) a
  | move hok hs _ ih =>
      obtain ⟨hI, hpath⟩ := hstep _ _ _ hinit hok hs
      exact .of_path hpath (ih hI)
  | ask hr _ ih =>
      obtain ⟨hI, hr'⟩ := hserves _ _ _ _ hinit hr
      exact .ask hr' (ih hI)

end Run

end Interaction
