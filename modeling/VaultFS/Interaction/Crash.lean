import Mathlib.Logic.Function.Basic
import VaultFS.Interaction.Basic

/-!
# Programs that can stop at any operation

`Prog.play` answers the operations of a program one after the other from a list of answers, and
gives the state then and the program that is left. When the list ends before the program does, the
program was cut there, as by a crash.

`Prog.Ensures serve C Q s p` is a condition on the state `s` from which the program `p` starts:
whatever the answers, `C` holds at every point at which it can be cut, and `Q` when it ends. It is
established along the program (`Ensures.ret`, `Ensures.op`, `Ensures.bind`) and used on a play
(`Ensures.cut`, `Ensures.ended`). That there is a play to the end at all is `Prog.Ends`, with rules
of the same form.

`Prog.located` makes a program on one state a program on a family of states, of which it uses one
(`Ensures.located`).
-/

namespace Interaction.Prog

variable {Op Ans α β σ : Type*}

def play (serve : σ → Op → Ans → Option σ) :
    σ → Prog (fun _ : Op => Ans) α → List Ans → Option (σ × Prog (fun _ : Op => Ans) α)
  | s, p, [] => some (s, p)
  | _, .ret _, _ :: _ => none
  | s, .ask o next, r :: rs => (serve s o r).bind fun t => play serve t (next r) rs

@[simp] theorem play_nil (serve : σ → Op → Ans → Option σ) (s : σ)
    (p : Prog (fun _ : Op => Ans) α) : p.play serve s [] = some (s, p) := by
  cases p <;> rfl

/-- The result of a play that goes to the end of the program. -/
def result? : Prog (fun _ : Op => Ans) α → Option α
  | .ret a => some a
  | .ask _ _ => none

theorem result?_eq_some {p : Prog (fun _ : Op => Ans) α} {a : α} (h : p.result? = some a) :
    p = .ret a := by
  cases p with
  | ret b => exact congrArg _ (Option.some.inj h)
  | ask o next => cases h

def Ensures (serve : σ → Op → Ans → Option σ) (C : σ → Prop) (Q : α → σ → Prop) :
    σ → Prog (fun _ : Op => Ans) α → Prop
  | s, .ret a => C s ∧ Q a s
  | s, .ask o next => C s ∧ ∀ r t, serve s o r = some t → Ensures serve C Q t (next r)

variable {serve : σ → Op → Ans → Option σ} {C : σ → Prop} {Q : α → σ → Prop} {s t : σ}

namespace Ensures

theorem ret {a : α} (hc : C s) (hq : Q a s) : Ensures serve C Q s (.ret a) := ⟨hc, hq⟩

theorem op {o : Op} {Q : Ans → σ → Prop} (hc : C s)
    (h : ∀ r t, serve s o r = some t → C t ∧ Q r t) : Ensures serve C Q s (.op o) :=
  ⟨hc, h⟩

theorem bind {R : β → σ → Prop} {p : Prog (fun _ : Op => Ans) α}
    {f : α → Prog (fun _ : Op => Ans) β} (hp : Ensures serve C Q s p)
    (hf : ∀ a t, C t → Q a t → Ensures serve C R t (f a)) : Ensures serve C R s (p.bind f) := by
  induction p generalizing s with
  | ret a => exact hf a s hp.1 hp.2
  | ask o next ih => exact ⟨hp.1, fun r t hr => ih r (hp.2 r t hr)⟩

theorem weaken {C' : σ → Prop} {Q' : α → σ → Prop} {p : Prog (fun _ : Op => Ans) α}
    (h : Ensures serve C Q s p) (hC : ∀ t, C t → C' t) (hQ : ∀ a t, Q a t → Q' a t) :
    Ensures serve C' Q' s p := by
  induction p generalizing s with
  | ret a => exact ⟨hC s h.1, hQ a s h.2⟩
  | ask o next ih => exact ⟨hC s h.1, fun r t hr => ih r (h.2 r t hr)⟩

theorem play {p q : Prog (fun _ : Op => Ans) α} {rs : List Ans} (h : Ensures serve C Q s p)
    (hplay : p.play serve s rs = some (t, q)) : Ensures serve C Q t q := by
  induction rs generalizing s p with
  | nil =>
      rw [play_nil] at hplay
      obtain ⟨rfl, rfl⟩ := Prod.mk.inj (Option.some.inj hplay)
      exact h
  | cons r rs ih =>
      cases p with
      | ret a => cases hplay
      | ask o next =>
          obtain ⟨u, hu, hrest⟩ := Option.bind_eq_some_iff.mp hplay
          exact ih (h.2 r u hu) hrest

theorem cut {p q : Prog (fun _ : Op => Ans) α} {rs : List Ans} (h : Ensures serve C Q s p)
    (hplay : p.play serve s rs = some (t, q)) : C t := by
  have hq := h.play hplay
  cases q with
  | ret a => exact hq.1
  | ask o next => exact hq.1

theorem ended {p q : Prog (fun _ : Op => Ans) α} {rs : List Ans} {a : α}
    (h : Ensures serve C Q s p) (hplay : p.play serve s rs = some (t, q))
    (hend : q.result? = some a) : Q a t := by
  have hq := h.play hplay
  cases q with
  | ret b =>
      cases hend
      exact hq.2
  | ask o next => cases hend

end Ensures

/-- From `s` the program can end with `a` in the state `t`. -/
def Ends (serve : σ → Op → Ans → Option σ) (s : σ) (p : Prog (fun _ : Op => Ans) α) (a : α)
    (t : σ) : Prop :=
  ∃ rs, p.play serve s rs = some (t, .ret a)

theorem Ensures.ends {p : Prog (fun _ : Op => Ans) α} {a : α} (h : Ensures serve C Q s p)
    (hends : p.Ends serve s a t) : Q a t := by
  obtain ⟨rs, hplay⟩ := hends
  exact h.ended hplay rfl

namespace Ends

theorem ret (s : σ) (a : α) : (Prog.ret a : Prog (fun _ : Op => Ans) α).Ends serve s a s :=
  ⟨[], rfl⟩

theorem op {o : Op} {r : Ans} (h : serve s o r = some t) :
    (Prog.op o : Prog (fun _ : Op => Ans) Ans).Ends serve s r t := by
  refine ⟨[r], ?_⟩
  simp only [Prog.op, Prog.play, h, Option.bind_some]

theorem bind {u : σ} {p : Prog (fun _ : Op => Ans) α} {f : α → Prog (fun _ : Op => Ans) β} {a : α}
    {b : β} (hp : p.Ends serve s a t) (hf : (f a).Ends serve t b u) :
    (p.bind f).Ends serve s b u := by
  obtain ⟨rs, hplay⟩ := hp
  induction rs generalizing s p with
  | nil =>
      rw [play_nil] at hplay
      obtain ⟨rfl, rfl⟩ := Prod.mk.inj (Option.some.inj hplay)
      exact hf
  | cons r rs ih =>
      cases p with
      | ret a => cases hplay
      | ask o next =>
          obtain ⟨v, hv, hrest⟩ := Option.bind_eq_some_iff.mp hplay
          obtain ⟨rs', hrs'⟩ := ih hrest
          refine ⟨r :: rs', ?_⟩
          simp only [Prog.bind, Prog.play, hv, Option.bind_some]
          exact hrs'

end Ends

section Located

variable {Op' ι : Type*}

/-- The program with its operations renamed. -/
def located (f : Op → Op') : Prog (fun _ : Op => Ans) α → Prog (fun _ : Op' => Ans) α
  | .ret a => .ret a
  | .ask o next => .ask (f o) fun r => (next r).located f

/-- The renamed operations act on the state at `i` as the operations did. -/
theorem Ensures.located [DecidableEq ι] {serve' : (ι → σ) → Op' → Ans → Option (ι → σ)}
    {f : Op → Op'} {i : ι} {w : ι → σ} {p : Prog (fun _ : Op => Ans) α}
    (hserve : ∀ w o r, serve' w (f o) r = (serve (w i) o r).map (Function.update w i))
    (h : Ensures serve C Q (w i) p) :
    Ensures serve' (fun w' => ∃ s, w' = Function.update w i s ∧ C s)
      (fun a w' => ∃ s, w' = Function.update w i s ∧ Q a s) w (p.located f) := by
  induction p generalizing w with
  | ret a =>
      have hself : w = Function.update w i (w i) := (Function.update_eq_self i w).symm
      exact ⟨⟨w i, hself, h.1⟩, w i, hself, h.2⟩
  | ask o next ih =>
      refine ⟨⟨w i, (Function.update_eq_self i w).symm, h.1⟩, ?_⟩
      intro r w' hw'
      rw [hserve] at hw'
      obtain ⟨t, ht, rfl⟩ := Option.map_eq_some_iff.mp hw'
      have hrest : Ensures serve C Q (Function.update w i t i) (next r) := by
        rw [Function.update_self]
        exact h.2 r t ht
      have hlocated := ih r hrest
      simp only [Function.update_idem] at hlocated
      exact hlocated

end Located

end Interaction.Prog
