import VaultFS.Interaction.Basic

/-!
# Programs that carry an abstract state along

`Prog.Traces serve P G Q g s p` follows a program `p` from the state `s` beside an abstract state
`g`. Whatever the answers, `P` holds of both wherever the program asks for an operation, the
abstract state moves as `G` allows for the operation, and `Q` holds when the program ends. The
abstract state is not part of the system: it is found along the proof.
-/

namespace Interaction.Prog

variable {Op Ans α β σ γ : Type*}

def Traces (serve : σ → Op → Ans → Option σ) (P : γ → σ → Op → Prop) (G : γ → Op → γ → Prop)
    (Q : α → γ → σ → Prop) : γ → σ → Prog (fun _ : Op => Ans) α → Prop
  | g, s, .ret a => Q a g s
  | g, s, .ask o next => P g s o ∧ ∀ r t, serve s o r = some t →
      ∃ g', G g o g' ∧ Traces serve P G Q g' t (next r)

variable {serve : σ → Op → Ans → Option σ} {P : γ → σ → Op → Prop} {G : γ → Op → γ → Prop}
  {Q : α → γ → σ → Prop} {g : γ} {s : σ}

namespace Traces

theorem ret {a : α} (h : Q a g s) : Traces serve P G Q g s (.ret a) := h

theorem op {o : Op} {Q : Ans → γ → σ → Prop} (hp : P g s o)
    (h : ∀ r t, serve s o r = some t → ∃ g', G g o g' ∧ Q r g' t) :
    Traces serve P G Q g s (.op o) :=
  ⟨hp, h⟩

theorem bind {R : β → γ → σ → Prop} {p : Prog (fun _ : Op => Ans) α}
    {f : α → Prog (fun _ : Op => Ans) β} (hp : Traces serve P G Q g s p)
    (hf : ∀ a g t, Q a g t → Traces serve P G R g t (f a)) :
    Traces serve P G R g s (p.bind f) := by
  induction p generalizing g s with
  | ret a => exact hf a g s hp
  | ask o next ih =>
      refine ⟨hp.1, ?_⟩
      intro r t hr
      obtain ⟨g', hg, hnext⟩ := hp.2 r t hr
      exact ⟨g', hg, ih r hnext⟩

end Traces

end Interaction.Prog
