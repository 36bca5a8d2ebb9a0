import Mathlib.Data.Option.Basic

/-!
# Writes to a cell

A cell holds a value or nothing. A write sets it whatever it holds, or fills it when it holds
nothing, or leaves it. A run of writes is then of one of two kinds (`run_const_or_fill`), so
that running the same writes twice on an empty cell is running them once (`run_run_none`).
-/

namespace Cell

inductive Write (ν : Type*) where
  | keep
  | fill (v : ν)
  | set (c : Option ν)

variable {ν : Type*}

def Write.apply : Write ν → Option ν → Option ν
  | .keep, c => c
  | .fill v, c => c <|> some v
  | .set c, _ => c

def run (ws : List (Write ν)) (c : Option ν) : Option ν := ws.foldl (fun c w => w.apply c) c

@[simp] theorem run_nil (c : Option ν) : run [] c = c := rfl

@[simp] theorem run_cons (w : Write ν) (ws : List (Write ν)) (c : Option ν) :
    run (w :: ws) c = run ws (w.apply c) := rfl

/-- A run either forgets what the cell held or fills it. -/
theorem run_const_or_fill (ws : List (Write ν)) :
    (∀ c, run ws c = run ws none) ∨ ∀ c, run ws c = (c <|> run ws none) := by
  induction ws with
  | nil =>
      refine Or.inr fun c => ?_
      cases c with
      | none => rfl
      | some v => rfl
  | cons w ws ih =>
      cases w with
      | keep => exact ih
      | set c => exact Or.inl fun _ => rfl
      | fill v =>
          rcases ih with hconst | hfill
          · exact Or.inl fun c => (hconst _).trans (hconst _).symm
          · refine Or.inr fun c => ?_
            cases c with
            | none => rfl
            | some u => exact hfill (some u)

/-- Writes can be run again. -/
theorem run_run_none (ws : List (Write ν)) : run ws (run ws none) = run ws none := by
  rcases run_const_or_fill ws with hconst | hfill
  · exact hconst _
  · rw [hfill]
    cases run ws none with
    | none => rfl
    | some v => rfl

end Cell
