import Mathlib.Data.List.Basic
import Mathlib.Logic.Relation

/-!
# Walking by listing

A place is listed, and some of the entries that it shows are places to be listed in their turn.
`walk list enter n a` collects the entries shown on a walk from `a`, down to depth `n`, and
`ends list enter n a` says that no place is left to be listed at that depth, so that the walk is
over. A walk that ends lists no place inside itself (`not_transGen_of_ends`), and going deeper
shows nothing more (`walk_eq_of_ends`).
-/

namespace Traversal

variable {α β : Type*} (list : α → List β) (enter : β → Option α)

def walk : ℕ → α → List β
  | 0, _ => []
  | n + 1, a => (list a).flatMap fun b => b :: (enter b).elim [] (walk n)

def ends : ℕ → α → Bool
  | 0, _ => false
  | n + 1, a => (list a).all fun b => (enter b).elim true (ends n)

/-- The second place is shown in the first one. -/
def Inside (a a' : α) : Prop := ∃ b ∈ list a, enter b = some a'

variable {list enter} {a a' : α} {n m : ℕ}

theorem ends_of_inside (h : ends list enter (n + 1) a = true) (hin : Inside list enter a a') :
    ends list enter n a' = true := by
  obtain ⟨b, hb, henter⟩ := hin
  have := List.all_eq_true.mp h b hb
  rwa [henter] at this

theorem ends_succ (h : ends list enter n a = true) : ends list enter (n + 1) a = true := by
  induction n generalizing a with
  | zero => cases h
  | succ n ih =>
      refine List.all_eq_true.mpr fun b hb => ?_
      cases henter : enter b with
      | none => rfl
      | some a' => exact ih (ends_of_inside h ⟨b, hb, henter⟩)

theorem ends_mono (h : ends list enter n a = true) (hnm : n ≤ m) : ends list enter m a = true := by
  induction hnm with
  | refl => exact h
  | step _ ih => exact ends_succ ih

theorem walk_succ_of_ends (h : ends list enter n a = true) :
    walk list enter (n + 1) a = walk list enter n a := by
  induction n generalizing a with
  | zero => cases h
  | succ n ih =>
      rw [walk, walk, List.flatMap_congr]
      intro b hb
      cases henter : enter b with
      | none => rfl
      | some a' => exact congrArg (b :: ·) (ih (ends_of_inside h ⟨b, hb, henter⟩))

theorem walk_of_le (h : ends list enter n a = true) (hnm : n ≤ m) :
    walk list enter m a = walk list enter n a := by
  induction hnm with
  | refl => rfl
  | step hle ih => rw [walk_succ_of_ends (ends_mono h hle), ih]

/-- A walk that is over does not depend on its depth. -/
theorem walk_eq_of_ends (h : ends list enter n a = true) (h' : ends list enter m a = true) :
    walk list enter n a = walk list enter m a := by
  rcases Nat.le_total n m with hle | hle
  · exact (walk_of_le h hle).symm
  · exact walk_of_le h' hle

theorem exists_ends_lt (h : ends list enter n a = true)
    (hin : Relation.TransGen (Inside list enter) a a') : ∃ m < n, ends list enter m a' = true := by
  induction hin with
  | single hin =>
      cases n with
      | zero => cases h
      | succ n => exact ⟨n, Nat.lt_succ_self n, ends_of_inside h hin⟩
  | tail _ hin ih =>
      obtain ⟨m, hm, hends⟩ := ih
      cases m with
      | zero => cases hends
      | succ m => exact ⟨m, by omega, ends_of_inside hends hin⟩

/-- A walk that ends lists no place inside itself. -/
theorem not_transGen_of_ends (h : ends list enter n a = true)
    (hreach : Relation.ReflTransGen (Inside list enter) a a') :
    ¬Relation.TransGen (Inside list enter) a' a' := by
  intro hin
  obtain ⟨m, hends⟩ : ∃ m, ends list enter m a' = true := by
    rcases Relation.reflTransGen_iff_eq_or_transGen.mp hreach with rfl | hreach
    · exact ⟨n, h⟩
    · obtain ⟨m, -, hends⟩ := exists_ends_lt h hreach
      exact ⟨m, hends⟩
  -- the walk from the place itself would end ever earlier
  induction m using Nat.strongRecOn with
  | ind m ih =>
      obtain ⟨k, hk, hk'⟩ := exists_ends_lt hends hin
      exact ih k hk hk'

/-- What a walk shows is shown in a place that it lists. -/
theorem exists_of_mem_walk {b : β} (hb : b ∈ walk list enter n a) :
    ∃ a', Relation.ReflTransGen (Inside list enter) a a' ∧ b ∈ list a' := by
  induction n generalizing a with
  | zero => cases hb
  | succ n ih =>
      obtain ⟨c, hc, hbc⟩ := List.mem_flatMap.mp hb
      rcases List.mem_cons.mp hbc with rfl | hbc
      · exact ⟨a, .refl, hc⟩
      · cases henter : enter c with
        | none =>
            rw [henter] at hbc
            cases hbc
        | some a' =>
            rw [henter] at hbc
            obtain ⟨a'', hreach, hmem⟩ := ih hbc
            exact ⟨a'', .head ⟨c, hc, henter⟩ hreach, hmem⟩

end Traversal
