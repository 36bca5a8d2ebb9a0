import Mathlib.Data.List.Infix

/-!
# Lists that grow at the end

A log or a history only gets longer: what it has at an index it keeps there, and after one more
element an index is an old one or that of the element. In a list of things that go on, one of them
is replaced by its next state.
-/

namespace Growth

variable {α : Type*} {l l' : List α} {x y : α} {i : ℕ}

theorem getElem?_of_prefix (h : l <+: l') (hx : l[i]? = some x) : l'[i]? = some x := by
  obtain ⟨rest, rfl⟩ := h
  rw [List.getElem?_append_left (List.getElem?_eq_some_iff.mp hx).1, hx]

theorem getElem?_append_cases (h : (l ++ l')[i]? = some y) :
    l[i]? = some y ∨ ∃ k, i = l.length + k ∧ l'[k]? = some y := by
  by_cases hlt : i < l.length
  · rw [List.getElem?_append_left hlt] at h
    exact Or.inl h
  · rw [List.getElem?_append_right (Nat.le_of_not_lt hlt)] at h
    exact Or.inr ⟨i - l.length, (Nat.add_sub_cancel' (Nat.le_of_not_lt hlt)).symm, h⟩

theorem getElem?_concat_cases (h : (l ++ [x])[i]? = some y) :
    (i < l.length ∧ l[i]? = some y) ∨ (i = l.length ∧ y = x) := by
  rcases Nat.lt_trichotomy i l.length with hlt | heq | hgt
  · rw [List.getElem?_append_left hlt] at h
    exact Or.inl ⟨hlt, h⟩
  · rw [heq, List.getElem?_concat_length, Option.some.injEq] at h
    exact Or.inr ⟨heq, h.symm⟩
  · rw [List.getElem?_eq_none (by simpa using Nat.succ_le_of_lt hgt)] at h
    cases h

theorem getElem?_set_cases {j : ℕ} (h : (l.set j x)[i]? = some y) :
    (i = j ∧ y = x) ∨ (i ≠ j ∧ l[i]? = some y) := by
  by_cases hij : j = i
  · subst hij
    have hlt := (List.getElem?_eq_some_iff.mp h).1
    rw [List.length_set] at hlt
    rw [List.getElem?_set_self hlt] at h
    exact Or.inl ⟨rfl, (Option.some.inj h).symm⟩
  · rw [List.getElem?_set_ne hij] at h
    exact Or.inr ⟨Ne.symm hij, h⟩

/-- A list is a part of another one if its elements are, and an element stands behind the earlier
ones wherever the other list has it. -/
theorem sublist_of_pairwise (hsub : l ⊆ l')
    (hl : l.Pairwise fun x y => ∀ k, l'[k]? = some y → x ∈ l'.take k) : l.Sublist l' := by
  induction l' using List.reverseRecOn generalizing l with
  | nil => rw [List.subset_nil.mp hsub]
  | append_singleton l' z ih =>
    -- the order in the shorter list is the one in the longer list
    have hshort {l : List α} (hl : l.Pairwise fun x y => ∀ k, (l' ++ [z])[k]? = some y →
        x ∈ (l' ++ [z]).take k) : l.Pairwise fun x y => ∀ k, l'[k]? = some y → x ∈ l'.take k := by
      refine hl.imp fun hxy k hk => ?_
      have hlt := (List.getElem?_eq_some_iff.mp hk).1
      have hx := hxy k (by rw [List.getElem?_append_left hlt, hk])
      rwa [List.take_append_of_le_length hlt.le] at hx
    rcases List.eq_nil_or_concat l with rfl | ⟨m, y, rfl⟩
    · exact List.nil_sublist _
    rw [List.concat_eq_append] at hsub hl ⊢
    obtain ⟨hm, -, hmy⟩ := List.pairwise_append.mp hl
    obtain ⟨k, hk⟩ := List.getElem?_of_mem (hsub (List.mem_append_right m List.mem_cons_self))
    have hfirst : m ⊆ l' := by
      intro x hx
      have hx := hmy x hx y List.mem_cons_self k hk
      have hlt := (List.getElem?_eq_some_iff.mp hk).1
      rw [List.length_append, List.length_singleton] at hlt
      rw [List.take_append_of_le_length (by omega)] at hx
      exact List.mem_of_mem_take hx
    rcases getElem?_concat_cases hk with ⟨-, hy⟩ | ⟨-, rfl⟩
    · refine (ih (List.append_subset.mpr ⟨hfirst, ?_⟩) (hshort hl)).trans
        (List.sublist_append_left l' [z])
      exact List.cons_subset.mpr ⟨List.mem_of_getElem? hy, List.nil_subset _⟩
    · exact (ih hfirst (hshort hm)).append_right [y]

end Growth
