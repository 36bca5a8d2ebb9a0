import Mathlib.Data.List.Infix
import Mathlib.Data.List.TakeDrop
import VaultFS.Growth.Basic

/-!
# Agreement of two logs on a range of positions

A log is a list whose entries carry a term. `Agree a b l₁ l₂` says that the two
lists have the same thing, an entry or nothing, at every position in `[a, b)`.
Stating everything about logs through it avoids take and drop arithmetic: a
common prefix of length `n` is agreement on `[0, n)`, and a log that matches
another one only above some position is agreement on `[f, n)`.

`termAt l n` is the term at the one-based index `n`, with term zero at index
zero, and `lastTerm` the term at the end.
-/

namespace ReplicatedLog

/-- Entries that carry the term in which they were created. -/
class HasTerm (ε : Type*) where
  termOf : ε → ℕ

export HasTerm (termOf)

/-- The two lists have the same thing at every position in `[a, b)`. -/
def Agree {ε : Type*} (a b : ℕ) (l₁ l₂ : List ε) : Prop :=
  ∀ j, a ≤ j → j < b → l₁[j]? = l₂[j]?

namespace Agree

variable {ε : Type*} {a b c n : ℕ} {l l₁ l₂ l₃ : List ε}

theorem refl (a b : ℕ) (l : List ε) : Agree a b l l := fun _ _ _ => rfl

theorem symm (h : Agree a b l₁ l₂) : Agree a b l₂ l₁ := fun j hj hb => (h j hj hb).symm

theorem trans (h₁ : Agree a b l₁ l₂) (h₂ : Agree a b l₂ l₃) : Agree a b l₁ l₃ :=
  fun j hj hb => (h₁ j hj hb).trans (h₂ j hj hb)

theorem mono {a' b' : ℕ} (h : Agree a b l₁ l₂) (ha : a ≤ a') (hb : b' ≤ b) :
    Agree a' b' l₁ l₂ :=
  fun j hj hb' => h j (ha.trans hj) (hb'.trans_le hb)

theorem empty (h : b ≤ a) : Agree a b l₁ l₂ := by
  intro j hj hb
  omega

/-- Agreement on two adjacent ranges. -/
theorem join (h₁ : Agree a b l₁ l₂) (h₂ : Agree b c l₁ l₂) : Agree a c l₁ l₂ := by
  intro j hj hc
  by_cases hb : j < b
  · exact h₁ j hj hb
  · exact h₂ j (Nat.le_of_not_lt hb) hc

theorem of_isPrefix (h : l₁ <+: l₂) : Agree 0 l₁.length l₁ l₂ := by
  intro j _ hj
  obtain ⟨t, rfl⟩ := h
  rw [List.getElem?_append_left hj]

/-- Growing the second list keeps agreement inside its old length. -/
theorem extend (h : Agree a b l₁ l₂) (hb : b ≤ l₂.length) (hpre : l₂ <+: l₃) :
    Agree a b l₁ l₃ :=
  h.trans ((of_isPrefix hpre).mono (Nat.zero_le a) hb)

/-- Growing the second list keeps agreement inside the length of the first. -/
theorem extend_left (h : Agree a b l₁ l₂) (hb : b ≤ l₁.length) (hpre : l₂ <+: l₃) :
    Agree a b l₁ l₃ := by
  intro j hj hjb
  have hsome := h j hj hjb
  have hlt : j < l₂.length := by
    by_contra hge
    rw [List.getElem?_eq_none (Nat.le_of_not_lt hge),
      List.getElem?_eq_getElem (hjb.trans_le hb)] at hsome
    cases hsome
  rw [hsome]
  exact of_isPrefix hpre j (Nat.zero_le j) hlt

theorem length_le (h : Agree 0 n l₁ l₂) (hn : n ≤ l₁.length) : n ≤ l₂.length := by
  by_contra hlt
  have hj := h l₂.length (Nat.zero_le _) (Nat.lt_of_not_le hlt)
  rw [List.getElem?_eq_none (le_refl _)] at hj
  have := List.getElem?_eq_none_iff.mp hj
  omega

theorem of_take (l : List ε) (n : ℕ) : Agree 0 n (l.take n) l := by
  intro j _ hj
  rw [List.getElem?_take, if_pos hj]

/-- Replacing the first `s` entries by those of another list. -/
theorem getElem?_splice {s : ℕ} (hs : s ≤ l₂.length) (j : ℕ) :
    (l₂.take s ++ l₁.drop s)[j]? = if j < s then l₂[j]? else l₁[j]? := by
  have hlen : (l₂.take s).length = s := by simp [hs]
  by_cases hj : j < s
  · rw [if_pos hj, List.getElem?_append_left (by omega), List.getElem?_take, if_pos hj]
  · rw [if_neg hj, List.getElem?_append_right (by omega), List.getElem?_drop, hlen]
    congr 1
    omega

theorem take_eq (h : Agree 0 n l₁ l₂) : l₁.take n = l₂.take n := by
  apply List.ext_getElem?
  intro j
  rw [List.getElem?_take, List.getElem?_take]
  split
  · exact h j (Nat.zero_le j) ‹_›
  · rfl

end Agree

section Common

variable {ε : Type*} [DecidableEq ε]

/-- The length of the longest common beginning of two logs. -/
def common : List ε → List ε → ℕ
  | x :: l₁, y :: l₂ => if x = y then common l₁ l₂ + 1 else 0
  | _, _ => 0

theorem Agree.common (l₁ l₂ : List ε) : Agree 0 (common l₁ l₂) l₁ l₂ := by
  induction l₁ generalizing l₂ with
  | nil => exact Agree.empty (Nat.zero_le 0)
  | cons x l₁ ih =>
      cases l₂ with
      | nil => exact Agree.empty (Nat.zero_le 0)
      | cons y l₂ =>
          rw [ReplicatedLog.common]
          split
          · rename_i heq
            intro j _ hj
            cases j with
            | zero => simp [heq]
            | succ j => simpa using ih l₂ j (Nat.zero_le j) (Nat.lt_of_succ_lt_succ hj)
          · exact Agree.empty (Nat.zero_le 0)

/-- What two logs agree on is part of their longest common beginning. -/
theorem Agree.le_common {n : ℕ} {l₁ l₂ : List ε} (h : Agree 0 n l₁ l₂) (hn : n ≤ l₁.length) :
    n ≤ ReplicatedLog.common l₁ l₂ := by
  induction l₁ generalizing l₂ n with
  | nil => exact hn.trans (Nat.zero_le _)
  | cons x l₁ ih =>
      cases n with
      | zero => exact Nat.zero_le _
      | succ n =>
          have hhead := h 0 le_rfl (Nat.succ_pos n)
          cases l₂ with
          | nil => cases hhead
          | cons y l₂ =>
              rw [ReplicatedLog.common, if_pos (Option.some.inj hhead)]
              refine Nat.succ_le_succ (ih (fun j _ hj => ?_) (Nat.le_of_succ_le_succ hn))
              simpa using h (j + 1) (Nat.zero_le _) (Nat.succ_lt_succ hj)

end Common

section Terms

variable {ε : Type*} [HasTerm ε]

/-- The term at the one-based index `n`; index zero has term zero. -/
def termAt (l : List ε) : ℕ → Option ℕ
  | 0 => some 0
  | k + 1 => l[k]?.map termOf

/-- The term of the last entry, zero for an empty log. -/
def lastTerm (l : List ε) : ℕ := (l.getLast?.map termOf).getD 0

@[simp] theorem termAt_zero (l : List ε) : termAt l 0 = some 0 := rfl

theorem termAt_succ_eq_some {l : List ε} {k t : ℕ} :
    termAt l (k + 1) = some t ↔ ∃ e, l[k]? = some e ∧ termOf e = t := by
  simp [termAt, Option.map_eq_some_iff]

/-- A positive term is found at a positive index inside the log. -/
theorem termAt_pos {l : List ε} {n t : ℕ} (h : termAt l n = some t) (ht : 0 < t) :
    ∃ k e, n = k + 1 ∧ l[k]? = some e ∧ termOf e = t := by
  cases n with
  | zero =>
      simp only [termAt_zero, Option.some.injEq] at h
      omega
  | succ k =>
      obtain ⟨e, he, het⟩ := termAt_succ_eq_some.mp h
      exact ⟨k, e, rfl, he, het⟩

theorem termAt_le_length {l : List ε} {n t : ℕ} (h : termAt l n = some t) :
    n ≤ l.length := by
  cases n with
  | zero => exact Nat.zero_le _
  | succ k =>
      obtain ⟨e, he, _⟩ := termAt_succ_eq_some.mp h
      exact (List.getElem?_eq_some_iff.mp he).1

theorem exists_termAt {l : List ε} {n : ℕ} (h : n ≤ l.length) : ∃ t, termAt l n = some t := by
  cases n with
  | zero => exact ⟨0, rfl⟩
  | succ k =>
      exact ⟨_, termAt_succ_eq_some.mpr ⟨_, List.getElem?_eq_getElem (Nat.lt_of_succ_le h), rfl⟩⟩

theorem termAt_congr {l₁ l₂ : List ε} {m n : ℕ} (h : Agree 0 m l₁ l₂) (hn : n ≤ m) :
    termAt l₁ n = termAt l₂ n := by
  cases n with
  | zero => rfl
  | succ k => rw [termAt, termAt, h k (Nat.zero_le k) hn]

/-- Logs with different terms at an index have less than that in common. -/
theorem common_lt_of_termAt_ne [DecidableEq ε] {l₁ l₂ : List ε} {n : ℕ}
    (h : termAt l₁ n ≠ termAt l₂ n) : common l₁ l₂ < n := by
  by_contra hle
  exact h (termAt_congr (Agree.common l₁ l₂) (Nat.le_of_not_lt hle))

theorem termAt_of_isPrefix {l₁ l₂ : List ε} {n t : ℕ} (h : termAt l₁ n = some t)
    (hpre : l₁ <+: l₂) : termAt l₂ n = some t := by
  rw [← termAt_congr (Agree.of_isPrefix hpre) (termAt_le_length h), h]

theorem termAt_length (l : List ε) : termAt l l.length = some (lastTerm l) := by
  cases h : l.length with
  | zero =>
      have hnil : l = [] := List.length_eq_zero_iff.mp h
      simp [hnil, lastTerm]
  | succ k =>
      have hlast : l.getLast? = l[k]? := by rw [List.getLast?_eq_getElem?, h, Nat.add_sub_cancel]
      obtain ⟨e, he⟩ : ∃ e, l[k]? = some e :=
        ⟨l[k], List.getElem?_eq_getElem (by omega)⟩
      simp [termAt, lastTerm, hlast, he]

end Terms

end ReplicatedLog
