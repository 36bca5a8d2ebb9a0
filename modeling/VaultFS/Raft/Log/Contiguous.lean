import VaultFS.Raft.Log.Basic
import VaultFS.Raft.Node.Replication

/-!
# Keeping the log contiguous

Every operation of the log keeps it contiguous when it is given entries that
continue it. The loop of `HandleAppendEntries` does not always do that: an entry
whose index is below the snapshot cannot be looked up, and the handler then
appends it as if it were missing at the end. `clearLookups` says that this does
not happen.
-/

namespace VaultFS

namespace Raft

/-- The entries carry the indices from `s` on. -/
def Consecutive (s : ℕ) (es : List Entry) : Prop :=
  ∀ k e, es[k]? = some e → e.index = s + k

namespace Consecutive

variable {s : ℕ} {e : Entry} {es es' : List Entry}

theorem nil (s : ℕ) : Consecutive s [] := by
  intro k e he
  simp at he

theorem head (h : Consecutive s (e :: es)) : e.index = s := h 0 e rfl

theorem tail (h : Consecutive s (e :: es)) : Consecutive (s + 1) es := by
  intro k e' he'
  have := h (k + 1) e' (by simpa using he')
  omega

theorem append (h : Consecutive s es) (h' : Consecutive (s + es.length) es') :
    Consecutive s (es ++ es') := by
  intro k e he
  by_cases hk : k < es.length
  · rw [List.getElem?_append_left hk] at he
    exact h k e he
  · rw [List.getElem?_append_right (Nat.le_of_not_lt hk)] at he
    have := h' _ e he
    omega

theorem take (h : Consecutive s es) (n : ℕ) : Consecutive s (es.take n) := by
  intro k e he
  rw [List.getElem?_take] at he
  split at he
  · exact h k e he
  · cases he

theorem drop (h : Consecutive s es) (n : ℕ) : Consecutive (s + n) (es.drop n) := by
  intro k e he
  rw [List.getElem?_drop] at he
  have := h _ e he
  omega

end Consecutive

namespace RaftLog

variable {l : RaftLog}

theorem contiguous_iff : l.Contiguous ↔ Consecutive (l.snapIndex + 1) l.entries := Iff.rfl

theorem Contiguous.lastIndex (h : l.Contiguous) :
    l.lastIndex = l.snapIndex + l.entries.length := by
  unfold RaftLog.lastIndex
  cases hlast : l.entries.getLast? with
  | none => simp [List.getLast?_eq_none_iff.mp hlast]
  | some e =>
      rw [List.getLast?_eq_getElem?] at hlast
      have hindex := h _ e hlast
      have hlt := (List.getElem?_eq_some_iff.mp hlast).1
      simp only
      omega

theorem Contiguous.setSnapshot (h : l.Contiguous) (index term : ℕ) :
    (l.setSnapshot index term).Contiguous := by
  unfold RaftLog.setSnapshot
  split
  · exact h
  · rename_i hlt
    simp only [contiguous_iff]
    split
    · exact .nil _
    · have hdrop := Consecutive.drop h (index - l.snapIndex)
      rwa [show l.snapIndex + 1 + (index - l.snapIndex) = index + 1 by omega] at hdrop

theorem Contiguous.append (h : l.Contiguous) {es : List Entry}
    (hes : Consecutive (l.snapIndex + l.entries.length + 1) es) : (l.append es).Contiguous := by
  rw [Nat.add_right_comm] at hes
  exact Consecutive.append h hes

theorem Contiguous.slice (h : l.Contiguous) (lo hi : ℕ) : Consecutive lo (l.slice lo hi) := by
  unfold RaftLog.slice
  split
  · exact .nil _
  · rename_i hc
    simp only
    split
    · exact .nil _
    · have hdrop := (Consecutive.take h (min (hi - l.snapIndex - 1) l.entries.length)).drop
        (lo - l.snapIndex - 1)
      rwa [show l.snapIndex + 1 + (lo - l.snapIndex - 1) = lo by omega] at hdrop

theorem intrude_cases (l : RaftLog) (x : Option Intrusion) (k : ℕ) :
    l.intrude x k = l ∨ ∃ y ∈ x, l.intrude x k = l.setSnapshot y.index y.term := by
  unfold RaftLog.intrude
  cases x with
  | none => exact Or.inl rfl
  | some y =>
      simp only
      split
      · exact Or.inr ⟨y, rfl, rfl⟩
      · exact Or.inl rfl

theorem Contiguous.intrude (h : l.Contiguous) (x : Option Intrusion) (k : ℕ) :
    (l.intrude x k).Contiguous := by
  rcases l.intrude_cases x k with heq | ⟨y, -, heq⟩
  · rwa [heq]
  · rw [heq]
    exact h.setSnapshot _ _

/-- Compacting a log does not move its end backwards. -/
theorem setSnapshot_end_le (l : RaftLog) (index term : ℕ) :
    l.snapIndex + l.entries.length ≤
      (l.setSnapshot index term).snapIndex + (l.setSnapshot index term).entries.length := by
  unfold RaftLog.setSnapshot
  split
  · exact le_rfl
  · simp only
    split
    · simp only [List.length_nil]
      omega
    · rw [List.length_drop]
      omega

theorem setSnapshot_cases (l : RaftLog) (index term : ℕ) :
    (index ≤ l.snapIndex ∧ l.setSnapshot index term = l) ∨
      (l.snapIndex < index ∧ (l.setSnapshot index term).snapIndex = index ∧
        (l.setSnapshot index term).snapTerm = term) := by
  unfold RaftLog.setSnapshot
  split
  · exact Or.inl ⟨‹_›, rfl⟩
  · exact Or.inr ⟨Nat.lt_of_not_le ‹_›, rfl, rfl⟩

theorem snapIndex_setSnapshot (l : RaftLog) (index term : ℕ) :
    (l.setSnapshot index term).snapIndex = max l.snapIndex index := by
  unfold RaftLog.setSnapshot
  split
  · omega
  · simp only
    omega

/-- The snapshot of `l'` is that of `l`, or a later one that `x` records. -/
def SnapFrom (x : Option Intrusion) (l l' : RaftLog) : Prop :=
  (l'.snapIndex = l.snapIndex ∧ l'.snapTerm = l.snapTerm) ∨
    ∃ y ∈ x, l.snapIndex < y.index ∧ l'.snapIndex = y.index ∧ l'.snapTerm = y.term

namespace SnapFrom

variable {x : Option Intrusion} {l' l'' : RaftLog}

theorem refl (x : Option Intrusion) (l : RaftLog) : SnapFrom x l l := Or.inl ⟨rfl, rfl⟩

theorem trans (h : SnapFrom x l l') (h' : SnapFrom x l' l'') : SnapFrom x l l'' := by
  rcases h' with ⟨hindex, hterm⟩ | ⟨y, hy, hlt, hpair⟩
  · unfold SnapFrom
    rwa [hindex, hterm]
  · refine Or.inr ⟨y, hy, ?_, hpair⟩
    rcases h with ⟨hindex, -⟩ | ⟨y', -, hlt', hindex, -⟩
    · rwa [← hindex]
    · omega

theorem setSnapshot (l : RaftLog) {y : Intrusion} (hy : y ∈ x) :
    SnapFrom x l (l.setSnapshot y.index y.term) := by
  rcases l.setSnapshot_cases y.index y.term with ⟨-, heq⟩ | hnew
  · rw [heq]
    exact refl x l
  · exact Or.inr ⟨y, hy, hnew⟩

theorem intrude (x : Option Intrusion) (l : RaftLog) (k : ℕ) : SnapFrom x l (l.intrude x k) := by
  rcases l.intrude_cases x k with heq | ⟨y, hy, heq⟩
  · rw [heq]
    exact refl x l
  · rw [heq]
    exact setSnapshot l hy

theorem le (h : SnapFrom x l l') : l.snapIndex ≤ l'.snapIndex := by
  rcases h with ⟨hindex, -⟩ | ⟨y, -, hlt, hindex, -⟩
  · exact hindex.ge
  · omega

theorem le_of (h : SnapFrom x l l') {c : ℕ} (hl : l.snapIndex ≤ c) (hx : ∀ y ∈ x, y.index ≤ c) :
    l'.snapIndex ≤ c := by
  rcases h with ⟨hindex, -⟩ | ⟨y, hy, -, hindex, -⟩
  · rwa [hindex]
  · exact hindex.le.trans (hx y hy)

end SnapFrom

theorem intrude_end_le (l : RaftLog) (x : Option Intrusion) (k : ℕ) :
    l.snapIndex + l.entries.length ≤
      (l.intrude x k).snapIndex + (l.intrude x k).entries.length := by
  rcases l.intrude_cases x k with heq | ⟨y, -, heq⟩
  · rw [heq]
  · rw [heq]
    exact setSnapshot_end_le l _ _

/-- A lookup above the snapshot succeeds exactly inside the log. -/
theorem term_of_lt {index : ℕ} (h : l.snapIndex < index) :
    l.term index = match l.entries[index - l.snapIndex - 1]? with
      | none => .error (.indexNotFound index)
      | some e => .ok e.term := by
  unfold RaftLog.term
  rw [if_neg (by omega), if_neg (by omega)]
  exact if_neg (by omega)

theorem term_snapIndex (h : 0 < l.snapIndex) : l.term l.snapIndex = .ok l.snapTerm := by
  rw [RaftLog.term, if_neg (by omega), if_pos rfl]

/-- An index with a term is not behind the end of the log. -/
theorem le_end_of_term {index t : ℕ} (h : l.term index = .ok t) :
    index ≤ l.snapIndex + l.entries.length := by
  by_cases hlt : l.snapIndex < index
  · rw [term_of_lt hlt] at h
    cases he : l.entries[index - l.snapIndex - 1]? with
    | none => simp [he] at h
    | some e =>
        have := (List.getElem?_eq_some_iff.mp he).1
        omega
  · omega

end RaftLog

namespace Node

/-- No entry that the loop of `HandleAppendEntries` looks up lies below the
snapshot, or at its last index with another term. -/
def clearLookups (x : Option Intrusion) : ℕ → RaftLog → List Entry → Bool
  | _, _, [] => true
  | k, l, e :: es =>
      let l := l.intrude x k
      decide (l.snapIndex < e.index ∨ (l.snapIndex = e.index ∧ l.snapTerm = e.term)) &&
        match l.term e.index with
        | .error _ => true
        | .ok existingTerm =>
            if existingTerm ≠ e.term then true else clearLookups x (k + 1) l es

theorem contiguous_appendNew {x : Option Intrusion} {k s : ℕ} {l : RaftLog} {es : List Entry}
    (hl : l.Contiguous) (hes : Consecutive s es) (hpos : 0 < s)
    (hs : s ≤ l.snapIndex + l.entries.length + 1)
    (hclear : clearLookups x k l es = true) : (appendNew x k l es).Contiguous := by
  induction es generalizing k l s with
  | nil => exact hl
  | cons e es ih =>
      have hl' := hl.intrude x k
      have hend := l.intrude_end_le x k
      have hhead := hes.head
      simp only [clearLookups, Bool.and_eq_true, decide_eq_true_eq] at hclear
      obtain ⟨habove, hrest⟩ := hclear
      simp only [appendNew]
      generalize l.intrude x k = l' at hl' hend habove hrest ⊢
      cases ht : l'.term e.index with
      | error err =>
          -- the entry is the first one behind the end
          simp only
          refine hl'.append ?_
          rcases habove with hlt | ⟨heq, -⟩
          · have hbehind : l'.snapIndex + l'.entries.length < e.index := by
              by_contra hle
              rw [RaftLog.term_of_lt hlt, List.getElem?_eq_getElem (by omega)] at ht
              cases ht
            rwa [show l'.snapIndex + l'.entries.length + 1 = s by omega]
          · rw [← heq, RaftLog.term_snapIndex (by omega)] at ht
            cases ht
      | ok t =>
          have hin := RaftLog.le_end_of_term ht
          simp only
          split
          · rename_i hne
            rcases habove with hlt | ⟨heq, hterm⟩
            · have htrunc : l'.truncateAfter e.index =
                  { l' with entries := l'.entries.take (e.index - l'.snapIndex - 1) } := by
                rw [RaftLog.truncateAfter, if_neg (by omega)]
              have hl'' : (l'.truncateAfter e.index).Contiguous := by
                rw [htrunc]
                exact Consecutive.take hl' _
              refine hl''.append ?_
              simp only [htrunc, List.length_take]
              rwa [show l'.snapIndex + min (e.index - l'.snapIndex - 1) l'.entries.length + 1 = s
                by omega]
            · rw [← heq, RaftLog.term_snapIndex (by omega)] at ht
              exact absurd ((Except.ok.inj ht).symm.trans hterm) hne
          · rename_i heq
            simp only [ht, heq, if_false] at hrest
            exact ih hl' hes.tail (Nat.succ_pos s) (by omega) hrest

end Node

end Raft

end VaultFS
