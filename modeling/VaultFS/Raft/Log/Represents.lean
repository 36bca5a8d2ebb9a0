import VaultFS.Raft.Log.Contiguous
import VaultFS.ReplicatedLog.State

/-!
# A compacted log and the full log behind it

`Represents F l` says that `l` is what is left of the full log `F` after its
first `snapIndex` entries were compacted away. Every operation of the log is
described by what it does to `F`; compaction does nothing to it. That `snapTerm`
is the term that `F` has at `snapIndex` is not part of it (`Exact`): a node may
have got the two from a sender that read them at different times.
-/

namespace VaultFS

namespace Raft

open ReplicatedLog

instance : HasTerm Entry := ⟨Entry.term⟩

theorem termOf_entry (e : Entry) : termOf e = e.term := rfl

/-- The log is the full log without its first `snapIndex` entries. -/
structure Represents (F : List Entry) (l : RaftLog) : Prop where
  snap_le : l.snapIndex ≤ F.length
  entries : l.entries = F.drop l.snapIndex
  consecutive : Consecutive 1 F

/-- The snapshot's term is that of the full log. -/
def Exact (F : List Entry) (l : RaftLog) : Prop := termAt F l.snapIndex = some l.snapTerm

instance (F : List Entry) (l : RaftLog) : Decidable (Exact F l) :=
  inferInstanceAs (Decidable (_ = _))

theorem Exact.take_append {F : List Entry} {l l' : RaftLog} (h : Exact F l)
    (hindex : l'.snapIndex = l.snapIndex) (hterm : l'.snapTerm = l.snapTerm) (es : List Entry) :
    Exact (F.take l'.snapIndex ++ es) l' := by
  rw [Exact, hindex, hterm]
  refine termAt_of_isPrefix ?_ (List.prefix_append _ _)
  rw [termAt_congr (Agree.of_take _ _) le_rfl, h]

namespace Represents

variable {F F' : List Entry} {l : RaftLog}

theorem newRaftLog : Represents [] RaftLog.newRaftLog where
  snap_le := le_rfl
  entries := rfl
  consecutive := .nil 1

theorem end_eq (h : Represents F l) : l.snapIndex + l.entries.length = F.length := by
  have := h.snap_le
  rw [h.entries, List.length_drop]
  omega

theorem contiguous (h : Represents F l) : l.Contiguous := by
  rw [RaftLog.contiguous_iff, h.entries, Nat.add_comm]
  exact h.consecutive.drop _

theorem lastIndex (h : Represents F l) : l.lastIndex = F.length :=
  h.contiguous.lastIndex.trans h.end_eq

/-- The last term is that of the full log, or that of the snapshot when nothing is
left behind it. -/
theorem lastTerm (h : Represents F l) : l.lastTerm = ReplicatedLog.lastTerm F ∨
    l.snapIndex = F.length ∧ l.lastTerm = l.snapTerm := by
  unfold RaftLog.lastTerm
  cases he : l.entries.getLast? with
  | none =>
      have hnil := List.getLast?_eq_none_iff.mp he
      have hend := h.end_eq
      rw [hnil, List.length_nil, Nat.add_zero] at hend
      exact Or.inr ⟨hend, rfl⟩
  | some e =>
      rw [h.entries, List.getLast?_drop] at he
      split at he
      · cases he
      · exact Or.inl (by simp [ReplicatedLog.lastTerm, he, termOf_entry])

/-- A lookup that succeeds gives the term of the full log, or that of the snapshot. -/
theorem termAt_of_term (h : Represents F l) {index t : ℕ} (ht : l.term index = .ok t) :
    (termAt F index = some t ∧ (index = 0 ∨ l.snapIndex < index)) ∨
      (0 < index ∧ l.snapIndex = index ∧ l.snapTerm = t) := by
  unfold RaftLog.term at ht
  split at ht
  · rename_i h0
    rw [h0, ← Except.ok.inj ht]
    exact Or.inl ⟨rfl, Or.inl rfl⟩
  · rename_i h0
    split at ht
    · rename_i hsnap
      exact Or.inr ⟨Nat.pos_of_ne_zero h0, hsnap.symm, Except.ok.inj ht⟩
    · split at ht
      · cases ht
      · rename_i hlt
        cases he : l.entries[index - l.snapIndex - 1]? with
        | none => simp [he] at ht
        | some e =>
            simp only [he, Except.ok.injEq] at ht
            rw [h.entries, List.getElem?_drop] at he
            obtain ⟨k, rfl⟩ : ∃ k, index = k + 1 := ⟨index - 1, by omega⟩
            rw [show l.snapIndex + (k + 1 - l.snapIndex - 1) = k by omega] at he
            exact Or.inl ⟨termAt_succ_eq_some.mpr ⟨e, he, ht⟩, Or.inr (by omega)⟩

/-- If the snapshot's term is that of the full log, a lookup that succeeds gives the
term of the full log. -/
theorem termAt_of_exact (h : Represents F l) (hx : Exact F l) {index t : ℕ}
    (ht : l.term index = .ok t) : termAt F index = some t ∧ (index = 0 ∨ l.snapIndex ≤ index) := by
  rcases h.termAt_of_term ht with ⟨hF, hle⟩ | ⟨-, rfl, rfl⟩
  · exact ⟨hF, hle.imp_right le_of_lt⟩
  · exact ⟨hx, Or.inr le_rfl⟩

/-- A lookup above the snapshot that fails is behind the end. -/
theorem length_lt_of_error (h : Represents F l) {index : ℕ} {err : LogError}
    (ht : l.term index = .error err) (hlt : l.snapIndex < index) : F.length < index := by
  rw [RaftLog.term_of_lt hlt] at ht
  cases he : l.entries[index - l.snapIndex - 1]? with
  | none =>
      have := List.getElem?_eq_none_iff.mp he
      have := h.end_eq
      omega
  | some e => simp [he] at ht

/-- A snapshot leaves what the full log has behind it. -/
theorem setSnapshot_eq (h : Represents F l) {index : ℕ} (term : ℕ) (hlt : l.snapIndex < index) :
    l.setSnapshot index term = ⟨F.drop index, index, term⟩ := by
  have hend := h.end_eq
  unfold RaftLog.setSnapshot
  rw [if_neg (by omega)]
  simp only [RaftLog.mk.injEq, and_true]
  split
  · rw [List.drop_eq_nil_of_le (by omega)]
  · rw [h.entries, List.drop_drop]
    congr 1
    omega

/-- Compacting the log up to an index of the full log. -/
theorem setSnapshot (h : Represents F l) {index : ℕ} (hle : index ≤ F.length) (term : ℕ) :
    Represents F (l.setSnapshot index term) := by
  by_cases hlt : l.snapIndex < index
  · rw [h.setSnapshot_eq term hlt]
    exact ⟨hle, rfl, h.consecutive⟩
  · rw [RaftLog.setSnapshot, if_pos (by omega)]
    exact h

/-- Installing a snapshot of another log `L` replaces the beginning of the full log. -/
theorem splice (h : Represents F l) {L : List Entry} {index : ℕ}
    (hlt : l.snapIndex < index) (hL : Consecutive 1 (L.take index)) (hle : index ≤ L.length)
    (term : ℕ) : Represents (L.take index ++ F.drop index) (l.setSnapshot index term) := by
  have hlen : (L.take index).length = index := by simp [hle]
  rw [h.setSnapshot_eq term hlt]
  refine ⟨?_, ?_, ?_⟩
  · rw [List.length_append, hlen]
    exact Nat.le_add_right _ _
  · simp only
    rw [List.drop_left' hlen]
  · refine hL.append ?_
    rw [hlen]
    exact h.consecutive.drop index

theorem intrude (h : Represents F l) {x : Option Intrusion}
    (hx : ∀ y ∈ x, y.index ≤ F.length) (k : ℕ) : Represents F (l.intrude x k) := by
  rcases l.intrude_cases x k with heq | ⟨y, hy, heq⟩
  · rwa [heq]
  · rw [heq]
    exact h.setSnapshot (hx y hy) y.term

/-- What is left of the full log above the snapshot. -/
theorem slice (h : Represents F l) {lo : ℕ} (hlo : l.snapIndex < lo) :
    l.slice lo (l.lastIndex + 1) = F.drop (lo - 1) := by
  have hend := h.end_eq
  rw [h.lastIndex]
  unfold RaftLog.slice
  split
  · rw [List.drop_eq_nil_of_le (by omega)]
  · simp only
    split
    · rw [List.drop_eq_nil_of_le (by omega)]
    · rw [List.take_of_length_le (by omega), h.entries, List.drop_drop]
      congr 1
      omega

theorem length_slice (h : Represents F l) {lo hi : ℕ} (hlo : l.snapIndex < lo)
    (hhi : hi ≤ F.length + 1) : (l.slice lo hi).length = hi - lo := by
  have hend := h.end_eq
  unfold RaftLog.slice
  split
  · rw [List.length_nil]
    omega
  · simp only
    split
    · rw [List.length_nil]
      omega
    · rw [List.length_drop, List.length_take]
      omega

/-- The entries that a slice of the log gives are entries of the full log. -/
theorem mem_slice (h : Represents F l) {lo hi : ℕ} {e : Entry} (he : e ∈ l.slice lo hi) :
    ∃ k, k + 1 < hi ∧ F[k]? = some e := by
  unfold RaftLog.slice at he
  split at he
  · cases he
  · rename_i hc
    simp only at he
    split at he
    · cases he
    · obtain ⟨j, hj⟩ := List.mem_iff_getElem?.mp he
      rw [List.getElem?_drop, List.getElem?_take] at hj
      split at hj
      · rename_i hlt
        rw [h.entries, List.getElem?_drop] at hj
        exact ⟨_, by omega, hj⟩
      · cases hj

/-- Appending to the log appends to the full log. -/
theorem append (h : Represents F l) {es : List Entry} (hes : Consecutive (F.length + 1) es) :
    Represents (F ++ es) (l.append es) where
  snap_le := by
    have := h.snap_le
    simp only [RaftLog.append, List.length_append]
    omega
  entries := by
    simp only [RaftLog.append]
    rw [h.entries, List.drop_append_of_le_length h.snap_le]
  consecutive := h.consecutive.append (by rwa [Nat.add_comm])

/-- Cutting the log off above the snapshot cuts off the full log. -/
theorem truncateAfter (h : Represents F l) {index : ℕ} (hlt : l.snapIndex < index)
    (hle : index ≤ F.length + 1) : Represents (F.take (index - 1)) (l.truncateAfter index) := by
  unfold RaftLog.truncateAfter
  rw [if_neg (by omega)]
  refine ⟨?_, ?_, h.consecutive.take _⟩
  · simp only [List.length_take]
    omega
  · simp only [h.entries, List.drop_take]
    congr 1
    omega

/-- The entries of the log `L` from index `n + 1` to index `m`. -/
structure Piece (L : List Entry) (n m : ℕ) (e : Entry) (es : List Entry) : Prop where
  lt : n < m
  tail : es = (L.take m).drop (n + 1)
  join : L.take n ++ e :: es = L.take m
  index : e.index = n + 1
  term : termAt L e.index = some e.term
  consecutive : Consecutive (n + 1) (e :: es)

theorem Piece.of_cons {L es : List Entry} {n m : ℕ} {e : Entry}
    (hes : e :: es = (L.take m).drop n) (hnm : n ≤ m) (hL : Consecutive 1 L) :
    Piece L n m e es := by
  have hlen := congrArg List.length hes
  simp only [List.length_cons, List.length_drop, List.length_take] at hlen
  have hLn : L[n]? = some e := by
    have hhead := congrArg (fun r : List Entry => r[0]?) hes
    simpa [List.getElem?_take, show n < m by omega] using hhead.symm
  have hindex : e.index = n + 1 := by
    have := hL n e hLn
    omega
  refine ⟨by omega, ?_, ?_, hindex, ?_, ?_⟩
  · have := congrArg List.tail hes
    simpa using this
  · rw [hes]
    have := List.take_append_drop n (L.take m)
    rwa [List.take_take, Nat.min_eq_left hnm] at this
  · rw [hindex]
    exact termAt_succ_eq_some.mpr ⟨e, hLn, rfl⟩
  · have := (hL.take m).drop n
    rwa [← hes, Nat.add_comm] at this

section Piece

variable {L es : List Entry} {n m : ℕ} {e : Entry} (h : Represents F l) (piece : Piece L n m e es)
  (hm : m ≤ L.length) (hag : Agree 0 n F L)

include h piece hm hag

/-- The log ends before the piece, which is appended. -/
theorem append_piece (hend : F.length < e.index) :
    Merged F L m (L.take m) ∧ Represents (L.take m) (l.append (e :: es)) := by
  have hlt := piece.lt
  have hindex := piece.index
  have hFn : F.length = n := by
    have := hag.symm.length_le (hlt.le.trans hm)
    omega
  have hF : F = L.take n := by rw [← hag.take_eq, List.take_of_length_le hFn.le]
  refine ⟨Or.inr ⟨?_, rfl⟩, ?_⟩
  · intro hall
    have := hall.symm.length_le hm
    omega
  · rw [← piece.join, ← hF]
    exact h.append (hFn ▸ piece.consecutive)

/-- The log has another term at the beginning of the piece, which replaces what is there. -/
theorem replace_piece {t : ℕ} (ht : termAt F e.index = some t) (hne : t ≠ e.term)
    (habove : l.snapIndex < e.index) :
    Merged F L m (L.take m) ∧
      Represents (L.take m) ((l.truncateAfter e.index).append (e :: es)) := by
  have hlt := piece.lt
  have hindex := piece.index
  refine ⟨Or.inr ⟨?_, rfl⟩, ?_⟩
  · intro hall
    rw [termAt_congr hall (by omega), piece.term] at ht
    exact hne (Option.some.inj ht).symm
  · have hnF : n ≤ F.length := hag.symm.length_le (hlt.le.trans hm)
    have htrunc := h.truncateAfter habove (by omega)
    rw [hindex, Nat.add_sub_cancel, hag.take_eq] at htrunc
    rw [← piece.join, hindex]
    refine htrunc.append ?_
    rw [List.length_take, Nat.min_eq_left (hlt.le.trans hm)]
    exact piece.consecutive

end Piece

/-- The loop of `HandleAppendEntries` merges a piece of the leader's log `L`, from
index `n + 1` to index `m`, into the full log. The induction is over the piece; it
carries that both logs agree below it, which matching terms extend by one entry
in each round. Up to the index `c`, and so up to every snapshot, the log has the
leader's entries anyway. -/
theorem appendNew {x : Option Intrusion} {k : ℕ} {L es : List Entry} {c n m : ℕ}
    (h : Represents F l) (hc : Agree 0 (min c m) F L) (hcF : c ≤ F.length)
    (hsnap : l.snapIndex ≤ c) (hes : es = (L.take m).drop n) (hnm : n ≤ m) (hm : m ≤ L.length)
    (hL : Consecutive 1 L) (hag : Agree 0 n F L)
    (hmatch : ∀ j t, n ≤ j → termAt F j = some t → termAt L j = some t → Agree 0 j F L)
    (hx : ∀ y ∈ x, y.index ≤ c)
    (hclear : Node.clearLookups x k l es = true) :
    ∃ F', Merged F L m F' ∧ Represents F' (Node.appendNew x k l es) := by
  induction es generalizing k l n with
  | nil =>
      have hlen := congrArg List.length hes
      simp only [List.length_nil, List.length_drop, List.length_take] at hlen
      have hmn : m = n := by omega
      exact ⟨F, Or.inl ⟨hmn ▸ hag, rfl⟩, h⟩
  | cons e es ih =>
      have piece := Piece.of_cons hes hnm hL
      have hindex := piece.index
      have hl' := h.intrude (fun y hy => (hx y hy).trans hcF) k
      have hsnap' := (RaftLog.SnapFrom.intrude x l k).le_of hsnap hx
      simp only [Node.clearLookups, Bool.and_eq_true, decide_eq_true_eq] at hclear
      obtain ⟨habove, hrest⟩ := hclear
      simp only [Node.appendNew]
      generalize l.intrude x k = l' at hl' hsnap' habove hrest ⊢
      -- The snapshot ends at the entry only if the lookup finds the entry's term.
      have hlookup : l'.snapIndex < e.index ∨ l'.term e.index = .ok e.term := by
        refine habove.imp_right ?_
        rintro ⟨heq, hterm⟩
        rw [← heq, RaftLog.term_snapIndex (by omega), hterm]
      cases ht : l'.term e.index with
      | error err =>
          have hlt := hlookup.resolve_right (by simp [ht])
          exact ⟨_, hl'.append_piece piece hm hag (hl'.length_lt_of_error ht hlt)⟩
      | ok t =>
          have hfound := hl'.termAt_of_term ht
          simp only
          split
          · rename_i hne
            have hlt := hlookup.resolve_right (by simp [ht, hne])
            exact ⟨_, hl'.replace_piece piece hm hag (hfound.resolve_right (by omega)).1 hne hlt⟩
          · rename_i heq
            have hterm : t = e.term := not_not.mp heq
            have hstep : Agree 0 (n + 1) F L := by
              rw [← hindex]
              rcases hfound with ⟨htF, -⟩ | ⟨-, hend, -⟩
              · exact hmatch e.index t (by omega) htF (hterm ▸ piece.term)
              · exact hc.mono le_rfl (Nat.le_min.mpr ⟨hend ▸ hsnap', hindex ▸ piece.lt⟩)
            simp only [ht, heq, if_false] at hrest
            exact ih hl' hsnap' piece.tail piece.lt hstep (fun j t hj => hmatch j t (by omega))
              hrest

end Represents

end Raft

end VaultFS
