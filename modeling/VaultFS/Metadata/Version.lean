import Mathlib.Data.Multiset.Count
import VaultFS.Clock.Order

/-!
# Versions of a chunk

`internal/metadata/version.go`: a chunk with the vector clock of its writes. Versions that come from
one version by writes are in the order of what was written at each node (`le_writes_iff`), so that
two of them are concurrent when each has a write that the other one lacks (`concurrent_writes_iff`).
-/

namespace VaultFS.Metadata

open Clock VectorClock

structure ChunkVersion where
  chunkID : String
  clock : VectorClock

namespace ChunkVersion

def new (chunkID : String) : ChunkVersion := ⟨chunkID, .new⟩

def increment (v : ChunkVersion) (nodeID : String) : ChunkVersion :=
  ⟨v.chunkID, v.clock.increment nodeID⟩

def merge (v other : ChunkVersion) : ChunkVersion := ⟨v.chunkID, v.clock.merge other.clock⟩

def happensBefore (v other : ChunkVersion) : Bool := v.clock.happensBefore other.clock

def concurrent (v other : ChunkVersion) : Bool := v.clock.concurrent other.clock

def equal (v other : ChunkVersion) : Bool := v.clock.equal other.clock

/-- The version after writes at the nodes. -/
def writes (v : ChunkVersion) (nodes : List String) : ChunkVersion := nodes.foldl increment v

variable {v w : ChunkVersion} {nodes nodes' : List String}

theorem count_writes (h : ∀ n, v.clock.count n + nodes.length < 2 ^ 64) (n : String) :
    (v.writes nodes).clock.count n = v.clock.count n + nodes.count n := by
  induction nodes generalizing v with
  | nil => rfl
  | cons m nodes ih =>
      simp only [List.length_cons] at h
      have hcount : ∀ n, (v.increment m).clock.count n =
          if n = m then v.clock.count m + 1 else v.clock.count n :=
        count_increment (by have := h m; omega)
      have hrest : ∀ n, (v.increment m).clock.count n + nodes.length < 2 ^ 64 := by
        intro n
        have hn := h n
        have hm := h m
        rw [hcount]
        split <;> omega
      rw [writes, List.foldl_cons]
      refine (ih hrest).trans ?_
      rw [hcount, List.count_cons]
      by_cases hn : n = m
      · subst hn
        simp only [if_true, beq_self_eq_true]
        omega
      · simp [hn, Ne.symm hn]

section Writes

variable (h : ∀ n, v.clock.count n + nodes.length < 2 ^ 64)
  (h' : ∀ n, v.clock.count n + nodes'.length < 2 ^ 64)

include h h'

theorem le_writes_iff : (v.writes nodes).clock ≤ (v.writes nodes').clock ↔
    (nodes : Multiset String) ≤ nodes' := by
  rw [Multiset.le_iff_count]
  refine forall_congr' fun n => ?_
  rw [count_writes h, count_writes h', Multiset.coe_count, Multiset.coe_count]
  exact Nat.add_le_add_iff_left

theorem concurrent_writes_iff : (v.writes nodes).concurrent (v.writes nodes') ↔
    (∃ n, nodes'.count n < nodes.count n) ∧ ∃ n, nodes.count n < nodes'.count n := by
  rw [concurrent, concurrent_iff, le_writes_iff h h', le_writes_iff h' h, Multiset.le_iff_count,
    Multiset.le_iff_count]
  simp only [Multiset.coe_count, not_forall, not_le]

end Writes

/-- Versions conflict if their merge is above both. -/
theorem concurrent_iff_merge :
    v.concurrent w ↔ v.happensBefore (v.merge w) ∧ w.happensBefore (v.merge w) := by
  rw [concurrent, happensBefore, happensBefore, concurrent_iff, happensBefore_iff_lt,
    happensBefore_iff_lt, lt_iff_le_not_ge, lt_iff_le_not_ge]
  simp only [merge, merge_le_iff, le_merge_left, le_merge_right, le_refl, true_and, and_true]
  exact and_comm

end ChunkVersion

end VaultFS.Metadata
