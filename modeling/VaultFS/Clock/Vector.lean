import Mathlib.Data.Finmap

/-!
# Vector clocks

`internal/clock/vector.go`: a map from nodes to counters, in which a node that has no entry has the
counter zero. The operations return new maps, so that the source's `clone` has no counterpart here.
The loops over a map are written over its keys or its entries; none depends on their order.

`count` is a counter as a number. Comparing two clocks is comparing all of their counts, whether an
entry is missing or zero (`happensBefore_iff`, `equal_iff`).
-/

namespace VaultFS.Clock

abbrev NodeID := String

structure VectorClock where
  counters : Finmap fun _ : NodeID => UInt64

namespace VectorClock

def new : VectorClock := ⟨∅⟩

/-- The counter of a node, zero when the map has none. -/
def get (vc : VectorClock) (id : NodeID) : UInt64 := (vc.counters.lookup id).getD 0

def count (vc : VectorClock) (id : NodeID) : ℕ := (vc.get id).toNat

def increment (vc : VectorClock) (id : NodeID) : VectorClock :=
  ⟨vc.counters.insert id (vc.get id + 1)⟩

theorem ext_lookup {vc other : VectorClock}
    (h : ∀ id, vc.counters.lookup id = other.counters.lookup id) : vc = other :=
  congrArg mk (Finmap.ext_lookup h)

/-- One turn of the loop of `Merge`. -/
def mergeEntry (result : VectorClock) (id : NodeID) (val : UInt64) : VectorClock :=
  if val > result.get id then ⟨result.counters.insert id val⟩ else result

theorem lookup_mergeEntry (result : VectorClock) (id id' : NodeID) (val : UInt64) :
    (result.mergeEntry id val).counters.lookup id' =
      if id' = id ∧ result.get id < val then some val else result.counters.lookup id' := by
  unfold mergeEntry
  by_cases hlt : result.get id < val
  · rw [if_pos hlt]
    by_cases hid : id' = id
    · rw [if_pos ⟨hid, hlt⟩, hid, Finmap.lookup_insert]
    · rw [if_neg fun h => hid h.1, Finmap.lookup_insert_of_ne _ hid]
  · rw [if_neg hlt, if_neg fun h => hlt h.2]

theorem get_mergeEntry (result : VectorClock) (id id' : NodeID) (val : UInt64) :
    (result.mergeEntry id val).get id' =
      if id' = id ∧ result.get id < val then val else result.get id' := by
  rw [get, lookup_mergeEntry]
  split
  · rfl
  · rfl

theorem mergeEntry_comm (result : VectorClock) (id : NodeID) (val : UInt64) (id' : NodeID)
    (val' : UInt64) :
    (result.mergeEntry id val).mergeEntry id' val' =
      (result.mergeEntry id' val').mergeEntry id val := by
  refine ext_lookup fun i => ?_
  simp only [lookup_mergeEntry, get_mergeEntry]
  by_cases hid : id = id'
  · subst hid
    by_cases hi : i = id
    · simp only [hi, true_and]
      -- the larger of the two values stays, in either order
      grind
    · simp [hi]
  · grind

def merge (vc other : VectorClock) : VectorClock :=
  other.counters.foldl mergeEntry mergeEntry_comm vc

def happensBefore (vc other : VectorClock) : Bool :=
  if ∃ id ∈ vc.counters.keys, vc.get id > other.get id then false
  else
    (∃ id ∈ vc.counters.keys, vc.get id < other.get id) ||
      (∃ id ∈ other.counters.keys, id ∉ vc.counters ∧ other.get id > 0)

def equal (vc other : VectorClock) : Bool :=
  ∀ id ∈ vc.counters.keys ∪ other.counters.keys, vc.get id = other.get id

def concurrent (vc other : VectorClock) : Bool :=
  !vc.happensBefore other && !other.happensBefore vc && !vc.equal other

/-! ### Counts -/

theorem count_of_notMem {vc : VectorClock} {id : NodeID} (h : id ∉ vc.counters) :
    vc.count id = 0 := by
  rw [count, get, Finmap.lookup_eq_none.mpr h]
  rfl

theorem lt_iff_count_lt {vc other : VectorClock} {id : NodeID} :
    vc.get id < other.get id ↔ vc.count id < other.count id :=
  UInt64.lt_iff_toNat_lt

theorem eq_iff_count_eq {vc other : VectorClock} {id : NodeID} :
    vc.get id = other.get id ↔ vc.count id = other.count id :=
  UInt64.toNat_inj.symm

/-- The counter of `id` goes up by one unless it is at its largest value. -/
theorem count_increment {vc : VectorClock} {id : NodeID} (h : vc.count id + 1 < 2 ^ 64)
    (id' : NodeID) :
    (vc.increment id).count id' = if id' = id then vc.count id + 1 else vc.count id' := by
  unfold increment count get
  by_cases hid : id' = id
  · rw [if_pos hid, hid, Finmap.lookup_insert]
    exact (UInt64.toNat_add _ _).trans (Nat.mod_eq_of_lt h)
  · rw [if_neg hid, Finmap.lookup_insert_of_ne _ hid]

theorem count_mergeEntry (result : VectorClock) (id id' : NodeID) (val : UInt64) :
    (result.mergeEntry id val).count id' =
      if id' = id then max (result.count id') val.toNat else result.count id' := by
  have hlt : result.get id < val ↔ result.count id < val.toNat := UInt64.lt_iff_toNat_lt
  rw [count, get_mergeEntry]
  by_cases hid : id' = id
  · subst hid
    by_cases hval : result.get id' < val
    · rw [if_pos ⟨rfl, hval⟩, if_pos rfl, max_eq_right (hlt.mp hval).le]
    · rw [if_neg fun h => hval h.2, if_pos rfl, max_eq_left (not_lt.mp (mt hlt.mpr hval))]
      rfl
  · rw [if_neg fun h => hid h.1, if_neg hid]
    rfl

theorem count_foldl_mergeEntry {l : List (Sigma fun _ : NodeID => UInt64)} (hl : l.NodupKeys)
    (vc : VectorClock) (id : NodeID) :
    (l.foldl (fun result e => result.mergeEntry e.1 e.2) vc).count id =
      max (vc.count id) ((l.dlookup id).getD 0).toNat := by
  induction l generalizing vc with
  | nil => simp
  | cons e l ih =>
      obtain ⟨hnotMem, hl'⟩ := List.nodupKeys_cons.mp hl
      rw [List.foldl_cons, ih hl', count_mergeEntry]
      by_cases hid : id = e.1
      · subst hid
        rw [if_pos rfl, List.dlookup_cons_eq, List.dlookup_eq_none.mpr hnotMem]
        simp
      · rw [if_neg hid, List.dlookup_cons_ne _ _ hid]

theorem count_merge (vc other : VectorClock) (id : NodeID) :
    (vc.merge other).count id = max (vc.count id) (other.count id) := by
  obtain ⟨counters⟩ := other
  induction counters using Finmap.induction_on with
  | H l => exact count_foldl_mergeEntry l.nodupKeys vc id

theorem happensBefore_iff {vc other : VectorClock} :
    vc.happensBefore other ↔
      (∀ id, vc.count id ≤ other.count id) ∧ ∃ id, vc.count id < other.count id := by
  have hle : (¬∃ id ∈ vc.counters.keys, vc.get id > other.get id) ↔
      ∀ id, vc.count id ≤ other.count id := by
    constructor
    · intro h id
      by_cases hid : id ∈ vc.counters
      · by_contra hlt
        exact h ⟨id, Finmap.mem_keys.mpr hid, lt_iff_count_lt.mpr (not_le.mp hlt)⟩
      · rw [count_of_notMem hid]
        exact Nat.zero_le _
    · rintro h ⟨id, _, hgt⟩
      exact (h id).not_gt (lt_iff_count_lt.mp hgt)
  have hlt : ((∃ id ∈ vc.counters.keys, vc.get id < other.get id) ∨
      ∃ id ∈ other.counters.keys, id ∉ vc.counters ∧ other.get id > 0) ↔
      ∃ id, vc.count id < other.count id := by
    constructor
    · rintro (⟨id, _, hid⟩ | ⟨id, _, hnotMem, hpos⟩)
      · exact ⟨id, lt_iff_count_lt.mp hid⟩
      · refine ⟨id, ?_⟩
        rw [count_of_notMem hnotMem]
        exact UInt64.lt_iff_toNat_lt.mp hpos
    · rintro ⟨id, hid⟩
      by_cases hmem : id ∈ vc.counters
      · exact Or.inl ⟨id, Finmap.mem_keys.mpr hmem, lt_iff_count_lt.mpr hid⟩
      · rw [count_of_notMem hmem] at hid
        have hother : id ∈ other.counters := by
          by_contra hnotMem
          rw [count_of_notMem hnotMem] at hid
          exact lt_irrefl 0 hid
        exact Or.inr ⟨id, Finmap.mem_keys.mpr hother, hmem, UInt64.lt_iff_toNat_lt.mpr hid⟩
  unfold happensBefore
  rw [← hle, ← hlt]
  split
  · rename_i h
    simp [h]
  · rename_i h
    simp [h]

theorem equal_iff {vc other : VectorClock} :
    vc.equal other ↔ ∀ id, vc.count id = other.count id := by
  unfold equal
  rw [decide_eq_true_iff]
  constructor
  · intro h id
    by_cases hid : id ∈ vc.counters.keys ∪ other.counters.keys
    · exact eq_iff_count_eq.mp (h id hid)
    · rw [Finset.mem_union, not_or, Finmap.mem_keys, Finmap.mem_keys] at hid
      rw [count_of_notMem hid.1, count_of_notMem hid.2]
  · intro h id _
    exact eq_iff_count_eq.mpr (h id)

end VectorClock

end VaultFS.Clock
