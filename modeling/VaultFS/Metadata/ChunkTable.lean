import Mathlib.Data.Set.Card
import VaultFS.Metadata.ChunkMap

/-!
# The chunk map as a table

What the chunk map is for, in its own terms: a partial function that gives, for a chunk and a node,
the address that was last added and the call by which the node was first added since it was last
removed (`table`). The list of a chunk has the nodes of the table, each once, in the order of these
calls (`Represents`).
-/

namespace VaultFS.Metadata

/-- A call that changes the chunk map. -/
inductive MapCall where
  | addLocation (chunkID : String) (loc : Location)
  | removeLocation (chunkID nodeID : String)
  | removeNode (nodeID : String)

/-- What is known of a node that has a chunk. -/
structure Replica where
  address : String
  /-- The number of the call that added the node. -/
  since : ℕ
  deriving DecidableEq

def Table := String → String → Option Replica

namespace Table

def empty : Table := fun _ _ => none

/-- The table after a call. -/
def apply (t : Table) (now : ℕ) : MapCall → Table
  | .addLocation chunkID loc => fun c n =>
      if c = chunkID ∧ n = loc.nodeID then some ⟨loc.address, (t c n).elim now (·.since)⟩ else t c n
  | .removeLocation chunkID nodeID => fun c n => if c = chunkID ∧ n = nodeID then none else t c n
  | .removeNode nodeID => fun c n => if n = nodeID then none else t c n

/-- The nodes of a chunk. -/
def nodes (t : Table) (chunkID : String) : Set String := {n | (t chunkID n).isSome}

end Table

/-- The table after a sequence of calls. -/
def table (calls : List MapCall) : Table :=
  calls.zipIdx.foldl (fun t x => t.apply x.2 x.1) .empty

theorem table_concat (calls : List MapCall) (c : MapCall) :
    table (calls ++ [c]) = (table calls).apply calls.length c := by
  simp [table, List.zipIdx_append]

namespace ChunkMap

def apply (cm : ChunkMap) : MapCall → ChunkMap
  | .addLocation chunkID loc => cm.addLocation chunkID loc
  | .removeLocation chunkID nodeID => cm.removeLocation chunkID nodeID
  | .removeNode nodeID => cm.removeNode nodeID

end ChunkMap

/-- The list has the nodes of the table for one chunk, in the order in which they were added. -/
structure Represents (row : String → Option Replica) (locs : List Location) : Prop where
  nodup : (locs.map (·.nodeID)).Nodup
  mem : ∀ loc, loc ∈ locs ↔ ∃ i, row loc.nodeID = some ⟨loc.address, i⟩
  sorted : (locs.map (·.nodeID)).Pairwise fun n n' =>
    ∀ r ∈ row n, ∀ r' ∈ row n', r.since < r'.since

namespace Represents

variable {row : String → Option Replica} {locs : List Location} {nodeID : String}

theorem nil (h : ∀ n, row n = none) : Represents row [] :=
  ⟨by simp, by simp [h], by simp⟩

theorem mem_nodes (h : Represents row locs) :
    nodeID ∈ locs.map (·.nodeID) ↔ (row nodeID).isSome := by
  rw [List.mem_map, Option.isSome_iff_exists]
  constructor
  · rintro ⟨loc, hloc, rfl⟩
    obtain ⟨i, hi⟩ := (h.mem loc).mp hloc
    exact ⟨_, hi⟩
  · rintro ⟨⟨address, i⟩, hr⟩
    exact ⟨⟨nodeID, address⟩, (h.mem _).mpr ⟨i, hr⟩, rfl⟩

theorem eq_nil_iff (h : Represents row locs) : locs = [] ↔ ∀ n, row n = none := by
  constructor
  · rintro rfl n
    exact Option.not_isSome_iff_eq_none.mp fun hsome => by simpa using h.mem_nodes.mpr hsome
  · intro hnone
    refine List.eq_nil_iff_forall_not_mem.mpr ?_
    intro loc hloc
    obtain ⟨i, hi⟩ := (h.mem loc).mp hloc
    rw [hnone] at hi
    cases hi

/-- The number of nodes. -/
theorem length_eq (h : Represents row locs) : locs.length = {n | (row n).isSome}.ncard := by
  have hset : {n | (row n).isSome} = ((locs.map (·.nodeID)).toFinset : Set String) := by
    ext n
    simp only [Set.mem_ofPred_eq, List.coe_toFinset, h.mem_nodes]
  rw [hset, Set.ncard_coe_finset, List.toFinset_card_of_nodup h.nodup, List.length_map]

theorem filter {row' : String → Option Replica} (h : Represents row locs)
    (hself : row' nodeID = none) (hother : ∀ n, n ≠ nodeID → row' n = row n) :
    Represents row' (locs.filter (·.nodeID ≠ nodeID)) := by
  refine ⟨h.nodup.sublist (List.filter_sublist.map _), ?_, ?_⟩
  · intro loc
    rw [List.mem_filter, decide_eq_true_eq]
    constructor
    · rintro ⟨hmem, hne⟩
      rw [hother _ hne]
      exact (h.mem loc).mp hmem
    · rintro ⟨i, hi⟩
      have hne : loc.nodeID ≠ nodeID := by
        intro heq
        rw [heq, hself] at hi
        cases hi
      exact ⟨(h.mem loc).mpr ⟨i, hother _ hne ▸ hi⟩, hne⟩
  · rw [List.pairwise_map, List.pairwise_filter]
    refine (List.pairwise_map.mp h.sorted).imp ?_
    intro l l' hlt hl hl' r hr r' hr'
    rw [hother _ (by simpa using hl)] at hr
    rw [hother _ (by simpa using hl')] at hr'
    exact hlt r hr r' hr'

theorem eq_iff_address {l loc : Location} (h : l.nodeID = loc.nodeID) (since : ℕ) :
    l = loc ↔ ∃ i, some (⟨loc.address, since⟩ : Replica) = some ⟨l.address, i⟩ := by
  obtain ⟨nodeID, address⟩ := l
  obtain ⟨nodeID', address'⟩ := loc
  obtain rfl : nodeID = nodeID' := h
  simp [eq_comm]

/-- A node that is there already keeps its place and gets the new address. -/
theorem replace {row' : String → Option Replica} {loc old : Location} {pre post : List Location}
    {since : ℕ} (h : Represents row (pre ++ old :: post)) (hold : old.nodeID = loc.nodeID)
    (hpre : ∀ l ∈ pre, l.nodeID ≠ loc.nodeID) (hself : row' loc.nodeID = some ⟨loc.address, since⟩)
    (hsince : ∀ r ∈ row loc.nodeID, r.since = since)
    (hother : ∀ n, n ≠ loc.nodeID → row' n = row n) : Represents row' (pre ++ loc :: post) := by
  have hids : (pre ++ loc :: post).map (·.nodeID) = (pre ++ old :: post).map (·.nodeID) := by
    simp [hold]
  have hpost : ∀ l ∈ post, l.nodeID ≠ loc.nodeID := by
    intro l hl heq
    have hnodup := h.nodup
    rw [List.map_append, List.map_cons] at hnodup
    have hnot := (List.nodup_cons.mp (List.nodup_append.mp hnodup).2.1).1
    exact hnot (hold.trans heq.symm ▸ List.mem_map_of_mem hl)
  -- no node changes its place in the order
  have hplace : ∀ n, ∀ r ∈ row' n, ∃ r' ∈ row n, r'.since = r.since := by
    intro n r hr
    by_cases hn : n = loc.nodeID
    · subst hn
      obtain ⟨i, hi⟩ := (h.mem old).mp (by simp)
      rw [hold] at hi
      rw [hself] at hr
      obtain rfl := Option.some.inj hr
      exact ⟨_, hi, hsince _ hi⟩
    · exact ⟨r, hother n hn ▸ hr, rfl⟩
  refine ⟨hids ▸ h.nodup, ?_, ?_⟩
  · intro l
    by_cases hl : l.nodeID = loc.nodeID
    · have hpre' : l ∉ pre := fun hmem => hpre l hmem hl
      have hpost' : l ∉ post := fun hmem => hpost l hmem hl
      simp only [List.mem_append, List.mem_cons, hpre', hpost', false_or, or_false, hl, hself]
      exact eq_iff_address hl _
    · have hne : l ≠ loc := fun heq => hl (congrArg Location.nodeID heq)
      have hne' : l ≠ old := fun heq => hl ((congrArg Location.nodeID heq).trans hold)
      have hmem := h.mem l
      simp only [List.mem_append, List.mem_cons, hne', false_or] at hmem
      simp only [List.mem_append, List.mem_cons, hne, false_or, hother _ hl]
      exact hmem
  · rw [hids]
    refine h.sorted.imp ?_
    intro n n' hlt r hr r' hr'
    obtain ⟨s, hs, hss⟩ := hplace n r hr
    obtain ⟨s', hs', hss'⟩ := hplace n' r' hr'
    rw [← hss, ← hss']
    exact hlt s hs s' hs'

/-- A new node comes last. -/
theorem append {row' : String → Option Replica} {loc : Location} {now : ℕ}
    (h : Represents row locs) (hnow : ∀ n, ∀ r ∈ row n, r.since < now)
    (hall : ∀ l ∈ locs, l.nodeID ≠ loc.nodeID) (hself : row' loc.nodeID = some ⟨loc.address, now⟩)
    (hother : ∀ n, n ≠ loc.nodeID → row' n = row n) : Represents row' (locs ++ [loc]) := by
  have hids : ∀ n ∈ locs.map (·.nodeID), n ≠ loc.nodeID := by
    intro n hn
    obtain ⟨l, hl, rfl⟩ := List.mem_map.mp hn
    exact hall l hl
  refine ⟨?_, ?_, ?_⟩
  · rw [List.map_append, List.map_singleton, ← List.concat_eq_append, List.nodup_concat]
    exact ⟨fun hmem => hids _ hmem rfl, h.nodup⟩
  · intro l
    rw [List.mem_append, List.mem_singleton]
    by_cases hl : l.nodeID = loc.nodeID
    · have hnot : l ∉ locs := fun hmem => hall l hmem hl
      simp only [hnot, false_or, hl, hself]
      exact eq_iff_address hl _
    · have hne : l ≠ loc := fun heq => hl (congrArg Location.nodeID heq)
      simp only [hne, or_false, hother _ hl]
      exact h.mem l
  · rw [List.map_append, List.map_singleton, List.pairwise_append]
    refine ⟨?_, by simp, ?_⟩
    · refine h.sorted.imp_of_mem ?_
      intro n n' hn hn' hlt r hr r' hr'
      rw [hother _ (hids n hn)] at hr
      rw [hother _ (hids n' hn')] at hr'
      exact hlt r hr r' hr'
    · intro n hn n' hn' r hr r' hr'
      obtain rfl := List.mem_singleton.mp hn'
      rw [hother _ (hids n hn)] at hr
      rw [hself] at hr'
      obtain rfl := Option.some.inj hr'
      exact hnow n r hr

theorem replaceOrAppend {row' : String → Option Replica} {loc : Location} {now : ℕ}
    (h : Represents row locs) (hnow : ∀ n, ∀ r ∈ row n, r.since < now)
    (hself : row' loc.nodeID = some ⟨loc.address, (row loc.nodeID).elim now (·.since)⟩)
    (hother : ∀ n, n ≠ loc.nodeID → row' n = row n) :
    Represents row' (ChunkMap.replaceOrAppend loc locs) := by
  rcases ChunkMap.replaceOrAppend_cases loc locs with
    ⟨pre, old, post, rfl, hold, hpre, heq⟩ | ⟨hall, heq⟩
  · rw [heq]
    refine h.replace hold hpre hself ?_ hother
    intro r hr
    rw [show row loc.nodeID = some r from hr, Option.elim_some]
  · have hnone : row loc.nodeID = none := by
      refine Option.not_isSome_iff_eq_none.mp fun hsome => ?_
      obtain ⟨l, hl, hid⟩ := List.mem_map.mp (h.mem_nodes.mpr hsome)
      exact hall l hl hid
    rw [hnone] at hself
    rw [heq]
    exact h.append hnow hall hself hother

end Represents

namespace ChunkMap

/-- The chunk map has the chunks of the table, with their lists. -/
structure Refines (cm : ChunkMap) (t : Table) (now : ℕ) : Prop where
  row : ∀ chunkID, Represents (t chunkID) (cm.getLocations chunkID)
  ne_nil : ∀ chunkID, cm.locations.lookup chunkID ≠ some []
  recent : ∀ chunkID nodeID, ∀ r ∈ t chunkID nodeID, r.since < now

theorem replaceOrAppend_ne_nil (loc : Location) (locs : List Location) :
    replaceOrAppend loc locs ≠ [] := by
  rcases replaceOrAppend_cases loc locs with ⟨pre, old, post, -, -, -, heq⟩ | ⟨-, heq⟩
  · simp [heq]
  · simp [heq]

theorem without_ne_nil (nodeID : String) (locs : List Location) :
    without nodeID locs ≠ some [] := by
  simp only [without]
  split
  · simp
  · rename_i hne
    simpa using hne

namespace Refines

variable {cm : ChunkMap} {t : Table} {now : ℕ}

theorem empty : ChunkMap.empty.Refines .empty 0 :=
  ⟨fun _ => .nil fun _ => rfl, by simp [ChunkMap.empty], by simp [Table.empty]⟩

theorem addLocation (h : cm.Refines t now) (chunkID : String) (loc : Location) :
    (cm.addLocation chunkID loc).Refines (t.apply now (.addLocation chunkID loc)) (now + 1) := by
  refine ⟨?_, ?_, ?_⟩
  · intro c
    rw [getLocations_addLocation]
    split
    · rename_i hc
      subst hc
      refine (h.row c).replaceOrAppend (h.recent c) ?_ ?_
      · simp [Table.apply]
      · intro n hn
        simp [Table.apply, hn]
    · rename_i hc
      have hrow : t.apply now (.addLocation chunkID loc) c = t c := by
        funext n
        simp [Table.apply, hc]
      exact hrow ▸ h.row c
  · intro c
    unfold ChunkMap.addLocation
    by_cases hc : c = chunkID
    · rw [hc, Finmap.lookup_insert]
      simpa using replaceOrAppend_ne_nil loc _
    · rw [Finmap.lookup_insert_of_ne _ hc]
      exact h.ne_nil c
  · intro c n r hr
    simp only [Table.apply] at hr
    split at hr
    · obtain rfl := Option.some.inj hr
      cases hold : t c n with
      | none => exact Nat.lt_succ_self now
      | some r => exact (h.recent c n r hold).trans (Nat.lt_succ_self now)
    · exact (h.recent c n r hr).trans (Nat.lt_succ_self now)

theorem removeLocation (h : cm.Refines t now) (chunkID nodeID : String) :
    (cm.removeLocation chunkID nodeID).Refines (t.apply now (.removeLocation chunkID nodeID))
      (now + 1) := by
  refine ⟨?_, ?_, ?_⟩
  · intro c
    rw [getLocations_removeLocation]
    split
    · rename_i hc
      subst hc
      refine (h.row c).filter ?_ ?_
      · simp [Table.apply]
      · intro n hn
        simp [Table.apply, hn]
    · rename_i hc
      have hrow : t.apply now (.removeLocation chunkID nodeID) c = t c := by
        funext n
        simp [Table.apply, hc]
      exact hrow ▸ h.row c
  · intro c
    rw [lookup_removeLocation]
    split
    · exact without_ne_nil nodeID _
    · exact h.ne_nil c
  · intro c n r hr
    simp only [Table.apply] at hr
    split at hr
    · cases hr
    · exact (h.recent c n r hr).trans (Nat.lt_succ_self now)

theorem removeNode (h : cm.Refines t now) (nodeID : String) :
    (cm.removeNode nodeID).Refines (t.apply now (.removeNode nodeID)) (now + 1) := by
  refine ⟨?_, ?_, ?_⟩
  · intro c
    rw [getLocations_removeNode]
    refine (h.row c).filter ?_ ?_
    · simp [Table.apply]
    · intro n hn
      simp [Table.apply, hn]
  · intro c hc
    rw [ChunkMap.removeNode, FiniteMap.lookup_filterMap, Option.bind_eq_some_iff] at hc
    obtain ⟨locs, -, hnil⟩ := hc
    exact without_ne_nil nodeID locs hnil
  · intro c n r hr
    simp only [Table.apply] at hr
    split at hr
    · cases hr
    · exact (h.recent c n r hr).trans (Nat.lt_succ_self now)

theorem apply (h : cm.Refines t now) (c : MapCall) :
    (cm.apply c).Refines (t.apply now c) (now + 1) := by
  cases c with
  | addLocation chunkID loc => exact h.addLocation chunkID loc
  | removeLocation chunkID nodeID => exact h.removeLocation chunkID nodeID
  | removeNode nodeID => exact h.removeNode nodeID

/-- A chunk is in the map if it has a node. -/
theorem lookup_eq (h : cm.Refines t now) (chunkID : String) :
    cm.locations.lookup chunkID =
      if cm.getLocations chunkID = [] then none else some (cm.getLocations chunkID) := by
  have hne := h.ne_nil chunkID
  unfold getLocations
  cases hlookup : cm.locations.lookup chunkID with
  | none => rfl
  | some locs =>
      rw [hlookup] at hne
      have hlocs : locs ≠ [] := fun hnil => hne (congrArg some hnil)
      simp [hlocs]

theorem nonempty_iff (h : cm.Refines t now) (chunkID : String) :
    (t.nodes chunkID).Nonempty ↔ cm.getLocations chunkID ≠ [] := by
  rw [Ne, (h.row chunkID).eq_nil_iff, not_forall]
  simp [Set.Nonempty, Table.nodes, Option.isSome_iff_ne_none]

theorem length_getLocations (h : cm.Refines t now) (chunkID : String) :
    (cm.getLocations chunkID).length = (t.nodes chunkID).ncard := (h.row chunkID).length_eq

theorem chunkCount_eq (h : cm.Refines t now) :
    cm.chunkCount = {c | (t.nodes c).Nonempty}.ncard := by
  have hset : {c | (t.nodes c).Nonempty} = (cm.locations.keys : Set String) := by
    ext c
    rw [Set.mem_ofPred_eq, h.nonempty_iff, Finset.mem_coe, Finmap.mem_keys, Finmap.mem_iff,
      h.lookup_eq]
    split <;> simp_all
  rw [hset, Set.ncard_coe_finset, chunkCount]

theorem lookup_underReplicated (h : cm.Refines t now) (factor : ℕ) (chunkID : String)
    (locs : List Location) :
    (cm.underReplicated factor).lookup chunkID = some locs ↔
      (t.nodes chunkID).Nonempty ∧ (t.nodes chunkID).ncard < factor ∧
        locs = cm.getLocations chunkID := by
  rw [underReplicated, FiniteMap.lookup_filterMap, h.lookup_eq, ← h.length_getLocations,
    h.nonempty_iff]
  by_cases hnil : cm.getLocations chunkID = []
  · simp [hnil]
  · simp [hnil, eq_comm]

end Refines

end ChunkMap

end VaultFS.Metadata
