import VaultFS.FiniteMap.Basic

/-!
# The chunk map

`internal/metadata/chunkmap.go`: for each chunk the nodes that have a replica of it. A chunk
that is not in the map has no locations.

`Lists` is what the map is for: which nodes it has for a chunk.
-/

namespace VaultFS.Metadata

structure Location where
  nodeID : String
  address : String
  deriving DecidableEq

structure ChunkMap where
  locations : Finmap fun _ : String => List Location

namespace ChunkMap

def empty : ChunkMap := ⟨∅⟩

/-- Put a location over the first one of the same node, or at the end. -/
def replaceOrAppend (loc : Location) : List Location → List Location
  | [] => [loc]
  | l :: locs => if l.nodeID = loc.nodeID then loc :: locs else l :: replaceOrAppend loc locs

def getLocations (cm : ChunkMap) (chunkID : String) : List Location :=
  (cm.locations.lookup chunkID).getD []

def addLocation (cm : ChunkMap) (chunkID : String) (loc : Location) : ChunkMap :=
  ⟨cm.locations.insert chunkID (replaceOrAppend loc (cm.getLocations chunkID))⟩

/-- The locations of a chunk without those of a node, or nothing when none is left. -/
def without (nodeID : String) (locs : List Location) : Option (List Location) :=
  let out := locs.filter (·.nodeID ≠ nodeID)
  if out = [] then none else some out

def removeLocation (cm : ChunkMap) (chunkID nodeID : String) : ChunkMap :=
  match without nodeID (cm.getLocations chunkID) with
  | none => ⟨cm.locations.erase chunkID⟩
  | some out => ⟨cm.locations.insert chunkID out⟩

def removeNode (cm : ChunkMap) (nodeID : String) : ChunkMap :=
  ⟨FiniteMap.filterMap (fun _ locs => without nodeID locs) cm.locations⟩

/-- The number of chunks in the map. -/
def chunkCount (cm : ChunkMap) : ℕ := cm.locations.keys.card

/-- The chunks with fewer than `factor` replicas. -/
def underReplicated (cm : ChunkMap) (factor : ℕ) : Finmap fun _ : String => List Location :=
  FiniteMap.filterMap (fun _ locs => if locs.length < factor then some locs else none) cm.locations

/-- The node is among the locations of the chunk. -/
def Lists (cm : ChunkMap) (chunkID nodeID : String) : Prop :=
  ∃ loc ∈ cm.getLocations chunkID, loc.nodeID = nodeID

instance (cm : ChunkMap) (chunkID nodeID : String) : Decidable (cm.Lists chunkID nodeID) :=
  inferInstanceAs (Decidable (∃ _ ∈ _, _))

theorem ext_lookup {cm cm' : ChunkMap}
    (h : ∀ chunkID, cm.locations.lookup chunkID = cm'.locations.lookup chunkID) : cm = cm' := by
  obtain ⟨locations⟩ := cm
  obtain ⟨locations'⟩ := cm'
  exact congrArg mk (Finmap.ext_lookup h)

theorem not_lists_empty (chunkID nodeID : String) : ¬empty.Lists chunkID nodeID := by
  simp [Lists, getLocations, empty]

theorem mem_replaceOrAppend {loc : Location} {locs : List Location} {nodeID : String} :
    (∃ l ∈ replaceOrAppend loc locs, l.nodeID = nodeID) ↔
      loc.nodeID = nodeID ∨ ∃ l ∈ locs, l.nodeID = nodeID := by
  induction locs with
  | nil => simp [replaceOrAppend]
  | cons l locs ih =>
      unfold replaceOrAppend
      split
      · rename_i heq
        simp [heq]
      · simp only [List.exists_mem_cons_iff, ih]
        exact or_left_comm

/-- The location takes the place of the first one of its node, or the last place. -/
theorem replaceOrAppend_cases (loc : Location) (locs : List Location) :
    (∃ pre old post, locs = pre ++ old :: post ∧ old.nodeID = loc.nodeID ∧
      (∀ l ∈ pre, l.nodeID ≠ loc.nodeID) ∧ replaceOrAppend loc locs = pre ++ loc :: post) ∨
    ((∀ l ∈ locs, l.nodeID ≠ loc.nodeID) ∧ replaceOrAppend loc locs = locs ++ [loc]) := by
  induction locs with
  | nil => exact .inr ⟨by simp, rfl⟩
  | cons l locs ih =>
      unfold replaceOrAppend
      split
      · rename_i heq
        exact .inl ⟨[], l, locs, rfl, heq, by simp, rfl⟩
      · rename_i hne
        rcases ih with ⟨pre, old, post, rfl, hold, hpre, heq⟩ | ⟨hall, heq⟩
        · exact .inl ⟨l :: pre, old, post, rfl, hold, by simpa [hne] using hpre, by simp [heq]⟩
        · exact .inr ⟨by simpa [hne] using hall, by simp [heq]⟩

theorem replaceOrAppend_eq (loc : Location) (locs : List Location) :
    replaceOrAppend loc locs = match locs.findIdx? (·.nodeID = loc.nodeID) with
      | some i => locs.set i loc
      | none => locs ++ [loc] := by
  induction locs with
  | nil => rfl
  | cons l locs ih =>
      rw [replaceOrAppend, List.findIdx?_cons, ih]
      by_cases hl : l.nodeID = loc.nodeID
      · simp [hl]
      · cases locs.findIdx? (·.nodeID = loc.nodeID) <;> simp [hl]

theorem getLocations_addLocation (cm : ChunkMap) (chunkID chunkID' : String) (loc : Location) :
    (cm.addLocation chunkID loc).getLocations chunkID' =
      if chunkID' = chunkID then replaceOrAppend loc (cm.getLocations chunkID)
      else cm.getLocations chunkID' := by
  unfold addLocation
  by_cases hid : chunkID' = chunkID
  · rw [if_pos hid, hid, getLocations, Finmap.lookup_insert]
    rfl
  · rw [if_neg hid, getLocations, Finmap.lookup_insert_of_ne _ hid]
    rfl

theorem lists_addLocation {cm : ChunkMap} {chunkID chunkID' nodeID : String} {loc : Location} :
    (cm.addLocation chunkID loc).Lists chunkID' nodeID ↔
      (chunkID' = chunkID ∧ loc.nodeID = nodeID) ∨ cm.Lists chunkID' nodeID := by
  unfold Lists
  rw [getLocations_addLocation]
  by_cases hid : chunkID' = chunkID
  · subst hid
    rw [if_pos rfl, mem_replaceOrAppend]
    simp
  · simp [hid]

theorem without_getD (nodeID : String) (locs : List Location) :
    (without nodeID locs).getD [] = locs.filter (·.nodeID ≠ nodeID) := by
  simp only [without]
  split
  · rename_i hnil
    rw [hnil]
    rfl
  · rfl

theorem lookup_removeLocation (cm : ChunkMap) (chunkID nodeID chunkID' : String) :
    (cm.removeLocation chunkID nodeID).locations.lookup chunkID' =
      if chunkID' = chunkID then without nodeID (cm.getLocations chunkID)
      else cm.locations.lookup chunkID' := by
  unfold removeLocation
  by_cases hid : chunkID' = chunkID
  · subst hid
    rw [if_pos rfl]
    split
    · rename_i hnone
      rw [hnone, Finmap.lookup_erase]
    · rename_i out hsome
      rw [hsome, Finmap.lookup_insert]
  · rw [if_neg hid]
    split
    · exact Finmap.lookup_erase_ne hid
    · exact Finmap.lookup_insert_of_ne _ hid

theorem getLocations_removeLocation (cm : ChunkMap) (chunkID nodeID chunkID' : String) :
    (cm.removeLocation chunkID nodeID).getLocations chunkID' =
      if chunkID' = chunkID then (cm.getLocations chunkID).filter (·.nodeID ≠ nodeID)
      else cm.getLocations chunkID' := by
  rw [getLocations, lookup_removeLocation]
  split
  · exact without_getD nodeID _
  · rfl

theorem getLocations_removeNode (cm : ChunkMap) (nodeID chunkID : String) :
    (cm.removeNode nodeID).getLocations chunkID =
      (cm.getLocations chunkID).filter (·.nodeID ≠ nodeID) := by
  unfold getLocations removeNode
  rw [FiniteMap.lookup_filterMap]
  cases cm.locations.lookup chunkID with
  | none => rfl
  | some locs => exact without_getD nodeID locs

/-- Removing the node from each of the chunks, one after the other. -/
theorem lookup_foldl_removeLocation {nodeID : String} {chunkIDs : List String}
    (hnodup : chunkIDs.Nodup) (cm : ChunkMap) (chunkID : String) :
    (chunkIDs.foldl (fun cm chunkID => cm.removeLocation chunkID nodeID) cm).locations.lookup
        chunkID =
      if chunkID ∈ chunkIDs then (cm.locations.lookup chunkID).bind (without nodeID)
      else cm.locations.lookup chunkID := by
  induction chunkIDs generalizing cm with
  | nil => rfl
  | cons c rest ih =>
      obtain ⟨hnot, hrest⟩ := List.nodup_cons.mp hnodup
      rw [List.foldl_cons, ih hrest, lookup_removeLocation]
      by_cases hc : chunkID = c
      · subst hc
        rw [if_neg hnot, if_pos rfl, if_pos List.mem_cons_self, getLocations]
        cases cm.locations.lookup chunkID <;> rfl
      · simp [hc]

theorem removeNode_eq_foldl {cm : ChunkMap} {chunkIDs : List String} (nodeID : String)
    (hnodup : chunkIDs.Nodup) (hmem : ∀ c, c ∈ chunkIDs ↔ c ∈ cm.locations.keys) :
    chunkIDs.foldl (fun cm chunkID => cm.removeLocation chunkID nodeID) cm =
      cm.removeNode nodeID := by
  refine ext_lookup fun c => ?_
  rw [lookup_foldl_removeLocation hnodup, removeNode, FiniteMap.lookup_filterMap]
  split
  · rfl
  · rename_i hc
    rw [hmem, Finmap.mem_keys, ← Finmap.lookup_eq_none] at hc
    rw [hc]
    rfl

theorem lists_removeNode {cm : ChunkMap} {nodeID chunkID nodeID' : String} :
    (cm.removeNode nodeID).Lists chunkID nodeID' ↔
      cm.Lists chunkID nodeID' ∧ nodeID' ≠ nodeID := by
  simp only [Lists, getLocations_removeNode, List.mem_filter, decide_eq_true_eq]
  constructor
  · rintro ⟨loc, ⟨hmem, hne⟩, rfl⟩
    exact ⟨⟨loc, hmem, rfl⟩, hne⟩
  · rintro ⟨⟨loc, hmem, rfl⟩, hne⟩
    exact ⟨loc, ⟨hmem, hne⟩, rfl⟩

end ChunkMap

end VaultFS.Metadata
