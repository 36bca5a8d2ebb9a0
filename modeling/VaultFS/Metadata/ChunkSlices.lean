import VaultFS.Metadata.ChunkTable
import VaultFS.Slices.Basic

/-!
# The slices of the chunk map

The map of the source has slices for values. `RemoveLocation` and `RemoveNode` filter a slice in
place, `AddLocation` stores to it or appends to it, and `GetLocations` and `UnderReplicated` give
copies to their callers. `ChunkSlices` is the map with its slices and the heap they lie in.

No two chunks share an array and no caller has a slice of an array of the map (`Apart`). So an
operation on the list of a chunk does what the one on values does (`view_apply`), and leaves every
other list alone.
-/

namespace VaultFS.Metadata

open FiniteMap Slices

instance : Inhabited Location := ⟨⟨"", ""⟩⟩

structure ChunkSlices where
  heap : Heap Location
  locations : Finmap fun _ : String => Slice

namespace ChunkSlices

def new : ChunkSlices := ⟨.empty, ∅⟩

/-- `cm.locations[chunkID]`. -/
def slice (cs : ChunkSlices) (chunkID : String) : Slice := (cs.locations.lookup chunkID).getD .nil

def addLocation (grow : ℕ → ℕ) (cs : ChunkSlices) (chunkID : String) (loc : Location) :
    ChunkSlices :=
  let locs := cs.slice chunkID
  match (locs.read cs.heap).findIdx? (·.nodeID = loc.nodeID) with
  | some i => ⟨cs.heap.write locs.array i loc, cs.locations.insert chunkID locs⟩
  | none =>
      let r := locs.append grow cs.heap loc
      ⟨r.1, cs.locations.insert chunkID r.2⟩

def removeLocation (grow : ℕ → ℕ) (cs : ChunkSlices) (chunkID nodeID : String) : ChunkSlices :=
  let r := (cs.slice chunkID).filterInPlace grow (·.nodeID ≠ nodeID) cs.heap
  if r.2.len = 0 then ⟨r.1, cs.locations.erase chunkID⟩
  else ⟨r.1, cs.locations.insert chunkID r.2⟩

/-- The turn of the loop for a chunk does what `RemoveLocation` does. -/
def removeNode (grow : ℕ → ℕ) (it : Iteration String) (cs : ChunkSlices) (nodeID : String) :
    ChunkSlices :=
  (it.order cs.locations.keys).foldl (fun cs chunkID => cs.removeLocation grow chunkID nodeID) cs

def getLocations (cs : ChunkSlices) (chunkID : String) : Heap Location × Slice :=
  let locs := cs.slice chunkID
  if locs.len = 0 then (cs.heap, .nil) else locs.clone cs.heap

def chunkCount (cs : ChunkSlices) : ℕ := cs.locations.keys.card

/-- The turn of the loop of `UnderReplicated` for a chunk. -/
def copyUnder (cs : ChunkSlices) (factor : ℤ)
    (acc : Heap Location × Finmap fun _ : String => Slice) (chunkID : String) :
    Heap Location × Finmap fun _ : String => Slice :=
  match cs.locations.lookup chunkID with
  | none => acc
  | some locs =>
      if locs.len < factor then
        let r := locs.clone acc.1
        (r.1, acc.2.insert chunkID r.2)
      else acc

def underReplicated (it : Iteration String) (cs : ChunkSlices) (factor : ℤ) :
    Heap Location × Finmap fun _ : String => Slice :=
  (it.order cs.locations.keys).foldl (cs.copyUnder factor) (cs.heap, ∅)

def apply (grow : ℕ → ℕ) (it : Iteration String) (cs : ChunkSlices) : MapCall → ChunkSlices
  | .addLocation chunkID loc => cs.addLocation grow chunkID loc
  | .removeLocation chunkID nodeID => cs.removeLocation grow chunkID nodeID
  | .removeNode nodeID => cs.removeNode grow it nodeID

/-- The lists that the slices hold. -/
def view (cs : ChunkSlices) : ChunkMap :=
  ⟨FiniteMap.filterMap (fun _ s => some (s.read cs.heap)) cs.locations⟩

/-- No array is shared: the slices of the map have one each, and those that were returned, with what
they held then, have others. -/
structure Apart (cs : ChunkSlices) (returned : List (Slice × List Location)) : Prop where
  valid : ∀ {c s}, cs.locations.lookup c = some s → s.Valid cs.heap ∧ 0 < s.len
  disjoint : ∀ {c c' s s'}, cs.locations.lookup c = some s → cs.locations.lookup c' = some s' →
    s.array = s'.array → c = c'
  kept : ∀ x ∈ returned, x.1.read cs.heap = x.2
  apart : ∀ x ∈ returned, x.1.len = 0 ∨ (x.1.Valid cs.heap ∧
    ∀ c s, cs.locations.lookup c = some s → x.1.array ≠ s.array)

/-- A slice with another array than that of a chunk. -/
structure Other (cs : ChunkSlices) (chunkID : String) (t : Slice) : Prop where
  valid : t.Valid cs.heap
  cap_pos : 0 < t.cap
  ne : ∀ s, cs.locations.lookup chunkID = some s → t.array ≠ s.array

variable {cs : ChunkSlices} {returned : List (Slice × List Location)} {chunkID : String}
  {heap : Heap Location} {s : Slice}

theorem lookup_view (cs : ChunkSlices) (chunkID : String) :
    cs.view.locations.lookup chunkID = (cs.locations.lookup chunkID).map (·.read cs.heap) := by
  rw [view, FiniteMap.lookup_filterMap]
  cases cs.locations.lookup chunkID <;> rfl

theorem getLocations_view (cs : ChunkSlices) (chunkID : String) :
    cs.view.getLocations chunkID = (cs.slice chunkID).read cs.heap := by
  rw [ChunkMap.getLocations, lookup_view, slice]
  cases cs.locations.lookup chunkID with
  | none => exact Slice.read_nil.symm
  | some s => rfl

/-- A slice with an array is in the map. -/
theorem lookup_of_cap_pos (h : 0 < (cs.slice chunkID).cap) :
    cs.locations.lookup chunkID = some (cs.slice chunkID) := by
  unfold slice at h ⊢
  cases hs : cs.locations.lookup chunkID with
  | none => simp [hs, Slice.nil] at h
  | some s => rfl

namespace Apart

theorem slice_valid (h : Apart cs returned) (chunkID : String) :
    (cs.slice chunkID).Valid cs.heap := by
  unfold slice
  cases hlookup : cs.locations.lookup chunkID with
  | none => exact Slice.valid_nil
  | some s => exact (h.valid hlookup).1

theorem other (h : Apart cs returned) {c : String} (hc : c ≠ chunkID)
    (hs : cs.locations.lookup c = some s) : Other cs chunkID s := by
  obtain ⟨hvalid, hlen⟩ := h.valid hs
  exact ⟨hvalid, hlen.trans_le hvalid.len_le, fun s' hs' heq => hc (h.disjoint hs hs' heq)⟩

theorem other_returned (h : Apart cs returned) (chunkID : String) {x : Slice × List Location}
    (hx : x ∈ returned) (hlen : x.1.len ≠ 0) : Other cs chunkID x.1 := by
  obtain ⟨hvalid, hne⟩ := (h.apart x hx).resolve_left hlen
  exact ⟨hvalid, (Nat.pos_of_ne_zero hlen).trans_le hvalid.len_le, hne chunkID⟩

/-- The array of a chunk changes, and the chunk has another slice or none. -/
theorem update {locations : Finmap fun _ : String => Slice} (h : Apart cs returned)
    (hkeep : ∀ t, Other cs chunkID t → heap.array t.array = cs.heap.array t.array)
    (hsame : ∀ c, c ≠ chunkID → locations.lookup c = cs.locations.lookup c)
    (hnew : ∀ s, locations.lookup chunkID = some s → (s.Valid heap ∧ 0 < s.len) ∧
      ∀ t, Other cs chunkID t → t.array ≠ s.array) :
    Apart ⟨heap, locations⟩ returned ∧ ∀ c, c ≠ chunkID →
      (view ⟨heap, locations⟩).locations.lookup c = cs.view.locations.lookup c := by
  have hread : ∀ t, Other cs chunkID t → t.Valid heap ∧ t.read heap = t.read cs.heap := by
    intro t ht
    refine ⟨⟨ht.valid.len_le, (hkeep t ht).symm ▸ ht.valid.cap_le⟩, ?_⟩
    rw [Slice.read, Slice.read, hkeep t ht]
  refine ⟨⟨?_, ?_, ?_, ?_⟩, ?_⟩
  · intro c s hs
    by_cases hc : c = chunkID
    · exact (hnew s (hc ▸ hs)).1
    · rw [hsame c hc] at hs
      exact ⟨(hread s (h.other hc hs)).1, (h.valid hs).2⟩
  · intro c c' s s' hs hs' heq
    by_cases hc : c = chunkID
    · by_cases hc' : c' = chunkID
      · rw [hc, hc']
      · rw [hsame c' hc'] at hs'
        exact absurd heq.symm ((hnew s (hc ▸ hs)).2 s' (h.other hc' hs'))
    · rw [hsame c hc] at hs
      by_cases hc' : c' = chunkID
      · exact absurd heq ((hnew s' (hc' ▸ hs')).2 s (h.other hc hs))
      · rw [hsame c' hc'] at hs'
        exact h.disjoint hs hs' heq
  · intro x hx
    by_cases hlen : x.1.len = 0
    · rw [← h.kept x hx]
      simp [Slice.read, hlen]
    · rw [(hread x.1 (h.other_returned chunkID hx hlen)).2, h.kept x hx]
  · intro x hx
    by_cases hlen : x.1.len = 0
    · exact .inl hlen
    · have hother := h.other_returned chunkID hx hlen
      refine .inr ⟨(hread x.1 hother).1, ?_⟩
      intro c s hs
      by_cases hc : c = chunkID
      · exact (hnew s (hc ▸ hs)).2 x.1 hother
      · rw [hsame c hc] at hs
        exact ((h.apart x hx).resolve_left hlen).2 c s hs
  · intro c hc
    rw [lookup_view, lookup_view, hsame c hc]
    cases hs : cs.locations.lookup c with
    | none => rfl
    | some s => rw [Option.map_some, Option.map_some, (hread s (h.other hc hs)).2]

theorem insert (h : Apart cs returned) (hs : s.Valid heap) (hlen : 0 < s.len)
    (hother : ∀ t, Other cs chunkID t →
      heap.array t.array = cs.heap.array t.array ∧ t.array ≠ s.array) :
    Apart ⟨heap, cs.locations.insert chunkID s⟩ returned ∧
      view ⟨heap, cs.locations.insert chunkID s⟩ =
        ⟨cs.view.locations.insert chunkID (s.read heap)⟩ := by
  have hnew : ∀ s', (cs.locations.insert chunkID s).lookup chunkID = some s' →
      (s'.Valid heap ∧ 0 < s'.len) ∧ ∀ t, Other cs chunkID t → t.array ≠ s'.array := by
    intro s' hs'
    rw [Finmap.lookup_insert] at hs'
    obtain rfl := Option.some.inj hs'
    exact ⟨⟨hs, hlen⟩, fun t ht => (hother t ht).2⟩
  obtain ⟨hapart, hview⟩ := h.update (fun t ht => (hother t ht).1)
    (fun c hc => Finmap.lookup_insert_of_ne _ hc) hnew
  refine ⟨hapart, ChunkMap.ext_lookup fun c => ?_⟩
  by_cases hc : c = chunkID
  · subst hc
    rw [lookup_view, Finmap.lookup_insert, Finmap.lookup_insert]
    rfl
  · exact (hview c hc).trans (Finmap.lookup_insert_of_ne _ hc).symm

theorem erase (h : Apart cs returned)
    (hother : ∀ t, Other cs chunkID t → heap.array t.array = cs.heap.array t.array) :
    Apart ⟨heap, cs.locations.erase chunkID⟩ returned ∧
      view ⟨heap, cs.locations.erase chunkID⟩ = ⟨cs.view.locations.erase chunkID⟩ := by
  have hnew : ∀ s', (cs.locations.erase chunkID).lookup chunkID = some s' →
      (s'.Valid heap ∧ 0 < s'.len) ∧ ∀ t, Other cs chunkID t → t.array ≠ s'.array := by
    intro s' hs'
    rw [Finmap.lookup_erase] at hs'
    cases hs'
  obtain ⟨hapart, hview⟩ := h.update hother (fun c hc => Finmap.lookup_erase_ne hc) hnew
  refine ⟨hapart, ChunkMap.ext_lookup fun c => ?_⟩
  by_cases hc : c = chunkID
  · subst hc
    rw [lookup_view, Finmap.lookup_erase, Finmap.lookup_erase]
    rfl
  · exact (hview c hc).trans (Finmap.lookup_erase_ne hc).symm

/-- The operation has changed the array of the slice of the chunk, and no other. -/
theorem other_frame {s' : Slice} (hs : cs.locations.lookup chunkID = some s)
    (hf : Frame cs.heap heap s.array) (harray : s'.array = s.array) {t : Slice}
    (ht : Other cs chunkID t) :
    heap.array t.array = cs.heap.array t.array ∧ t.array ≠ s'.array :=
  ⟨hf.array _ (ht.valid.lt_size ht.cap_pos) (ht.ne s hs), harray ▸ ht.ne s hs⟩

/-- The operation has taken a new array, and changed no other. -/
theorem other_alloc (hf : ∀ a, Frame cs.heap heap a) (harray : s.array = cs.heap.size) {t : Slice}
    (ht : Other cs chunkID t) :
    heap.array t.array = cs.heap.array t.array ∧ t.array ≠ s.array := by
  have hlt := ht.valid.lt_size ht.cap_pos
  refine ⟨(hf (t.array + 1)).array _ hlt (Nat.lt_succ_self _).ne, ?_⟩
  rw [harray]
  exact hlt.ne

theorem addLocation (h : Apart cs returned) (grow : ℕ → ℕ) (chunkID : String) (loc : Location) :
    Apart (cs.addLocation grow chunkID loc) returned ∧
      (cs.addLocation grow chunkID loc).view = cs.view.addLocation chunkID loc := by
  have hvalid := h.slice_valid chunkID
  rw [ChunkMap.addLocation, getLocations_view, ChunkMap.replaceOrAppend_eq, ChunkSlices.addLocation]
  cases hfind : ((cs.slice chunkID).read cs.heap).findIdx? (·.nodeID = loc.nodeID) with
  | some i =>
      obtain ⟨hi, -⟩ := List.findIdx?_eq_some_iff_getElem.mp hfind
      rw [hvalid.length_read] at hi
      have hlen : 0 < (cs.slice chunkID).len := by omega
      have hlookup := lookup_of_cap_pos (hlen.trans_le hvalid.len_le)
      have hins := h.insert (hvalid.write (i := i) (x := loc)) hlen fun t ht =>
        other_frame hlookup .write rfl ht
      rwa [Slice.read_write] at hins
  | none =>
      obtain ⟨hvalid', hread, hframe⟩ := Slice.append_spec hvalid grow loc
      have hlen : 0 < ((cs.slice chunkID).append grow cs.heap loc).2.len := by
        rw [← hvalid'.length_read, hread]
        simp
      have hins := h.insert hvalid' hlen fun t ht => by
        rcases hframe with ⟨harray, hcap, hf⟩ | ⟨harray, hf⟩
        · exact other_frame (lookup_of_cap_pos hcap) hf harray ht
        · exact other_alloc hf harray ht
      rwa [hread] at hins

theorem removeLocation (h : Apart cs returned) (grow : ℕ → ℕ) (chunkID nodeID : String) :
    Apart (cs.removeLocation grow chunkID nodeID) returned ∧
      (cs.removeLocation grow chunkID nodeID).view = cs.view.removeLocation chunkID nodeID := by
  have hspec := Slice.filterInPlace_spec (h.slice_valid chunkID) grow
    fun l : Location => decide (l.nodeID ≠ nodeID)
  rw [ChunkMap.removeLocation, getLocations_view, ChunkSlices.removeLocation]
  simp only [ChunkMap.without]
  generalize hr : (cs.slice chunkID).filterInPlace grow _ cs.heap = r at hspec ⊢
  obtain ⟨harray, hcap, hvalid, hread, hframe⟩ := hspec
  have hother : ∀ t, Other cs chunkID t → r.1.array t.array = cs.heap.array t.array := by
    intro t ht
    cases hs : cs.locations.lookup chunkID with
    | none =>
        rw [slice, hs] at hr
        exact hr ▸ rfl
    | some s =>
        rw [slice, hs] at hframe
        exact (other_frame hs hframe (rfl : s.array = s.array) ht).1
  rw [← hread]
  split
  · rename_i hlen
    have hnil : r.2.read r.1 = [] := by
      rw [← List.length_eq_zero_iff, hvalid.length_read, hlen]
    rw [if_pos hnil]
    exact h.erase hother
  · rename_i hlen
    have hne : r.2.read r.1 ≠ [] := by
      rwa [Ne, ← List.length_eq_zero_iff, hvalid.length_read]
    rw [if_neg hne]
    refine h.insert hvalid (Nat.pos_of_ne_zero hlen) fun t ht => ⟨hother t ht, ?_⟩
    have hcap_pos : 0 < (cs.slice chunkID).cap :=
      hcap ▸ (Nat.pos_of_ne_zero hlen).trans_le hvalid.len_le
    rw [harray]
    exact ht.ne _ (lookup_of_cap_pos hcap_pos)

theorem foldl_removeLocation (h : Apart cs returned) (grow : ℕ → ℕ) (nodeID : String)
    (chunkIDs : List String) :
    Apart (chunkIDs.foldl (fun cs chunkID => cs.removeLocation grow chunkID nodeID) cs) returned ∧
      (chunkIDs.foldl (fun cs chunkID => cs.removeLocation grow chunkID nodeID) cs).view =
        chunkIDs.foldl (fun cm chunkID => cm.removeLocation chunkID nodeID) cs.view := by
  induction chunkIDs generalizing cs with
  | nil => exact ⟨h, rfl⟩
  | cons c rest ih =>
      obtain ⟨hapart, hview⟩ := h.removeLocation grow c nodeID
      rw [List.foldl_cons, List.foldl_cons, ← hview]
      exact ih hapart

theorem mem_keys_view (cs : ChunkSlices) (c : String) :
    c ∈ cs.locations.keys ↔ c ∈ cs.view.locations.keys := by
  rw [Finmap.mem_keys, Finmap.mem_keys, Finmap.mem_iff, Finmap.mem_iff, lookup_view]
  simp

theorem removeNode (h : Apart cs returned) (grow : ℕ → ℕ) (it : Iteration String)
    (nodeID : String) :
    Apart (cs.removeNode grow it nodeID) returned ∧
      (cs.removeNode grow it nodeID).view = cs.view.removeNode nodeID := by
  obtain ⟨hapart, hview⟩ := h.foldl_removeLocation grow nodeID (it.order cs.locations.keys)
  refine ⟨hapart, hview.trans (ChunkMap.removeNode_eq_foldl nodeID (it.nodup _) ?_)⟩
  intro c
  rw [it.mem_order, mem_keys_view]

/-- A call on the slices does what the one on the lists does. -/
theorem apply (h : Apart cs returned) (grow : ℕ → ℕ) (it : Iteration String) (c : MapCall) :
    Apart (cs.apply grow it c) returned ∧ (cs.apply grow it c).view = cs.view.apply c := by
  cases c with
  | addLocation chunkID loc => exact h.addLocation grow chunkID loc
  | removeLocation chunkID nodeID => exact h.removeLocation grow chunkID nodeID
  | removeNode nodeID => exact h.removeNode grow it nodeID

/-- New arrays are taken, and nothing else changes. -/
theorem alloc (h : Apart cs returned) (hf : ∀ a, Frame cs.heap heap a) :
    Apart ⟨heap, cs.locations⟩ returned ∧ view ⟨heap, cs.locations⟩ = cs.view := by
  have hread : ∀ {t : Slice}, t.Valid cs.heap → 0 < t.len →
      t.Valid heap ∧ t.read heap = t.read cs.heap := by
    intro t ht hlen
    have hcap := hlen.trans_le ht.len_le
    have hne : t.array ≠ t.array + 1 := (Nat.lt_succ_self _).ne
    exact ⟨ht.frame hcap (hf _) hne, ht.read_frame hcap (hf _) hne⟩
  refine ⟨⟨?_, h.disjoint, ?_, ?_⟩, ChunkMap.ext_lookup fun c => ?_⟩
  · intro c s hs
    obtain ⟨hvalid, hlen⟩ := h.valid hs
    exact ⟨(hread hvalid hlen).1, hlen⟩
  · intro x hx
    rw [← h.kept x hx]
    rcases Nat.eq_zero_or_pos x.1.len with hlen | hlen
    · simp [Slice.read, hlen]
    · exact (hread ((h.apart x hx).resolve_left hlen.ne').1 hlen).2
  · intro x hx
    rcases Nat.eq_zero_or_pos x.1.len with hlen | hlen
    · exact .inl hlen
    · obtain ⟨hvalid, hne⟩ := (h.apart x hx).resolve_left hlen.ne'
      exact .inr ⟨(hread hvalid hlen).1, hne⟩
  · rw [lookup_view, lookup_view]
    cases hs : cs.locations.lookup c with
    | none => rfl
    | some s =>
        obtain ⟨hvalid, hlen⟩ := h.valid hs
        rw [Option.map_some, Option.map_some, (hread hvalid hlen).2]

/-- Slices of arrays that the map does not have are returned. -/
theorem give {given : List (Slice × List Location)} (h : Apart cs returned)
    (hread : ∀ x ∈ given, x.1.read cs.heap = x.2)
    (hnew : ∀ x ∈ given, x.1.len = 0 ∨ (x.1.Valid cs.heap ∧
      ∀ c s, cs.locations.lookup c = some s → x.1.array ≠ s.array)) :
    Apart cs (given ++ returned) := by
  refine ⟨h.valid, h.disjoint, ?_, ?_⟩
  · intro x hx
    rcases List.mem_append.mp hx with hgiven | hold
    · exact hread x hgiven
    · exact h.kept x hold
  · intro x hx
    rcases List.mem_append.mp hx with hgiven | hold
    · exact hnew x hgiven
    · exact h.apart x hold

/-- The arrays of the map are old ones. -/
theorem ne_of_size_le (h : Apart cs returned) {a : ℕ} (ha : cs.heap.size ≤ a) {c : String}
    (hs : cs.locations.lookup c = some s) : a ≠ s.array := by
  obtain ⟨hvalid, hlen⟩ := h.valid hs
  have hlt := hvalid.lt_size (hlen.trans_le hvalid.len_le)
  omega

theorem getLocations (h : Apart cs returned) (chunkID : String) :
    (cs.getLocations chunkID).2.read (cs.getLocations chunkID).1 = cs.view.getLocations chunkID ∧
    (∀ a, Frame cs.heap (cs.getLocations chunkID).1 a) ∧
    ((cs.getLocations chunkID).2.len = 0 ∨
      (cs.getLocations chunkID).2.Valid (cs.getLocations chunkID).1 ∧
      (cs.getLocations chunkID).2.array = cs.heap.size) := by
  have hvalid := h.slice_valid chunkID
  rw [getLocations_view, ChunkSlices.getLocations]
  split
  · rename_i hlen
    refine ⟨?_, fun a => .refl _ a, .inl rfl⟩
    rw [Slice.read_nil, eq_comm, ← List.length_eq_zero_iff, hvalid.length_read, hlen]
  · obtain ⟨hcopy, hread, harray, hframe⟩ := Slice.clone_spec hvalid
    exact ⟨hread, hframe, .inr ⟨hcopy, harray⟩⟩

end Apart

/-- The copies that `UnderReplicated` has made when it has been at some of the chunks. -/
structure Copies (cs : ChunkSlices) (factor : ℤ) (visited : List String)
    (acc : Heap Location × Finmap fun _ : String => Slice) : Prop where
  frame : ∀ a, Frame cs.heap acc.1 a
  lookup : ∀ c, (acc.2.lookup c).map (·.read acc.1) =
    if c ∈ visited then (cs.view.underReplicated factor.toNat).lookup c else none
  fresh : ∀ c s, acc.2.lookup c = some s →
    s.Valid acc.1 ∧ 0 < s.len ∧ cs.heap.size ≤ s.array

theorem lookup_underReplicated_view (h : Apart cs returned) (factor : ℤ) (c : String) :
    (cs.view.underReplicated factor.toNat).lookup c =
      (cs.locations.lookup c).bind fun s =>
        if s.len < factor then some (s.read cs.heap) else none := by
  rw [ChunkMap.underReplicated, FiniteMap.lookup_filterMap, lookup_view]
  cases hs : cs.locations.lookup c with
  | none => rfl
  | some s =>
      have hlen := (h.valid hs).1.length_read
      have hiff : (s.read cs.heap).length < factor.toNat ↔ (s.len : ℤ) < factor := by omega
      simp only [Option.map_some, Option.bind_some, hiff]

namespace Copies

variable {factor : ℤ} {visited : List String} {c : String}
  {acc : Heap Location × Finmap fun _ : String => Slice}

/-- A chunk with enough replicas is passed over. -/
theorem skip (h : Copies cs factor visited acc) (hc : c ∉ visited)
    (hnone : (cs.view.underReplicated factor.toNat).lookup c = none) :
    Copies cs factor (visited ++ [c]) acc := by
  refine ⟨h.frame, fun c' => ?_, h.fresh⟩
  rw [h.lookup c']
  by_cases hc' : c' = c
  · subst hc'
    simp [hc, hnone]
  · simp [hc']

/-- The list of a chunk is copied; the copies there are stay as they are. -/
theorem insert {s : Slice} (h : Copies cs factor visited acc) (hvalid : s.Valid cs.heap)
    (hlen : 0 < s.len)
    (hlookup : (cs.view.underReplicated factor.toNat).lookup c = some (s.read cs.heap)) :
    Copies cs factor (visited ++ [c])
      ((s.clone acc.1).1, acc.2.insert c (s.clone acc.1).2) := by
  have hcap := hlen.trans_le hvalid.len_le
  have hne : s.array ≠ s.array + 1 := (Nat.lt_succ_self _).ne
  obtain ⟨hcopy, hread, harray, hframe⟩ :=
    Slice.clone_spec (hvalid.frame hcap (h.frame _) hne)
  have hold : ∀ c' t, acc.2.lookup c' = some t →
      t.Valid (s.clone acc.1).1 ∧ t.read (s.clone acc.1).1 = t.read acc.1 := by
    intro c' t ht
    obtain ⟨htv, htl, -⟩ := h.fresh c' t ht
    have htc := htl.trans_le htv.len_le
    have htn : t.array ≠ t.array + 1 := (Nat.lt_succ_self _).ne
    exact ⟨htv.frame htc (hframe _) htn, htv.read_frame htc (hframe _) htn⟩
  refine ⟨fun a => (h.frame a).trans (hframe a), fun c' => ?_, fun c' t ht => ?_⟩
  · by_cases hc' : c' = c
    · subst hc'
      rw [Finmap.lookup_insert, Option.map_some, hread,
        hvalid.read_frame hcap (h.frame _) hne, if_pos (by simp), hlookup]
    · rw [Finmap.lookup_insert_of_ne _ hc']
      have hc'' := h.lookup c'
      cases ht : acc.2.lookup c' with
      | none =>
          rw [ht] at hc''
          simpa [hc'] using hc''
      | some t =>
          rw [ht, Option.map_some] at hc''
          rw [Option.map_some, (hold c' t ht).2, hc'']
          simp [hc']
  · by_cases hc' : c' = c
    · subst hc'
      rw [Finmap.lookup_insert] at ht
      obtain rfl := Option.some.inj ht
      exact ⟨hcopy, hlen, harray ▸ (h.frame 0).size⟩
    · rw [Finmap.lookup_insert_of_ne _ hc'] at ht
      exact ⟨(hold c' t ht).1, (h.fresh c' t ht).2⟩

theorem step (h : Copies cs factor visited acc) (hA : Apart cs returned) (hc : c ∉ visited) :
    Copies cs factor (visited ++ [c]) (cs.copyUnder factor acc c) := by
  have hlookup := lookup_underReplicated_view hA factor c
  unfold copyUnder
  cases hs : cs.locations.lookup c with
  | none =>
      rw [hs] at hlookup
      exact h.skip hc hlookup
  | some s =>
      simp only [hs, Option.bind_some] at hlookup ⊢
      split
      · rename_i hlt
        rw [if_pos hlt] at hlookup
        obtain ⟨hvalid, hlen⟩ := hA.valid hs
        exact h.insert hvalid hlen hlookup
      · rename_i hle
        rw [if_neg hle] at hlookup
        exact h.skip hc hlookup

end Copies

/-- What `UnderReplicated` returns: copies of the lists, in new arrays. -/
theorem Apart.underReplicated (h : Apart cs returned) (it : Iteration String) (factor : ℤ) :
    Copies cs factor (it.order cs.locations.keys) (cs.underReplicated it factor) := by
  have hrun : ∀ (todo visited : List String) (acc : Heap Location × Finmap fun _ : String => Slice),
      (visited ++ todo).Nodup → Copies cs factor visited acc →
      Copies cs factor (visited ++ todo) (todo.foldl (cs.copyUnder factor) acc) := by
    intro todo
    induction todo with
    | nil =>
        intro visited acc _ hacc
        simpa using hacc
    | cons c todo ih =>
        intro visited acc hnodup hacc
        have hc : c ∉ visited := by
          intro hmem
          exact (List.nodup_append.mp hnodup).2.2 c hmem c List.mem_cons_self rfl
        have hassoc : visited ++ c :: todo = (visited ++ [c]) ++ todo := by simp
        rw [hassoc] at hnodup ⊢
        exact ih (visited ++ [c]) _ hnodup (hacc.step h hc)
  have hinit : Copies cs factor [] (cs.heap, ∅) := ⟨fun a => .refl _ a, by simp, by simp⟩
  exact hrun _ [] _ (it.nodup _) hinit

theorem Apart.lookup_underReplicated (h : Apart cs returned) (it : Iteration String) (factor : ℤ)
    (c : String) :
    ((cs.underReplicated it factor).2.lookup c).map (·.read (cs.underReplicated it factor).1) =
      (cs.view.underReplicated factor.toNat).lookup c := by
  rw [(h.underReplicated it factor).lookup c]
  split
  · rfl
  · rename_i hc
    rw [it.mem_order, Finmap.mem_keys, ← Finmap.lookup_eq_none] at hc
    rw [lookup_underReplicated_view h, hc]
    rfl

/-- The chunks of `UnderReplicated`, and what their slices hold. -/
theorem Apart.underReplicated_iff (h : Apart cs returned) (it : Iteration String) (factor : ℤ)
    (c : String) : c ∈ (cs.underReplicated it factor).2.keys ↔
      0 < (cs.view.getLocations c).length ∧ (cs.view.getLocations c).length < factor := by
  have hlookup := h.lookup_underReplicated it factor c
  rw [lookup_underReplicated_view h] at hlookup
  rw [Finmap.mem_keys, ← Finmap.lookup_isSome, ← Option.isSome_map, hlookup, getLocations_view,
    slice]
  cases hs : cs.locations.lookup c with
  | none => simp
  | some s =>
      obtain ⟨hvalid, hlen⟩ := h.valid hs
      simp only [Option.bind_some, Option.getD_some, hvalid.length_read, hlen, true_and]
      split <;> simp_all

theorem Apart.read_underReplicated (h : Apart cs returned) (it : Iteration String) (factor : ℤ)
    {c : String} (hs : (cs.underReplicated it factor).2.lookup c = some s) :
    s.read (cs.underReplicated it factor).1 = cs.view.getLocations c ∧
      s.len = (cs.view.getLocations c).length := by
  have hlookup := h.lookup_underReplicated it factor c
  rw [hs, Option.map_some, lookup_underReplicated_view h, eq_comm,
    Option.bind_eq_some_iff] at hlookup
  obtain ⟨s', hs', hif⟩ := hlookup
  have hread : s.read (cs.underReplicated it factor).1 = cs.view.getLocations c := by
    rw [getLocations_view, slice, hs', Option.getD_some]
    split at hif
    · exact (Option.some.inj hif).symm
    · cases hif
  refine ⟨hread, ?_⟩
  rw [← hread, ((h.underReplicated it factor).fresh c s hs).1.length_read]

/-- A call to the chunk map, with what the runtime decides: the spare elements of a new array, and
the order of the loops over the map. -/
inductive Event where
  | call (c : MapCall) (grow : ℕ → ℕ) (it : Iteration String)
  | getLocations (chunkID : String)
  | underReplicated (factor : ℤ) (it : Iteration String)

/-- The call, if it is one that changes the map. -/
def Event.call? : Event → Option MapCall
  | .call c _ _ => some c
  | _ => none

structure World where
  map : ChunkSlices
  /-- The lists that were returned, with what they held then. -/
  returned : List (Slice × List Location)

namespace World

def init : World := ⟨new, []⟩

/-- Each slice of the map, with what it holds. -/
def given (heap : Heap Location) (out : Finmap fun _ : String => Slice) (it : Iteration String) :
    List (Slice × List Location) :=
  (it.order out.keys).filterMap fun c => (out.lookup c).map fun s => (s, s.read heap)

def step (w : World) : Event → World
  | .call c grow it => { w with map := w.map.apply grow it c }
  | .getLocations chunkID =>
      let r := w.map.getLocations chunkID
      ⟨⟨r.1, w.map.locations⟩, [(r.2, r.2.read r.1)] ++ w.returned⟩
  | .underReplicated factor it =>
      let r := w.map.underReplicated it factor
      ⟨⟨r.1, w.map.locations⟩, given r.1 r.2 it ++ w.returned⟩

end World

/-- What one call does to the lists of the map. No list that was returned changes. -/
theorem World.step_apart {w : World} (h : Apart w.map w.returned) (ev : Event) :
    Apart (w.step ev).map (w.step ev).returned ∧
      (w.step ev).map.view = ev.call?.elim w.map.view (w.map.view.apply ·) := by
  cases ev with
  | call c grow it => exact h.apply grow it c
  | getLocations chunkID =>
      obtain ⟨-, hframe, hnew⟩ := h.getLocations chunkID
      obtain ⟨hapart, hview⟩ := h.alloc hframe
      refine ⟨hapart.give (by simp) ?_, hview⟩
      intro x hx
      obtain rfl := List.mem_singleton.mp hx
      rcases hnew with hlen | ⟨hvalid, harray⟩
      · exact .inl hlen
      · exact .inr ⟨hvalid, fun c s hs => h.ne_of_size_le harray.ge hs⟩
  | underReplicated factor it =>
      have hcopies := h.underReplicated it factor
      obtain ⟨hapart, hview⟩ := h.alloc hcopies.frame
      refine ⟨hapart.give ?_ ?_, hview⟩
      · intro x hx
        obtain ⟨c, -, hx'⟩ := List.mem_filterMap.mp hx
        obtain ⟨s, -, rfl⟩ := Option.map_eq_some_iff.mp hx'
        rfl
      · intro x hx
        obtain ⟨c, -, hx'⟩ := List.mem_filterMap.mp hx
        obtain ⟨s, hs, rfl⟩ := Option.map_eq_some_iff.mp hx'
        obtain ⟨hvalid, -, hsize⟩ := hcopies.fresh c s hs
        exact .inr ⟨hvalid, fun c' s' hs' => h.ne_of_size_le hsize hs'⟩

/-- The lists of the map are those of the table, after any sequence of calls. -/
theorem World.refines (events : List Event) :
    Apart (events.foldl step .init).map (events.foldl step .init).returned ∧
      (events.foldl step .init).map.view.Refines (table (events.filterMap Event.call?))
        (events.filterMap Event.call?).length := by
  induction events using List.reverseRecOn with
  | nil =>
      refine ⟨⟨by simp [init, new], by simp [init, new], by simp [init], by simp [init]⟩, ?_⟩
      have hview : (World.init.map).view = ChunkMap.empty :=
        ChunkMap.ext_lookup fun c => by simp [lookup_view, init, new, ChunkMap.empty]
      simp only [List.foldl_nil, hview]
      exact ChunkMap.Refines.empty
  | append_singleton events ev ih =>
      obtain ⟨hapart, hrefines⟩ := ih
      rw [List.foldl_append, List.foldl_cons, List.foldl_nil, List.filterMap_append]
      obtain ⟨hapart', hview⟩ := World.step_apart hapart ev
      refine ⟨hapart', ?_⟩
      rw [hview]
      cases hev : ev.call? with
      | none => simpa [hev] using hrefines
      | some c =>
          simp only [List.filterMap_cons, hev, List.filterMap_nil, Option.elim_some, table_concat,
            List.length_append, List.length_singleton]
          exact hrefines.apply c

/-- After any sequence of calls: `GetLocations` lists the nodes of the chunk in the table, each once
and in the order in which they were added, with the last address. No chunk has an empty list,
`ChunkCount` is the number of chunks with a node, and `UnderReplicated` gives the lists of those
with too few. No list that was returned has changed. -/
theorem chunkMap_refines (events : List Event) :
    let w := events.foldl World.step .init
    let t := table (events.filterMap Event.call?)
    (∀ chunkID, let r := w.map.getLocations chunkID
      Represents (t chunkID) (r.2.read r.1)) ∧
    (∀ chunkID s, w.map.locations.lookup chunkID = some s → s.read w.map.heap ≠ []) ∧
    w.map.chunkCount = {c | (t.nodes c).Nonempty}.ncard ∧
    (∀ (factor : ℤ) (it : Iteration String) (chunkID : String) (locs : List Location),
      let r := w.map.underReplicated it factor
      (r.2.lookup chunkID).map (·.read r.1) = some locs ↔ (t.nodes chunkID).Nonempty ∧
        (t.nodes chunkID).ncard < factor ∧
        locs = (w.map.getLocations chunkID).2.read (w.map.getLocations chunkID).1) ∧
    ∀ x ∈ w.returned, x.1.read w.map.heap = x.2 := by
  intro w t
  obtain ⟨hapart, hrefines⟩ := World.refines events
  refine ⟨?_, ?_, ?_, ?_, hapart.kept⟩
  · intro chunkID
    have hrow := hrefines.row chunkID
    rw [← (hapart.getLocations chunkID).1] at hrow
    exact hrow
  · intro chunkID s hs hnil
    refine hrefines.ne_nil chunkID ?_
    rw [lookup_view, hs, Option.map_some, hnil]
  · rw [← hrefines.chunkCount_eq]
    exact congrArg Finset.card (Finset.ext (Apart.mem_keys_view w.map))
  · intro factor it chunkID locs
    have hfactor : ∀ n : ℕ, n < factor.toNat ↔ (n : ℤ) < factor := by omega
    simp only [w, hapart.lookup_underReplicated it factor chunkID,
      hrefines.lookup_underReplicated factor.toNat chunkID locs, hfactor,
      (hapart.getLocations chunkID).1, t]

end ChunkSlices

end VaultFS.Metadata
