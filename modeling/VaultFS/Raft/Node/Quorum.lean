import VaultFS.Raft.Node.Frame
import VaultFS.Rank.Basic
import Mathlib.Algebra.Ring.Parity
import Mathlib.Data.Finset.Card
import Mathlib.Data.List.Intervals

/-!
# The commit rule

`advanceCommitIndex` sorts the match indices of a leader in descending order and
takes the one at position `(len(peers)+2)/2 - 1`. By the rank lemma this is the
largest index that at least `(N+1)/2` of the `N` nodes hold. Elections are won
with `N/2 + 1` votes, so every commit quorum meets every winning set of voters;
but `(N+1)/2` nodes are a strict majority only when `N` is odd.
-/

namespace VaultFS

namespace Raft

namespace IndexMap

variable (m : IndexMap)

theorem values_eq : m.values = m.keys.map m.get := by
  rw [values, AList.keys, List.keys, List.map_map]
  refine List.map_congr_left fun s hs => ?_
  have hlookup : m.lookup s.1 = some s.2 := AList.mem_lookup_iff.mpr hs
  simp [get, hlookup]

theorem values_perm {m : IndexMap} {ps : List String} (h : m.keys.Perm ps) :
    m.values.Perm (ps.map m.get) := by
  rw [values_eq]
  exact h.map m.get

@[simp] theorem get_set_self (p : String) (v : ℕ) : (m.set p v).get p = v := by
  simp [get, set]

theorem get_set_ne {p q : String} (h : q ≠ p) (v : ℕ) : (m.set p v).get q = m.get q := by
  simp [get, set, AList.lookup_insert_ne h]

theorem keys_set_of_mem {m : IndexMap} {p : String} (h : p ∈ m.keys) (v : ℕ) :
    (m.set p v).keys.Perm m.keys := by
  rw [set, AList.keys_insert]
  exact (List.perm_cons_erase h).symm

theorem keys_set_of_notMem {m : IndexMap} {p : String} (h : p ∉ m.keys) (v : ℕ) :
    (m.set p v).keys = p :: m.keys := by
  rw [set, AList.keys_insert, List.erase_of_not_mem h]

/-- Setting one value for each of several new keys. -/
theorem foldl_set {ps : List String} (hps : ps.Nodup) (v : ℕ) {m : IndexMap}
    (hnew : ∀ p ∈ ps, p ∉ m.keys) :
    (ps.foldl (fun (m : IndexMap) p => m.set p v) m).keys.Perm (ps ++ m.keys) ∧
      (∀ p ∈ ps, (ps.foldl (fun (m : IndexMap) p => m.set p v) m).get p = v) ∧
      ∀ p, p ∉ ps → (ps.foldl (fun (m : IndexMap) p => m.set p v) m).get p = m.get p := by
  induction ps generalizing m with
  | nil => simp
  | cons q ps ih =>
      obtain ⟨hq, hps⟩ := List.nodup_cons.mp hps
      have hkeys := keys_set_of_notMem (hnew q (by simp)) v
      have hnew' : ∀ p ∈ ps, p ∉ (m.set q v).keys := by
        intro p hp
        rw [hkeys, List.mem_cons, not_or]
        exact ⟨fun heq => hq (heq ▸ hp), hnew p (by simp [hp])⟩
      obtain ⟨hperm, hin, hout⟩ := ih hps hnew'
      refine ⟨?_, ?_, ?_⟩
      · rw [hkeys] at hperm
        exact hperm.trans List.perm_middle
      · intro p hp
        rcases List.mem_cons.mp hp with rfl | hp
        · exact (hout p hq).trans (get_set_self m p v)
        · exact hin p hp
      · intro p hp
        rw [List.mem_cons, not_or] at hp
        exact (hout p hp.2).trans (get_set_ne m hp.1 v)

end IndexMap

namespace Node

/-- All nodes of the cluster, as this node knows them. -/
def members (n : Node) : List String := n.id :: n.peers

/-- The node keeps one match index for each node of the cluster. -/
structure Tracking (n : Node) : Prop where
  nodup : n.members.Nodup
  keys : n.matchIndex.keys.Perm n.members

/-- The nodes whose match index has reached `i`. -/
def holders (n : Node) (i : ℕ) : List String := n.members.filter fun p => i ≤ n.matchIndex.get p

/-- The index that `advanceCommitIndex` reads off the sorted match indices. -/
def newCommit (n : Node) : ℕ :=
  (n.matchIndex.values.insertionSort (· ≥ ·)).getD ((n.peers.length + 1 + 1) / 2 - 1) 0

variable {n : Node}

theorem Tracking.length_values (h : n.Tracking) :
    n.matchIndex.values.length = n.members.length := by
  rw [(IndexMap.values_perm h.keys).length_eq, List.length_map]

theorem Tracking.length_holders (h : n.Tracking) (i : ℕ) :
    (n.holders i).length = n.matchIndex.values.countP (i ≤ ·) := by
  rw [(IndexMap.values_perm h.keys).countP_eq, List.countP_map, holders,
    List.countP_eq_length_filter]
  rfl

/-- The new commit index is the largest one that `(N+1)/2` nodes hold. -/
theorem Tracking.le_newCommit_iff (h : n.Tracking) (j : ℕ) :
    j ≤ n.newCommit ↔ (n.members.length + 1) / 2 ≤ (n.holders j).length := by
  have hmem : n.members.length = n.peers.length + 1 := rfl
  have hlen : (n.matchIndex.values.insertionSort (· ≥ ·)).length = n.peers.length + 1 := by
    rw [List.length_insertionSort, h.length_values, hmem]
  have hk : (n.peers.length + 1 + 1) / 2 - 1 <
      (n.matchIndex.values.insertionSort (· ≥ ·)).length := by omega
  rw [newCommit, List.getD_eq_getElem?_getD, List.getElem?_eq_getElem hk, Option.getD_some,
    Rank.le_getElem_insertionSort hk,
    ← h.length_holders, hmem]
  omega

/-- What `advanceCommitIndex` does, in terms of the new commit index. -/
theorem Tracking.advanceCommitIndex_eq (h : n.Tracking) :
    n.advanceCommitIndex =
      if n.commitIndex < n.newCommit ∧ n.log.term n.newCommit = .ok n.currentTerm then
        { n with commitIndex := n.newCommit, applySig := true }
      else n := by
  have hq : ¬ (n.peers.length + 1 + 1) / 2 >
      (n.matchIndex.values.insertionSort (· ≥ ·)).length := by
    have hmem : n.members.length = n.peers.length + 1 := rfl
    rw [List.length_insertionSort, h.length_values, hmem]
    omega
  unfold advanceCommitIndex
  simp only [if_neg hq]
  change (if n.newCommit > n.commitIndex then _ else n) = _
  by_cases hlt : n.commitIndex < n.newCommit
  · rw [if_pos hlt, ← newCommit]
    cases ht : n.log.term n.newCommit with
    | error e => simp
    | ok t => simp [hlt]
  · rw [if_neg hlt, if_neg (fun hc => hlt hc.1)]

/-- The replication indices of a new leader. -/
theorem becomeLeader_indices (hnodup : n.members.Nodup) (hs : n.state = .candidate) :
    n.becomeLeader.matchIndex.keys.Perm n.members ∧
      n.becomeLeader.matchIndex.get n.id = n.log.lastIndex ∧
      (∀ p ∈ n.peers, n.becomeLeader.matchIndex.get p = 0) ∧
      ∀ p ∈ n.peers, n.becomeLeader.nextIndex.get p = n.log.lastIndex + 1 := by
  obtain ⟨hid, hpeers⟩ := List.nodup_cons.mp hnodup
  obtain ⟨hkeys, hzero, -⟩ := IndexMap.foldl_set hpeers 0 (m := ∅) (by simp)
  obtain ⟨-, hnext, -⟩ := IndexMap.foldl_set hpeers (n.log.lastIndex + 1) (m := ∅) (by simp)
  have hne : ∀ p ∈ n.peers, p ≠ n.id := fun p hp heq => hid (heq ▸ hp)
  unfold becomeLeader
  rw [if_neg (by simp [hs])]
  refine ⟨?_, ?_, ?_, hnext⟩
  · rw [IndexMap.keys_set_of_notMem]
    · rw [AList.keys_empty, List.append_nil] at hkeys
      exact hkeys.cons n.id
    · intro hmem
      exact hid (by simpa using hkeys.mem_iff.mp hmem)
  · exact IndexMap.get_set_self _ _ _
  · exact fun p hp => (IndexMap.get_set_ne _ (hne p hp) _).trans (hzero p hp)

/-- `advanceCommitIndex` moves the commit index to `i`. -/
def MovesTo (n : Node) (i : ℕ) : Prop :=
  n.advanceCommitIndex.commitIndex = i ∧ i ≠ n.commitIndex

/-- More than half of the nodes hold `i`. -/
def HeldByMajority (n : Node) (i : ℕ) : Prop := n.members.length < 2 * (n.holders i).length

/-- Commit quorums are strict majorities, they meet every winning set of voters,
and the commit index goes to the largest index with such a quorum when that index
is of the current term. -/
structure CommitsByMajority (n : Node) : Prop where
  majority : ∀ i, n.MovesTo i → n.HeldByMajority i
  meets : ∀ i, n.MovesTo i → ∀ V : Finset String, V ⊆ n.members.toFinset →
    n.electionQuorum ≤ V.card → ∃ p ∈ V, p ∈ n.holders i
  largest : ∀ i, n.MovesTo i → ∀ j, n.HeldByMajority j → j ≤ i
  reached : ∀ i, n.HeldByMajority i → (∀ j, n.HeldByMajority j → j ≤ i) →
    n.log.term i = .ok n.currentTerm → n.commitIndex < i → n.MovesTo i

theorem Tracking.movesTo_iff (h : n.Tracking) {i : ℕ} :
    n.MovesTo i ↔ i = n.newCommit ∧ n.commitIndex < i ∧ n.log.term i = .ok n.currentTerm := by
  rw [MovesTo, h.advanceCommitIndex_eq]
  by_cases hc : n.commitIndex < n.newCommit ∧ n.log.term n.newCommit = .ok n.currentTerm
  · rw [if_pos hc]
    constructor
    · rintro ⟨rfl, -⟩
      exact ⟨rfl, hc⟩
    · rintro ⟨rfl, hlt, -⟩
      exact ⟨rfl, hlt.ne'⟩
  · rw [if_neg hc]
    constructor
    · rintro ⟨rfl, hne⟩
      exact absurd rfl hne
    · rintro ⟨rfl, hlt, ht⟩
      exact absurd ⟨hlt, ht⟩ hc

theorem Tracking.card_holders (h : n.Tracking) (i : ℕ) :
    (n.holders i).toFinset.card = (n.holders i).length :=
  List.toFinset_card_of_nodup (h.nodup.filter _)

/-- A commit quorum and a winning set of voters have a node in common, whatever
the size of the cluster. -/
theorem Tracking.holders_meet (h : n.Tracking) {i : ℕ}
    (hq : (n.members.length + 1) / 2 ≤ (n.holders i).length) {V : Finset String}
    (hV : V ⊆ n.members.toFinset) (hcard : n.electionQuorum ≤ V.card) :
    ∃ p ∈ V, p ∈ n.holders i := by
  have hsub : (n.holders i).toFinset ⊆ n.members.toFinset :=
    fun p hp => List.mem_toFinset.mpr (List.mem_of_mem_filter (List.mem_toFinset.mp hp))
  have hmem : n.members.length = n.peers.length + 1 := rfl
  have htotal : n.members.toFinset.card = n.members.length :=
    List.toFinset_card_of_nodup h.nodup
  obtain ⟨p, hp⟩ := Finset.inter_nonempty_of_card_lt_card_add_card hV hsub (by
    rw [h.card_holders]
    unfold electionQuorum at hcard
    omega)
  exact ⟨p, (Finset.mem_inter.mp hp).1, List.mem_toFinset.mp (Finset.mem_inter.mp hp).2⟩

theorem Tracking.commitsByMajority (h : n.Tracking) (hodd : Odd n.members.length) :
    n.CommitsByMajority := by
  obtain ⟨k, hk⟩ := hodd
  -- in an odd cluster the quorum of the code is the strict majority
  have hiff : ∀ j, n.HeldByMajority j ↔ j ≤ n.newCommit := by
    intro j
    rw [h.le_newCommit_iff, HeldByMajority]
    omega
  refine ⟨?_, ?_, ?_, ?_⟩
  · intro i hi
    obtain ⟨rfl, -⟩ := h.movesTo_iff.mp hi
    exact (hiff _).mpr le_rfl
  · intro i hi V hV hcard
    obtain ⟨rfl, -⟩ := h.movesTo_iff.mp hi
    exact h.holders_meet ((h.le_newCommit_iff _).mp le_rfl) hV hcard
  · intro i hi j hj
    obtain ⟨rfl, -⟩ := h.movesTo_iff.mp hi
    exact (hiff j).mp hj
  · intro i hi hmax ht hlt
    have heq : i = n.newCommit := le_antisymm ((hiff i).mp hi) (hmax _ ((hiff _).mpr le_rfl))
    exact h.movesTo_iff.mpr ⟨heq, hlt, ht⟩

section HalfHeld

/-- Distinct names, one for each number. -/
def name (k : ℕ) : String := String.ofList (List.replicate (k + 1) 'n')

theorem name_injective : Function.Injective name := by
  intro k l h
  have hlen := congrArg (fun s : String => s.toList.length) h
  simpa [name] using hlen

/-- A leader of `m + 1` nodes, half of which hold its first entry. -/
def halfHeld (m : ℕ) : Node :=
  { Node.new (name 0) ((List.range m).map fun k => name (k + 1)) false with
    currentTerm := 1
    state := .leader
    log := ⟨[⟨1, 1, []⟩], 0, 0⟩
    matchIndex :=
      { entries := (List.range (m + 1)).map fun k => ⟨name k, if k < (m + 1) / 2 then 1 else 0⟩
        nodupKeys := by
          rw [List.NodupKeys, List.keys, List.map_map]
          exact List.nodup_range.map name_injective } }

theorem halfHeld_members (m : ℕ) : (halfHeld m).members = (List.range (m + 1)).map name := by
  rw [List.range_succ_eq_map, List.map_cons, List.map_map]
  rfl

theorem halfHeld_tracking (m : ℕ) : (halfHeld m).Tracking where
  nodup := by
    rw [halfHeld_members]
    exact List.nodup_range.map name_injective
  keys := by
    rw [halfHeld_members, AList.keys, List.keys, halfHeld, List.map_map]
    rfl

theorem halfHeld_get {m k : ℕ} (hk : k < m + 1) :
    (halfHeld m).matchIndex.get (name k) = if k < (m + 1) / 2 then 1 else 0 := by
  have hmem : (halfHeld m).matchIndex.lookup (name k) =
      some (if k < (m + 1) / 2 then 1 else 0) := by
    refine AList.mem_lookup_iff.mpr (List.mem_map.mpr ⟨k, List.mem_range.mpr hk, rfl⟩)
  rw [IndexMap.get, hmem, Option.getD_some]

theorem halfHeld_holders (m : ℕ) : ((halfHeld m).holders 1).length = (m + 1) / 2 := by
  have hfilter : (List.range (m + 1)).filter (fun k => decide
      (1 ≤ (halfHeld m).matchIndex.get (name k))) =
      (List.range (m + 1)).filter (fun k => decide (k < (m + 1) / 2)) := by
    refine List.filter_congr fun k hk => ?_
    rw [halfHeld_get (List.mem_range.mp hk)]
    by_cases hlt : k < (m + 1) / 2
    · simp [hlt]
    · simp [hlt]
  rw [holders, halfHeld_members, List.filter_map, List.length_map]
  change ((List.range (m + 1)).filter (fun k => decide
    (1 ≤ (halfHeld m).matchIndex.get (name k)))).length = _
  rw [hfilter, ← List.Ico.zero_bot, List.Ico.filter_lt_of_ge (by omega), List.Ico.length]
  omega

theorem halfHeld_holders_two (m : ℕ) : (halfHeld m).holders 2 = [] := by
  rw [holders, List.filter_eq_nil_iff, halfHeld_members]
  intro p hp
  obtain ⟨k, hk, rfl⟩ := List.mem_map.mp hp
  rw [halfHeld_get (List.mem_range.mp hk)]
  by_cases hlt : k < (m + 1) / 2
  · simp [hlt]
  · simp [hlt]

/-- With an even number of nodes, half of them suffice to commit. -/
theorem halfHeld_movesTo {m : ℕ} (heven : Even (m + 1)) : (halfHeld m).MovesTo 1 := by
  have ht := halfHeld_tracking m
  have hlen : (halfHeld m).members.length = m + 1 := by simp [halfHeld_members]
  obtain ⟨k, hk⟩ := heven
  have hle : 1 ≤ (halfHeld m).newCommit := by
    rw [ht.le_newCommit_iff, halfHeld_holders, hlen]
    omega
  have hge : ¬ 2 ≤ (halfHeld m).newCommit := by
    rw [ht.le_newCommit_iff, halfHeld_holders_two, hlen, List.length_nil]
    omega
  exact ht.movesTo_iff.mpr ⟨by omega, Nat.zero_lt_one, rfl⟩

end HalfHeld

/-- The commit rule has the properties of a majority rule in every leader of a
cluster of `m + 1` nodes exactly when `m + 1` is odd. -/
theorem commitsByMajority_iff (m : ℕ) :
    (∀ n : Node, n.state = .leader → n.Tracking → n.members.length = m + 1 →
      n.CommitsByMajority) ↔ Odd (m + 1) := by
  constructor
  · intro hall
    by_contra hodd
    have heven : Even (m + 1) := Nat.not_odd_iff_even.mp hodd
    have hlen : (halfHeld m).members.length = m + 1 := by simp [halfHeld_members]
    have hmaj := (hall (halfHeld m) rfl (halfHeld_tracking m) hlen).majority 1
      (halfHeld_movesTo heven)
    rw [HeldByMajority, hlen, halfHeld_holders] at hmaj
    omega
  · intro hodd n _ ht hlen
    exact ht.commitsByMajority (hlen ▸ hodd)

/-- The leader of two nodes commits an entry that it alone holds. -/
theorem commit_without_majority : ∃ n : Node, n.state = .leader ∧ n.Tracking ∧
    n.members.length = 2 ∧ n.MovesTo 1 ∧ ¬ n.HeldByMajority 1 := by
  refine ⟨halfHeld 1, rfl, halfHeld_tracking 1, rfl, halfHeld_movesTo (by decide), ?_⟩
  rw [HeldByMajority, halfHeld_holders]
  decide

end Node

end Raft

end VaultFS
