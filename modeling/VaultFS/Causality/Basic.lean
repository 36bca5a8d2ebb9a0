import Mathlib.Algebra.Order.Group.Nat
import Mathlib.Data.List.Induction
import Mathlib.Logic.Function.Basic
import Mathlib.Logic.Relation
import VaultFS.Growth.Basic

/-!
# Causality and the clocks that record it

A history is the list of the events of any number of nodes, in an order in which they may have
taken place. An event that receives a message names the event that sent it. `Direct` relates an
event to the later events of its node and to the events that receive its message, and causal
precedence is the transitive closure of it.

`Clocks` has for each node, and for each event, a number for every node. An event takes the larger
numbers of its node's clock and of the message's, and counts itself. The invariant `Tracks` says
that the number an event has for a node is reached by exactly those events of that node that are in
its past, from which comparing numbers is comparing pasts (`Tracks.stamp_le_iff`).
-/

namespace Causality

open Growth

structure Event (ν : Type*) where
  node : ν
  source : Option ℕ

variable {ν : Type*}

def Direct (H : List (Event ν)) (i j : ℕ) : Prop :=
  i < j ∧ ∃ a b, H[i]? = some a ∧ H[j]? = some b ∧ (a.node = b.node ∨ b.source = some i)

/-- The event `i` causally precedes the event `j`. -/
def Precedes (H : List (Event ν)) : ℕ → ℕ → Prop := Relation.TransGen (Direct H)

/-- The event `i` is `j` or precedes it. -/
def Past (H : List (Event ν)) : ℕ → ℕ → Prop := Relation.ReflTransGen (Direct H)

theorem Past.le {H : List (Event ν)} {i j : ℕ} (h : Past H i j) : i ≤ j := by
  induction h with
  | refl => exact le_rfl
  | tail _ hdirect ih => exact ih.trans hdirect.1.le

theorem precedes_iff_past {H : List (Event ν)} {i j : ℕ} (hne : i ≠ j) :
    Precedes H i j ↔ Past H i j := by
  constructor
  · exact Relation.TransGen.to_reflTransGen
  · intro h
    rcases Relation.reflTransGen_iff_eq_or_transGen.mp h with heq | hgen
    · exact absurd heq.symm hne
    · exact hgen

section Concat

variable {H : List (Event ν)} {b : Event ν} {i j : ℕ}

theorem direct_concat_of_lt (hj : j < H.length) : Direct (H ++ [b]) i j ↔ Direct H i j := by
  have hget : ∀ {k : ℕ}, k < H.length → (H ++ [b])[k]? = H[k]? := List.getElem?_append_left
  constructor
  · rintro ⟨hlt, h⟩
    rw [hget hj, hget (hlt.trans hj)] at h
    exact ⟨hlt, h⟩
  · rintro ⟨hlt, h⟩
    rw [← hget hj, ← hget (hlt.trans hj)] at h
    exact ⟨hlt, h⟩

theorem direct_concat_length :
    Direct (H ++ [b]) i H.length ↔ ∃ a, H[i]? = some a ∧ (a.node = b.node ∨ b.source = some i) := by
  constructor
  · rintro ⟨hlt, a, b', ha, hb, hlink⟩
    rw [List.getElem?_append_left hlt] at ha
    rw [List.getElem?_concat_length, Option.some.injEq] at hb
    exact ⟨a, ha, hb ▸ hlink⟩
  · rintro ⟨a, ha, hlink⟩
    have hlt : i < H.length := (List.getElem?_eq_some_iff.mp ha).1
    refine ⟨hlt, a, b, ?_, List.getElem?_concat_length, hlink⟩
    rw [List.getElem?_append_left hlt, ha]

theorem past_concat_of_lt (hj : j < H.length) : Past (H ++ [b]) i j ↔ Past H i j := by
  constructor
  · intro h
    induction h with
    | refl => exact .refl
    | tail _ hdirect ih =>
        have hdirect' := (direct_concat_of_lt hj).mp hdirect
        exact .tail (ih (hdirect'.1.trans hj)) hdirect'
  · intro h
    induction h with
    | refl => exact .refl
    | tail _ hdirect ih =>
        exact .tail (ih (hdirect.1.trans hj)) ((direct_concat_of_lt hj).mpr hdirect)

/-- What is in the past of the newest event. -/
theorem past_concat_length (hi : i < H.length) :
    Past (H ++ [b]) i H.length ↔
      ∃ d a, H[d]? = some a ∧ (a.node = b.node ∨ b.source = some d) ∧ Past H i d := by
  constructor
  · intro h
    rcases Relation.ReflTransGen.cases_tail h with heq | ⟨d, hpast, hdirect⟩
    · exact absurd heq hi.ne'
    · obtain ⟨a, ha, hlink⟩ := direct_concat_length.mp hdirect
      exact ⟨d, a, ha, hlink, (past_concat_of_lt hdirect.1).mp hpast⟩
  · rintro ⟨d, a, ha, hlink, hpast⟩
    have hdirect : Direct (H ++ [b]) d H.length := direct_concat_length.mpr ⟨a, ha, hlink⟩
    exact .tail ((past_concat_of_lt hdirect.1).mpr hpast) hdirect

end Concat

/-! ### Counting the events of a node -/

section Count

variable [DecidableEq ν]

def count (H : List (Event ν)) (n : ν) : ℕ := H.countP (·.node = n)

/-- The number of events of the node of event `i`, from the first one to `i`. -/
def rank (H : List (Event ν)) (i : ℕ) : ℕ :=
  match H[i]? with
  | none => 0
  | some a => count (H.take (i + 1)) a.node

variable {H : List (Event ν)} {a b : Event ν} {i : ℕ} {n : ν}

theorem count_concat : count (H ++ [b]) n = count H n + if b.node = n then 1 else 0 := by
  simp [count, List.countP_append, List.countP_singleton]

theorem count_le_concat : count H n ≤ count (H ++ [b]) n := by
  rw [count_concat]
  exact Nat.le_add_right _ _

theorem rank_concat_of_lt (hi : i < H.length) : rank (H ++ [b]) i = rank H i := by
  rw [rank, rank, List.getElem?_append_left hi, List.take_append_of_le_length hi]

theorem rank_concat_length : rank (H ++ [b]) H.length = count H b.node + 1 := by
  have htake : (H ++ [b]).take (H.length + 1) = H ++ [b] := List.take_of_length_le (by simp)
  simp [rank, htake, count_concat]

theorem rank_le_count (h : H[i]? = some a) : rank H i ≤ count H a.node := by
  rw [rank, h]
  exact (List.take_sublist (i + 1) H).countP_le

/-- Every number up to the count is the rank of an event. -/
theorem exists_rank_eq {r : ℕ} (hpos : 0 < r) (hle : r ≤ count H n) :
    ∃ i a, H[i]? = some a ∧ a.node = n ∧ rank H i = r := by
  induction H using List.reverseRecOn with
  | nil =>
      simp only [count, List.countP_nil] at hle
      exact absurd hpos hle.not_gt
  | append_singleton H b ih =>
      rw [count_concat] at hle
      by_cases hold : r ≤ count H n
      · obtain ⟨i, a, ha, hnode, hrank⟩ := ih hold
        have hi : i < H.length := (List.getElem?_eq_some_iff.mp ha).1
        refine ⟨i, a, ?_, hnode, ?_⟩
        · rw [List.getElem?_append_left hi, ha]
        · rw [rank_concat_of_lt hi, hrank]
      · have hb : b.node = n := by
          by_contra hne
          rw [if_neg hne] at hle
          exact hold hle
        refine ⟨H.length, b, List.getElem?_concat_length, hb, ?_⟩
        rw [if_pos hb] at hle
        rw [rank_concat_length, hb]
        omega

/-! ### Clocks -/

/-- A clock for each node, and the clock each event was left with. -/
structure Clocks (ν : Type*) where
  history : List (Event ν)
  clock : ν → ν → ℕ
  stamps : List (ν → ℕ)

namespace Clocks

/-- The larger numbers of the node's clock and of the message's. -/
def merged (S : Clocks ν) (b : Event ν) : ν → ℕ :=
  match b.source.bind (S.stamps[·]?) with
  | none => S.clock b.node
  | some v => S.clock b.node ⊔ v

def stamp (S : Clocks ν) (b : Event ν) : ν → ℕ :=
  Function.update (S.merged b) b.node (S.merged b b.node + 1)

/-- The next event takes place. -/
def record (S : Clocks ν) (b : Event ν) : Clocks ν where
  history := S.history ++ [b]
  clock := Function.update S.clock b.node (S.stamp b)
  stamps := S.stamps ++ [S.stamp b]

@[simp] theorem record_history (S : Clocks ν) (b : Event ν) :
    (S.record b).history = S.history ++ [b] := rfl

@[simp] theorem record_stamps (S : Clocks ν) (b : Event ν) :
    (S.record b).stamps = S.stamps ++ [S.stamp b] := rfl

theorem record_clock_self (S : Clocks ν) (b : Event ν) :
    (S.record b).clock b.node = S.stamp b :=
  Function.update_self _ _ _

theorem record_clock_of_ne (S : Clocks ν) (b : Event ν) {p : ν} (hp : p ≠ b.node) :
    (S.record b).clock p = S.clock p :=
  Function.update_of_ne hp _ _

/-- Numbers count events, and a number reaches the rank of an event exactly when that event is in
the past. -/
structure Tracks (S : Clocks ν) : Prop where
  length_eq : S.stamps.length = S.history.length
  clock_le : ∀ p n, S.clock p n ≤ count S.history n
  clock_self : ∀ p, S.clock p p = count S.history p
  stamp_le : ∀ (j : ℕ) (v : ν → ℕ), S.stamps[j]? = some v → ∀ n, v n ≤ count S.history n
  stamp_self : ∀ (j : ℕ) (v : ν → ℕ) (b : Event ν), S.stamps[j]? = some v → S.history[j]? = some b →
    v b.node = rank S.history j
  rank_le_clock : ∀ (i : ℕ) (a : Event ν) p, S.history[i]? = some a →
    (rank S.history i ≤ S.clock p a.node ↔
      ∃ j b, S.history[j]? = some b ∧ b.node = p ∧ Past S.history i j)
  rank_le_stamp : ∀ (i : ℕ) (a : Event ν) (j : ℕ) (v : ν → ℕ), S.history[i]? = some a →
    S.stamps[j]? = some v → (rank S.history i ≤ v a.node ↔ Past S.history i j)

namespace Tracks

theorem init : Tracks (⟨[], fun _ _ => 0, []⟩ : Clocks ν) where
  length_eq := rfl
  clock_le _ _ := le_rfl
  clock_self _ := rfl
  stamp_le _ _ h := by simp at h
  stamp_self _ _ _ h := by simp at h
  rank_le_clock _ _ _ h := by simp at h
  rank_le_stamp _ _ _ _ h := by simp at h

section Record

variable {S : Clocks ν}

omit [DecidableEq ν] in
theorem le_merged_iff (r : ℕ) :
    r ≤ S.merged b n ↔
      r ≤ S.clock b.node n ∨ ∃ m v, b.source = some m ∧ S.stamps[m]? = some v ∧ r ≤ v n := by
  unfold merged
  cases hsource : b.source with
  | none => simp
  | some m =>
      cases hv : S.stamps[m]? with
      | none => simp [hv]
      | some v => simp [hv]

theorem merged_le (h : Tracks S) : S.merged b n ≤ count S.history n := by
  rcases (le_merged_iff (S := S) (b := b) (n := n) _).mp le_rfl with hle | ⟨m, v, _, hv, hle⟩
  · exact hle.trans (h.clock_le b.node n)
  · exact hle.trans (h.stamp_le m v hv n)

theorem merged_self (h : Tracks S) : S.merged b b.node = count S.history b.node := by
  refine le_antisymm h.merged_le ((le_merged_iff _).mpr (Or.inl ?_))
  rw [h.clock_self]

theorem stamp_node (h : Tracks S) : S.stamp b b.node = count S.history b.node + 1 := by
  rw [stamp, Function.update_self, h.merged_self]

theorem stamp_of_ne (hne : n ≠ b.node) : S.stamp b n = S.merged b n :=
  Function.update_of_ne hne _ _

theorem stamp_le_concat (h : Tracks S) : S.stamp b n ≤ count (S.history ++ [b]) n := by
  by_cases hn : n = b.node
  · rw [hn, h.stamp_node, count_concat, if_pos rfl]
  · rw [stamp_of_ne hn]
    exact h.merged_le.trans count_le_concat

/-- The past of the newest event, by its stamp. -/
theorem rank_le_new_stamp (h : Tracks S) (ha : S.history[i]? = some a) :
    rank S.history i ≤ S.stamp b a.node ↔ Past (S.history ++ [b]) i S.history.length := by
  have hi : i < S.history.length := (List.getElem?_eq_some_iff.mp ha).1
  rw [past_concat_length hi]
  by_cases hnode : a.node = b.node
  · refine iff_of_true ?_ ⟨i, a, ha, Or.inl hnode, .refl⟩
    rw [hnode, h.stamp_node, ← hnode]
    exact (rank_le_count ha).trans (Nat.le_succ _)
  · rw [stamp_of_ne hnode, le_merged_iff, h.rank_le_clock i a b.node ha]
    constructor
    · rintro (⟨d, c, hc, hcb, hpast⟩ | ⟨m, v, hm, hv, hle⟩)
      · exact ⟨d, c, hc, Or.inl hcb, hpast⟩
      · have hlt : m < S.history.length := h.length_eq ▸ (List.getElem?_eq_some_iff.mp hv).1
        exact ⟨m, _, List.getElem?_eq_getElem hlt, Or.inr hm,
          (h.rank_le_stamp i a m v ha hv).mp hle⟩
    · rintro ⟨d, c, hc, hcb | hm, hpast⟩
      · exact Or.inl ⟨d, c, hc, hcb, hpast⟩
      · have hlt : d < S.stamps.length := h.length_eq ▸ (List.getElem?_eq_some_iff.mp hc).1
        have hv := List.getElem?_eq_getElem hlt
        exact Or.inr ⟨d, _, hm, hv, (h.rank_le_stamp i a d _ ha hv).mpr hpast⟩

theorem rank_le_stamp_concat (h : Tracks S) (ha : (S.history ++ [b])[i]? = some a) :
    rank (S.history ++ [b]) i ≤ S.stamp b a.node ↔ Past (S.history ++ [b]) i S.history.length := by
  rcases getElem?_concat_cases ha with ⟨hi, ha'⟩ | ⟨rfl, rfl⟩
  · rw [rank_concat_of_lt hi, h.rank_le_new_stamp ha']
  · rw [rank_concat_length, h.stamp_node]
    exact iff_of_true le_rfl .refl

/-- The newest event is in the past of no older one, and no older number reaches its rank. -/
theorem rank_le_old_stamp (h : Tracks S) {j : ℕ} {v : ν → ℕ} (hv : S.stamps[j]? = some v)
    (ha : (S.history ++ [b])[i]? = some a) :
    rank (S.history ++ [b]) i ≤ v a.node ↔ Past (S.history ++ [b]) i j := by
  have hj : j < S.history.length := h.length_eq ▸ (List.getElem?_eq_some_iff.mp hv).1
  rcases getElem?_concat_cases ha with ⟨hi, ha'⟩ | ⟨rfl, rfl⟩
  · rw [rank_concat_of_lt hi, past_concat_of_lt hj]
    exact h.rank_le_stamp i a j v ha' hv
  · rw [rank_concat_length]
    refine iff_of_false ?_ ?_
    · exact (h.stamp_le j v hv a.node).not_gt
    · exact fun hpast => hpast.le.not_gt hj

theorem rank_le_old_clock (h : Tracks S) {p : ν} (hp : p ≠ b.node)
    (ha : (S.history ++ [b])[i]? = some a) :
    rank (S.history ++ [b]) i ≤ S.clock p a.node ↔
      ∃ j c, (S.history ++ [b])[j]? = some c ∧ c.node = p ∧ Past (S.history ++ [b]) i j := by
  have hold : ∀ {j : ℕ} {c : Event ν}, (S.history ++ [b])[j]? = some c → c.node = p →
      j < S.history.length ∧ S.history[j]? = some c := by
    intro j c hc hcp
    rcases getElem?_concat_cases hc with hold | ⟨_, rfl⟩
    · exact hold
    · exact absurd hcp.symm hp
  rcases getElem?_concat_cases ha with ⟨hi, ha'⟩ | ⟨rfl, rfl⟩
  · rw [rank_concat_of_lt hi, h.rank_le_clock i a p ha']
    constructor
    · rintro ⟨j, c, hc, hcp, hpast⟩
      have hj : j < S.history.length := (List.getElem?_eq_some_iff.mp hc).1
      refine ⟨j, c, ?_, hcp, (past_concat_of_lt hj).mpr hpast⟩
      rw [List.getElem?_append_left hj, hc]
    · rintro ⟨j, c, hc, hcp, hpast⟩
      obtain ⟨hj, hc'⟩ := hold hc hcp
      exact ⟨j, c, hc', hcp, (past_concat_of_lt hj).mp hpast⟩
  · rw [rank_concat_length]
    refine iff_of_false ?_ ?_
    · exact (h.clock_le p a.node).not_gt
    · rintro ⟨j, c, hc, hcp, hpast⟩
      exact hpast.le.not_gt (hold hc hcp).1

theorem record (h : Tracks S) (b : Event ν) : Tracks (S.record b) where
  length_eq := by simp [h.length_eq]
  clock_le p n := by
    by_cases hp : p = b.node
    · rw [hp, record_clock_self, record_history]
      exact h.stamp_le_concat
    · rw [record_clock_of_ne S b hp, record_history]
      exact (h.clock_le p n).trans count_le_concat
  clock_self p := by
    by_cases hp : p = b.node
    · rw [hp, record_clock_self, record_history, h.stamp_node, count_concat, if_pos rfl]
    · rw [record_clock_of_ne S b hp, record_history, h.clock_self, count_concat,
        if_neg (Ne.symm hp), Nat.add_zero]
  stamp_le j v hv n := by
    rcases getElem?_concat_cases hv with ⟨_, hv'⟩ | ⟨_, rfl⟩
    · exact (h.stamp_le j v hv' n).trans count_le_concat
    · exact h.stamp_le_concat
  stamp_self j v c hv hc := by
    rcases getElem?_concat_cases hv with ⟨hj, hv'⟩ | ⟨hj, rfl⟩
    · rw [h.length_eq] at hj
      have hc' : S.history[j]? = some c := by
        rw [← hc, record_history, List.getElem?_append_left hj]
      rw [h.stamp_self j v c hv' hc']
      exact (rank_concat_of_lt hj).symm
    · rw [h.length_eq] at hj
      have hcb : b = c := by
        have := hc
        rwa [record_history, hj, List.getElem?_concat_length, Option.some.injEq] at this
      rw [← hcb, h.stamp_node, hj]
      exact rank_concat_length.symm
  rank_le_clock i a p ha := by
    by_cases hp : p = b.node
    · rw [hp, record_clock_self, record_history]
      refine (h.rank_le_stamp_concat ha).trans ⟨?_, ?_⟩
      · intro hpast
        exact ⟨S.history.length, b, List.getElem?_concat_length, rfl, hpast⟩
      · rintro ⟨j, c, hc, hcb, hpast⟩
        rcases getElem?_concat_cases hc with ⟨_, hc'⟩ | ⟨rfl, _⟩
        · exact hpast.tail (direct_concat_length.mpr ⟨c, hc', Or.inl hcb⟩)
        · exact hpast
    · rw [record_clock_of_ne S b hp, record_history]
      exact h.rank_le_old_clock hp ha
  rank_le_stamp i a j v ha hv := by
    rcases getElem?_concat_cases hv with ⟨_, hv'⟩ | ⟨hj, rfl⟩
    · exact h.rank_le_old_stamp hv' ha
    · rw [hj, h.length_eq]
      exact h.rank_le_stamp_concat ha

/-- One event has no larger number than another exactly when it is in the other's past. -/
theorem stamp_le_iff (h : Tracks S) {j : ℕ} {v w : ν → ℕ} (hv : S.stamps[i]? = some v)
    (hw : S.stamps[j]? = some w) : v ≤ w ↔ Past S.history i j := by
  have hi : i < S.history.length := h.length_eq ▸ (List.getElem?_eq_some_iff.mp hv).1
  have ha := List.getElem?_eq_getElem hi
  constructor
  · intro hle
    rw [← h.rank_le_stamp i _ j w ha hw, ← h.stamp_self i v _ hv ha]
    exact hle _
  · intro hpast n
    rcases Nat.eq_zero_or_pos (v n) with hzero | hpos
    · rw [hzero]
      exact Nat.zero_le _
    · obtain ⟨k, c, hc, rfl, hrank⟩ := exists_rank_eq hpos (h.stamp_le i v hv n)
      have hki : Past S.history k i := (h.rank_le_stamp k c i v hc hv).mp hrank.le
      rw [← hrank]
      exact (h.rank_le_stamp k c j w hc hw).mpr (hki.trans hpast)

end Record

end Tracks

end Clocks

end Count

end Causality
