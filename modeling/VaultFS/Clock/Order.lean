import Mathlib.Order.Antisymmetrization
import Mathlib.Order.Lattice
import VaultFS.Clock.Vector
import VaultFS.FiniteMap.Basic

/-!
# The order of vector clocks

`HappensBefore` goes over two maps, in an order that is not fixed, and sets a flag on the way. What
it returns does not depend on the order (`happensBeforeIn_eq`).

Clocks are compared by their counts. This is a preorder, since clocks with the same counts need not
have the same entries; `HappensBefore` is its strict part, and `Equal` says that two clocks are
below each other. Up to `Equal` the clocks are a join-semilattice, with `Merge` for the joins
(`Stamp`), and the laws of the operations are those of the semilattice.
-/

namespace VaultFS.Clock

open FiniteMap

namespace VectorClock

variable {a b c : VectorClock}

section Loops

variable (vc other : VectorClock)

/-- The first loop of `HappensBefore` over the nodes that are left, with the flag so far. There is
no result if it returns from the function. -/
def scanOwn (atLeastOneStrict : Bool) : List NodeID → Option Bool
  | [] => some atLeastOneStrict
  | id :: ids =>
      if vc.get id > other.get id then none
      else scanOwn (if vc.get id < other.get id then true else atLeastOneStrict) ids

/-- The second loop. -/
def scanOther (atLeastOneStrict : Bool) : List NodeID → Bool
  | [] => atLeastOneStrict
  | id :: ids =>
      scanOther (if id ∉ vc.counters ∧ other.get id > 0 then true else atLeastOneStrict) ids

/-- `HappensBefore` with the orders in which the loops meet the keys. -/
def happensBeforeIn (it it' : Iteration NodeID) : Bool :=
  match scanOwn vc other false (it.order vc.counters.keys) with
  | none => false
  | some atLeastOneStrict => scanOther vc other atLeastOneStrict (it'.order other.counters.keys)

variable {vc other}

theorem scanOwn_eq (strict : Bool) (ids : List NodeID) :
    scanOwn vc other strict ids =
      if ∃ id ∈ ids, vc.get id > other.get id then none
      else some (strict || decide (∃ id ∈ ids, vc.get id < other.get id)) := by
  induction ids generalizing strict with
  | nil => simp [scanOwn]
  | cons id ids ih =>
      rw [scanOwn]
      by_cases hgt : vc.get id > other.get id
      · simp [hgt]
      · rw [if_neg hgt, ih]
        by_cases hlt : vc.get id < other.get id
        · simp [hlt, hgt]
        · simp [hlt, hgt]

theorem scanOther_eq (strict : Bool) (ids : List NodeID) :
    scanOther vc other strict ids =
      (strict || decide (∃ id ∈ ids, id ∉ vc.counters ∧ other.get id > 0)) := by
  induction ids generalizing strict with
  | nil => simp [scanOther]
  | cons id ids ih =>
      rw [scanOther, ih]
      by_cases hnew : id ∉ vc.counters ∧ other.get id > 0
      · simp [hnew]
      · simp [hnew]

theorem happensBeforeIn_eq (it it' : Iteration NodeID) :
    happensBeforeIn vc other it it' = vc.happensBefore other := by
  rw [happensBeforeIn, scanOwn_eq, happensBefore]
  simp only [it.mem_order]
  by_cases hgt : ∃ id ∈ vc.counters.keys, vc.get id > other.get id
  · rw [if_pos hgt, if_pos hgt]
  · rw [if_neg hgt, if_neg hgt]
    simp only [scanOther_eq, it'.mem_order, Bool.false_or]

end Loops

instance : Preorder VectorClock := Preorder.lift count

theorem happensBefore_iff_lt : a.happensBefore b ↔ a < b := by
  rw [happensBefore_iff, lt_iff_le_not_ge]
  refine and_congr_right fun hle => ?_
  constructor
  · rintro ⟨id, hlt⟩ hge
    exact (hge id).not_gt hlt
  · intro hnot
    by_contra hnone
    push Not at hnone
    exact hnot hnone

theorem equal_iff_antisymmRel : a.equal b ↔ AntisymmRel (· ≤ ·) a b := by
  rw [equal_iff]
  constructor
  · intro h
    exact ⟨fun id => (h id).le, fun id => (h id).ge⟩
  · intro h id
    exact le_antisymm (h.1 id) (h.2 id)

theorem merge_le_iff : a.merge b ≤ c ↔ a ≤ c ∧ b ≤ c := by
  constructor
  · intro h
    have hmax : ∀ id, max (a.count id) (b.count id) ≤ c.count id := fun id =>
      count_merge a b id ▸ h id
    exact ⟨fun id => (le_max_left _ _).trans (hmax id),
      fun id => (le_max_right _ _).trans (hmax id)⟩
  · rintro ⟨ha, hb⟩ id
    rw [count_merge]
    exact max_le (ha id) (hb id)

theorem le_merge_left (a b : VectorClock) : a ≤ a.merge b := (merge_le_iff.mp le_rfl).1

theorem le_merge_right (a b : VectorClock) : b ≤ a.merge b := (merge_le_iff.mp le_rfl).2

theorem merge_mono {a' b' : VectorClock} (ha : a ≤ a') (hb : b ≤ b') :
    a.merge b ≤ a'.merge b' :=
  merge_le_iff.mpr ⟨ha.trans (le_merge_left a' b'), hb.trans (le_merge_right a' b')⟩

theorem lt_increment {id : NodeID} (h : a.count id < 2 ^ 64 - 1) : a < a.increment id := by
  have hroom : a.count id + 1 < 2 ^ 64 := by omega
  have hcount := count_increment hroom
  refine happensBefore_iff_lt.mp (happensBefore_iff.mpr ⟨fun id' => ?_, id, ?_⟩)
  · rw [hcount]
    split
    · rename_i hid
      rw [hid]
      exact Nat.le_succ _
    · exact le_rfl
  · rw [hcount, if_pos rfl]
    exact Nat.lt_succ_self _

/-- The clocks up to `Equal`. -/
abbrev Stamp := Antisymmetrization VectorClock (· ≤ ·)

def stamp (vc : VectorClock) : Stamp := toAntisymmetrization (· ≤ ·) vc

theorem stamp_eq_iff : a.stamp = b.stamp ↔ a.equal b :=
  Quotient.eq.trans equal_iff_antisymmRel.symm

instance : SemilatticeSup Stamp where
  sup := Quotient.map₂ merge fun _ _ ha _ _ hb =>
    ⟨merge_mono ha.1 hb.1, merge_mono ha.2 hb.2⟩
  le_sup_left p q := by
    induction p, q using Quotient.inductionOn₂ with
    | h a b => exact le_merge_left a b
  le_sup_right p q := by
    induction p, q using Quotient.inductionOn₂ with
    | h a b => exact le_merge_right a b
  sup_le p q r := by
    induction p, q, r using Quotient.inductionOn₃ with
    | h a b c => exact fun ha hb => merge_le_iff.mpr ⟨ha, hb⟩

theorem stamp_merge (a b : VectorClock) : (a.merge b).stamp = a.stamp ⊔ b.stamp := rfl

/-- The clock precedes the other one or equals it. -/
def precedesOrEquals (vc other : VectorClock) : Bool := vc.happensBefore other || vc.equal other

theorem precedesOrEquals_iff_le : a.precedesOrEquals b ↔ a ≤ b := by
  rw [precedesOrEquals, Bool.or_eq_true, happensBefore_iff_lt, equal_iff_antisymmRel,
    le_iff_lt_or_antisymmRel]

theorem concurrent_iff : a.concurrent b ↔ ¬a ≤ b ∧ ¬b ≤ a := by
  have hnot : a.concurrent b ↔ ¬a.happensBefore b ∧ ¬b.happensBefore a ∧ ¬a.equal b := by
    simp [concurrent, and_assoc]
  rw [hnot, happensBefore_iff_lt, happensBefore_iff_lt, equal_iff_antisymmRel,
    le_iff_lt_or_antisymmRel, le_iff_lt_or_antisymmRel, antisymmRel_comm (a := b)]
  tauto

/-- Any two clocks are in exactly one of the four relations. -/
theorem count_relations (a b : VectorClock) :
    [a.happensBefore b, b.happensBefore a, a.equal b, a.concurrent b].count true = 1 := by
  have hbefore : a.happensBefore b = true → b.happensBefore a = false ∧ a.equal b = false := by
    intro h
    rw [happensBefore_iff_lt] at h
    rw [← Bool.not_eq_true, ← Bool.not_eq_true, happensBefore_iff_lt, equal_iff_antisymmRel]
    exact ⟨h.asymm, not_antisymmRel_of_lt h⟩
  have hafter : b.happensBefore a = true → a.equal b = false := by
    intro h
    rw [happensBefore_iff_lt] at h
    rw [← Bool.not_eq_true, equal_iff_antisymmRel]
    exact not_antisymmRel_of_gt h
  -- what is left is how `Concurrent` is computed from the other three
  rw [concurrent]
  cases hab : a.happensBefore b with
  | true => simp [hbefore hab]
  | false =>
      cases hba : b.happensBefore a with
      | true => simp [hafter hba]
      | false => cases a.equal b <;> simp

/-- The laws of the operations, for any clocks, with missing entries and zeros in them:
`HappensBefore` is a strict order that does not tell equal clocks apart, any two clocks are in
exactly one relation, `Merge` gives the least clock above both, and `Increment` goes up. -/
theorem semilattice_laws (a b c : VectorClock) (id : NodeID) :
    (¬a.happensBefore a ∧ (a.happensBefore b → b.happensBefore c → a.happensBefore c)) ∧
    (a.equal b → a.happensBefore c = b.happensBefore c ∧ c.happensBefore a = c.happensBefore b) ∧
    [a.happensBefore b, b.happensBefore a, a.equal b, a.concurrent b].count true = 1 ∧
    ((a.merge b).equal (b.merge a) ∧ ((a.merge b).merge c).equal (a.merge (b.merge c)) ∧
      (a.merge a).equal a) ∧
    (a.precedesOrEquals (a.merge b) ∧ b.precedesOrEquals (a.merge b) ∧
      (a.precedesOrEquals c → b.precedesOrEquals c → (a.merge b).precedesOrEquals c)) ∧
    (a.count id < 2 ^ 64 - 1 → a.happensBefore (a.increment id)) := by
  refine ⟨⟨?_, ?_⟩, ?_, count_relations a b, ⟨?_, ?_, ?_⟩, ⟨?_, ?_, ?_⟩, ?_⟩
  · rw [happensBefore_iff_lt]
    exact lt_irrefl a
  · simp only [happensBefore_iff_lt]
    exact lt_trans
  · intro h
    have hrel := equal_iff_antisymmRel.mp h
    refine ⟨Bool.eq_iff_iff.mpr ?_, Bool.eq_iff_iff.mpr ?_⟩
    · rw [happensBefore_iff_lt, happensBefore_iff_lt]
      exact hrel.lt_congr_left
    · rw [happensBefore_iff_lt, happensBefore_iff_lt]
      exact hrel.lt_congr_right
  · rw [← stamp_eq_iff, stamp_merge, stamp_merge, sup_comm]
  · rw [← stamp_eq_iff, stamp_merge, stamp_merge, stamp_merge, stamp_merge, sup_assoc]
  · rw [← stamp_eq_iff, stamp_merge, sup_idem]
  · exact precedesOrEquals_iff_le.mpr (le_merge_left a b)
  · exact precedesOrEquals_iff_le.mpr (le_merge_right a b)
  · simp only [precedesOrEquals_iff_le]
    exact fun ha hb => merge_le_iff.mpr ⟨ha, hb⟩
  · intro h
    exact happensBefore_iff_lt.mpr (lt_increment h)

end VectorClock

end VaultFS.Clock
