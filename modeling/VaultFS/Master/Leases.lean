import VaultFS.Master.View
import VaultFS.Transition.Basic

/-!
# Leases of several masters

Each master grants leases from its own table, which is not replicated. The masters are asked
for leases in any order, and the time they read does not go back. What they returned is recorded,
and `Exclusive` says that no two holders were ever given a lease on one chunk for the same time.

That is so in every run in which a master grants a lease only when no other master has a valid
one of another holder in its table, and a grant without that breaks it
(`leases_exclusive_iff`).
-/

namespace VaultFS.Master

open KeyValue Metadata Transition

namespace Leases

/-- A lease that a master returned, and when. -/
structure Returned (M : Type*) where
  master : M
  time : Time
  lease : Lease
  deriving DecidableEq

/-- The caller can take the lease to be valid. -/
def Returned.validAt {M : Type*} (r : Returned M) (t : Time) : Prop :=
  r.time ≤ t ∧ t < r.lease.expiry

instance {M : Type*} (r : Returned M) (t : Time) : Decidable (r.validAt t) :=
  inferInstanceAs (Decidable (_ ∧ _))

structure World (M σ : Type*) where
  now : Time
  masters : M → Server σ
  returned : List (Returned M)

inductive Event (M : Type*) where
  /-- The time goes on. -/
  | tick (t : Time)
  /-- A master answers `GetLease`. -/
  | getLease (master : M) (chunkId holder : String)

variable {M σ : Type*} [DecidableEq M]

def grant (w : World M σ) (m : M) (chunkId holder : String) : Except LeaseError Lease :=
  ((w.masters m).leases.grant w.now chunkId holder).2

def step (w : World M σ) : Event M → Option (World M σ)
  | .tick t => if w.now ≤ t then some { w with now := t } else none
  | .getLease m chunkId holder => some
      { w with
        masters := Function.update w.masters m ((w.masters m).getLease w.now chunkId holder).1
        returned := match grant w m chunkId holder with
          | .ok lease => ⟨m, w.now, lease⟩ :: w.returned
          | .error _ => w.returned }

/-- No master has granted anything yet. -/
def Initial (w : World M σ) : Prop :=
  (∀ m, (w.masters m).leases.leases = ∅) ∧ w.returned = []

/-- A chunk is never leased to two holders at once. -/
def Exclusive (w : World M σ) : Prop :=
  ∀ r ∈ w.returned, ∀ r' ∈ w.returned, r.lease.chunkID = r'.lease.chunkID →
    ∀ t, r.validAt t → r'.validAt t → r.lease.holder = r'.lease.holder

/-- The master that is asked refuses, or no other master would refuse. -/
def OthersAgree (w : World M σ) : Event M → Prop
  | .tick _ => True
  | .getLease m chunkId holder =>
      (w.masters m).leases.heldByOther w.now chunkId holder ∨
        ∀ m', m' ≠ m → ¬(w.masters m').leases.heldByOther w.now chunkId holder

instance [Fintype M] (w : World M σ) (e : Event M) : Decidable (OthersAgree w e) :=
  match e with
  | .tick _ => isTrue trivial
  | .getLease _ _ _ => inferInstanceAs (Decidable (_ ∨ _))

/-- The tables and what was returned belong together. -/
structure Booked (w : World M σ) : Prop where
  /-- A lease in a table was returned by the master, and not in the future. -/
  table : ∀ m c l, (w.masters m).leases.leases.lookup c = some l →
    l.chunkID = c ∧ ∃ t ≤ w.now, ⟨m, t, l⟩ ∈ w.returned
  time_le : ∀ r ∈ w.returned, r.time ≤ w.now
  expiry : ∀ r ∈ w.returned, r.lease.expiry = r.time + (w.masters r.master).leases.ttl
  /-- A returned lease that is still valid is in the table, maybe prolonged. -/
  returned : ∀ r ∈ w.returned, w.now < r.lease.expiry →
    ∃ l, (w.masters r.master).leases.leases.lookup r.lease.chunkID = some l ∧
      r.lease.expiry ≤ l.expiry ∧ l.holder = r.lease.holder

/-! ### One step -/

/-- The world after a lease was granted. -/
def World.granted (w : World M σ) (m : M) (chunkId holder : String) : World M σ :=
  let manager := (w.masters m).leases
  let lease : Lease := ⟨chunkId, holder, w.now + manager.ttl⟩
  { w with
    masters := Function.update w.masters m
      { w.masters m with
        leases := { manager with leases := manager.leases.insert chunkId lease } }
    returned := ⟨m, w.now, lease⟩ :: w.returned }

section Step

variable {w w' : World M σ} {m : M} {chunkId holder : String}

theorem step_refused (h : (w.masters m).leases.heldByOther w.now chunkId holder) :
    step w (.getLease m chunkId holder) = some w := by
  simp [step, grant, Server.getLease, LeaseManager.grant_refused h]

theorem step_granted (h : ¬(w.masters m).leases.heldByOther w.now chunkId holder) :
    step w (.getLease m chunkId holder) = some (w.granted m chunkId holder) := by
  simp only [step, grant, Server.getLease, LeaseManager.grant_granted h]
  rfl

omit [DecidableEq M] in
theorem Booked.tick (h : Booked w) {t : Time} (ht : w.now ≤ t) : Booked { w with now := t } where
  table m c l hl := by
    obtain ⟨hc, t', ht', hmem⟩ := h.table m c l hl
    exact ⟨hc, t', ht'.trans ht, hmem⟩
  time_le r hr := (h.time_le r hr).trans ht
  expiry := h.expiry
  returned r hr hlt := h.returned r hr (ht.trans_lt hlt)

theorem World.granted_leases_ne {m' : M} (hm : m' ≠ m) :
    (w.granted m chunkId holder).masters m' = w.masters m' :=
  Function.update_of_ne hm _ _

theorem World.granted_lookup (c : String) :
    ((w.granted m chunkId holder).masters m).leases.leases.lookup c =
      if c = chunkId then some ⟨chunkId, holder, w.now + (w.masters m).leases.ttl⟩
      else (w.masters m).leases.leases.lookup c := by
  simp only [World.granted, Function.update_self]
  split
  · rename_i heq
    rw [heq, Finmap.lookup_insert]
  · rename_i hne
    exact Finmap.lookup_insert_of_ne _ hne

theorem World.granted_ttl (m' : M) :
    ((w.granted m chunkId holder).masters m').leases.ttl = (w.masters m').leases.ttl := by
  by_cases hm : m' = m
  · subst hm
    simp [World.granted]
  · rw [World.granted_leases_ne hm]

/-- A valid lease of a master that does not refuse is the holder's own. -/
theorem holder_eq {now : Time} {manager : LeaseManager} {l : Lease}
    (hfree : ¬manager.heldByOther now chunkId holder)
    (hl : manager.leases.lookup chunkId = some l) (hvalid : now < l.expiry) :
    l.holder = holder := by
  by_contra hne
  exact hfree (LeaseManager.heldByOther_iff.mpr ⟨l, hl, hvalid, hne⟩)

theorem Booked.granted (h : Booked w)
    (hfree : ¬(w.masters m).leases.heldByOther w.now chunkId holder) :
    Booked (w.granted m chunkId holder) where
  table m' c l hl := by
    by_cases hm : m' = m
    · subst hm
      rw [World.granted_lookup] at hl
      split at hl
      · rename_i hc
        cases hl
        exact ⟨hc.symm, w.now, le_rfl, List.mem_cons_self⟩
      · obtain ⟨hc, t, ht, hmem⟩ := h.table m' c l hl
        exact ⟨hc, t, ht, List.mem_cons_of_mem _ hmem⟩
    · rw [World.granted_leases_ne hm] at hl
      obtain ⟨hc, t, ht, hmem⟩ := h.table m' c l hl
      exact ⟨hc, t, ht, List.mem_cons_of_mem _ hmem⟩
  time_le r hr := by
    rcases List.mem_cons.mp hr with rfl | hold
    · exact le_rfl
    · exact h.time_le r hold
  expiry r hr := by
    rw [World.granted_ttl]
    rcases List.mem_cons.mp hr with rfl | hold
    · rfl
    · exact h.expiry r hold
  returned r hr hlt := by
    rcases List.mem_cons.mp hr with rfl | hold
    · exact ⟨_, (World.granted_lookup _).trans (if_pos rfl), le_rfl, rfl⟩
    · obtain ⟨l, hl, hexpiry, hholder⟩ := h.returned r hold hlt
      by_cases hm : r.master = m
      · rw [hm] at hl ⊢
        rw [World.granted_lookup]
        split
        · -- the lease is prolonged, for the same holder
          rename_i hc
          rw [hc] at hl
          refine ⟨_, rfl, ?_, (holder_eq hfree hl (hlt.trans_le hexpiry)).symm.trans hholder⟩
          rw [h.expiry r hold, hm]
          exact Int.add_le_add_right (h.time_le r hold) _
        · exact ⟨l, hl, hexpiry, hholder⟩
      · rw [World.granted_leases_ne hm]
        exact ⟨l, hl, hexpiry, hholder⟩

/-- A lease that another master would have refused overlaps with the one in the way, and no other
lease overlaps with one of another holder. -/
theorem exclusive_granted_iff (hb : Booked w) (hx : Exclusive w)
    (hfree : ¬(w.masters m).leases.heldByOther w.now chunkId holder) :
    Exclusive (w.granted m chunkId holder) ↔
      ∀ m', m' ≠ m → ¬(w.masters m').leases.heldByOther w.now chunkId holder := by
  constructor
  · intro hnew m' _ hheld
    obtain ⟨l, hl, hvalid, hne⟩ := LeaseManager.heldByOther_iff.mp hheld
    obtain ⟨hc, t, ht, hmem⟩ := hb.table m' chunkId l hl
    have hself : w.now < w.now + (w.masters m).leases.ttl :=
      Int.lt_add_of_pos_right _ (w.masters m).leases.ttl_pos
    exact hne (hnew _ (List.mem_cons_of_mem _ hmem) _ List.mem_cons_self hc w.now ⟨ht, hvalid⟩
      ⟨le_rfl, hself⟩)
  · intro hothers
    -- what is valid together with the new lease is valid now, and in the table of some master
    have hnew : ∀ r ∈ w.returned, r.lease.chunkID = chunkId → ∀ t, w.now ≤ t → r.validAt t →
        r.lease.holder = holder := by
      intro r hr hc t ht hvalid
      obtain ⟨l, hl, hexpiry, hholder⟩ := hb.returned r hr (ht.trans_lt hvalid.2)
      rw [hc] at hl
      have hnow : w.now < l.expiry := (ht.trans_lt hvalid.2).trans_le hexpiry
      have hfree' : ¬(w.masters r.master).leases.heldByOther w.now chunkId holder := by
        by_cases hm : r.master = m
        · rwa [hm]
        · exact hothers _ hm
      exact hholder.symm.trans (holder_eq hfree' hl hnow)
    intro r hr r' hr' hc t hvalid hvalid'
    rcases List.mem_cons.mp hr with rfl | hold
    · rcases List.mem_cons.mp hr' with rfl | hold'
      · rfl
      · exact (hnew r' hold' hc.symm t hvalid.1 hvalid').symm
    · rcases List.mem_cons.mp hr' with rfl | hold'
      · exact hnew r hold hc t hvalid'.1 hvalid
      · exact hx r hold r' hold' hc t hvalid hvalid'

theorem Booked.step (h : Booked w) {e : Event M} (hs : step w e = some w') : Booked w' := by
  cases e with
  | tick t =>
      obtain ⟨ht, hw⟩ := Option.ite_none_right_eq_some.mp hs
      cases hw
      exact h.tick ht
  | getLease m chunkId holder =>
      by_cases hheld : (w.masters m).leases.heldByOther w.now chunkId holder
      · cases (step_refused hheld).symm.trans hs
        exact h
      · cases (step_granted hheld).symm.trans hs
        exact h.granted hheld

theorem exclusive_step_iff (hb : Booked w) (hx : Exclusive w) {e : Event M}
    (hs : Leases.step w e = some w') : Exclusive w' ↔ OthersAgree w e := by
  cases e with
  | tick t =>
      obtain ⟨-, hw⟩ := Option.ite_none_right_eq_some.mp hs
      cases hw
      exact iff_of_true hx trivial
  | getLease m chunkId holder =>
      by_cases hheld : (w.masters m).leases.heldByOther w.now chunkId holder
      · cases (step_refused hheld).symm.trans hs
        exact iff_of_true hx (Or.inl hheld)
      · cases (step_granted hheld).symm.trans hs
        rw [exclusive_granted_iff hb hx hheld, OthersAgree, or_iff_right hheld]

end Step

/-- In a run in which no master grants a lease that another would refuse, no two holders have
leases on one chunk at any time; and a next step keeps that exactly when it grants no such lease
either. -/
theorem leases_exclusive_iff {w₀ w : World M σ} (h₀ : Initial w₀) (h : Path step OthersAgree w₀ w) :
    Exclusive w ∧ ∀ e w', step w e = some w' → (Exclusive w' ↔ OthersAgree w e) := by
  have hinit : Booked w₀ ∧ Exclusive w₀ := by
    refine ⟨⟨?_, ?_, ?_, ?_⟩, ?_⟩
    · intro m c l hl
      rw [h₀.1 m, Finmap.lookup_empty] at hl
      cases hl
    all_goals
      intro r hr
      rw [h₀.2] at hr
      cases hr
  obtain ⟨hb, hx⟩ := h.invariant (I := fun u => Booked u ∧ Exclusive u) hinit
    fun u e u' hu hok hs => ⟨hu.1.step hs, (exclusive_step_iff hu.1 hu.2 hs).mpr hok⟩
  exact ⟨hx, fun e w' hs => exclusive_step_iff hb hx hs⟩

/-- Two masters at the time 0, with leases of a minute. -/
def pair : World Bool (SortedList Char FileInfo) := ⟨0, fun _ => Server.lone, []⟩

/-- One master grants a lease and refuses another holder; after a minute the other one grants it. -/
def oneAfterTheOther : List (Event Bool) :=
  [.getLease true "c" "x", .getLease true "c" "y", .tick 60000000000, .getLease false "c" "y"]

theorem leases_exclusive_iff_pair :
    let w := final (guarded step OthersAgree) pair oneAfterTheOther
    w.returned = [⟨false, 60000000000, ⟨"c", "y", 120000000000⟩⟩,
        ⟨true, 0, ⟨"c", "x", 60000000000⟩⟩] ∧
      Exclusive w ∧ ∀ e w', step w e = some w' → (Exclusive w' ↔ OthersAgree w e) :=
  ⟨by decide +kernel, leases_exclusive_iff ⟨fun _ => rfl, rfl⟩ (Path.final (by decide +kernel))⟩

/-- Asked at the same time, both masters grant the lease, each to another holder. -/
theorem leases_not_exclusive :
    let w := final step pair [.getLease true "c" "x", .getLease false "c" "y"]
    w.returned = [⟨false, 0, ⟨"c", "y", 60000000000⟩⟩, ⟨true, 0, ⟨"c", "x", 60000000000⟩⟩] ∧
      ¬Exclusive w := by
  intro w
  have hreturned : w.returned =
      [⟨false, 0, ⟨"c", "y", 60000000000⟩⟩, ⟨true, 0, ⟨"c", "x", 60000000000⟩⟩] := by
    decide +kernel
  refine ⟨hreturned, fun hx => ?_⟩
  unfold Exclusive at hx
  rw [hreturned] at hx
  exact absurd (hx _ List.mem_cons_self _ (List.mem_cons_of_mem _ List.mem_cons_self) rfl 0
    (by decide) (by decide)) (by decide)

end Leases

end VaultFS.Master
