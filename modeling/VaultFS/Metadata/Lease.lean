import Mathlib.Data.Finmap
import VaultFS.FiniteMap.Basic
import VaultFS.Metadata.Namespace

/-!
# Leases

`internal/metadata/lease.go`: a master's table of the leases it granted on chunks. The clock of
the manager is a function of the source's (`now`); here each call is given its reading.
-/

namespace VaultFS.Metadata

structure Lease where
  chunkID : String
  holder : String
  expiry : Time
  deriving DecidableEq

def Lease.expired (l : Lease) (now : Time) : Bool := !(now < l.expiry)

inductive LeaseError where
  /-- The chunk has a valid lease of another holder. -/
  | held
  deriving DecidableEq

/-- The error of `Renew` and `Revoke`. -/
inductive NotHeldError where
  /-- The caller has no valid lease on the chunk. -/
  | notHeld
  deriving DecidableEq

def defaultLeaseTTL : Time := 60 * 1000000000

/-- The lifetime of a lease is positive, as `NewLeaseManager` sees to. -/
structure LeaseManager where
  leases : Finmap fun _ : String => Lease
  ttl : Time
  ttl_pos : 0 < ttl

namespace LeaseManager

def new (ttl : Time) : LeaseManager :=
  if h : ttl ≤ 0 then ⟨∅, defaultLeaseTTL, by decide⟩ else ⟨∅, ttl, not_le.mp h⟩

/-- The lease the manager has put down for a chunk, when it is valid at `now` and another's. -/
def heldByOther (m : LeaseManager) (now : Time) (chunkID holder : String) : Bool :=
  match m.leases.lookup chunkID with
  | some existing => !existing.expired now && existing.holder ≠ holder
  | none => false

def grant (m : LeaseManager) (now : Time) (chunkID holder : String) :
    LeaseManager × Except LeaseError Lease :=
  if m.heldByOther now chunkID holder then (m, .error .held)
  else
    let lease : Lease := { chunkID, holder, expiry := now + m.ttl }
    ({ m with leases := m.leases.insert chunkID lease }, .ok lease)

/-- The lease the manager has put down for a chunk, when it is valid at `now` and the holder's. -/
def heldBy (m : LeaseManager) (now : Time) (chunkID holder : String) : Option Lease :=
  match m.leases.lookup chunkID with
  | some existing =>
      if existing.expired now || existing.holder ≠ holder then none else some existing
  | none => none

def renew (m : LeaseManager) (now : Time) (chunkID holder : String) :
    LeaseManager × Except NotHeldError Lease :=
  match m.heldBy now chunkID holder with
  | none => (m, .error .notHeld)
  | some existing =>
      let lease := { existing with expiry := now + m.ttl }
      ({ m with leases := m.leases.insert chunkID lease }, .ok lease)

def revoke (m : LeaseManager) (now : Time) (chunkID holder : String) :
    LeaseManager × Except NotHeldError Unit :=
  match m.heldBy now chunkID holder with
  | none => (m, .error .notHeld)
  | some _ => ({ m with leases := m.leases.erase chunkID }, .ok ())

def check (m : LeaseManager) (now : Time) (chunkID : String) : Option Lease :=
  match m.leases.lookup chunkID with
  | some existing => if existing.expired now then none else some existing
  | none => none

def count (m : LeaseManager) (now : Time) : ℕ :=
  (FiniteMap.filterMap (fun _ l => if l.expired now then none else some l) m.leases).entries.card

/-- The manager without the expired leases, and how many those were. -/
def sweepExpired (m : LeaseManager) (now : Time) : LeaseManager × ℕ :=
  let expired := FiniteMap.filterMap (fun _ l => if l.expired now then some l else none) m.leases
  let leases := FiniteMap.filterMap (fun _ l => if l.expired now then none else some l) m.leases
  ({ m with leases }, expired.entries.card)

theorem heldByOther_iff {m : LeaseManager} {now : Time} {chunkID holder : String} :
    m.heldByOther now chunkID holder ↔
      ∃ l, m.leases.lookup chunkID = some l ∧ now < l.expiry ∧ l.holder ≠ holder := by
  unfold heldByOther
  cases m.leases.lookup chunkID with
  | none => simp
  | some l => simp [Lease.expired]

theorem grant_refused {m : LeaseManager} {now : Time} {chunkID holder : String}
    (h : m.heldByOther now chunkID holder) : m.grant now chunkID holder = (m, .error .held) :=
  if_pos h

theorem grant_granted {m : LeaseManager} {now : Time} {chunkID holder : String}
    (h : ¬m.heldByOther now chunkID holder) :
    m.grant now chunkID holder =
      ({ m with leases := m.leases.insert chunkID ⟨chunkID, holder, now + m.ttl⟩ },
        .ok ⟨chunkID, holder, now + m.ttl⟩) :=
  if_neg h

theorem unexpired_eq_some {now : Time} {l l' : Lease} :
    (if l'.expired now then none else some l') = some l ↔ l' = l ∧ now < l.expiry := by
  split_ifs with hcond
  · rw [false_iff]
    rintro ⟨rfl, hvalid⟩
    simp [Lease.expired, hvalid] at hcond
  · rw [Option.some.injEq]
    constructor
    · rintro rfl
      exact ⟨rfl, by simpa [Lease.expired] using hcond⟩
    · exact And.left

theorem heldBy_eq_some {m : LeaseManager} {now : Time} {chunkID holder : String} {l : Lease} :
    m.heldBy now chunkID holder = some l ↔
      m.leases.lookup chunkID = some l ∧ now < l.expiry ∧ l.holder = holder := by
  unfold heldBy
  cases m.leases.lookup chunkID with
  | none => simp
  | some l' =>
      rw [Option.some.injEq]
      dsimp only
      split_ifs with hcond
      · rw [false_iff]
        rintro ⟨rfl, hvalid, hholder⟩
        simp [Lease.expired, hvalid, hholder] at hcond
      · have hkept : now < l'.expiry ∧ l'.holder = holder := by
          simpa [Lease.expired] using hcond
        rw [Option.some.injEq]
        constructor
        · rintro rfl
          exact ⟨rfl, hkept⟩
        · exact And.left

theorem check_eq_some {m : LeaseManager} {now : Time} {chunkID : String} {l : Lease} :
    m.check now chunkID = some l ↔ m.leases.lookup chunkID = some l ∧ now < l.expiry := by
  unfold check
  cases m.leases.lookup chunkID with
  | none => simp
  | some l' => simpa using unexpired_eq_some

theorem lookup_sweepExpired {m : LeaseManager} {now : Time} {chunkID : String} {l : Lease} :
    (m.sweepExpired now).1.leases.lookup chunkID = some l ↔
      m.leases.lookup chunkID = some l ∧ now < l.expiry := by
  simp only [sweepExpired, FiniteMap.lookup_filterMap]
  cases m.leases.lookup chunkID with
  | none => simp
  | some l' => simpa using unexpired_eq_some

end LeaseManager

end VaultFS.Metadata
