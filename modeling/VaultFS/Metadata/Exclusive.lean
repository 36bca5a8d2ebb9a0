import VaultFS.Metadata.Lease

/-!
# Exclusive leases

The calls on one lease manager, in the order in which they take its lock, each with its reading of
the clock, which does not go back. A lease that was returned stays in the table, maybe prolonged,
until it expires or is revoked (`Respects`), since no lease in the table runs longer than a lease
that is granted now (`Dated`). So holders that go by the expiry they were told, or by its whole
seconds, never take a chunk for theirs at the same time.
-/

namespace VaultFS.Metadata

/-- How long a holder goes by a lease: until its expiry, or until the whole second before it, which
is what `GetLease` tells. -/
def Lease.trustedUntil (l : Lease) : Bool → Time
  | false => l.expiry
  | true => l.expiry.unix * 1000000000

theorem Lease.trustedUntil_le (l : Lease) (b : Bool) : l.trustedUntil b ≤ l.expiry := by
  cases b with
  | false => exact le_rfl
  | true => exact Int.ediv_mul_le l.expiry (by decide)

namespace LeaseManager

inductive Call where
  | grant (chunkID holder : String)
  | renew (chunkID holder : String)
  | revoke (chunkID holder : String)
  | check (chunkID : String)
  | count
  | sweepExpired
  deriving DecidableEq

inductive Answer where
  | grant (r : Except LeaseError Lease)
  | renew (r : Except NotHeldError Lease)
  | revoke (r : Except NotHeldError Unit)
  | check (r : Option Lease)
  | count (n : ℕ)
  | sweepExpired (n : ℕ)
  deriving DecidableEq

def serve (m : LeaseManager) (now : Time) : Call → LeaseManager × Answer
  | .grant chunkID holder =>
      let (m', r) := m.grant now chunkID holder
      (m', .grant r)
  | .renew chunkID holder =>
      let (m', r) := m.renew now chunkID holder
      (m', .renew r)
  | .revoke chunkID holder =>
      let (m', r) := m.revoke now chunkID holder
      (m', .revoke r)
  | .check chunkID => (m, .check (m.check now chunkID))
  | .count => (m, .count (m.count now))
  | .sweepExpired =>
      let (m', n) := m.sweepExpired now
      (m', .sweepExpired n)

/-- The lease that a call returned. -/
def Answer.lease? : Answer → Option Lease
  | .grant (.ok l) => some l
  | .renew (.ok l) => some l
  | .check r => r
  | _ => none

/-- A call that was made, with the tables before and after it. -/
structure Record where
  time : Time
  call : Call
  answer : Answer
  before : LeaseManager
  after : LeaseManager

def record (m : LeaseManager) (now : Time) (call : Call) : Record :=
  ⟨now, call, (m.serve now call).2, m, (m.serve now call).1⟩

def run (m : LeaseManager) : List (Time × Call) → List Record
  | [] => []
  | x :: calls => m.record x.1 x.2 :: run (m.serve x.1 x.2).1 calls

namespace Record

def Returns (r : Record) (l : Lease) : Prop := r.answer.lease? = some l

/-- The call is a successful `Revoke` by the holder. -/
def Revokes (r : Record) (chunkID holder : String) : Prop :=
  r.call = .revoke chunkID holder ∧ r.answer = .revoke (.ok ())

/-- The holder to whom the call returned the lease can take it for valid at a time, given the calls
that came later. -/
structure Believed (r : Record) (later : List Record) (l : Lease) (b : Bool) (t : Time) : Prop where
  returned : r.time ≤ t
  valid : t < l.trustedUntil b
  unrevoked : ∀ x ∈ later, x.Revokes l.chunkID l.holder → t < x.time

end Record

/-- The chunk has the holder's lease, and it runs at least as long. -/
def Holds (m : LeaseManager) (l : Lease) : Prop :=
  ∃ l', m.leases.lookup l.chunkID = some l' ∧ l'.holder = l.holder ∧ l.expiry ≤ l'.expiry

/-- What a call does while a lease is valid: other holders' calls fail, `Check` shows its holder,
and it is not shortened unless its holder revokes it. -/
structure Respects (l : Lease) (r : Record) : Prop where
  grant : ∀ holder, holder ≠ l.holder → r.call = .grant l.chunkID holder →
    r.answer = .grant (.error .held)
  renew : ∀ holder, holder ≠ l.holder → r.call = .renew l.chunkID holder →
    r.answer = .renew (.error .notHeld)
  check : r.call = .check l.chunkID →
    ∃ l', r.answer = .check (some l') ∧ l'.holder = l.holder ∧ l.expiry ≤ l'.expiry
  kept : ∃ l₀, r.before.leases.lookup l.chunkID = some l₀ ∧ l₀.holder = l.holder ∧
    l.expiry ≤ l₀.expiry ∧ (¬r.Revokes l.chunkID l.holder → ∃ l₁,
      r.after.leases.lookup l.chunkID = some l₁ ∧ l₁.holder = l.holder ∧ l₀.expiry ≤ l₁.expiry)

/-- The leases are put down for their chunks, and none is longer than one that is granted now. -/
structure Dated (m : LeaseManager) (now : Time) : Prop where
  chunk : ∀ c l, m.leases.lookup c = some l → l.chunkID = c
  expiry : ∀ c l, m.leases.lookup c = some l → l.expiry ≤ now + m.ttl

theorem Dated.mono {m : LeaseManager} {now now' : Time} (h : m.Dated now) (hle : now ≤ now') :
    m.Dated now' :=
  ⟨h.chunk, fun c l hl => (h.expiry c l hl).trans (Int.add_le_add_right hle _)⟩

/-! ### One call -/

section Step

variable {m : LeaseManager} {now : Time} {call : Call} {l : Lease}

theorem ttl_serve (m : LeaseManager) (now : Time) (call : Call) :
    (m.serve now call).1.ttl = m.ttl := by
  cases call with
  | grant c h =>
      simp only [serve, LeaseManager.grant]
      split <;> rfl
  | renew c h =>
      simp only [serve, LeaseManager.renew]
      split <;> rfl
  | revoke c h =>
      simp only [serve, LeaseManager.revoke]
      split <;> rfl
  | check c => rfl
  | count => rfl
  | sweepExpired => rfl

/-- The ways in which a call changes what is put down for a chunk. -/
inductive TableStep (m : LeaseManager) (now : Time) (call : Call) (c : String) :
    Option Lease → Option Lease → Prop where
  | kept (l : Option Lease) : TableStep m now call c l l
  | granted (old : Option Lease) (new : Lease) (hchunk : new.chunkID = c)
      (hfree : ¬m.heldByOther now c new.holder) (hexpiry : new.expiry = now + m.ttl) :
      TableStep m now call c old (some new)
  | revoked (l : Lease) (hrevokes : (m.record now call).Revokes c l.holder) :
      TableStep m now call c (some l) none
  | swept (l : Lease) (hexpired : l.expiry ≤ now) : TableStep m now call c (some l) none

theorem TableStep.insert (c c' : String) {new : Lease} (hchunk : new.chunkID = c)
    (hfree : ¬m.heldByOther now c new.holder) (hexpiry : new.expiry = now + m.ttl) :
    TableStep m now call c' (m.leases.lookup c') ((m.leases.insert c new).lookup c') := by
  by_cases hc : c' = c
  · subst hc
    rw [Finmap.lookup_insert]
    exact .granted _ new hchunk hfree hexpiry
  · rw [Finmap.lookup_insert_of_ne _ hc]
    exact .kept _

/-- A holder's own lease is in nobody's way. -/
theorem not_heldByOther_of_heldBy {c h : String} (hl : m.heldBy now c h = some l) :
    ¬m.heldByOther now c l.holder := by
  intro hother
  obtain ⟨l', hl', -, hne⟩ := heldByOther_iff.mp hother
  rw [(heldBy_eq_some.mp hl).1, Option.some.injEq] at hl'
  exact hne (by rw [hl'])

theorem tableStep_serve (hm : m.Dated now) (call : Call) (c' : String) :
    TableStep m now call c' (m.leases.lookup c') ((m.serve now call).1.leases.lookup c') := by
  cases call with
  | grant c h =>
      simp only [serve]
      by_cases hheld : m.heldByOther now c h
      · rw [grant_refused hheld]
        exact .kept _
      · rw [grant_granted hheld]
        exact .insert c c' rfl hheld rfl
  | renew c h =>
      simp only [serve, LeaseManager.renew]
      cases hl : m.heldBy now c h with
      | none => exact .kept _
      | some l =>
          have hchunk := hm.chunk c l (heldBy_eq_some.mp hl).1
          have hfree := not_heldByOther_of_heldBy hl
          exact .insert c c' hchunk hfree rfl
  | revoke c h =>
      cases hl : m.heldBy now c h with
      | none =>
          simp only [serve, LeaseManager.revoke, hl]
          exact .kept _
      | some l =>
          obtain ⟨hlookup, -, hholder⟩ := heldBy_eq_some.mp hl
          have hrevokes : (m.record now (.revoke c h)).Revokes c l.holder := by
            simp [record, Record.Revokes, serve, LeaseManager.revoke, hl, hholder]
          simp only [serve, LeaseManager.revoke, hl]
          by_cases hc : c' = c
          · subst hc
            rw [Finmap.lookup_erase, hlookup]
            exact .revoked l hrevokes
          · rw [Finmap.lookup_erase_ne hc]
            exact .kept _
  | check c => exact .kept _
  | count => exact .kept _
  | sweepExpired =>
      simp only [serve]
      cases hnew : (m.sweepExpired now).1.leases.lookup c' with
      | some l =>
          rw [(lookup_sweepExpired.mp hnew).1]
          exact .kept _
      | none =>
          cases hold : m.leases.lookup c' with
          | none => exact .kept _
          | some l =>
              refine .swept l (not_lt.mp fun hvalid => ?_)
              rw [lookup_sweepExpired.mpr ⟨hold, hvalid⟩] at hnew
              cases hnew

theorem Dated.serve (hm : m.Dated now) (call : Call) : (m.serve now call).1.Dated now := by
  have hlease : ∀ c l, (m.serve now call).1.leases.lookup c = some l →
      l.chunkID = c ∧ l.expiry ≤ now + m.ttl := by
    intro c l hl
    have hstep := tableStep_serve hm call c
    rw [hl] at hstep
    cases hold : m.leases.lookup c with
    | none =>
        rw [hold] at hstep
        cases hstep with
        | granted _ _ hchunk _ hexpiry => exact ⟨hchunk, hexpiry.le⟩
    | some l' =>
        rw [hold] at hstep
        cases hstep with
        | kept => exact ⟨hm.chunk c l hold, hm.expiry c l hold⟩
        | granted _ _ hchunk _ hexpiry => exact ⟨hchunk, hexpiry.le⟩
  refine ⟨fun c l hl => (hlease c l hl).1, fun c l hl => ?_⟩
  rw [ttl_serve]
  exact (hlease c l hl).2

/-- A lease that a call returns is in the table after it. -/
theorem lookup_of_returns (hm : m.Dated now) (h : (m.record now call).Returns l) :
    (m.serve now call).1.leases.lookup l.chunkID = some l := by
  cases call with
  | grant c h' =>
      by_cases hheld : m.heldByOther now c h'
      · simp [record, Record.Returns, serve, grant_refused hheld, Answer.lease?] at h
      · simp only [record, Record.Returns, serve, grant_granted hheld, Answer.lease?,
          Option.some.injEq] at h
        subst h
        simp only [serve, grant_granted hheld]
        exact Finmap.lookup_insert m.leases
  | renew c h' =>
      cases hl : m.heldBy now c h' with
      | none => simp [record, Record.Returns, serve, LeaseManager.renew, hl, Answer.lease?] at h
      | some l' =>
          simp only [record, Record.Returns, serve, LeaseManager.renew, hl, Answer.lease?,
            Option.some.injEq] at h
          obtain rfl := hm.chunk c l' (heldBy_eq_some.mp hl).1
          subst h
          simp only [serve, LeaseManager.renew, hl]
          exact Finmap.lookup_insert m.leases
  | revoke c h' => simp [record, Record.Returns, serve, Answer.lease?] at h
  | check c =>
      have hl := (check_eq_some.mp h).1
      rw [hm.chunk c l hl]
      exact hl
  | count => simp [record, Record.Returns, serve, Answer.lease?] at h
  | sweepExpired => simp [record, Record.Returns, serve, Answer.lease?] at h

/-- A valid lease is respected by the next call. -/
theorem Holds.respects (h : m.Holds l) (hm : m.Dated now) (hvalid : now < l.expiry) (call : Call) :
    Respects l (m.record now call) := by
  obtain ⟨l₀, hl₀, hholder, hexpiry⟩ := h
  have hvalid₀ : now < l₀.expiry := hvalid.trans_le hexpiry
  have hother : ∀ h, h ≠ l.holder → m.heldByOther now l.chunkID h := fun h hne =>
    heldByOther_iff.mpr ⟨l₀, hl₀, hvalid₀, fun heq => hne (heq.symm.trans hholder)⟩
  refine ⟨?_, ?_, ?_, l₀, hl₀, hholder, hexpiry, ?_⟩
  · rintro h hne hcall
    simp only [record] at hcall ⊢
    rw [hcall, serve, grant_refused (hother h hne)]
  · rintro h hne hcall
    have hnone : m.heldBy now l.chunkID h = none := by
      by_contra hsome
      obtain ⟨l', hl'⟩ := Option.ne_none_iff_exists'.mp hsome
      obtain ⟨hlookup, -, hholder'⟩ := heldBy_eq_some.mp hl'
      rw [hl₀, Option.some.injEq] at hlookup
      exact hne (by rw [← hholder', ← hlookup, hholder])
    simp only [record] at hcall ⊢
    rw [hcall, serve, LeaseManager.renew, hnone]
  · intro hcall
    refine ⟨l₀, ?_, hholder, hexpiry⟩
    simp only [record] at hcall ⊢
    rw [hcall, serve, check_eq_some.mpr ⟨hl₀, hvalid₀⟩]
  · intro hrevokes
    have hstep := tableStep_serve hm call l.chunkID
    rw [hl₀] at hstep
    generalize hnew : (m.serve now call).1.leases.lookup l.chunkID = new at hstep
    cases hstep with
    | kept => exact ⟨l₀, hnew, hholder, le_rfl⟩
    | granted _ l₁ _ hfree hexpiry₁ =>
        refine ⟨l₁, hnew, ?_, hexpiry₁ ▸ hm.expiry _ _ hl₀⟩
        by_contra hne
        exact hfree (hother _ hne)
    | revoked _ hrevokes' => exact absurd (hholder ▸ hrevokes') hrevokes
    | swept _ hexpired => exact absurd hvalid₀ (not_lt.mpr hexpired)

end Step

/-! ### Runs -/

/-- The calls can come next: their times do not go back. -/
structure Ready (m : LeaseManager) (calls : List (Time × Call)) : Prop where
  clock : calls.Pairwise fun x y => x.1 ≤ y.1
  dated : ∀ x ∈ calls, m.Dated x.1

section Run

variable {m : LeaseManager} {calls : List (Time × Call)} {x : Time × Call} {l : Lease}

theorem Ready.serve (h : m.Ready (x :: calls)) : (m.serve x.1 x.2).1.Ready calls := by
  obtain ⟨hle, hclock⟩ := List.pairwise_cons.mp h.clock
  exact ⟨hclock, fun y hy => ((h.dated x List.mem_cons_self).serve x.2).mono (hle y hy)⟩

theorem mem_of_mem_run {r : Record} (h : r ∈ m.run calls) : (r.time, r.call) ∈ calls := by
  induction calls generalizing m with
  | nil => cases h
  | cons x calls ih =>
      rcases List.mem_cons.mp h with rfl | h
      · exact List.mem_cons_self
      · exact List.mem_cons_of_mem _ (ih h)

/-- A run goes on from the table after a call. -/
theorem Ready.split (h : m.Ready calls) {pre post : List Record} {r : Record}
    (hrun : m.run calls = pre ++ r :: post) :
    ∃ (m' : LeaseManager) (t : Time) (call : Call) (calls' : List (Time × Call)),
      r = m'.record t call ∧ m'.Ready ((t, call) :: calls') ∧
      post = (m'.serve t call).1.run calls' := by
  induction pre generalizing m calls with
  | nil =>
      cases calls with
      | nil => cases hrun
      | cons x calls =>
          rw [run, List.nil_append, List.cons.injEq] at hrun
          exact ⟨m, x.1, x.2, calls, hrun.1.symm, h, hrun.2.symm⟩
  | cons r' pre ih =>
      cases calls with
      | nil => cases hrun
      | cons x calls =>
          rw [run, List.cons_append, List.cons.injEq] at hrun
          exact ih h.serve hrun.2

/-- A lease in the table is respected until it expires or is revoked. -/
theorem Holds.respects_run (h : m.Holds l) (hready : m.Ready calls) {mid post : List Record}
    {r : Record} (hrun : m.run calls = mid ++ r :: post) (hvalid : r.time < l.expiry)
    (hunrevoked : ∀ x ∈ mid, ¬x.Revokes l.chunkID l.holder) : Respects l r := by
  induction mid generalizing m calls with
  | nil =>
      cases calls with
      | nil => cases hrun
      | cons x calls =>
          rw [run, List.nil_append, List.cons.injEq] at hrun
          rw [← hrun.1] at hvalid ⊢
          exact h.respects (hready.dated x List.mem_cons_self) hvalid x.2
  | cons r' mid ih =>
      cases calls with
      | nil => cases hrun
      | cons x calls =>
          rw [run, List.cons_append, List.cons.injEq] at hrun
          have hle : x.1 ≤ r.time := by
            have hmem := mem_of_mem_run (hrun.2 ▸ List.mem_append_right mid List.mem_cons_self)
            exact (List.pairwise_cons.mp hready.clock).1 _ hmem
          have hrespects := h.respects (hready.dated x List.mem_cons_self) (hle.trans_lt hvalid) x.2
          obtain ⟨l₀, -, -, hexpiry, hkept⟩ := hrespects.kept
          obtain ⟨l₁, hl₁, hholder₁, hexpiry₁⟩ := hkept (by
            rw [hrun.1]
            exact hunrevoked r' List.mem_cons_self)
          exact ih ⟨l₁, hl₁, hholder₁, hexpiry.trans hexpiry₁⟩ hready.serve hrun.2
            fun y hy => hunrevoked y (List.mem_cons_of_mem _ hy)

theorem ready_new (ttl : Time) (h : calls.Pairwise fun x y => x.1 ≤ y.1) :
    (new ttl).Ready calls := by
  have hempty : (new ttl).leases = ∅ := by
    unfold new
    split <;> rfl
  refine ⟨h, fun x _ => ⟨?_, ?_⟩⟩
  · intro c l hl
    rw [hempty, Finmap.lookup_empty] at hl
    cases hl
  · intro c l hl
    rw [hempty, Finmap.lookup_empty] at hl
    cases hl

theorem Ready.respects (h : m.Ready calls) {pre mid post : List Record} {r r' : Record}
    (hrun : m.run calls = pre ++ r :: (mid ++ r' :: post)) (hl : r.Returns l)
    (hvalid : r'.time < l.expiry) (hunrevoked : ∀ x ∈ mid, ¬x.Revokes l.chunkID l.holder) :
    Respects l r' := by
  obtain ⟨m', t, call, calls', rfl, hready, hpost⟩ := h.split hrun
  have hlookup := lookup_of_returns (hready.dated _ List.mem_cons_self) hl
  exact Holds.respects_run ⟨l, hlookup, rfl, le_rfl⟩ hready.serve hpost.symm hvalid hunrevoked

/-- The records of a run are in the order of time. -/
theorem Ready.time_le (h : m.Ready calls) {pre mid post : List Record} {r r' : Record}
    (hrun : m.run calls = pre ++ r :: (mid ++ r' :: post)) (x : Record) (hx : x ∈ mid) :
    x.time ≤ r'.time := by
  obtain ⟨m', t, call, calls', -, hready, hpost⟩ := h.split hrun
  obtain ⟨mid₁, mid₂, rfl⟩ := List.append_of_mem hx
  rw [List.append_assoc, List.cons_append] at hpost
  obtain ⟨m'', t', call', calls'', rfl, hready', hpost'⟩ := hready.serve.split hpost.symm
  have hmem := mem_of_mem_run (hpost' ▸ List.mem_append_right mid₂ List.mem_cons_self)
  exact (List.pairwise_cons.mp hready'.clock).1 _ hmem

/-- **Exclusive leases.** In every run of a manager, until a lease that was returned expires or its
holder revokes it, it is respected; and two holders never take one chunk for theirs at the same
time. -/
theorem leases_respected (ttl : Time) (calls : List (Time × Call))
    (hclock : calls.Pairwise fun x y => x.1 ≤ y.1) (pre mid post : List Record) (r r' : Record)
    (hrun : (new ttl).run calls = pre ++ r :: (mid ++ r' :: post)) (l : Lease) (hl : r.Returns l) :
    (r'.time < l.expiry → (∀ x ∈ mid, ¬x.Revokes l.chunkID l.holder) → Respects l r') ∧
      ∀ l', r'.Returns l' → l'.chunkID = l.chunkID → l'.holder ≠ l.holder → ∀ b b' t,
        r.Believed (mid ++ r' :: post) l b t → ¬r'.Believed post l' b' t := by
  have hready := ready_new ttl hclock
  refine ⟨hready.respects hrun hl, ?_⟩
  intro l' hl' hchunk hholder b b' t hbelieved hbelieved'
  have hvalid : t < l.expiry := hbelieved.valid.trans_le (l.trustedUntil_le b)
  have hunrevoked : ∀ x ∈ mid, ¬x.Revokes l.chunkID l.holder := by
    intro x hx hrevokes
    have hlt := hbelieved.unrevoked x (List.mem_append_left _ hx) hrevokes
    exact absurd ((hready.time_le hrun x hx).trans hbelieved'.returned) (not_le.mpr hlt)
  have hrespects := hready.respects hrun hl (hbelieved'.returned.trans_lt hvalid) hunrevoked
  -- the lease that is returned is the one in the table
  have hrun' : (new ttl).run calls = (pre ++ r :: mid) ++ r' :: post := by simp [hrun]
  obtain ⟨m', t', call, calls', rfl, hready', -⟩ := hready.split hrun'
  have hlookup := lookup_of_returns (hready'.dated _ List.mem_cons_self) hl'
  obtain ⟨l₀, -, -, -, hkept⟩ := hrespects.kept
  obtain ⟨l₁, hl₁, hholder₁, -⟩ := hkept fun hrevokes => by
    rw [Record.Returns, hrevokes.2] at hl'
    cases hl'
  rw [hchunk] at hlookup
  have heq : some l' = some l₁ := hlookup.symm.trans hl₁
  cases heq
  exact hholder hholder₁

/-- A lease is granted and renewed, and the last moment of the first one is still the holder's: at
its expiry another holder is refused, for the sake of the renewed one. -/
theorem leases_respected_renewed :
    let m := new 0
    let calls := [(0, .grant "c" "x"), (7, .renew "c" "x"), (60000000000, .grant "c" "y")]
    let m₁ := (m.serve 0 (.grant "c" "x")).1
    let r := m₁.record 7 (.renew "c" "x")
    let r' := r.after.record 60000000000 (.grant "c" "y")
    let l : Lease := ⟨"c", "x", 60000000007⟩
    calls.Pairwise (fun x y => x.1 ≤ y.1) ∧
      m.run calls = [m.record 0 (.grant "c" "x")] ++ r :: ([] ++ r' :: []) ∧ r.Returns l ∧
      Respects l r' ∧
      ∀ l', r'.Returns l' → l'.chunkID = l.chunkID → l'.holder ≠ l.holder → ∀ b b' t,
        r.Believed ([] ++ r' :: []) l b t → ¬r'.Believed [] l' b' t := by
  intro m calls m₁ r r' l
  have hclock : calls.Pairwise (fun x y => x.1 ≤ y.1) := by decide
  have hrun : m.run calls = [m.record 0 (.grant "c" "x")] ++ r :: ([] ++ r' :: []) := rfl
  have hl : r.Returns l := by
    unfold Record.Returns
    decide +kernel
  obtain ⟨hrespects, hexclusive⟩ := leases_respected 0 calls hclock _ [] [] r r' hrun l hl
  exact ⟨hclock, hrun, hl, hrespects (by decide) (by simp), hexclusive⟩

end Run

end LeaseManager

end VaultFS.Metadata
