import VaultFS.Metadata.ChunkMap
import VaultFS.Metadata.Namespace

/-!
# The heartbeat monitor

`internal/metadata/heartbeat.go`: which chunk servers have been heard of, and when. A sweep has
three parts that other calls may come between, since the monitor's lock is given up after the first:
`scan` forgets the nodes that are silent for too long, each of them is then removed from the chunk
map, and `tasks` are the chunks this leaves with too few replicas.

The clock of the monitor is a function of the source's (`now`); here each call is given its reading.
-/

namespace VaultFS.Metadata

def maxDuration : Time := 2 ^ 63 - 1

def minDuration : Time := -2 ^ 63

/-- The time from `u` to `t`, as `Time.Sub` has it: cut off where a duration ends. -/
def Time.sub (t u : Time) : Time := max minDuration (min maxDuration (t - u))

def defaultDeadTimeout : Time := 15 * 1000000000

def defaultReplicationFactor : ℕ := 3

structure ReplicationTask where
  chunkID : String
  sources : List Location
  need : ℕ
  deriving DecidableEq

/-- The timeout and the factor are positive, as `NewMonitor` sees to. -/
structure Monitor where
  lastSeen : Finmap fun _ : String => Time
  timeout : Time
  timeout_pos : 0 < timeout
  replicationFactor : ℕ
  replicationFactor_pos : 0 < replicationFactor

namespace Monitor

def new (timeout : Time) (factor : ℤ) : Monitor where
  lastSeen := ∅
  timeout := if timeout ≤ 0 then defaultDeadTimeout else timeout
  timeout_pos := by
    split
    · decide
    · rename_i hpos
      exact not_le.mp hpos
  replicationFactor := if factor ≤ 0 then defaultReplicationFactor else factor.toNat
  replicationFactor_pos := by
    split
    · decide
    · omega

def recordHeartbeat (m : Monitor) (now : Time) (nodeID : String) : Monitor :=
  { m with lastSeen := m.lastSeen.insert nodeID now }

/-- A node heard of last at `ts` is taken for dead at `now`. -/
def silent (m : Monitor) (now ts : Time) : Bool := now.sub ts > m.timeout

def isAlive (m : Monitor) (now : Time) (nodeID : String) : Bool :=
  match m.lastSeen.lookup nodeID with
  | some ts => now.sub ts ≤ m.timeout
  | none => false

def liveNodes (it : FiniteMap.Iteration String) (m : Monitor) (now : Time) : List String :=
  (it.order m.lastSeen.keys).filter fun id => (m.lastSeen.lookup id).any (now.sub · ≤ m.timeout)

/-- The first part of `Sweep`, under the lock: the nodes found dead and the monitor without them. -/
def scan (m : Monitor) (now : Time) : Finset String × Monitor :=
  let dead := m.lastSeen.keys.filter fun id => (m.lastSeen.lookup id).any (m.silent now)
  let lastSeen :=
    FiniteMap.filterMap (fun _ ts => if m.silent now ts then none else some ts) m.lastSeen
  (dead, { m with lastSeen })

/-- The last part of `Sweep`. The order of the tasks is that of a loop over a map. -/
def tasks (m : Monitor) (cm : ChunkMap) (dead : Finset String) : Multiset ReplicationTask :=
  if dead = ∅ then 0
  else (cm.underReplicated m.replicationFactor).entries.map fun e =>
    ⟨e.1, e.2, m.replicationFactor - e.2.length⟩

/-- A node is not silent at a time before it was heard of. -/
theorem not_silent {m : Monitor} {now ts : Time} (h : now ≤ ts) : ¬m.silent now ts := by
  have hpos := m.timeout_pos
  have hsub : now.sub ts ≤ 0 :=
    max_le (by decide) ((min_le_right _ _).trans (Int.sub_nonpos_of_le h))
  simp only [silent, decide_eq_true_eq, gt_iff_lt, not_lt]
  exact hsub.trans hpos.le

theorem mem_scan {m : Monitor} {now : Time} {nodeID : String} :
    nodeID ∈ (m.scan now).1 ↔ ∃ ts, m.lastSeen.lookup nodeID = some ts ∧ m.silent now ts := by
  simp only [scan, Finset.mem_filter, Finmap.mem_keys, Finmap.mem_iff]
  constructor
  · rintro ⟨⟨ts, hts⟩, hsilent⟩
    rw [hts] at hsilent
    exact ⟨ts, hts, by simpa using hsilent⟩
  · rintro ⟨ts, hts, hsilent⟩
    exact ⟨⟨ts, hts⟩, by simp [hts, hsilent]⟩

theorem lookup_scan {m : Monitor} {now ts : Time} {nodeID : String} :
    (m.scan now).2.lastSeen.lookup nodeID = some ts ↔
      m.lastSeen.lookup nodeID = some ts ∧ ¬m.silent now ts := by
  simp only [scan, FiniteMap.lookup_filterMap, Option.bind_eq_some_iff]
  constructor
  · rintro ⟨ts', hts', hif⟩
    split at hif
    · cases hif
    · rename_i hsilent
      cases hif
      exact ⟨hts', hsilent⟩
  · rintro ⟨hts, hsilent⟩
    exact ⟨ts, hts, by simp [hsilent]⟩

/-- After the scan at a time, the nodes that are left are live at that time. -/
theorem mem_liveNodes_scan {m : Monitor} {now : Time} {it : FiniteMap.Iteration String}
    {nodeID : String} : nodeID ∈ (m.scan now).2.liveNodes it now ↔
      ((m.scan now).2.lastSeen.lookup nodeID).isSome := by
  rw [liveNodes, List.mem_filter, it.mem_order, Finmap.mem_keys, ← Finmap.lookup_isSome]
  refine ⟨And.left, fun hsome => ⟨hsome, ?_⟩⟩
  obtain ⟨ts, hts⟩ := Option.isSome_iff_exists.mp hsome
  have hlive := (lookup_scan.mp hts).2
  simp only [silent, decide_eq_true_eq, gt_iff_lt, not_lt] at hlive
  rw [hts]
  exact decide_eq_true hlive

end Monitor

end VaultFS.Metadata
