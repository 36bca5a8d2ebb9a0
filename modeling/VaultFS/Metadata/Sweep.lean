import VaultFS.Metadata.ChunkSlices
import VaultFS.Metadata.Heartbeat

/-!
# A sweep of the monitor

`Sweep` when no other call comes in between: the nodes that are silent for too long are forgotten,
their replicas are removed from the chunk map, and the chunks this leaves with too few replicas are
the tasks. The two comparisons with the timeout, in `Sweep` and in `IsAlive` and `LiveNodes`, are
complements of each other.
-/

namespace VaultFS.Metadata

open FiniteMap Slices

/-- What the runtime decides in a sweep: the spare elements of arrays and the orders of the loops
over the maps. -/
structure Runtime where
  grow : ℕ → ℕ
  scan : Iteration String
  remove : String → Iteration String
  under : Iteration String
  tasks : Iteration String

/-- A `ReplicationTask` with the slice of its sources. -/
structure SweepTask where
  chunkID : String
  sources : Slice
  need : ℤ

/-- The monitor and its chunk map. -/
structure Watch where
  monitor : Monitor
  map : ChunkSlices

/-- What a sweep leaves and what it returns. -/
structure Swept where
  watch : Watch
  dead : List String
  tasks : List SweepTask

namespace Watch

def init (timeout : Time) (factor : ℤ) : Watch := ⟨.new timeout factor, .new⟩

/-- The list of a chunk. -/
def locations (w : Watch) (chunkID : String) : List Location :=
  (w.map.slice chunkID).read w.map.heap

/-- The nodes that a sweep finds dead, in the order of its loop. -/
def dead (rt : Runtime) (w : Watch) (now : Time) : List String :=
  (rt.scan.order w.monitor.lastSeen.keys).filter fun id =>
    (w.monitor.lastSeen.lookup id).any (w.monitor.silent now)

/-- The chunk map without the replicas of the dead nodes. -/
def evict (rt : Runtime) (w : Watch) (now : Time) : ChunkSlices :=
  (w.dead rt now).foldl (fun cs id => cs.removeNode rt.grow (rt.remove id) id) w.map

def sweep (rt : Runtime) (w : Watch) (now : Time) : Swept :=
  let dead := w.dead rt now
  let monitor := (w.monitor.scan now).2
  let map := w.evict rt now
  if dead = [] then ⟨⟨monitor, map⟩, dead, []⟩
  else
    let under := map.underReplicated rt.under monitor.replicationFactor
    let tasks := (rt.tasks.order under.2.keys).filterMap fun chunkID =>
      (under.2.lookup chunkID).map fun locs =>
        ⟨chunkID, locs, monitor.replicationFactor - locs.len⟩
    ⟨⟨monitor, ⟨under.1, map.locations⟩⟩, dead, tasks⟩

inductive Event where
  | recordHeartbeat (now : Time) (nodeID : String)
  | addLocation (grow : ℕ → ℕ) (chunkID : String) (loc : Location)
  | removeLocation (grow : ℕ → ℕ) (chunkID nodeID : String)
  | sweep (rt : Runtime) (now : Time)

def step (w : Watch) : Event → Watch
  | .recordHeartbeat now nodeID => { w with monitor := w.monitor.recordHeartbeat now nodeID }
  | .addLocation grow chunkID loc => { w with map := w.map.addLocation grow chunkID loc }
  | .removeLocation grow chunkID nodeID =>
      { w with map := w.map.removeLocation grow chunkID nodeID }
  | .sweep rt now => (w.sweep rt now).watch

variable {w : Watch} {rt : Runtime} {now : Time}

theorem mem_dead {id : String} : id ∈ w.dead rt now ↔ id ∈ (w.monitor.scan now).1 := by
  simp [dead, Monitor.scan, rt.scan.mem_order]

theorem nodup_dead : (w.dead rt now).Nodup := (rt.scan.nodup _).filter _

/-- A node is found dead if it was heard of and does not count as alive. -/
theorem mem_dead_iff {id : String} : id ∈ w.dead rt now ↔
    (w.monitor.lastSeen.lookup id).isSome ∧ w.monitor.isAlive now id = false := by
  rw [mem_dead, Monitor.mem_scan, Monitor.isAlive]
  cases w.monitor.lastSeen.lookup id with
  | none => simp
  | some ts => simp [Monitor.silent]

/-- The chunk map after the removal of some nodes, one after the other. -/
theorem foldl_removeNode {cs : ChunkSlices} (h : cs.Apart []) (rt : Runtime)
    (ids : List String) :
    (ids.foldl (fun cs id => cs.removeNode rt.grow (rt.remove id) id) cs).Apart [] ∧
      ∀ c, (ids.foldl (fun cs id => cs.removeNode rt.grow (rt.remove id) id) cs).view.getLocations
        c = (cs.view.getLocations c).filter (·.nodeID ∉ ids) := by
  induction ids generalizing cs with
  | nil => exact ⟨h, fun c => by simp⟩
  | cons id ids ih =>
      obtain ⟨hapart, hview⟩ := h.removeNode rt.grow (rt.remove id) id
      obtain ⟨hapart', hlocs⟩ := ih hapart
      refine ⟨hapart', fun c => ?_⟩
      rw [List.foldl_cons, hlocs c, hview, ChunkMap.getLocations_removeNode, List.filter_filter]
      refine List.filter_congr ?_
      intro l _
      simp [Bool.and_comm]

theorem locations_eq (w : Watch) (c : String) : w.locations c = w.map.view.getLocations c :=
  (w.map.getLocations_view c).symm

theorem sweep_dead (w : Watch) (rt : Runtime) (now : Time) :
    (w.sweep rt now).dead = w.dead rt now := by
  rw [sweep]
  split <;> rfl

theorem sweep_monitor (w : Watch) (rt : Runtime) (now : Time) :
    (w.sweep rt now).watch.monitor = (w.monitor.scan now).2 := by
  rw [sweep]
  split <;> rfl

/-- A sweep leaves the slices apart, and takes the dead nodes out of every list. -/
theorem sweep_map (h : w.map.Apart []) (rt : Runtime) (now : Time) :
    (w.sweep rt now).watch.map.Apart [] ∧ ∀ c, (w.sweep rt now).watch.locations c =
      (w.locations c).filter (·.nodeID ∉ w.dead rt now) := by
  obtain ⟨hapart, hlocs⟩ := foldl_removeNode h rt (w.dead rt now)
  simp only [locations_eq, sweep]
  split
  · exact ⟨hapart, hlocs⟩
  · obtain ⟨hapart', hview⟩ := hapart.alloc (hapart.underReplicated rt.under _).frame
    refine ⟨hapart', fun c => ?_⟩
    rw [← hlocs c]
    exact congrArg (ChunkMap.getLocations · c) hview

theorem step_apart (h : w.map.Apart []) (ev : Event) : (w.step ev).map.Apart [] := by
  cases ev with
  | recordHeartbeat now nodeID => exact h
  | addLocation grow chunkID loc => exact (h.addLocation grow chunkID loc).1
  | removeLocation grow chunkID nodeID => exact (h.removeLocation grow chunkID nodeID).1
  | sweep rt now => exact (sweep_map h rt now).1

theorem apart_of_run (timeout : Time) (factor : ℤ) (events : List Event) :
    (events.foldl step (init timeout factor)).map.Apart [] := by
  induction events using List.reverseRecOn with
  | nil =>
      exact ⟨by simp [init, ChunkSlices.new], by simp [init, ChunkSlices.new], by simp, by simp⟩
  | append_singleton events ev ih =>
      rw [List.foldl_append]
      exact step_apart ih ev

section Tasks

/-- The chunk map when the tasks are made. -/
theorem locations_sweep (h : (w.evict rt now).Apart []) (hdead : w.dead rt now ≠ []) (c : String) :
    (w.sweep rt now).watch.locations c = (w.evict rt now).view.getLocations c := by
  obtain ⟨-, hview⟩ := h.alloc (h.underReplicated rt.under w.monitor.replicationFactor).frame
  rw [locations_eq, sweep, if_neg hdead]
  exact congrArg (ChunkMap.getLocations · c) hview

theorem map_chunkID_tasks (hdead : w.dead rt now ≠ []) :
    (w.sweep rt now).tasks.map (·.chunkID) = rt.tasks.order
      ((w.evict rt now).underReplicated rt.under w.monitor.replicationFactor).2.keys := by
  rw [sweep, if_neg hdead, List.map_filterMap]
  refine (List.filterMap_congr fun c hc => ?_).trans List.filterMap_some
  obtain ⟨s, hs⟩ := Finmap.mem_iff.mp (Finmap.mem_keys.mp (rt.tasks.mem_order.mp hc))
  rw [hs]
  rfl

theorem mem_tasks {task : SweepTask} (h : (w.evict rt now).Apart []) (hdead : w.dead rt now ≠ [])
    (htask : task ∈ (w.sweep rt now).tasks) :
    task.sources.read (w.sweep rt now).watch.map.heap =
        (w.sweep rt now).watch.locations task.chunkID ∧
      task.need + ((w.sweep rt now).watch.locations task.chunkID).length =
        w.monitor.replicationFactor := by
  rw [locations_sweep h hdead]
  rw [sweep, if_neg hdead] at htask ⊢
  obtain ⟨c, -, hc⟩ := List.mem_filterMap.mp htask
  obtain ⟨s, hs, rfl⟩ := Option.map_eq_some_iff.mp hc
  obtain ⟨hread, hlen⟩ := h.read_underReplicated rt.under _ hs
  refine ⟨hread, ?_⟩
  rw [← hlen]
  exact sub_add_cancel _ _

end Tasks

/-- The sweep did what it should. -/
structure Exact (w : Watch) (now : Time) (r : Swept) : Prop where
  nodup_dead : r.dead.Nodup
  /-- The dead nodes are those that were heard of and are not alive. -/
  mem_dead : ∀ id, id ∈ r.dead ↔
    (w.monitor.lastSeen.lookup id).isSome ∧ w.monitor.isAlive now id = false
  /-- Their locations are removed, and no other. -/
  locations : ∀ c, r.watch.locations c = (w.locations c).filter (·.nodeID ∉ r.dead)
  lastSeen : ∀ id ts, r.watch.monitor.lastSeen.lookup id = some ts ↔
    w.monitor.lastSeen.lookup id = some ts ∧ id ∉ r.dead
  /-- The nodes that are left are live. -/
  liveNodes : ∀ it, (r.watch.monitor.liveNodes it now).Nodup ∧
    ∀ id, id ∈ r.watch.monitor.liveNodes it now ↔ (r.watch.monitor.lastSeen.lookup id).isSome
  tasks_nil : r.dead = [] → r.tasks = []
  nodup_tasks : (r.tasks.map (·.chunkID)).Nodup
  /-- The tasks are for the chunks that have too few replicas left, and one at least. -/
  mem_tasks : r.dead ≠ [] → ∀ c, c ∈ r.tasks.map (·.chunkID) ↔ 0 < (r.watch.locations c).length ∧
    (r.watch.locations c).length < w.monitor.replicationFactor
  sources : ∀ task ∈ r.tasks,
    task.sources.read r.watch.map.heap = r.watch.locations task.chunkID ∧
    task.need + (r.watch.locations task.chunkID).length = w.monitor.replicationFactor

/-- `Sweep` after any calls, at any reading of the clock. -/
theorem sweep_exact (timeout : Time) (factor : ℤ) (events : List Event) (rt : Runtime)
    (now : Time) :
    Exact (events.foldl step (init timeout factor)) now
      ((events.foldl step (init timeout factor)).sweep rt now) := by
  have hrun := apart_of_run timeout factor events
  generalize events.foldl step (init timeout factor) = w at hrun ⊢
  have hapart : (w.evict rt now).Apart [] := (foldl_removeNode hrun rt (w.dead rt now)).1
  have htasks : w.dead rt now = [] → (w.sweep rt now).tasks = [] := by
    intro hnil
    rw [sweep, if_pos hnil]
  refine ⟨?_, ?_, ?_, ?_, ?_, ?_, ?_, ?_, ?_⟩
  · rw [sweep_dead]
    exact nodup_dead
  · rw [sweep_dead]
    exact fun id => mem_dead_iff
  · rw [sweep_dead]
    exact (sweep_map hrun rt now).2
  · intro id ts
    rw [sweep_monitor, sweep_dead, Monitor.lookup_scan, mem_dead, Monitor.mem_scan]
    constructor
    · rintro ⟨hts, hsilent⟩
      refine ⟨hts, ?_⟩
      rintro ⟨ts', hts', hsilent'⟩
      rw [hts] at hts'
      obtain rfl := Option.some.inj hts'
      exact hsilent hsilent'
    · rintro ⟨hts, hdead⟩
      exact ⟨hts, fun hsilent => hdead ⟨ts, hts, hsilent⟩⟩
  · intro it
    rw [sweep_monitor]
    exact ⟨(it.nodup _).filter _, fun id => Monitor.mem_liveNodes_scan⟩
  · rw [sweep_dead]
    exact htasks
  · by_cases hdead : w.dead rt now = []
    · rw [htasks hdead]
      exact List.nodup_nil
    · rw [map_chunkID_tasks hdead]
      exact rt.tasks.nodup _
  · intro hdead c
    rw [sweep_dead] at hdead
    rw [map_chunkID_tasks hdead, rt.tasks.mem_order, locations_sweep hapart hdead]
    exact_mod_cast hapart.underReplicated_iff rt.under w.monitor.replicationFactor c
  · intro task htask
    by_cases hdead : w.dead rt now = []
    · rw [htasks hdead] at htask
      cases htask
    · exact mem_tasks hapart hdead htask

end Watch

end VaultFS.Metadata
