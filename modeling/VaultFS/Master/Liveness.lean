import VaultFS.Master.View
import VaultFS.Transition.Basic

/-!
# Chunk servers that die and come back

A master with a chunk map and a monitor over it: chunk servers send heartbeats, committed commands
are applied, and the monitor sweeps. A sweep gives up the monitor's lock before it goes on to the
chunk map, so that anything may happen between its steps. The time the monitor reads does not go
back.

Beside the state of the source a world has the time at which each node was heard of last, and the
nodes that have been declared dead and were not heard of since.

The chunk map is filled from the configured placement and emptied from what the monitor has seen,
and neither looks at the other. After a sweep it names no dead node if no file is finalized while a
node of the placement is dead (`swept_nodes_alive`), and it names every live node of the placement
if none of them comes back from the dead (`live_nodes_listed`).
-/

namespace VaultFS.Master

open KeyValue Metadata Transition

/-- A chunk of an entry was one before the command, unless the command brings it in. -/
theorem Tree.mem_chunkIDs_apply {t : Tree} {cmd : Command} {q : List Char} {entry : Entry}
    {c : String} (h : t.apply cmd q = some entry) (hc : c ∈ entry.chunkIDs) :
    (∃ entry', t q = some entry' ∧ c ∈ entry'.chunkIDs) ∨
      (cmd.kind = .finalize ∧ c ∈ cmd.chunkIDs) := by
  by_cases hq : q = cmd.path
  · subst hq
    rw [apply_self, Command.write] at h
    cases hkind : cmd.kind with
    | create =>
        simp only [hkind, Cell.Write.apply] at h
        cases hold : t cmd.path with
        | none =>
            rw [hold] at h
            have hempty : Entry.file 0 [] = entry := Option.some.inj h
            rw [← hempty] at hc
            simp [Entry.file] at hc
        | some entry' =>
            rw [hold] at h
            have hsame : entry' = entry := Option.some.inj h
            exact Or.inl ⟨entry', rfl, hsame ▸ hc⟩
    | finalize =>
        simp only [hkind, Cell.Write.apply, Option.some.injEq] at h
        rw [← h] at hc
        exact Or.inr ⟨rfl, hc⟩
    | delete => simp [hkind, Cell.Write.apply] at h
  · rw [apply_of_ne hq] at h
    split at h
    · unfold fillDirs at h
      split at h
      · cases h
        simp [Entry.dir] at hc
      · exact Or.inl ⟨entry, h, hc⟩
    · exact Or.inl ⟨entry, h, hc⟩

namespace Server

variable {σ : Type*}

/-- What the inner loop of `recordChunkLocations` adds. -/
theorem lists_foldl_placement (placement : List NodeInfo) (cm : ChunkMap) (id c n : String) :
    (placement.foldl (fun cm node => cm.addLocation id ⟨node.nodeID, node.address⟩) cm).Lists c n ↔
      cm.Lists c n ∨ (c = id ∧ ∃ node ∈ placement, node.nodeID = n) := by
  induction placement generalizing cm with
  | nil => simp
  | cons node placement ih =>
      rw [List.foldl_cons, ih, ChunkMap.lists_addLocation]
      simp only [List.exists_mem_cons_iff]
      tauto

theorem lists_foldl_chunkIDs (placement : List NodeInfo) (cm : ChunkMap) (chunkIDs : List String)
    (c n : String) :
    (chunkIDs.foldl (fun cm id => placement.foldl
        (fun cm node => cm.addLocation id ⟨node.nodeID, node.address⟩) cm) cm).Lists c n ↔
      cm.Lists c n ∨ (c ∈ chunkIDs ∧ ∃ node ∈ placement, node.nodeID = n) := by
  induction chunkIDs generalizing cm with
  | nil => simp
  | cons id chunkIDs ih =>
      rw [List.foldl_cons, ih, lists_foldl_placement, List.mem_cons, or_assoc, or_and_right]

/-- The chunk map records the whole placement for each chunk, and nothing else changes. -/
theorem recordChunkLocations_eq {s : Server σ} {cm : ChunkMap} (h : s.chunkMap = some cm)
    (chunkIDs : List String) :
    ∃ cm', s.recordChunkLocations chunkIDs = { s with chunkMap := some cm' } ∧
      ∀ c n, cm'.Lists c n ↔
        cm.Lists c n ∨ (c ∈ chunkIDs ∧ ∃ node ∈ s.placement, node.nodeID = n) := by
  unfold recordChunkLocations
  rw [h]
  exact ⟨_, rfl, lists_foldl_chunkIDs s.placement cm chunkIDs⟩

variable [Store σ Char FileInfo] [LawfulStore σ] (clock : ℕ → Time)

theorem apply_eq (s : Server σ) (cmd : Command) :
    ∃ ns, (s.apply clock cmd).1 =
      if cmd.kind = .finalize then { s with ns }.recordChunkLocations cmd.chunkIDs
      else { s with ns } := by
  have hok := (view_apply clock s cmd).2
  have hfinalized : ∀ r : Namespace σ × Except Error Unit, (s.finalized cmd.chunkIDs r).2 = .ok () →
      (s.finalized cmd.chunkIDs r).1 = { s with ns := r.1 }.recordChunkLocations cmd.chunkIDs := by
    rintro ⟨ns, res⟩ hres
    rw [finalized_result] at hres
    subst hres
    rfl
  unfold apply at hok ⊢
  cases hkind : cmd.kind with
  | create =>
      simp only [reduceCtorEq, if_false]
      cases hstat : s.ns.stat cmd.path with
      | ok fi => exact ⟨s.ns, rfl⟩
      | error err => exact ⟨_, rfl⟩
  | finalize =>
      simp only [if_true]
      simp only [hkind] at hok
      cases hstat : s.ns.stat cmd.path with
      | ok fi =>
          simp only [hstat] at hok
          exact ⟨_, hfinalized _ hok⟩
      | error err =>
          simp only [hstat] at hok
          exact ⟨_, hfinalized _ hok⟩
  | delete =>
      simp only [reduceCtorEq, if_false]
      rcases hdel : s.ns.deleteFile cmd.path with ⟨ns, res⟩
      cases res with
      | ok u => exact ⟨ns, rfl⟩
      | error err => exact ⟨ns, rfl⟩

/-- What applying a command does to the chunk map. -/
theorem apply_chunkMap {s : Server σ} {cm : ChunkMap} (h : s.chunkMap = some cm) (cmd : Command) :
    ∃ cm', (s.apply clock cmd).1.chunkMap = some cm' ∧
      ∀ c n, cm'.Lists c n ↔ cm.Lists c n ∨
        (cmd.kind = .finalize ∧ c ∈ cmd.chunkIDs ∧ ∃ node ∈ s.placement, node.nodeID = n) := by
  obtain ⟨ns, hns⟩ := apply_eq clock s cmd
  rw [hns]
  by_cases hkind : cmd.kind = .finalize
  · obtain ⟨cm', heq, hlists⟩ := recordChunkLocations_eq (s := { s with ns }) h cmd.chunkIDs
    rw [if_pos hkind, heq]
    refine ⟨cm', rfl, ?_⟩
    intro c n
    rw [hlists]
    simp only [hkind, true_and]
    exact Iff.rfl
  · rw [if_neg hkind]
    refine ⟨cm, h, ?_⟩
    intro c n
    simp [hkind]

theorem apply_placement (s : Server σ) (cmd : Command) :
    (s.apply clock cmd).1.placement = s.placement := by
  obtain ⟨ns, hns⟩ := apply_eq clock s cmd
  rw [hns]
  split
  · unfold recordChunkLocations
    split
    · rfl
    · rfl
  · rfl

end Server

namespace Liveness

/-- A sweep in progress: when it read the clock, the nodes it found dead, and those of them that are
still to be removed from the chunk map. -/
structure Sweep where
  time : Time
  dead : Finset String
  left : Finset String

structure World (σ : Type*) where
  server : Server σ
  monitor : Monitor
  chunkCounts : Finmap fun _ : String => ℤ
  now : Time
  sweep : Option Sweep
  /-- The tasks of the last sweep. -/
  tasks : Multiset ReplicationTask
  /-- When each node was heard of last. -/
  heard : Finmap fun _ : String => Time
  /-- The nodes declared dead and not heard of since. -/
  dead : Finset String

inductive HeartbeatError where
  | invalidArgument (message : String)
  deriving DecidableEq

inductive Event where
  /-- The time goes on. -/
  | tick (t : Time)
  | heartbeat (nodeID : String) (chunkCount : ℤ)
  /-- A committed command is applied. -/
  | apply (cmd : Command)
  /-- A sweep begins. -/
  | scan
  /-- The sweep in progress removes a node from the chunk map. -/
  | remove (nodeID : String)
  /-- The sweep in progress ends. -/
  | finish

namespace World

variable {σ : Type*}

def chunkMap (w : World σ) : ChunkMap := w.server.chunkMap.getD .empty

/-- The sweep in progress has yet to remove the node from the chunk map. -/
def Leaving (w : World σ) (nodeID : String) : Prop := ∃ sweep ∈ w.sweep, nodeID ∈ sweep.left

/-- A master with nothing stored and a monitor that has seen nobody. -/
def start [Store σ Char FileInfo] (chunkNodes : List NodeInfo) (rf : ℤ) (timeout : Time)
    (factor : ℤ) (now : Time) : World σ where
  server := .new .empty (.new 0) chunkNodes rf (some .empty)
  monitor := .new timeout factor
  chunkCounts := ∅
  now
  sweep := none
  tasks := 0
  heard := ∅
  dead := ∅

/-- The answer to a heartbeat, and the world after it. -/
def heartbeat (w : World σ) (nodeID : String) (chunkCount : ℤ) :
    Except HeartbeatError Unit × World σ :=
  if nodeID = "" then (.error (.invalidArgument "node_id is required"), w)
  else (.ok (), { w with
    monitor := w.monitor.recordHeartbeat w.now nodeID
    chunkCounts := w.chunkCounts.insert nodeID chunkCount
    heard := w.heard.insert nodeID w.now
    dead := w.dead.erase nodeID })

def scan (w : World σ) : World σ :=
  let (dead, monitor) := w.monitor.scan w.now
  { w with monitor, sweep := some ⟨w.now, dead, dead⟩, dead := w.dead ∪ dead }

def remove (w : World σ) (sweep : Sweep) (nodeID : String) : World σ :=
  { w with
    server := { w.server with chunkMap := w.server.chunkMap.map (·.removeNode nodeID) }
    sweep := some { sweep with left := sweep.left.erase nodeID } }

def finish (w : World σ) (sweep : Sweep) : World σ :=
  { w with sweep := none, tasks := w.monitor.tasks w.chunkMap sweep.dead }

end World

section Step

variable {σ : Type*} [Store σ Char FileInfo] (clock : ℕ → Time)

def step (w : World σ) : Event → Option (World σ)
  | .tick t => if w.now ≤ t then some { w with now := t } else none
  | .heartbeat nodeID chunkCount => some (w.heartbeat nodeID chunkCount).2
  | .apply cmd => some { w with server := (w.server.apply clock cmd).1 }
  | .scan =>
      match w.sweep with
      | none => some w.scan
      | some _ => none
  | .remove nodeID =>
      match w.sweep with
      | none => none
      | some sweep => if nodeID ∈ sweep.left then some (w.remove sweep nodeID) else none
  | .finish =>
      match w.sweep with
      | none => none
      | some sweep => if sweep.left = ∅ then some (w.finish sweep) else none

/-- No file is finalized while a node of the placement is dead. -/
def FinalizesAlive (w : World σ) : Event → Prop
  | .apply cmd => cmd.kind = .finalize → cmd.chunkIDs ≠ [] →
      ∀ node ∈ w.server.placement, node.nodeID ∉ w.dead
  | _ => True

/-- No node of the placement comes back after it was declared dead. -/
def StaysDead (w : World σ) : Event → Prop
  | .heartbeat nodeID _ => (∃ node ∈ w.server.placement, node.nodeID = nodeID) → nodeID ∉ w.dead
  | _ => True

/-- What a step can do. -/
inductive Stepped (w : World σ) : Event → World σ → Prop where
  | tick {t : Time} (h : w.now ≤ t) : Stepped w (.tick t) { w with now := t }
  | refused {chunkCount : ℤ} : Stepped w (.heartbeat "" chunkCount) w
  | heartbeat {nodeID : String} {chunkCount : ℤ} (h : nodeID ≠ "") :
      Stepped w (.heartbeat nodeID chunkCount) (w.heartbeat nodeID chunkCount).2
  | apply {cmd : Command} :
      Stepped w (.apply cmd) { w with server := (w.server.apply clock cmd).1 }
  | scan (h : w.sweep = none) : Stepped w .scan w.scan
  | remove {nodeID : String} {sweep : Sweep} (h : w.sweep = some sweep)
      (hleft : nodeID ∈ sweep.left) : Stepped w (.remove nodeID) (w.remove sweep nodeID)
  | finish {sweep : Sweep} (h : w.sweep = some sweep) (hleft : sweep.left = ∅) :
      Stepped w .finish (w.finish sweep)

variable {clock} {w w' : World σ} {e : Event}

theorem stepped (hs : step clock w e = some w') : Stepped clock w e w' := by
  cases e with
  | tick t =>
      simp only [step, Option.ite_none_right_eq_some, Option.some.injEq] at hs
      obtain ⟨hle, rfl⟩ := hs
      exact .tick hle
  | heartbeat nodeID chunkCount =>
      cases hs
      by_cases hid : nodeID = ""
      · subst hid
        exact .refused
      · exact .heartbeat hid
  | apply cmd =>
      cases hs
      exact .apply
  | scan =>
      cases hsweep : w.sweep with
      | none =>
          simp only [step, hsweep, Option.some.injEq] at hs
          exact hs ▸ .scan hsweep
      | some sweep => simp [step, hsweep] at hs
  | remove nodeID =>
      cases hsweep : w.sweep with
      | none => simp [step, hsweep] at hs
      | some sweep =>
          simp only [step, hsweep, Option.ite_none_right_eq_some, Option.some.injEq] at hs
          obtain ⟨hleft, rfl⟩ := hs
          exact .remove hsweep hleft
  | finish =>
      cases hsweep : w.sweep with
      | none => simp [step, hsweep] at hs
      | some sweep =>
          simp only [step, hsweep, Option.ite_none_right_eq_some, Option.some.injEq] at hs
          obtain ⟨hleft, rfl⟩ := hs
          exact .finish hsweep hleft

/-- What the monitor remembers is the last heartbeat of the nodes that are not declared dead, and
after the scan of a sweep none of them is silent for too long. -/
structure Remembers (w : World σ) : Prop where
  attached : w.server.chunkMap = some w.chunkMap
  seen : ∀ n ts, w.monitor.lastSeen.lookup n = some ts ↔ w.heard.lookup n = some ts ∧ n ∉ w.dead
  swept : ∀ sweep, w.sweep = some sweep → sweep.time ≤ w.now ∧
    ∀ n ts, w.monitor.lastSeen.lookup n = some ts → ¬w.monitor.silent sweep.time ts

omit [Store σ Char FileInfo] in
theorem Remembers.heartbeat (h : Remembers w) {nodeID : String} {chunkCount : ℤ}
    (hid : nodeID ≠ "") : Remembers (w.heartbeat nodeID chunkCount).2 := by
  unfold World.heartbeat
  rw [if_neg hid]
  refine ⟨h.attached, ?_, ?_⟩
  · intro n ts
    by_cases hn : n = nodeID
    · subst hn
      simp [Monitor.recordHeartbeat]
    · simp [Monitor.recordHeartbeat, hn, Finmap.lookup_insert_of_ne, h.seen]
  · intro sweep hsweep
    obtain ⟨htime, hsilent⟩ := h.swept sweep hsweep
    refine ⟨htime, ?_⟩
    intro n ts hts
    by_cases hn : n = nodeID
    · subst hn
      simp only [Monitor.recordHeartbeat, Finmap.lookup_insert, Option.some.injEq] at hts
      exact Monitor.not_silent (hts ▸ htime)
    · simp only [Monitor.recordHeartbeat, Finmap.lookup_insert_of_ne _ hn] at hts
      exact hsilent n ts hts

omit [Store σ Char FileInfo] in
theorem Remembers.scan (h : Remembers w) : Remembers w.scan := by
  refine ⟨h.attached, ?_, ?_⟩
  · intro n ts
    simp only [World.scan, Monitor.lookup_scan, Finset.mem_union, Monitor.mem_scan, not_or,
      not_exists, not_and]
    constructor
    · rintro ⟨hts, hsilent⟩
      obtain ⟨hheard, hdead⟩ := (h.seen n ts).mp hts
      refine ⟨hheard, hdead, ?_⟩
      intro ts' hts'
      rw [hts] at hts'
      cases hts'
      exact hsilent
    · rintro ⟨hheard, hdead, hsilent⟩
      have hts := (h.seen n ts).mpr ⟨hheard, hdead⟩
      exact ⟨hts, hsilent ts hts⟩
  · intro sweep hsweep
    cases hsweep
    exact ⟨le_rfl, fun n ts hts => (Monitor.lookup_scan.mp hts).2⟩

omit [Store σ Char FileInfo] in
theorem chunkMap_remove (h : Remembers w) (sweep : Sweep) (nodeID : String) :
    (w.remove sweep nodeID).server.chunkMap = some (w.chunkMap.removeNode nodeID) := by
  simp [World.remove, h.attached]

variable [LawfulStore σ]

theorem Remembers.step (h : Remembers w) (hs : step clock w e = some w') : Remembers w' := by
  cases stepped hs with
  | tick hle =>
      refine ⟨h.attached, h.seen, ?_⟩
      intro sweep hsweep
      obtain ⟨htime, hsilent⟩ := h.swept sweep hsweep
      exact ⟨htime.trans hle, hsilent⟩
  | refused => exact h
  | heartbeat hid => exact h.heartbeat hid
  | @apply cmd =>
      obtain ⟨cm, hcm, _⟩ := Server.apply_chunkMap clock h.attached cmd
      refine ⟨?_, h.seen, h.swept⟩
      simp [World.chunkMap, hcm]
  | scan => exact h.scan
  | @remove nodeID sweep hsweep _ =>
      refine ⟨?_, h.seen, ?_⟩
      · rw [World.chunkMap, chunkMap_remove h]
        rfl
      · rintro sweep' hsweep'
        cases hsweep'
        exact h.swept sweep hsweep
  | finish => exact ⟨h.attached, h.seen, by simp [World.finish]⟩

/-- The nodes named in the chunk map that are declared dead are those still to be removed. -/
def NamesNoDead (w : World σ) : Prop := ∀ c n, w.chunkMap.Lists c n → n ∈ w.dead → w.Leaving n

theorem NamesNoDead.step (h : NamesNoDead w) (hw : Remembers w) (hok : FinalizesAlive w e)
    (hs : step clock w e = some w') : NamesNoDead w' := by
  cases stepped hs with
  | tick | refused => exact h
  | @heartbeat nodeID chunkCount hid =>
      unfold World.heartbeat
      rw [if_neg hid]
      intro c n hlists hdead
      exact h c n hlists (Finset.mem_of_mem_erase hdead)
  | @apply cmd =>
      obtain ⟨cm, hcm, hlists⟩ := Server.apply_chunkMap clock hw.attached cmd
      intro c n hlisted hdead
      simp only [World.chunkMap, hcm, Option.getD_some, hlists] at hlisted
      rcases hlisted with hold | ⟨hkind, hc, node, hnode, rfl⟩
      · exact h c n hold hdead
      · exact absurd hdead (hok hkind (List.ne_nil_of_mem hc) node hnode)
  | scan hsweep =>
      intro c n hlists hdead
      rcases Finset.mem_union.mp hdead with hold | hnew
      · obtain ⟨sweep, hmem, _⟩ := h c n hlists hold
        rw [hsweep] at hmem
        cases hmem
      · exact ⟨_, rfl, hnew⟩
  | @remove nodeID sweep hsweep _ =>
      intro c n hlisted hdead
      rw [World.chunkMap, chunkMap_remove hw] at hlisted
      obtain ⟨hlists, hne⟩ := ChunkMap.lists_removeNode.mp hlisted
      obtain ⟨sweep', hmem, hleft⟩ := h c n hlists hdead
      rw [hsweep] at hmem
      cases hmem
      exact ⟨_, rfl, Finset.mem_erase.mpr ⟨hne, hleft⟩⟩
  | @finish sweep hsweep hleft =>
      intro c n hlists hdead
      obtain ⟨sweep', hmem, hleft'⟩ := h c n hlists hdead
      rw [hsweep] at hmem
      cases hmem
      rw [hleft] at hleft'
      simp at hleft'

/-! ### From the start -/

variable {chunkNodes : List NodeInfo} {rf : ℤ} {timeout : Time} {factor : ℤ} {now : Time}

omit [LawfulStore σ] in
theorem Remembers.start : Remembers (World.start chunkNodes rf timeout factor now : World σ) where
  attached := rfl
  seen _ _ := by simp [World.start, Monitor.new]
  swept _ h := by cases h

theorem NamesNoDead.of_path
    (h : Path (Liveness.step clock) FinalizesAlive (.start chunkNodes rf timeout factor now) w) :
    Remembers w ∧ NamesNoDead w := by
  refine h.invariant (I := fun w => Remembers w ∧ NamesNoDead w) ⟨.start, ?_⟩ ?_
  · exact fun c n hlists => absurd hlists (ChunkMap.not_lists_empty c n)
  · rintro w e w' ⟨hw, hnames⟩ hok hs
    exact ⟨hw.step hs, hnames.step hw hok hs⟩

/-- When a sweep ends, no node is named in the chunk map that is declared dead and was not heard of
since, or that was heard of last more than the timeout before the sweep. -/
theorem swept_nodes_alive
    (h : Path (step clock) FinalizesAlive (.start chunkNodes rf timeout factor now) w)
    {sweep : Sweep} (hsweep : w.sweep = some sweep) (hs : step clock w .finish = some w')
    {c n : String} (hlists : w'.chunkMap.Lists c n) :
    n ∉ w'.dead ∧ ∀ ts, w'.heard.lookup n = some ts → sweep.time.sub ts ≤ w'.monitor.timeout := by
  obtain ⟨hw, hnames⟩ := NamesNoDead.of_path h
  have hok : FinalizesAlive w .finish := trivial
  have hnames' := hnames.step hw hok hs
  cases stepped hs with
  | finish =>
      have hdead : n ∉ w.dead := by
        intro hdead
        obtain ⟨_, hmem, _⟩ := hnames' c n hlists hdead
        cases hmem
      refine ⟨hdead, ?_⟩
      intro ts hts
      have hsilent := (hw.swept sweep hsweep).2 n ts ((hw.seen n ts).mpr ⟨hts, hdead⟩)
      simp only [Monitor.silent, decide_eq_true_eq] at hsilent
      exact not_lt.mp hsilent

/-- Every chunk of a stored file is listed for every node of the placement that is not declared
dead, and of the placement only dead nodes are still to be removed. -/
structure ListsLiving (w : World σ) : Prop where
  listed : ∀ q entry, Server.view w.server.ns q = some entry → ∀ c ∈ entry.chunkIDs,
    ∀ node ∈ w.server.placement, node.nodeID ∉ w.dead → w.chunkMap.Lists c node.nodeID
  leaving : ∀ node ∈ w.server.placement, w.Leaving node.nodeID → node.nodeID ∈ w.dead

theorem ListsLiving.step (h : ListsLiving w) (hw : Remembers w) (hok : StaysDead w e)
    (hs : step clock w e = some w') : ListsLiving w' := by
  cases stepped hs with
  | tick | refused => exact ⟨h.listed, h.leaving⟩
  | @heartbeat nodeID chunkCount hid =>
      unfold World.heartbeat
      rw [if_neg hid]
      -- the node that is heard of was not declared dead, if it is one of the placement
      have hback : ∀ node ∈ w.server.placement, node.nodeID = nodeID → node.nodeID ∉ w.dead := by
        intro node hnode heq
        rw [heq]
        exact hok ⟨node, hnode, heq⟩
      refine ⟨?_, ?_⟩
      · intro q entry hentry c hc node hnode hdead
        refine h.listed q entry hentry c hc node hnode ?_
        intro hmem
        by_cases heq : node.nodeID = nodeID
        · exact hback node hnode heq hmem
        · exact hdead (Finset.mem_erase.mpr ⟨heq, hmem⟩)
      · intro node hnode hleaving
        have hmem := h.leaving node hnode hleaving
        exact Finset.mem_erase.mpr ⟨fun heq => hback node hnode heq hmem, hmem⟩
  | @apply cmd =>
      obtain ⟨cm, hcm, hlists⟩ := Server.apply_chunkMap clock hw.attached cmd
      have hplacement := Server.apply_placement clock w.server cmd
      refine ⟨?_, ?_⟩
      · intro q entry hentry c hc node hnode hdead
        simp only [(Server.view_apply clock w.server cmd).1] at hentry
        simp only [hplacement] at hnode
        simp only [World.chunkMap, hcm, Option.getD_some, hlists]
        rcases Tree.mem_chunkIDs_apply hentry hc with ⟨entry', hentry', hc'⟩ | ⟨hkind, hc'⟩
        · exact Or.inl (h.listed q entry' hentry' c hc' node hnode hdead)
        · exact Or.inr ⟨hkind, hc', node, hnode, rfl⟩
      · simp only [hplacement]
        exact h.leaving
  | scan hsweep =>
      refine ⟨?_, ?_⟩
      · intro q entry hentry c hc node hnode hdead
        exact h.listed q entry hentry c hc node hnode fun hmem =>
          hdead (Finset.mem_union_left _ hmem)
      · rintro node _ ⟨sweep, hmem, hleft⟩
        cases hmem
        exact Finset.mem_union_right _ hleft
  | @remove nodeID sweep hsweep hleft =>
      refine ⟨?_, ?_⟩
      · intro q entry hentry c hc node hnode hdead
        rw [World.chunkMap, chunkMap_remove hw]
        refine ChunkMap.lists_removeNode.mpr ⟨h.listed q entry hentry c hc node hnode hdead, ?_⟩
        rintro rfl
        exact hdead (h.leaving node hnode ⟨sweep, hsweep, hleft⟩)
      · rintro node hnode ⟨sweep', hmem, hleft'⟩
        cases hmem
        exact h.leaving node hnode ⟨sweep, hsweep, Finset.mem_of_mem_erase hleft'⟩
  | finish =>
      refine ⟨h.listed, ?_⟩
      rintro node _ ⟨sweep, hmem, _⟩
      cases hmem

theorem ListsLiving.of_path
    (h : Path (Liveness.step clock) StaysDead (.start chunkNodes rf timeout factor now) w) :
    Remembers w ∧ ListsLiving w := by
  refine h.invariant (I := fun w => Remembers w ∧ ListsLiving w) ⟨.start, ?_, ?_⟩ ?_
  · intro q entry hentry
    simp [World.start, Server.new] at hentry
  · rintro node _ ⟨sweep, hmem, _⟩
    cases hmem
  · rintro w e w' ⟨hw, hlists⟩ hok hs
    exact ⟨hw.step hs, hlists.step hw hok hs⟩

/-- Every chunk of a stored file is listed for every node of its placement that is alive. -/
theorem live_nodes_listed
    (h : Path (step clock) StaysDead (.start chunkNodes rf timeout factor now) w)
    {path : List Char} {fi : FileInfo} (hfi : w.server.ns.stat path = .ok fi) {c : String}
    (hc : c ∈ fi.chunkIDs) {node : NodeInfo} (hnode : node ∈ w.server.placement)
    (halive : w.monitor.isAlive w.now node.nodeID) :
    ∃ loc ∈ w.chunkMap.getLocations c, loc.nodeID = node.nodeID := by
  obtain ⟨hw, hlists⟩ := ListsLiving.of_path h
  have hview : Server.view w.server.ns path = some (.ofInfo fi) := by
    rw [Server.view, Namespace.stat_eq_ok.mp hfi]
    rfl
  refine hlists.listed path _ hview c hc node hnode ?_
  unfold Monitor.isAlive at halive
  cases hseen : w.monitor.lastSeen.lookup node.nodeID with
  | none => simp [hseen] at halive
  | some ts => exact ((hw.seen node.nodeID ts).mp hseen).2

end Step

section Lone

def readings : ℕ → Time := fun _ => 0

/-- One chunk server, and the default timeout of 15 seconds. -/
def lone : World (SortedList Char FileInfo) := .start [⟨"n", "n:1"⟩] 3 0 3 0

def pair : World (SortedList Char FileInfo) := .start [⟨"n", "n:1"⟩, ⟨"m", "m:1"⟩] 3 0 3 0

def seconds (n : ℕ) : Event := .tick (n * 1000000000)

/-- A file of one chunk is finalized. -/
def finalizes : Event :=
  .apply { kind := .finalize, path := "/f".toList, chunkIDs := ["c"], size := 1 }

/-- The server is heard of, a file is finalized, and a sweep finds nobody dead. -/
def quiet : List Event := [.heartbeat "n" 0, finalizes, seconds 10, .scan]

/-- The server is heard of, and declared dead after 20 seconds of silence. Then a file is finalized,
and the monitor sweeps again. -/
def finalizedAfterDeath : List Event :=
  [.heartbeat "n" 0, seconds 20, .scan, .remove "n", .finish, finalizes, .scan]

instance (w : World (SortedList Char FileInfo)) : (e : Event) → Decidable (FinalizesAlive w e)
  | .apply _ => inferInstanceAs (Decidable (_ → _ → _))
  | .tick _ | .heartbeat _ _ | .scan | .remove _ | .finish => inferInstanceAs (Decidable True)

/-- Two servers are heard of and a file is finalized. Only one is heard of again, and after 20
seconds a sweep declares the other one dead. -/
def oneDies : List Event :=
  [.heartbeat "n" 0, .heartbeat "m" 0, finalizes, seconds 10, .heartbeat "n" 0, seconds 20, .scan,
    .remove "m"]

theorem swept_nodes_alive_pair :
    let w := final (guarded (step readings) FinalizesAlive) pair (oneDies ++ [.finish])
    "m" ∈ w.dead ∧ ¬w.chunkMap.Lists "c" "m" ∧ w.chunkMap.Lists "c" "n" ∧ "n" ∉ w.dead ∧
      ∀ ts, w.heard.lookup "n" = some ts → Time.sub 20000000000 ts ≤ w.monitor.timeout := by
  intro w
  have hdead : "m" ∈ w.dead := by decide +kernel
  have hlists : w.chunkMap.Lists "c" "n" := by decide +kernel
  have hrun : Enabled (guarded (step readings) FinalizesAlive) pair (oneDies ++ [.finish]) := by
    decide +kernel
  have hpath : Path (step readings) FinalizesAlive pair
      (final (guarded (step readings) FinalizesAlive) pair oneDies) :=
    Path.final (by decide +kernel)
  have hsweep : ∃ sweep, sweep.time = 20000000000 ∧
      (final (guarded (step readings) FinalizesAlive) pair oneDies).sweep = some sweep :=
    ⟨_, rfl, rfl⟩
  obtain ⟨sweep, htime, hsweep⟩ := hsweep
  have halive := fun {n : String} (hn : w.chunkMap.Lists "c" n) =>
    swept_nodes_alive hpath hsweep (final_concat hrun).2 hn
  rw [htime] at halive
  exact ⟨hdead, fun hm => (halive hm).1 hdead, hlists, halive hlists⟩

/-- A file that is finalized while a server is dead leaves the server in the chunk map, and no sweep
removes it. -/
theorem dead_node_listed :
    let w := final (step readings) lone (finalizedAfterDeath ++ [.finish])
    Enabled (step readings) lone (finalizedAfterDeath ++ [.finish]) ∧
      w.chunkMap.Lists "c" "n" ∧ "n" ∈ w.dead ∧
      w.heard.lookup "n" = some 0 ∧ w.now = 20000000000 ∧ w.monitor.timeout = 15000000000 := by
  decide +kernel

instance (w : World (SortedList Char FileInfo)) : (e : Event) → Decidable (StaysDead w e)
  | .heartbeat _ _ => inferInstanceAs (Decidable (_ → _))
  | .tick _ | .apply _ | .scan | .remove _ | .finish => inferInstanceAs (Decidable True)

theorem live_nodes_listed_lone :
    let w := final (guarded (step readings) StaysDead) lone (quiet ++ [.finish])
    w.monitor.isAlive w.now "n" ∧ ∃ loc ∈ w.chunkMap.getLocations "c", loc.nodeID = "n" := by
  intro w
  have halive : w.monitor.isAlive w.now "n" := by decide +kernel
  have hpath : Path (step readings) StaysDead lone w := Path.final (by decide +kernel)
  have hstat : ∃ fi, w.server.ns.stat "/f".toList = .ok fi ∧ "c" ∈ fi.chunkIDs := by
    refine ⟨_, rfl, ?_⟩
    decide +kernel
  obtain ⟨fi, hfi, hc⟩ := hstat
  have hnode : (⟨"n", "n:1"⟩ : NodeInfo) ∈ w.server.placement := by decide +kernel
  exact ⟨halive, live_nodes_listed hpath hfi hc hnode halive⟩

/-- The server is heard of and a file is finalized; after 20 seconds the server is declared dead,
and then it is heard of again. -/
def backFromTheDead : List Event :=
  [.heartbeat "n" 0, finalizes, seconds 20, .scan, .remove "n", .finish, .heartbeat "n" 1]

/-- A server that comes back is alive and in no list. -/
theorem live_node_not_listed :
    let w := final (step readings) lone backFromTheDead
    Enabled (step readings) lone backFromTheDead ∧ w.sweep.isNone ∧
      (w.server.ns.stat "/f".toList).toOption.map (·.chunkIDs) = some ["c"] ∧
      ⟨"n", "n:1"⟩ ∈ w.server.placement ∧ w.monitor.isAlive w.now "n" ∧
      w.chunkMap.getLocations "c" = [] := by
  decide +kernel

end Lone

end Liveness

end VaultFS.Master
