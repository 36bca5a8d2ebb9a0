import VaultFS.Causality.Basic
import VaultFS.Clock.Vector
import VaultFS.Transition.Basic

/-!
# Vector clocks and causality

Nodes exchange messages, and keep vector clocks as `internal/clock/vector.go` says: a local event
and a send increment the node's clock, and a receive merges the clock of the message into it first.
A message is known by the event that sent it and may be received at any time, by any node, and any
number of times; nothing is assumed about the order.

As numbers the clocks are those of `Causality.Clocks`, as long as no counter wraps around
(`step_counts`).
-/

namespace VaultFS.Clock

open Transition Causality

inductive Kind where
  | internal
  | send
  /-- The receipt of the message of the event with that number. -/
  | receive (source : ℕ)
  deriving DecidableEq

def Kind.source : Kind → Option ℕ
  | .receive source => some source
  | _ => none

structure Event where
  node : NodeID
  kind : Kind
  /-- The node's clock after the event. -/
  clock : VectorClock

/-- The clocks of the nodes, and all events so far. -/
structure World where
  clocks : NodeID → VectorClock
  events : List Event

namespace World

def init : World := ⟨fun _ => .new, []⟩

def history (w : World) : List (Causality.Event NodeID) :=
  w.events.map fun e => ⟨e.node, e.kind.source⟩

def record (w : World) (node : NodeID) (kind : Kind) (clock : VectorClock) : World where
  clocks := Function.update w.clocks node clock
  events := w.events ++ [⟨node, kind, clock⟩]

/-- The clocks as numbers. -/
def counts (w : World) : Clocks NodeID where
  history := w.history
  clock p := (w.clocks p).count
  stamps := w.events.map fun e => e.clock.count

end World

inductive Action where
  | internal (node : NodeID)
  | send (node : NodeID)
  | receive (node : NodeID) (source : ℕ)

def step (w : World) : Action → Option World
  | .internal node => some (w.record node .internal ((w.clocks node).increment node))
  | .send node => some (w.record node .send ((w.clocks node).increment node))
  | .receive node source =>
      match w.events[source]? with
      | some ⟨_, .send, clock⟩ =>
          some (w.record node (.receive source) (((w.clocks node).merge clock).increment node))
      | _ => none

section Counts

variable {w w' : World} {a : Action}

theorem record_counts {node : NodeID} {kind : Kind} {vc : VectorClock} (h : w.counts.Tracks)
    (hvc : vc.count = w.counts.merged ⟨node, kind.source⟩)
    (hlen : (w.record node kind (vc.increment node)).events.length < 2 ^ 64) :
    (w.record node kind (vc.increment node)).counts = w.counts.record ⟨node, kind.source⟩ := by
  have hself : vc.count node = Causality.count w.history node := by
    rw [hvc]
    exact h.merged_self
  have hle : Causality.count w.history node ≤ w.events.length := by
    exact List.countP_le_length.trans_eq (List.length_map _)
  have hstamp : (vc.increment node).count = w.counts.stamp ⟨node, kind.source⟩ := by
    funext n
    rw [VectorClock.count_increment, Clocks.stamp, ← hvc, Function.update_apply]
    simp only [World.record, List.length_append, List.length_singleton] at hlen
    omega
  unfold World.counts World.record Clocks.record
  congr 1
  · simp [World.history]
  · funext p
    by_cases hp : p = node
    · simp [hp, hstamp, World.counts]
    · simp [hp]
  · simp [hstamp, World.counts]

theorem step_counts (h : w.counts.Tracks) (hs : step w a = some w')
    (hlen : w'.events.length < 2 ^ 64) : ∃ b, w'.counts = w.counts.record b := by
  cases a with
  | internal node =>
      cases hs
      exact ⟨_, record_counts h rfl hlen⟩
  | send node =>
      cases hs
      exact ⟨_, record_counts h rfl hlen⟩
  | receive node source =>
      simp only [step] at hs
      split at hs
      · rename_i sender clock hsource
        cases hs
        refine ⟨_, record_counts h ?_ hlen⟩
        funext n
        simp [VectorClock.count_merge, Clocks.merged, Kind.source, World.counts, hsource]
      · cases hs

theorem step_length (hs : step w a = some w') : w.events.length ≤ w'.events.length := by
  have hrecord : ∀ node kind clock, w.events.length ≤ (w.record node kind clock).events.length := by
    intro node kind clock
    simp [World.record]
  cases a with
  | internal node | send node =>
      cases hs
      exact hrecord _ _ _
  | receive node source =>
      simp only [step] at hs
      split at hs
      · cases hs
        exact hrecord _ _ _
      · cases hs

theorem tracks_of_path (h : Path step (fun _ _ => True) World.init w) :
    w.events.length < 2 ^ 64 → w.counts.Tracks := by
  refine h.invariant (I := fun w => w.events.length < 2 ^ 64 → w.counts.Tracks) ?_ ?_
  · exact fun _ => Clocks.Tracks.init
  · intro w a w' ih _ hs hlen
    have htracks := ih ((step_length hs).trans_lt hlen)
    obtain ⟨b, hb⟩ := step_counts htracks hs hlen
    rw [hb]
    exact htracks.record b

end Counts

/-- Vector clocks tell exactly which of two events causally precedes the other. -/
theorem happensBefore_iff_precedes {w : World} (h : Path step (fun _ _ => True) World.init w)
    (hlen : w.events.length < 2 ^ 64) {i j : ℕ} {e f : Event} (hi : w.events[i]? = some e)
    (hj : w.events[j]? = some f) (hne : i ≠ j) :
    (e.clock.happensBefore f.clock ↔ Precedes w.history i j) ∧
      (e.clock.concurrent f.clock ↔ ¬Precedes w.history i j ∧ ¬Precedes w.history j i) := by
  have htracks := tracks_of_path h hlen
  have hstamp : ∀ {k : ℕ} {g : Event}, w.events[k]? = some g →
      w.counts.stamps[k]? = some g.clock.count := by
    intro k g hg
    simp [World.counts, hg]
  have hle : e.clock.count ≤ f.clock.count ↔ Precedes w.history i j := by
    rw [precedes_iff_past hne]
    exact htracks.stamp_le_iff (hstamp hi) (hstamp hj)
  have hge : f.clock.count ≤ e.clock.count ↔ Precedes w.history j i := by
    rw [precedes_iff_past hne.symm]
    exact htracks.stamp_le_iff (hstamp hj) (hstamp hi)
  -- two events do not precede each other, so that no two stamps are equal
  have hanti : ¬(e.clock.count ≤ f.clock.count ∧ f.clock.count ≤ e.clock.count) := by
    rintro ⟨hij, hji⟩
    have hij' := (precedes_iff_past hne).mp (hle.mp hij)
    have hji' := (precedes_iff_past hne.symm).mp (hge.mp hji)
    exact hne (le_antisymm hij'.le hji'.le)
  have hbefore : ∀ {v v' : VectorClock}, ¬(v.count ≤ v'.count ∧ v'.count ≤ v.count) →
      (v.happensBefore v' ↔ v.count ≤ v'.count) := by
    intro v v' hnot
    rw [VectorClock.happensBefore_iff]
    refine ⟨fun hb => hb.1, fun hb => ⟨hb, ?_⟩⟩
    by_contra hlt
    push Not at hlt
    exact hnot ⟨hb, hlt⟩
  have hequal : ¬e.clock.equal f.clock := by
    rw [VectorClock.equal_iff]
    intro heq
    exact hanti ⟨fun id => (heq id).le, fun id => (heq id).ge⟩
  have hef := (hbefore hanti).trans hle
  have hfe := (hbefore (mt And.symm hanti)).trans hge
  refine ⟨hef, ?_⟩
  rw [← hef, ← hfe]
  simp [VectorClock.concurrent, hequal]

/-- A message from `a` to `b`, and an event of `b` on its own before that. -/
def exchange : List Action := [.send "a", .internal "b", .receive "b" 0]

def exchanged : World := final (guarded step fun _ _ => True) World.init exchange

theorem happensBefore_iff_precedes_exchange :
    ∃ e f g, exchanged.events = [e, f, g] ∧ exchanged.events.length < 2 ^ 64 ∧
      (e.clock.happensBefore g.clock ∧ Precedes exchanged.history 0 2) ∧
      (e.clock.concurrent f.clock ∧ ¬Precedes exchanged.history 0 1) := by
  have hpath : Path step (fun _ _ => True) World.init exchanged := Path.final (by decide)
  refine ⟨_, _, _, rfl, by decide, ⟨by decide, ?_⟩, by decide, ?_⟩
  · exact (happensBefore_iff_precedes hpath (by decide) (i := 0) (j := 2) rfl rfl (by decide)).1.mp
      (by decide)
  · exact ((happensBefore_iff_precedes hpath (by decide) (i := 0) (j := 1) rfl rfl
      (by decide)).2.mp (by decide)).1

end VaultFS.Clock
