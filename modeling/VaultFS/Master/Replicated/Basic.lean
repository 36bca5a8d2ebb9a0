import VaultFS.Master.Cluster.Basic
import VaultFS.Raft.Cluster.Proposals

/-!
# Masters on top of Raft

How `cmd/master/main.go` puts a master together: a Raft node sends the entries it commits on a
channel with a buffer, and `Run` of the server takes them from there; `propose` of the server
encodes its command and calls `Propose` of the node. A `World` has the cluster of Raft nodes and,
over it, the servers with their calls. What the server does beside that is the same as in
`Master.Cluster`, whose steps are used for it.

The field `accepted` is a history: the entries that `Propose` has made, in order, and the calls
that asked for them. Nothing in the code reads it; the loop of a server only passes it on.
-/

namespace VaultFS.Master.Replicated

open KeyValue Metadata Transition

/-- `encode` and `decode` of commands. -/
structure Codec where
  encode : Command → List UInt8
  decode : List UInt8 → Option Command
  decode_encode : ∀ cmd, decode (encode cmd) = some cmd

/-- The size of the buffer between a node and its server. -/
def commitChSize : ℕ := 256

structure World (σ : Type*) where
  raft : Raft.World
  hosts : String → Cluster.Host σ
  calls : List (Cluster.Call String)
  accepted : List (Raft.Entry × ℕ)

inductive Event where
  /-- A step of the Raft nodes that is no call of `Propose`. -/
  | raft (e : Raft.Event)
  /-- A call of `propose` calls `Propose` of its node. -/
  | propose (c : ℕ)
  /-- The loop of a server receives the next entry and applies it. -/
  | deliver (m : String)
  /-- A step of a server alone. -/
  | server (e : Cluster.Event String)

namespace World

variable {σ : Type*}

def start (cl : Raft.Cluster) (init : String → Server σ) : World σ where
  raft := .init cl
  hosts := (Cluster.World.start init).hosts
  calls := []
  accepted := []

/-- The servers, when these commands are committed. -/
def servers (w : World σ) (committed : List Cluster.Entry) : Cluster.World String σ :=
  ⟨w.hosts, w.calls, committed⟩

/-- The call that an entry was made for. -/
def callOf (w : World σ) (x : Raft.Entry) : ℕ :=
  ((w.accepted.find? fun p => p.1 = x).map Prod.snd).getD 0

/-- The commit channel of the node has room. -/
def hasRoom (w : World σ) (m : String) : Bool :=
  (w.raft.hosts m).delivered.length < (w.hosts m).applied + commitChSize

/-- The nodes take a step by themselves. An entry is only sent when there is room for it. -/
def allows (w : World σ) : Raft.Event → Bool
  | .act _ (.propose _) => false
  | .act m .applySend => w.hasRoom m
  | _ => true

end World

/-- The steps of a server that need neither the node nor its entries. -/
def runsAlone (cl : Raft.Cluster) : Cluster.Event String → Bool
  | .call m _ => m ∈ cl.ids
  | .propose _ _ | .commit _ | .deliver _ => false
  | _ => true

variable {σ : Type*} [Store σ Char FileInfo]

def step (cl : Raft.Cluster) (codec : Codec) (clock : String → ℕ → Time) (w : World σ) :
    Event → Option (World σ)
  | .raft e =>
      if w.allows e then (Raft.step cl w.raft e).map fun r => { w with raft := r } else none
  | .propose c => w.calls[c]?.bind fun call =>
      match call.stage with
      | .registered =>
          let e : Raft.Event := .act call.master (.propose (codec.encode call.cmd))
          match Raft.step cl w.raft e with
          | some r => some { w with
              raft := r
              calls := w.calls.set c { call with stage := .waiting, proposed := true }
              accepted := w.accepted ++ (w.raft.proposal e).toList.map fun x => (x, c) }
          | none => some { w with
              calls := w.calls.set c
                { call with stage := .leaving (.error ⟨.unavailable, "not the leader"⟩) } }
      | _ => none
  | .deliver m =>
      let h := w.hosts m
      match h.loop with
      | .idle => (w.raft.hosts m).delivered[h.applied]?.bind fun x =>
          match codec.decode x.command with
          | none => some { w with
              hosts := Function.update w.hosts m { h with applied := h.applied + 1 } }
          | some cmd =>
              let (server, res) := h.server.apply (clock m) cmd
              some { w with hosts := Function.update w.hosts m { h with
                server, applied := h.applied + 1, loop := .applied ⟨cmd, w.callOf x⟩ res } }
      | _ => none
  | .server e =>
      if runsAlone cl e then
        (Cluster.step clock (w.servers []) e).map fun v =>
          { w with hosts := v.hosts, calls := v.calls }
      else none

/-- What is assumed about a run: the nodes send and look up no entries that are compacted, and no
snapshot takes entries away from a node that it has not delivered or copied yet. -/
def caughtUp (w : World σ) : Event → Prop
  | .raft e => Raft.caughtUp w.raft e
  | _ => True

end VaultFS.Master.Replicated
