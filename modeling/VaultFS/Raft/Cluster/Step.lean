import VaultFS.Raft.Cluster.Basic

/-!
# The steps of a cluster

`step` is the transition function of a cluster: every event moves one host, and
`step` is `none` when the event is not enabled. What a host does on its own, how
it handles a request and how it handles a reply are the three functions `act`,
`deliver` and `receive`.
-/

namespace VaultFS

namespace Raft

namespace Host

/-- The apply loop's pending `SetSnapshot`, when there is one. -/
def pending (h : Host) : Option Compaction :=
  match h.applyLoop with
  | .compact c => some c
  | _ => none

/-- The first section of `maybeStartElection`, with the calls that its goroutines
make. -/
def startElection (h : Host) : Option (Host × List Call) :=
  match h.node.maybeStartElection with
  | none => none
  | some (n, args) =>
      let h := { h with node := n,
                        elections := Function.update h.elections args.term
                          (some { votes := 1, once := false }) }
      if 1 ≥ n.electionQuorum then some ({ h with electing := some args.term }, [])
      else
        some (h, n.peers.map fun p =>
          { src := n.id, dst := p, rpc := .requestVote args none, waiting := true })

/-- The second section of `maybeStartElection` in a cluster without peers. -/
def finishElection (h : Host) : Option Host :=
  match h.electing with
  | none => none
  | some term =>
      match h.elections term with
      | none => none
      | some el =>
          let r := h.node.winAlone el term
          some { h with node := r.1, electing := none,
                        elections := Function.update h.elections term (some r.2) }

/-- A replication goroutine runs the first section of `replicateTo`; `c` is the
number that a call made now gets. -/
def startReplication (h : Host) (peer : String) (cut : Bool) (c : ℕ) :
    Option (Host × List Call) :=
  if Worker.start peer ∈ h.workers ∧ (cut = true → h.pending ≠ none) then
    let r := h.node.replicateTo peer (if cut then h.pending else none)
    let rest := h.workers.erase (.start peer)
    match r.2 with
    | .done => if cut then none else some ({ h with workers := rest }, [])
    | .snapshot => if cut then none else some ({ h with workers := .snapshot peer :: rest }, [])
    | .send args =>
        some ({ h with node := r.1, workers := .waiting c :: rest,
                       applyLoop := if cut then .idle else h.applyLoop },
          [{ src := h.node.id, dst := peer, rpc := .appendEntries args none, waiting := true }])
  else none

/-- A replication goroutine runs the first section of `sendSnapshot`. -/
def startSnapshot (h : Host) (peer : String) (cut : Bool) (c : ℕ) : Option (Host × List Call) :=
  if Worker.snapshot peer ∈ h.workers ∧ (cut = true → h.pending ≠ none) then
    let r := h.node.sendSnapshot (if cut then h.pending else none)
    let rest := h.workers.erase (.snapshot peer)
    match r.2 with
    | none => if cut then none else some ({ h with workers := rest }, [])
    | some args =>
        some ({ h with node := r.1, workers := .waiting c :: rest,
                       applyLoop := if cut then .idle else h.applyLoop },
          [{ src := h.node.id, dst := peer, rpc := .installSnapshot args none, waiting := true }])
  else none

/-- `applyCommitted`: read `commitIndex` and `lastApplied`. -/
def applyRead (h : Host) : Option Host :=
  if h.applyLoop = .idle ∧ h.node.applySig = true then
    let h := { h with node := { h.node with applySig := false } }
    if h.node.commitIndex ≤ h.node.lastApplied then some h
    else some { h with applyLoop := .read h.node.lastApplied h.node.commitIndex }
  else none

/-- `applyCommitted`: copy the committed entries that are not applied yet. -/
def applySlice (h : Host) : Option Host :=
  match h.applyLoop with
  | .read applied commit =>
      some { h with applyLoop := .batch (h.node.log.slice (applied + 1) (commit + 1)) }
  | _ => none

/-- `applyCommitted`: send the next entry on `CommitCh`, if there is one. -/
def applySend (h : Host) : Option Host :=
  match h.applyLoop with
  | .batch (e :: rest) =>
      some { h with applyLoop := .sent e rest,
                    delivered := if h.node.commitCh then h.delivered ++ [e] else h.delivered }
  | _ => none

/-- `applyCommitted`: set `lastApplied` to the index of the entry just sent. -/
def applyMark (h : Host) : Option Host :=
  match h.applyLoop with
  | .sent e rest =>
      some { h with node := { h.node with lastApplied := e.index }, applyLoop := .batch rest }
  | _ => none

/-- `applyCommitted`: after the loop, compare the log length with the threshold. -/
def applyCheck (h : Host) : Option Host :=
  match h.applyLoop with
  | .batch [] =>
      some { h with applyLoop := if h.node.log.len ≥ compactThreshold then .oversized else .idle }
  | _ => none

/-- `applyCommitted`: read `lastApplied` and its term. -/
def applyMeasure (h : Host) : Option Host :=
  match h.applyLoop with
  | .oversized =>
      match h.node.log.term h.node.lastApplied with
      | .error _ => some { h with applyLoop := .idle }
      | .ok term => some { h with applyLoop := .compact ⟨h.node.lastApplied, term⟩ }
  | _ => none

/-- `applyCommitted`: compact the log. -/
def applyCompact (h : Host) : Option Host :=
  match h.applyLoop with
  | .compact c =>
      some { h with node := { h.node with log := h.node.log.setSnapshot c.index c.term },
                    applyLoop := .idle }
  | _ => none

/-- A host acts on its own: its new state and the calls it makes, the first of
which gets the number `c`. -/
def act (h : Host) (c : ℕ) : Action → Option (Host × List Call)
  | .electionTimeout => if h.free then h.startElection else none
  | .winAlone => h.finishElection.map (·, [])
  | .heartbeat =>
      if h.free ∧ h.node.state = .leader then
        some ({ h with workers := h.node.peers.map .start }, [])
      else none
  | .replicateTo peer cut => h.startReplication peer cut c
  | .sendSnapshot peer cut => h.startSnapshot peer cut c
  | .propose command =>
      match h.node.propose command with
      | .error _ => none
      | .ok n => some ({ h with node := n }, [])
  | .takeSnapshot data =>
      match h.node.takeSnapshot data with
      | .error _ => none
      | .ok r => some ({ h with node := r.1 }, [])
  | .applyRead => h.applyRead.map (·, [])
  | .applySlice => h.applySlice.map (·, [])
  | .applySend => h.applySend.map (·, [])
  | .applyMark => h.applyMark.map (·, [])
  | .applyCheck => h.applyCheck.map (·, [])
  | .applyMeasure => h.applyMeasure.map (·, [])
  | .applyCompact => h.applyCompact.map (·, [])

/-- A host handles a request that has not been handled yet. A request to append
entries can be handled with the `SetSnapshot` of the apply loop falling into its
loop. -/
def deliver (h : Host) (cut : Option ℕ) : Rpc → Option (Host × Rpc)
  | .requestVote args none =>
      match cut with
      | some _ => none
      | none =>
          let r := h.node.handleRequestVote args
          some ({ h with node := r.1 }, .requestVote args (some r.2))
  | .installSnapshot args none =>
      match cut with
      | some _ => none
      | none =>
          let r := h.node.handleInstallSnapshot args
          some ({ h with node := r.1 }, .installSnapshot args (some r.2))
  | .appendEntries args none =>
      match cut with
      | none =>
          let r := h.node.handleAppendEntries args none
          some ({ h with node := r.1 }, .appendEntries args (some r.2))
      | some k =>
          match h.pending with
          | none => none
          | some c =>
              let r := h.node.handleAppendEntries args (some { c with before := k })
              if r.2.success then
                some ({ h with node := r.1, applyLoop := .idle },
                  .appendEntries args (some r.2))
              else none
  | _ => none

/-- A host handles the reply to its call number `c` to the node `dst`. -/
def receive (h : Host) (c : ℕ) (dst : String) : Rpc → Option Host
  | .requestVote args (some reply) =>
      match h.elections args.term with
      | none => none
      | some el =>
          let r := h.node.countVote el args.term reply
          some { h with node := r.1,
                        elections := Function.update h.elections args.term (some r.2) }
  | .appendEntries args (some reply) =>
      some { h with node := h.node.handleAppendReply dst args reply,
                    workers := h.workers.erase (.waiting c) }
  | .installSnapshot args (some reply) =>
      some { h with node := h.node.handleSnapshotReply dst args reply,
                    workers := h.workers.erase (.waiting c) }
  | _ => none

end Host

/-- The transition function of a cluster. -/
def step (cl : Cluster) (w : World) : Event → Option World
  | .act i a =>
      if i ∈ cl.ids then
        ((w.hosts i).act w.calls.length a).map fun r => w.put i r.1 (w.calls ++ r.2)
      else none
  | .deliver c cut =>
      match w.calls[c]? with
      | none => none
      | some call =>
          ((w.hosts call.dst).deliver cut call.rpc).map fun r =>
            w.put call.dst r.1 (w.calls.set c { call with rpc := r.2 })
  | .receive c =>
      match w.calls[c]? with
      | none => none
      | some call =>
          if call.waiting then
            ((w.hosts call.src).receive c call.dst call.rpc).map fun h =>
              w.put call.src h (w.calls.set c { call with waiting := false })
          else none
  | .giveUp c =>
      match w.calls[c]? with
      | none => none
      | some call =>
          if call.waiting then
            let h := w.hosts call.src
            some (w.put call.src { h with workers := h.workers.erase (.waiting c) }
              (w.calls.set c { call with waiting := false }))
          else none

end Raft

end VaultFS
