import VaultFS.Master.View
import VaultFS.Transition.Basic

/-!
# Masters that propose and apply

Several masters share one sequence of committed commands. `propose` of `internal/master/server.go`
numbers a command with the master's own counter, registers a channel for the number, hands the
command to Raft and waits on the channel; `Run` applies the committed commands in order and sends
each result on the channel that is registered for the command's number. A `World` has a host for
each master and all calls of `propose`, and an event is one of the atomic pieces that calls and
loops interleave in.

Raft appears as what it promises: a command that some master accepted can be committed, once, in
any order with others, and every master receives the committed commands in the same order. A
master that takes itself for the leader may accept a command that is never committed. The contexts
of calls may be cancelled at any point. The numbers of `opSeq` do not wrap around, and a command
decodes to what was encoded.
-/

namespace VaultFS.Master.Cluster

open KeyValue Metadata Transition

/-- Where a call of `propose` stands. -/
inductive Stage where
  /-- The command has its number. -/
  | started
  /-- The channel is registered. -/
  | registered
  /-- Raft has accepted the command, and the call is at its `select`. -/
  | waiting
  /-- The result is decided, and the deferred function is still to run. -/
  | leaving (res : Except Status Unit)
  | returned (res : Except Status Unit)
  deriving DecidableEq

structure Call (M : Type*) where
  master : M
  cmd : Command
  stage : Stage
  /-- Raft has accepted the command. -/
  proposed : Bool
  /-- The buffer of the call's channel, which has room for one result. -/
  chan : Option (Except Error Unit)
  deriving DecidableEq

/-- A committed command, and the call that proposed it. -/
structure Entry where
  cmd : Command
  call : ℕ
  deriving DecidableEq

/-- Where the loop of `Run` stands. -/
inductive Loop where
  /-- At the commit channel. -/
  | idle
  /-- A command is applied, and the waiters are still to be looked at. -/
  | applied (e : Entry) (res : Except Error Unit)
  /-- At the send to the channel of a call. -/
  | sending (call : ℕ) (res : Except Error Unit)
  deriving DecidableEq

structure Host (σ : Type*) where
  server : Server σ
  opSeq : ℕ
  /-- The registered channels, as the calls that made them. -/
  waiters : Finmap fun _ : ℕ => ℕ
  /-- How many committed commands the loop has received. -/
  applied : ℕ
  loop : Loop

structure World (M σ : Type*) where
  hosts : M → Host σ
  calls : List (Call M)
  committed : List Entry

inductive Event (M : Type*) where
  | call (m : M) (cmd : Command)
  | register (c : ℕ)
  /-- Raft accepts the command of the call or the master is not the leader. -/
  | propose (c : ℕ) (leader : Bool)
  | commit (c : ℕ)
  /-- The loop of a master receives the next command and applies it. -/
  | deliver (m : M)
  /-- It looks for a waiter. -/
  | lookup (m : M)
  /-- It sends the result. -/
  | send (m : M)
  | receive (c : ℕ)
  /-- The context of the call is done, by a deadline or not. -/
  | cancel (c : ℕ) (deadline : Bool)
  | unregister (c : ℕ)

/-- `status.FromContextError`. -/
def contextStatus (deadline : Bool) : Status :=
  if deadline then ⟨.deadlineExceeded, "context deadline exceeded"⟩
  else ⟨.canceled, "context canceled"⟩

/-- What a call returns when it receives a result. -/
def proposeResult : Except Error Unit → Except Status Unit
  | .ok _ => .ok ()
  | .error err => .error ⟨.internal, "apply: " ++ err.message⟩

variable {M σ : Type*} [DecidableEq M]

namespace World

def setHost (w : World M σ) (m : M) (h : Host σ) : World M σ :=
  { w with hosts := Function.update w.hosts m h }

def setCall (w : World M σ) (c : ℕ) (call : Call M) : World M σ :=
  { w with calls := w.calls.set c call }

@[simp] theorem setHost_self (w : World M σ) (m : M) (h : Host σ) : (w.setHost m h).hosts m = h :=
  Function.update_self ..

theorem setHost_ne (w : World M σ) {m m' : M} (h : Host σ) (hne : m' ≠ m) :
    (w.setHost m h).hosts m' = w.hosts m' :=
  Function.update_of_ne hne ..

@[simp] theorem setHost_calls (w : World M σ) (m : M) (h : Host σ) :
    (w.setHost m h).calls = w.calls := rfl

@[simp] theorem setHost_committed (w : World M σ) (m : M) (h : Host σ) :
    (w.setHost m h).committed = w.committed := rfl

omit [DecidableEq M] in
@[simp] theorem setCall_hosts (w : World M σ) (c : ℕ) (call : Call M) :
    (w.setCall c call).hosts = w.hosts := rfl

omit [DecidableEq M] in
@[simp] theorem setCall_committed (w : World M σ) (c : ℕ) (call : Call M) :
    (w.setCall c call).committed = w.committed := rfl

/-- All masters start with nothing committed. -/
def start (init : M → Server σ) : World M σ where
  hosts m := { server := init m, opSeq := 0, waiters := ∅, applied := 0, loop := .idle }
  calls := []
  committed := []

end World

variable [Store σ Char FileInfo]

def step (clock : M → ℕ → Time) (w : World M σ) : Event M → Option (World M σ)
  | .call m cmd =>
      let h := w.hosts m
      let call : Call M := ⟨m, { cmd with opID := h.opSeq + 1 }, .started, false, none⟩
      some { w.setHost m { h with opSeq := h.opSeq + 1 } with calls := w.calls ++ [call] }
  | .register c => w.calls[c]?.bind fun call =>
      match call.stage with
      | .started =>
          let h := w.hosts call.master
          some ((w.setHost call.master
            { h with waiters := h.waiters.insert call.cmd.opID c }).setCall c
              { call with stage := .registered })
      | _ => none
  | .propose c leader => w.calls[c]?.bind fun call =>
      match call.stage with
      | .registered => some (w.setCall c (if leader
          then { call with stage := .waiting, proposed := true }
          else { call with stage := .leaving (.error ⟨.unavailable, "not the leader"⟩) }))
      | _ => none
  | .commit c => w.calls[c]?.bind fun call =>
      if call.proposed ∧ ∀ e ∈ w.committed, e.call ≠ c
      then some { w with committed := w.committed ++ [⟨call.cmd, c⟩] }
      else none
  | .deliver m =>
      let h := w.hosts m
      match h.loop with
      | .idle => w.committed[h.applied]?.bind fun e =>
          let (server, res) := h.server.apply (clock m) e.cmd
          some (w.setHost m { h with server, applied := h.applied + 1, loop := .applied e res })
      | _ => none
  | .lookup m =>
      let h := w.hosts m
      match h.loop with
      | .applied e res => some (w.setHost m { h with
          loop := match h.waiters.lookup e.cmd.opID with
            | some c => .sending c res
            | none => .idle })
      | _ => none
  | .send m =>
      let h := w.hosts m
      match h.loop with
      | .sending c res => w.calls[c]?.bind fun call =>
          match call.chan with
          | none => some ((w.setHost m { h with loop := .idle }).setCall c
              { call with chan := some res })
          | some _ => none
      | _ => none
  | .receive c => w.calls[c]?.bind fun call =>
      match call.stage, call.chan with
      | .waiting, some res => some (w.setCall c
          { call with stage := .leaving (proposeResult res), chan := none })
      | _, _ => none
  | .cancel c deadline => w.calls[c]?.bind fun call =>
      match call.stage with
      | .waiting => some (w.setCall c
          { call with stage := .leaving (.error (contextStatus deadline)) })
      | _ => none
  | .unregister c => w.calls[c]?.bind fun call =>
      match call.stage with
      | .leaving res =>
          let h := w.hosts call.master
          some ((w.setHost call.master
            { h with waiters := h.waiters.erase call.cmd.opID }).setCall c
              { call with stage := .returned res })
      | _ => none

/-- What a step does, by the piece of code that runs. -/
inductive Steps (clock : M → ℕ → Time) (w : World M σ) : Event M → World M σ → Prop where
  | call (m : M) (cmd : Command) : Steps clock w (.call m cmd)
      { w.setHost m { w.hosts m with opSeq := (w.hosts m).opSeq + 1 } with
        calls := w.calls ++
          [⟨m, { cmd with opID := (w.hosts m).opSeq + 1 }, .started, false, none⟩] }
  | register {c : ℕ} {call : Call M} (hc : w.calls[c]? = some call) (hs : call.stage = .started) :
      Steps clock w (.register c)
        ((w.setHost call.master { w.hosts call.master with
          waiters := (w.hosts call.master).waiters.insert call.cmd.opID c }).setCall c
            { call with stage := .registered })
  | accepted {c : ℕ} {call : Call M} (hc : w.calls[c]? = some call)
      (hs : call.stage = .registered) :
      Steps clock w (.propose c true)
        (w.setCall c { call with stage := .waiting, proposed := true })
  | refused {c : ℕ} {call : Call M} (hc : w.calls[c]? = some call) (hs : call.stage = .registered) :
      Steps clock w (.propose c false)
        (w.setCall c { call with stage := .leaving (.error ⟨.unavailable, "not the leader"⟩) })
  | commit {c : ℕ} {call : Call M} (hc : w.calls[c]? = some call) (hp : call.proposed)
      (hnew : ∀ e ∈ w.committed, e.call ≠ c) :
      Steps clock w (.commit c) { w with committed := w.committed ++ [⟨call.cmd, c⟩] }
  | deliver {m : M} {e : Entry} (hl : (w.hosts m).loop = .idle)
      (he : w.committed[(w.hosts m).applied]? = some e) :
      Steps clock w (.deliver m)
        (w.setHost m { w.hosts m with
          server := ((w.hosts m).server.apply (clock m) e.cmd).1
          applied := (w.hosts m).applied + 1
          loop := .applied e ((w.hosts m).server.apply (clock m) e.cmd).2 })
  | found {m : M} {e : Entry} {res : Except Error Unit} {c : ℕ}
      (hl : (w.hosts m).loop = .applied e res)
      (hw : (w.hosts m).waiters.lookup e.cmd.opID = some c) :
      Steps clock w (.lookup m) (w.setHost m { w.hosts m with loop := .sending c res })
  | notFound {m : M} {e : Entry} {res : Except Error Unit}
      (hl : (w.hosts m).loop = .applied e res)
      (hw : (w.hosts m).waiters.lookup e.cmd.opID = none) :
      Steps clock w (.lookup m) (w.setHost m { w.hosts m with loop := .idle })
  | send {m : M} {c : ℕ} {res : Except Error Unit} {call : Call M}
      (hl : (w.hosts m).loop = .sending c res) (hc : w.calls[c]? = some call)
      (hb : call.chan = none) :
      Steps clock w (.send m)
        ((w.setHost m { w.hosts m with loop := .idle }).setCall c { call with chan := some res })
  | receive {c : ℕ} {call : Call M} {res : Except Error Unit} (hc : w.calls[c]? = some call)
      (hs : call.stage = .waiting) (hb : call.chan = some res) :
      Steps clock w (.receive c)
        (w.setCall c { call with stage := .leaving (proposeResult res), chan := none })
  | cancel {c : ℕ} {call : Call M} (deadline : Bool) (hc : w.calls[c]? = some call)
      (hs : call.stage = .waiting) :
      Steps clock w (.cancel c deadline)
        (w.setCall c { call with stage := .leaving (.error (contextStatus deadline)) })
  | unregister {c : ℕ} {call : Call M} {res : Except Status Unit} (hc : w.calls[c]? = some call)
      (hs : call.stage = .leaving res) :
      Steps clock w (.unregister c)
        ((w.setHost call.master { w.hosts call.master with
          waiters := (w.hosts call.master).waiters.erase call.cmd.opID }).setCall c
            { call with stage := .returned res })

theorem step_cases {clock : M → ℕ → Time} {w w' : World M σ} {e : Event M}
    (h : step clock w e = some w') : Steps clock w e w' := by
  cases e with
  | call m cmd =>
      cases h
      exact .call m cmd
  | register c =>
      obtain ⟨call, hc, h⟩ := Option.bind_eq_some_iff.mp h
      split at h
      · rename_i hs
        cases h
        exact .register hc hs
      · cases h
  | propose c leader =>
      obtain ⟨call, hc, h⟩ := Option.bind_eq_some_iff.mp h
      split at h
      · rename_i hs
        cases h
        cases leader with
        | true => exact .accepted hc hs
        | false => exact .refused hc hs
      · cases h
  | commit c =>
      obtain ⟨call, hc, h⟩ := Option.bind_eq_some_iff.mp h
      obtain ⟨hnew, h⟩ := Option.ite_none_right_eq_some.mp h
      cases h
      exact .commit hc hnew.1 hnew.2
  | deliver m =>
      simp only [step] at h
      split at h
      · rename_i hl
        obtain ⟨e, he, h⟩ := Option.bind_eq_some_iff.mp h
        cases h
        exact .deliver hl he
      · cases h
  | lookup m =>
      simp only [step] at h
      split at h
      · rename_i e res hl
        cases hw : (w.hosts m).waiters.lookup e.cmd.opID with
        | none =>
            rw [hw] at h
            cases h
            exact .notFound hl hw
        | some c =>
            rw [hw] at h
            cases h
            exact .found hl hw
      · cases h
  | send m =>
      simp only [step] at h
      split at h
      · rename_i c res hl
        obtain ⟨call, hc, h⟩ := Option.bind_eq_some_iff.mp h
        split at h
        · rename_i hb
          cases h
          exact .send hl hc hb
        · cases h
      · cases h
  | receive c =>
      obtain ⟨call, hc, h⟩ := Option.bind_eq_some_iff.mp h
      split at h
      · rename_i res hs hb
        cases h
        exact .receive hc hs hb
      · cases h
  | cancel c deadline =>
      obtain ⟨call, hc, h⟩ := Option.bind_eq_some_iff.mp h
      split at h
      · rename_i hs
        cases h
        exact .cancel deadline hc hs
      · cases h
  | unregister c =>
      obtain ⟨call, hc, h⟩ := Option.bind_eq_some_iff.mp h
      split at h
      · rename_i res hs
        cases h
        exact .unregister hc hs
      · cases h

/-- Two masters over sorted lists. -/
def pair : World Bool (SortedList Char FileInfo) := World.start fun _ => Server.lone

end VaultFS.Master.Cluster
