import VaultFS.Chunk.Pipeline

/-!
# Chunk servers that forward to each other

The handlers of `internal/chunkserver/server.go` on many servers at once. Every server is a process
of its own (`VaultFS.Chunk.Process`), with its store, its other requests and its garbage collector,
and it can die at any moment without the others. A call of `WriteChunk` is handled on one server:
the call of the store is a thread of the process there, and the call to the next server of the chain
is a second call, whose handler goes on whatever becomes of the first. Requests and replies can be
lost.

The pipeline without anything beside it is in `VaultFS.Chunk.Pipeline`.
-/

namespace VaultFS.Chunk.Servers

open Interaction KeyValue Metadata

structure Fleet extends Pipeline.Fleet where
  /-- The grace period of the garbage collectors. -/
  grace : Time

def Fleet.server (fl : Fleet) (addr : String) : Config := { fl.config addr with grace := fl.grace }

/-- Where a call of `WriteChunk` stands. -/
inductive Stage where
  /-- The request has been sent. -/
  | sent
  /-- The thread of the store's `WriteChunk` runs. -/
  | storing
  /-- The chunk is stored, and the next server is still to be dialed. -/
  | stored (id : ChunkID)
  /-- The next server has been sent the call with this number. -/
  | forwarded (id : ChunkID) (c : ℕ)
  | returned (res : Except Pipeline.Status ChunkID)
  /-- The process has died with the handler. -/
  | died
  deriving DecidableEq

structure Call where
  addr : String
  chunkId : ChunkID
  data : List UInt8
  downstream : List String
  stage : Stage := .sent
  /-- The thread of the store's `WriteChunk`, once it has started. -/
  thread : Option ℕ := none
  deriving DecidableEq

structure World where
  processes : String → Chunk.World
  calls : List Call

namespace World

def setProcess (w : World) (addr : String) (p : Chunk.World) : World :=
  { w with processes := Function.update w.processes addr p }

@[simp] theorem setProcess_self (w : World) (addr : String) (p : Chunk.World) :
    (w.setProcess addr p).processes addr = p :=
  Function.update_self ..

theorem setProcess_of_ne (w : World) {addr addr' : String} (p : Chunk.World) (h : addr' ≠ addr) :
    (w.setProcess addr p).processes addr' = w.processes addr' :=
  Function.update_of_ne h ..

def setCall (w : World) (c : ℕ) (call : Call) : World := { w with calls := w.calls.set c call }

/-- A request is sent, and has the next number. -/
def send (w : World) (call : Call) : World := { w with calls := w.calls ++ [call] }

/-- Processes that have just started, with the files they find. -/
def init (start : String → FS) (now : Time) (referenced : ChunkID → Bool) : World where
  processes addr := .init (start addr) now referenced
  calls := []

/-- A handler waits for the thread. -/
def handles (w : World) (addr : String) (i : ℕ) : Bool :=
  w.calls.any fun call => call.addr = addr && call.stage = .storing && call.thread = some i

/-- What a process does beside the handlers of `WriteChunk`: the store writes for a handler or for
`ReplicateChunk`, and a handler takes the result of its own thread. -/
def beside (w : World) (addr : String) : Chunk.Event → Bool
  | .start (.write _) => false
  | .finish i => !w.handles addr i
  | .crash _ => false
  | _ => true

end World

inductive Event where
  /-- A client sends a request. -/
  | request (addr : String) (chunkId : ChunkID) (data : List UInt8) (downstream : List String)
  | handle (c : ℕ)
  | resume (c : ℕ)
  | forward (c : ℕ) (err : Option String)
  | takeReply (c : ℕ)
  | loseReply (c : ℕ) (err : String)
  | process (addr : String) (e : Chunk.Event)
  | crash (addr : String) (cuts : List (Path × ℕ))

section Handlers

variable (fl : Fleet)

/-- Whether a handler forwards: there is a next server, and a dialer. -/
def Fleet.forwards (call : Call) : Bool := !call.downstream.isEmpty && fl.dialer call.addr

/-- The handler after the call of the store. -/
def Fleet.afterStore (call : Call) : Except String ChunkID → Stage
  | .error err => .returned (.error ⟨.internal, "store chunk: " ++ err⟩)
  | .ok id => if fl.forwards call then .stored id else .returned (.ok id)

/-- The request comes to its server, which checks the ID and calls the store. -/
def Fleet.handle (w : World) (c : ℕ) (call : Call) : Option World :=
  if call.stage ≠ .sent then none
  else match verify fl.sum256 call.chunkId call.data with
    | some err => some (w.setCall c { call with
        stage := .returned (.error ⟨.invalidArgument, "chunk id does not match data: " ++ err⟩) })
    | none =>
        let p := w.processes call.addr
        (Chunk.step (fl.server call.addr) p (.start (.write call.data))).map fun p' =>
          (w.setProcess call.addr p').setCall c
            { call with stage := .storing, thread := some p.next }

/-- The thread of the store's `WriteChunk` has ended, and the handler goes on. -/
def Fleet.resume (w : World) (c : ℕ) (call : Call) : Option World :=
  match call.stage, call.thread with
  | .storing, some i =>
      let p := w.processes call.addr
      match p.threads i with
      | some (.ret (_, .wrote res)) =>
          (Chunk.step (fl.server call.addr) p (.finish i)).map fun p' =>
            (w.setProcess call.addr p').setCall c { call with stage := fl.afterStore call res }
      | _ => none
  | _, _ => none

/-- `forward` up to the reply: the next server is dialed, which can fail, and it is sent the rest of
the chain. -/
def forward (w : World) (c : ℕ) (call : Call) (err : Option String) : Option World :=
  match call.stage, call.downstream with
  | .stored id, next :: downstream =>
      match err with
      | some err => some (w.setCall c { call with
          stage := .returned (.error ⟨.unavailable, "dial downstream " ++ next ++ ": " ++ err⟩) })
      | none =>
          let call' := { call with stage := .forwarded id w.calls.length }
          some ((w.setCall c call').send
            { addr := next, chunkId := call.chunkId, data := call.data, downstream })
  | _, _ => none

/-- The rest of `forward`, with the reply of the next server. -/
def takeReply (w : World) (c : ℕ) (call : Call) : Option World :=
  match call.stage, call.downstream with
  | .forwarded id c', next :: _ =>
      match w.calls[c']? with
      | some { stage := .returned (.ok _), .. } =>
          some (w.setCall c { call with stage := .returned (.ok id) })
      | some { stage := .returned (.error status), .. } => some (w.setCall c { call with
          stage :=
            .returned (.error ⟨.unavailable, "forward to " ++ next ++ ": " ++ status.text⟩) })
      | _ => none
  | _, _ => none

/-- The rest of `forward` when the call to the next server fails without a reply. -/
def loseReply (w : World) (c : ℕ) (call : Call) (err : String) : Option World :=
  match call.stage, call.downstream with
  | .forwarded _ _, next :: _ => some (w.setCall c { call with
      stage := .returned (.error ⟨.unavailable, "forward to " ++ next ++ ": " ++ err⟩) })
  | _, _ => none

/-- The handlers of a process that has died are gone. -/
def Call.die (addr : String) (call : Call) : Call :=
  match call.stage with
  | .sent | .returned _ => call
  | _ => if call.addr = addr then { call with stage := .died } else call

def step (w : World) : Event → Option World
  | .request addr chunkId data downstream =>
      some (w.send { addr, chunkId, data, downstream })
  | .handle c => w.calls[c]?.bind (fl.handle w c)
  | .resume c => w.calls[c]?.bind (fl.resume w c)
  | .forward c err => w.calls[c]?.bind fun call => forward w c call err
  | .takeReply c => w.calls[c]?.bind (takeReply w c)
  | .loseReply c err => w.calls[c]?.bind fun call => loseReply w c call err
  | .process addr e =>
      if w.beside addr e then
        (Chunk.step (fl.server addr) (w.processes addr) e).map (w.setProcess addr)
      else none
  | .crash addr cuts =>
      (Chunk.step (fl.server addr) (w.processes addr) (.crash cuts)).map fun p =>
        { w.setProcess addr p with calls := w.calls.map (Call.die addr) }

/-- What a step can do. -/
inductive Stepped (w : World) : World → Prop where
  | sent (call : Call) (hstage : call.stage = .sent) : Stepped w (w.send call)
  /-- The handler of a call returns an error. -/
  | failed {c : ℕ} {call : Call} (hc : w.calls[c]? = some call)
      (hstage : ∀ res, call.stage ≠ .returned res) (status : Pipeline.Status) :
      Stepped w (w.setCall c { call with stage := .returned (.error status) })
  | started {c : ℕ} {call : Call} {p : Chunk.World} (hc : w.calls[c]? = some call)
      (hstage : call.stage = .sent) (hid : hash fl.sum256 call.data = call.chunkId)
      (hp : Chunk.step (fl.server call.addr) (w.processes call.addr) (.start (.write call.data)) =
        some p) :
      Stepped w ((w.setProcess call.addr p).setCall c
        { call with stage := .storing, thread := some (w.processes call.addr).next })
  | resumed {c i : ℕ} {call : Call} {x : Chunk.Call} {res : Except String ChunkID} {p : Chunk.World}
      (hc : w.calls[c]? = some call) (hstage : call.stage = .storing)
      (hthread : call.thread = some i)
      (hret : (w.processes call.addr).threads i = some (.ret (x, .wrote res)))
      (hp : Chunk.step (fl.server call.addr) (w.processes call.addr) (.finish i) = some p) :
      Stepped w ((w.setProcess call.addr p).setCall c
        { call with stage := fl.afterStore call res })
  | forwarded {c : ℕ} {call : Call} {id : ChunkID} {next : String} {downstream : List String}
      (hc : w.calls[c]? = some call) (hstage : call.stage = .stored id)
      (hnext : call.downstream = next :: downstream) :
      Stepped w ((w.setCall c { call with stage := .forwarded id w.calls.length }).send
        { addr := next, chunkId := call.chunkId, data := call.data, downstream })
  | replied {c c' : ℕ} {call call' : Call} {id id' : ChunkID} (hc : w.calls[c]? = some call)
      (hstage : call.stage = .forwarded id c') (hc' : w.calls[c']? = some call')
      (hret : call'.stage = .returned (.ok id')) :
      Stepped w (w.setCall c { call with stage := .returned (.ok id) })
  | process {addr : String} {e : Chunk.Event} {p : Chunk.World}
      (hp : Chunk.step (fl.server addr) (w.processes addr) e = some p) :
      Stepped w (w.setProcess addr p)
  | crashed {addr : String} {cuts : List (Path × ℕ)} {p : Chunk.World}
      (hp : Chunk.step (fl.server addr) (w.processes addr) (.crash cuts) = some p) :
      Stepped w { w.setProcess addr p with calls := w.calls.map (Call.die addr) }

variable {fl}

theorem stepped {w w' : World} {e : Event} (h : step fl w e = some w') : Stepped fl w w' := by
  cases e with
  | request addr chunkId data downstream =>
      cases h
      exact .sent _ rfl
  | handle c =>
      obtain ⟨call, hc, h⟩ := Option.bind_eq_some_iff.mp h
      unfold Fleet.handle at h
      split at h
      · cases h
      · rename_i hsent
        rw [not_not] at hsent
        split at h
        · cases h
          exact .failed hc (by simp [hsent]) _
        · rename_i hverify
          obtain ⟨p, hp, rfl⟩ := Option.map_eq_some_iff.mp h
          exact .started hc hsent (verify_eq_none hverify) hp
  | resume c =>
      obtain ⟨call, hc, h⟩ := Option.bind_eq_some_iff.mp h
      unfold Fleet.resume at h
      split at h
      · rename_i i hstage hthread
        dsimp only at h
        split at h
        · rename_i x res hret
          obtain ⟨p, hp, rfl⟩ := Option.map_eq_some_iff.mp h
          exact .resumed hc hstage hthread hret hp
        · cases h
      · cases h
  | forward c err =>
      obtain ⟨call, hc, h⟩ := Option.bind_eq_some_iff.mp h
      unfold forward at h
      split at h
      · rename_i id next downstream hstage hnext
        split at h
        · cases h
          exact .failed hc (by simp [hstage]) _
        · cases h
          exact .forwarded hc hstage hnext
      · cases h
  | takeReply c =>
      obtain ⟨call, hc, h⟩ := Option.bind_eq_some_iff.mp h
      unfold takeReply at h
      split at h
      · rename_i id c' next downstream hstage hnext
        split at h
        · rename_i hc'
          cases h
          exact .replied hc hstage hc' rfl
        · cases h
          exact .failed hc (by simp [hstage]) _
        · cases h
      · cases h
  | loseReply c err =>
      obtain ⟨call, hc, h⟩ := Option.bind_eq_some_iff.mp h
      unfold loseReply at h
      split at h
      · rename_i hstage _
        cases h
        exact .failed hc (by simp [hstage]) _
      · cases h
  | process addr e =>
      simp only [step] at h
      split at h
      · obtain ⟨p, hp, rfl⟩ := Option.map_eq_some_iff.mp h
        exact .process hp
      · cases h
  | crash addr cuts =>
      rw [step] at h
      obtain ⟨p, hp, rfl⟩ := Option.map_eq_some_iff.mp h
      exact .crashed hp

variable (fl)

/-- The servers that a call with this chain comes to. -/
def Fleet.reached (addr : String) : List String → List String
  | [] => [addr]
  | next :: downstream =>
      if fl.dialer addr then addr :: reached next downstream else [addr]

/-! ### Reading -/

inductive ReadCode where
  | notFound
  | dataLoss
  deriving DecidableEq

structure ReadStatus where
  code : ReadCode
  message : String
  deriving DecidableEq

/-- `ReadChunk`. The error for a chunk that is not there is told from the others by its text. -/
def readChunk (cfg : Config) (id : ChunkID) : Act (Except ReadStatus (List UInt8)) := do
  match ← Chunk.readChunk cfg id with
  | .error err =>
      if err = "chunk: not found: " ++ String.ofList id then
        return .error ⟨.notFound, "chunk " ++ String.ofList id ++ " not found"⟩
      else return .error ⟨.dataLoss, "read chunk: " ++ err⟩
  | .ok data => return .ok data

end Handlers

end VaultFS.Chunk.Servers
