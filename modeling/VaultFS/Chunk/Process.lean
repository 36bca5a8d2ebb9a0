import VaultFS.Chunk.Store
import VaultFS.Interaction.Crash
import VaultFS.Interaction.Threads
import VaultFS.Transition.Basic

/-!
# A chunk server process

The garbage collector of `internal/chunk/gc.go`, and the threads of a chunk server that write,
delete, replicate and collect chunks at the same time. The threads' operations come in any order,
each with any outcome it can have, and the process can die at any moment. Only the files stay then,
and a file that was not synced can lose its end. A write that fails has stored a part of the bytes,
and a rename is atomic. A crash keeps every create and every rename, although the source syncs no
directory: a loss of power that undoes them is not modelled. Other things change meanwhile: time
passes, and the master refers to chunks or no longer does.

What happened is kept in a log beside the state: calls of `WriteChunk` and whether they found their
ID in flight, chunks that were stored or deleted, acknowledgements and collections with their times.
-/

namespace VaultFS.Chunk

open Interaction KeyValue Metadata Transition

/-- The loop of `Sweep` over the chunks that are left. -/
def sweepFrom (cfg : Config) (now : Time) (live : List ChunkID) :
    List ChunkID → Act (Option String)
  | [] => do
      let _ ← Prog.op (.prune live)
      return none
  | id :: rest => do
      match ← Prog.op .ctxErr with
      | .failed err _ => return some err
      | _ =>
          let live := live ++ [id]
          match ← Prog.op (.isReferenced id) with
          | .flag true =>
              let _ ← Prog.op (.forget id)
              sweepFrom cfg now live rest
          | _ =>
              match ← Prog.op (.observe id now) with
              | .flag true =>
                  match ← deleteChunk cfg id (.sweep id now) with
                  | some _ => sweepFrom cfg now live rest
                  | none =>
                      let _ ← Prog.op (.forget id)
                      sweepFrom cfg now live rest
              | _ => sweepFrom cfg now live rest

def sweep (cfg : Config) : Act (Option String) := do
  match ← Prog.op .list with
  | .ids ids =>
      match ← Prog.op .now with
      | .time now => sweepFrom cfg now [] ids
      | _ => return some ""
  | .failed err _ => return some ("chunk: list chunks: " ++ err)
  | _ => return some "chunk: list chunks: "

inductive Call where
  | write (data : List UInt8)
  | replicate (req : ReplicateRequest)
  | delete (id : ChunkID)
  | sweep
  deriving DecidableEq

inductive Reply where
  | wrote (res : Except String ChunkID)
  | replicated (res : Except Status ChunkID)
  | ended (err : Option String)
  deriving DecidableEq

/-- The program of a call, which ends with the call and its result. -/
def Call.prog (cfg : Config) (call : Call) : Act (Call × Reply) :=
  match call with
  | .write data => do return (call, .wrote (← writeChunk cfg data))
  | .replicate req => do return (call, .replicated (← replicateChunk cfg req))
  | .delete id => do return (call, .ended (← deleteChunk cfg id (.delete id)))
  | .sweep => do return (call, .ended (← Chunk.sweep cfg))

inductive Happening where
  /-- The thread has called `WriteChunk` with the data. -/
  | called (i : ℕ) (data : List UInt8)
  /-- It found the ID in flight. -/
  | joined (i : ℕ)
  | stored (path : Path) (data : List UInt8)
  /-- A `DeleteChunk` of the ID has removed a file. -/
  | deleted (id : ChunkID)
  /-- A write of the chunk was acknowledged. -/
  | acked (id : ChunkID) (t : Time)
  /-- A sweep with this reading of the clock has deleted the chunk. -/
  | collected (id : ChunkID) (now : Time)
  deriving DecidableEq

structure Shared where
  files : FS
  /-- The files with bytes that were not synced. -/
  dirty : Path → Bool
  /-- The writes in flight, each with the thread it belongs to. -/
  writing : ChunkID → Option ℕ
  orphanedAt : ChunkID → Option Time
  now : Time
  referenced : ChunkID → Bool
  /-- The chunks that the sweeps in progress have listed. -/
  listed : ℕ → Option (List ChunkID)
  log : List Happening

/-- The bytes of a file after a write; an open file that was removed is not seen any more. -/
def overwrite (files : FS) (path : Path) (data : List UInt8) : FS :=
  if (get files path).isSome then put files path data else files

theorem get_overwrite_of_ne (files : FS) {path k : Path} (data : List UInt8) (h : k ≠ path) :
    get (overwrite files path data) k = get files k := by
  rw [overwrite]
  split
  · exact get_put_of_ne files data h
  · rfl

theorem get_overwrite_self (files : FS) (path : Path) (data : List UInt8) :
    get (overwrite files path data) path = some data ∨
      get (overwrite files path data) path = none := by
  rw [overwrite]
  split
  · exact Or.inl (get_put_self files path data)
  · rename_i hnone
    exact Or.inr (Option.not_isSome_iff_eq_none.mp hnone)

/-- What is noted when a file is removed. -/
def Remover.happenings : Remover → List Happening
  | .writer => []
  | .delete id => [.deleted id]
  | .sweep id now => [.deleted id, .collected id now]

def serve (cfg : Config) (i : ℕ) (s : Shared) : Op → Answer → Option Shared
  | .ctxErr, .done => some s
  | .ctxErr, .failed _ _ => some s
  | .enter id data, .flag inFlight =>
      if (s.writing id).isSome ≠ inFlight then none
      else if inFlight then some { s with log := s.log ++ [.called i data, .joined i] }
      else some { s with
        writing := Function.update s.writing id (some i), log := s.log ++ [.called i data] }
  | .leave id, .done => some { s with writing := Function.update s.writing id none }
  | .stat path, .done => if (get s.files path).isSome then some s else none
  | .stat _, .notExist => some s
  | .stat _, .failed _ _ => some s
  | .mkdirAll _, .done => some s
  | .mkdirAll _, .failed _ _ => some s
  | .createTemp dir pattern, .name suffix =>
      if (get s.files (dir ++ [pattern ++ suffix])).isSome then none
      else some { s with
        files := put s.files (dir ++ [pattern ++ suffix]) []
        dirty := Function.update s.dirty (dir ++ [pattern ++ suffix]) true }
  | .createTemp _ _, .failed _ _ => some s
  | .write path data, .done => some { s with
      files := overwrite s.files path data, dirty := Function.update s.dirty path true }
  | .write path data, .failed _ stored => some { s with
      files := overwrite s.files path (data.take stored)
      dirty := Function.update s.dirty path true }
  | .sync path, .done => some { s with dirty := Function.update s.dirty path false }
  | .sync _, .failed _ _ => some s
  | .close _, .done => some s
  | .close _, .failed _ _ => some s
  | .rename old new, .done =>
      (get s.files old).map fun data => { s with
        files := put (delete s.files old) new data
        dirty := Function.update s.dirty new (s.dirty old)
        log := s.log ++ [.stored new data] }
  | .rename _ _, .failed _ _ => some s
  | .remove path remover, .done =>
      -- Without a file there, this was an empty directory.
      if (get s.files path).isSome then
        some { s with files := delete s.files path, log := s.log ++ remover.happenings }
      else some s
  | .remove path _, .notExist => if (get s.files path).isSome then none else some s
  | .remove _ _, .failed _ _ => some s
  | .readFile path, .bytes data => if get s.files path = some data then some s else none
  | .readFile path, .notExist => if (get s.files path).isSome then none else some s
  | .readFile _, .failed _ _ => some s
  | .dial _, .done => some s
  | .dial _, .failed _ _ => some s
  | .fetch _, .bytes _ => some s
  | .fetch _, .failed _ _ => some s
  | .list, .ids ids =>
      if ids = listChunks cfg.root s.files then
        some { s with listed := Function.update s.listed i (some ids) }
      else none
  | .list, .failed _ _ => some s
  | .now, .time t => if t = s.now then some s else none
  | .isReferenced id, .flag b => if s.referenced id = b then some s else none
  | .forget id, .done => some { s with orphanedAt := Function.update s.orphanedAt id none }
  | .observe id now, .flag expired =>
      let first := (s.orphanedAt id).getD now
      if expired = decide (cfg.grace ≤ now.sub first) then
        some { s with orphanedAt := Function.update s.orphanedAt id (some first) }
      else none
  | .prune live, .done =>
      some { s with orphanedAt := fun id => if live.any (· = id) then s.orphanedAt id else none }
  | _, _ => none

/-- An error from the operation leaves everything as it was. -/
def Op.Fails : Op → Prop
  | .ctxErr | .stat _ | .mkdirAll _ | .createTemp _ _ | .sync _ | .close _ | .rename _ _
  | .remove _ _ | .readFile _ | .dial _ | .fetch _ | .list => True
  | _ => False

/-- What an operation can do. -/
inductive Served (cfg : Config) (i : ℕ) (s : Shared) : Op → Answer → Shared → Prop where
  | failed {o : Op} (ho : o.Fails) (err : String) (stored : ℕ) :
      Served cfg i s o (.failed err stored) s
  | running : Served cfg i s .ctxErr .done s
  | joined {id : ChunkID} (data : List UInt8) (h : (s.writing id).isSome = true) :
      Served cfg i s (.enter id data) (.flag true)
        { s with log := s.log ++ [.called i data, .joined i] }
  | entered {id : ChunkID} (data : List UInt8) (h : s.writing id = none) :
      Served cfg i s (.enter id data) (.flag false) { s with
        writing := Function.update s.writing id (some i), log := s.log ++ [.called i data] }
  | left (id : ChunkID) :
      Served cfg i s (.leave id) .done { s with writing := Function.update s.writing id none }
  | found {path : Path} (h : (get s.files path).isSome = true) : Served cfg i s (.stat path) .done s
  | notFound (path : Path) : Served cfg i s (.stat path) .notExist s
  | madeDir (path : Path) : Served cfg i s (.mkdirAll path) .done s
  | created {dir : Path} {pattern suffix : List Char}
      (h : get s.files (dir ++ [pattern ++ suffix]) = none) :
      Served cfg i s (.createTemp dir pattern) (.name suffix) { s with
        files := put s.files (dir ++ [pattern ++ suffix]) []
        dirty := Function.update s.dirty (dir ++ [pattern ++ suffix]) true }
  | wrote (path : Path) (data : List UInt8) :
      Served cfg i s (.write path data) .done { s with
        files := overwrite s.files path data, dirty := Function.update s.dirty path true }
  | wroteInPart (path : Path) (data : List UInt8) (err : String) (stored : ℕ) :
      Served cfg i s (.write path data) (.failed err stored) { s with
        files := overwrite s.files path (data.take stored)
        dirty := Function.update s.dirty path true }
  | synced (path : Path) :
      Served cfg i s (.sync path) .done { s with dirty := Function.update s.dirty path false }
  | closed (path : Path) : Served cfg i s (.close path) .done s
  | renamed {old : Path} (new : Path) {data : List UInt8} (h : get s.files old = some data) :
      Served cfg i s (.rename old new) .done { s with
        files := put (delete s.files old) new data
        dirty := Function.update s.dirty new (s.dirty old)
        log := s.log ++ [.stored new data] }
  | removed {path : Path} (remover : Remover) (h : (get s.files path).isSome = true) :
      Served cfg i s (.remove path remover) .done
        { s with files := delete s.files path, log := s.log ++ remover.happenings }
  | removedDir {path : Path} (remover : Remover) (h : get s.files path = none) :
      Served cfg i s (.remove path remover) .done s
  | nothingToRemove {path : Path} (remover : Remover) (h : get s.files path = none) :
      Served cfg i s (.remove path remover) .notExist s
  | read {path : Path} {data : List UInt8} (h : get s.files path = some data) :
      Served cfg i s (.readFile path) (.bytes data) s
  | nothingToRead {path : Path} (h : get s.files path = none) :
      Served cfg i s (.readFile path) .notExist s
  | dialled (addr : String) : Served cfg i s (.dial addr) .done s
  | fetched (id : ChunkID) (data : List UInt8) : Served cfg i s (.fetch id) (.bytes data) s
  | listed : Served cfg i s .list (.ids (listChunks cfg.root s.files))
      { s with listed := Function.update s.listed i (some (listChunks cfg.root s.files)) }
  | now : Served cfg i s .now (.time s.now) s
  | referenced (id : ChunkID) : Served cfg i s (.isReferenced id) (.flag (s.referenced id)) s
  | forgot (id : ChunkID) :
      Served cfg i s (.forget id) .done
        { s with orphanedAt := Function.update s.orphanedAt id none }
  | observed (id : ChunkID) (now : Time) :
      Served cfg i s (.observe id now)
        (.flag (decide (cfg.grace ≤ now.sub ((s.orphanedAt id).getD now)))) { s with
        orphanedAt := Function.update s.orphanedAt id (some ((s.orphanedAt id).getD now)) }
  | pruned (live : List ChunkID) :
      Served cfg i s (.prune live) .done
        { s with orphanedAt := fun id => if live.any (· = id) then s.orphanedAt id else none }

theorem served {cfg : Config} {i : ℕ} {s t : Shared} {o : Op} {a : Answer}
    (h : serve cfg i s o a = some t) : Served cfg i s o a t := by
  unfold serve at h
  split at h
  · cases h
    exact .running
  · cases h
    exact .failed (by trivial) _ _
  · split at h
    · cases h
    · rename_i hflag
      split at h
      · rename_i htrue
        cases h
        subst htrue
        exact .joined _ (not_not.mp hflag)
      · rename_i hfalse
        cases h
        obtain rfl := Bool.eq_false_of_not_eq_true hfalse
        exact .entered _ (by simpa using hflag)
  · cases h
    exact .left _
  · split at h
    · rename_i hsome
      cases h
      exact .found hsome
    · cases h
  · cases h
    exact .notFound _
  · cases h
    exact .failed (by trivial) _ _
  · cases h
    exact .madeDir _
  · cases h
    exact .failed (by trivial) _ _
  · split at h
    · cases h
    · rename_i hnone
      cases h
      exact .created (Option.not_isSome_iff_eq_none.mp hnone)
  · cases h
    exact .failed (by trivial) _ _
  · cases h
    exact .wrote _ _
  · cases h
    exact .wroteInPart _ _ _ _
  · cases h
    exact .synced _
  · cases h
    exact .failed (by trivial) _ _
  · cases h
    exact .closed _
  · cases h
    exact .failed (by trivial) _ _
  · obtain ⟨data, hget, rfl⟩ := Option.map_eq_some_iff.mp h
    exact .renamed _ hget
  · cases h
    exact .failed (by trivial) _ _
  · split at h
    · rename_i hsome
      cases h
      exact .removed _ hsome
    · rename_i hnone
      cases h
      exact .removedDir _ (Option.not_isSome_iff_eq_none.mp hnone)
  · split at h
    · cases h
    · rename_i hnone
      cases h
      exact .nothingToRemove _ (Option.not_isSome_iff_eq_none.mp hnone)
  · cases h
    exact .failed (by trivial) _ _
  · split at h
    · rename_i hget
      cases h
      exact .read hget
    · cases h
  · split at h
    · cases h
    · rename_i hnone
      cases h
      exact .nothingToRead (Option.not_isSome_iff_eq_none.mp hnone)
  · cases h
    exact .failed (by trivial) _ _
  · cases h
    exact .dialled _
  · cases h
    exact .failed (by trivial) _ _
  · cases h
    exact .fetched _ _
  · cases h
    exact .failed (by trivial) _ _
  · split at h
    · rename_i hids
      cases h
      subst hids
      exact .listed
    · cases h
  · cases h
    exact .failed (by trivial) _ _
  · split at h
    · rename_i hnow
      cases h
      subst hnow
      exact .now
    · cases h
  · split at h
    · rename_i hflag
      cases h
      subst hflag
      exact .referenced _
    · cases h
  · cases h
    exact .forgot _
  · simp only at h
    split at h
    · rename_i hexpired
      cases h
      subst hexpired
      exact .observed _ _
    · cases h
  · cases h
    exact .pruned _
  · cases h

/-- The chunk that a call has acknowledged. -/
def Reply.acked : Reply → Option ChunkID
  | .wrote (.ok id) => some id
  | .replicated (.ok id) => some id
  | _ => none

/-- The return of a thread. -/
def Shared.finish (s : Shared) (i : ℕ) (reply : Reply) : Shared :=
  { s with
    listed := Function.update s.listed i none
    log := s.log ++ reply.acked.toList.map fun id => .acked id s.now }

structure World where
  shared : Shared
  threads : ℕ → Option (Act (Call × Reply))
  next : ℕ

theorem threads_eq_ret {w : World} {i : ℕ} {x : Call × Reply}
    (h : (w.threads i).bind Prog.result? = some x) : w.threads i = some (.ret x) := by
  obtain ⟨p, hp, hresult⟩ := Option.bind_eq_some_iff.mp h
  rw [hp, Prog.result?_eq_some hresult]

/-- A process that has just started has no thread. -/
def World.init (files : FS) (now : Time) (referenced : ChunkID → Bool) : World where
  shared := {
    files, dirty := fun _ => false, writing := fun _ => none, orphanedAt := fun _ => none, now
    referenced, listed := fun _ => none, log := [] }
  threads := fun _ => none
  next := 0

inductive Event where
  | start (call : Call)
  | op (i : ℕ) (answer : Answer)
  | finish (i : ℕ)
  /-- The process dies, and files that were not synced are cut to the given lengths. -/
  | crash (cuts : List (Path × ℕ))
  | tick (d : ℕ)
  | refer (id : ChunkID) (b : Bool)

/-- The files after some that were not synced have been cut. -/
def cutFiles (dirty : Path → Bool) : List (Path × ℕ) → FS → FS
  | [], files => files
  | (path, len) :: cuts, files =>
      cutFiles dirty cuts (match dirty path, get files path with
        | true, some data => put files path (data.take len)
        | _, _ => files)

/-- What is left of the state when the process has died. -/
def Shared.restart (s : Shared) (cuts : List (Path × ℕ)) : Shared :=
  { s with
    files := cutFiles s.dirty cuts s.files
    writing := fun _ => none, orphanedAt := fun _ => none, listed := fun _ => none }

def step (cfg : Config) (w : World) : Event → Option World
  | .start call => some { w with
      threads := Function.update w.threads w.next (some (call.prog cfg)), next := w.next + 1 }
  | .op i answer =>
      match w.threads i with
      | some (.ask o next) => (serve cfg i w.shared o answer).map fun s => { w with
          shared := s, threads := Function.update w.threads i (some (next answer)) }
      | _ => none
  | .finish i =>
      match w.threads i with
      | some (.ret (_, reply)) => some { w with
          shared := w.shared.finish i reply, threads := Function.update w.threads i none }
      | _ => none
  | .crash cuts => some { w with shared := w.shared.restart cuts, threads := fun _ => none }
  | .tick d => some { w with shared := { w.shared with now := w.shared.now + d } }
  | .refer id b => some { w with
      shared := { w.shared with referenced := Function.update w.shared.referenced id b } }

theorem step_op {cfg : Config} {w w' : World} {i : ℕ} {answer : Answer}
    (h : step cfg w (.op i answer) = some w') :
    ∃ o next s, w.threads i = some (.ask o next) ∧ serve cfg i w.shared o answer = some s ∧
      w' = { w with shared := s, threads := Function.update w.threads i (some (next answer)) } := by
  simp only [step] at h
  split at h
  · rename_i o next hthread
    obtain ⟨s, hs, rfl⟩ := Option.map_eq_some_iff.mp h
    exact ⟨o, next, s, hthread, hs, rfl⟩
  · cases h

theorem step_finish {cfg : Config} {w w' : World} {i : ℕ} (h : step cfg w (.finish i) = some w') :
    ∃ call reply, w.threads i = some (.ret (call, reply)) ∧
      w' = { w with
        shared := w.shared.finish i reply, threads := Function.update w.threads i none } := by
  simp only [step] at h
  split at h
  · rename_i call reply hthread
    exact ⟨call, reply, hthread, (Option.some.inj h).symm⟩
  · cases h

end VaultFS.Chunk
