import VaultFS.Chunk.Hasher
import VaultFS.Interaction.Basic
import VaultFS.KeyValue.Basic
import VaultFS.Metadata.Heartbeat
import VaultFS.SlashPath.Basic

/-!
# The chunk store

`internal/chunk/store.go`, and `ReplicateChunk` of `internal/chunkserver/server.go`. A file system
maps absolute paths, given by their components, to the bytes of files; directories hold nothing of
their own, and a call that needs one may fail. Every call to the file system, every use of the set
of writes in flight, the context and the network is one operation, so that the methods of the store
are programs (`Act`) that can be interleaved in any way. The deferred calls of a method come at its
end, the last one first.

`path` slices the ID without a check: on an ID of fewer than `fanoutLen` bytes the process panics.
-/

namespace VaultFS.Chunk

open Interaction KeyValue Metadata SlashPath

abbrev Path := List (List Char)

abbrev FS := SortedList (List Char) (List UInt8)

structure Config where
  sum256 : List UInt8 → Sum
  root : Path
  /-- The grace period of the garbage collector. -/
  grace : Time
  /-- The server has a dialer. -/
  dialer : Bool

/-- Who removes a file: a writer its temporary file, `DeleteChunk`, or `DeleteChunk` for a sweep
with its reading of the clock. -/
inductive Remover where
  | writer
  | delete (id : ChunkID)
  | sweep (id : ChunkID) (now : Time)

/-- An operation on what the threads of a chunk server share. -/
inductive Op where
  /-- `ctx.Err`. -/
  | ctxErr
  /-- Enter an ID in the set of writes in flight, unless it is there; `data` is what is to be
  written. -/
  | enter (id : ChunkID) (data : List UInt8)
  | leave (id : ChunkID)
  | stat (path : Path)
  | mkdirAll (path : Path)
  | createTemp (dir : Path) (pattern : List Char)
  | write (path : Path) (data : List UInt8)
  | sync (path : Path)
  | close (path : Path)
  | rename (old new : Path)
  | remove (path : Path) (remover : Remover)
  | readFile (path : Path)
  | panic
  | dial (addr : String)
  /-- Ask another chunk server for a chunk. -/
  | fetch (id : ChunkID)
  /-- `ListChunks`. -/
  | list
  | now
  | isReferenced (id : ChunkID)
  /-- Clear the orphan timer of a chunk. -/
  | forget (id : ChunkID)
  /-- Start the orphan timer of a chunk if it does not run, and tell whether it has expired. -/
  | observe (id : ChunkID) (now : Time)
  /-- Clear the orphan timers of all other chunks. -/
  | prune (live : List ChunkID)

inductive Answer where
  | done
  /-- An error; a failed write has stored a number of bytes. -/
  | failed (err : String) (stored : ℕ)
  /-- `os.ErrNotExist`. -/
  | notExist
  | flag (b : Bool)
  /-- What `CreateTemp` puts for the star. -/
  | name (suffix : List Char)
  | bytes (data : List UInt8)
  | ids (ids : List ChunkID)
  | time (t : Time)

abbrev Act := Prog fun _ : Op => Answer

def fanoutLen : ℕ := 2

def slash : Char := '/'

def dot : Char := '.'

def path (root : Path) (id : ChunkID) : Path :=
  join slash dot (join slash dot root (id.take fanoutLen)) id

def tmpInfix : List Char := ['.', 't', 'm', 'p', '-']

/-- The name of a temporary file up to the part that `CreateTemp` chooses. -/
def tmpPattern (id : ChunkID) : List Char := dot :: id ++ tmpInfix

section Programs

variable (cfg : Config)

/-- The part of `WriteChunk` with the temporary file open. -/
def commit (id : ChunkID) (data : List UInt8) (tmpName dest : Path) :
    Act (Except String ChunkID) := do
  match ← Prog.op (.write tmpName data) with
  | .failed err _ =>
      let _ ← Prog.op (.close tmpName)
      return .error ("chunk: write data for " ++ String.ofList id ++ ": " ++ err)
  | _ =>
      match ← Prog.op (.sync tmpName) with
      | .failed err _ =>
          let _ ← Prog.op (.close tmpName)
          return .error ("chunk: fsync " ++ String.ofList id ++ ": " ++ err)
      | _ =>
          match ← Prog.op (.close tmpName) with
          | .failed err _ =>
              return .error ("chunk: close temp for " ++ String.ofList id ++ ": " ++ err)
          | _ =>
              match ← Prog.op (.rename tmpName dest) with
              | .failed err _ =>
                  return .error ("chunk: commit " ++ String.ofList id ++ ": " ++ err)
              | _ => return .ok id

/-- The part of `WriteChunk` with the ID in flight. -/
def persist (id : ChunkID) (data : List UInt8) (dest : Path) : Act (Except String ChunkID) := do
  match ← Prog.op (.stat dest) with
  | .done => return .ok id
  | _ =>
      match ← Prog.op (.mkdirAll dest.dropLast) with
      | .failed err _ =>
          return .error ("chunk: create fanout dir for " ++ String.ofList id ++ ": " ++ err)
      | _ =>
          match ← Prog.op (.createTemp dest.dropLast (tmpPattern id)) with
          | .name suffix =>
              let tmpName := dest.dropLast ++ [tmpPattern id ++ suffix]
              let res ← commit id data tmpName dest
              let _ ← Prog.op (.remove tmpName .writer)
              return res
          | .failed err _ =>
              return .error ("chunk: create temp file for " ++ String.ofList id ++ ": " ++ err)
          | _ => return .error ("chunk: create temp file for " ++ String.ofList id ++ ": ")

def writeChunk (data : List UInt8) : Act (Except String ChunkID) := do
  match ← Prog.op .ctxErr with
  | .failed err _ => return .error ("chunk: write cancelled: " ++ err)
  | _ =>
      let id := hash cfg.sum256 data
      let dest := path cfg.root id
      match ← Prog.op (.enter id data) with
      | .flag true => return .ok id
      | _ =>
          let res ← persist id data dest
          let _ ← Prog.op (.leave id)
          return res

def readChunk (id : ChunkID) : Act (Except String (List UInt8)) := do
  match ← Prog.op .ctxErr with
  | .failed err _ => return .error ("chunk: read cancelled: " ++ err)
  | _ =>
      if id.length < fanoutLen then
        let _ ← Prog.op .panic
        return .error ""
      else
        match ← Prog.op (.readFile (path cfg.root id)) with
        | .bytes data =>
            match verify cfg.sum256 id data with
            | some err => return .error err
            | none => return .ok data
        | .failed err _ => return .error ("chunk: read " ++ String.ofList id ++ ": " ++ err)
        | _ => return .error ("chunk: not found: " ++ String.ofList id)

def deleteChunk (id : ChunkID) (remover : Remover) : Act (Option String) := do
  match ← Prog.op .ctxErr with
  | .failed err _ => return some ("chunk: delete cancelled: " ++ err)
  | _ =>
      if id.length < fanoutLen then
        let _ ← Prog.op .panic
        return none
      else
        match ← Prog.op (.remove (path cfg.root id) remover) with
        | .failed err _ => return some ("chunk: delete " ++ String.ofList id ++ ": " ++ err)
        | _ => return none

/-- The status codes of `ReplicateChunk`. -/
inductive Code where
  | unimplemented
  | unavailable
  | internal
  deriving DecidableEq

structure Status where
  code : Code
  message : String
  deriving DecidableEq

/-- The request of `ReplicateChunk`. -/
structure ReplicateRequest where
  chunkID : ChunkID
  sourceAddress : String
  deriving DecidableEq

def replicateChunk (req : ReplicateRequest) : Act (Except Status ChunkID) := do
  if cfg.dialer = false then
    return .error ⟨.unimplemented, "replication dialer not configured"⟩
  else
    match ← Prog.op (.dial req.sourceAddress) with
    | .failed err _ =>
        return .error ⟨.unavailable, "dial source " ++ req.sourceAddress ++ ": " ++ err⟩
    | _ =>
        match ← Prog.op (.fetch req.chunkID) with
        | .bytes data =>
            match ← writeChunk cfg data with
            | .error err => return .error ⟨.internal, "store replicated chunk: " ++ err⟩
            | .ok id => return .ok id
        | .failed err _ => return .error ⟨.unavailable, "fetch from source: " ++ err⟩
        | _ => return .error ⟨.unavailable, "fetch from source: "⟩

end Programs

theorem only_deleteChunk {cfg : Config} {id : ChunkID} {remover : Remover} {P : Op → Prop}
    (hctx : P .ctxErr) (hpanic : P .panic) (hremove : P (.remove (path cfg.root id) remover)) :
    (deleteChunk cfg id remover).Only P := by
  rw [deleteChunk]
  refine .bind (.op hctx) fun a => ?_
  split
  · trivial
  · split
    · exact .bind (.op hpanic) fun _ => trivial
    · refine .bind (.op hremove) fun a => ?_
      split <;> trivial

/-- The names of the files below the root that are valid IDs, in the order of the walk. -/
def listChunks (root : Path) (files : FS) : List ChunkID :=
  ((scan files root).filterMap fun x => x.1.getLast?).filter fun name => Valid name

/-- The path of a temporary file. -/
def tmpPath (root : Path) (id : ChunkID) (suffix : List Char) : Path :=
  root ++ [id.take fanoutLen, tmpPattern id ++ suffix]

section Paths

variable {root : Path} {id id' : ChunkID}

theorem path_eq (root : Path) (h : Valid id) : path root id = root ++ [id.take fanoutLen, id] := by
  have hslash : slash ∉ id := h.notMem rfl
  have hdot : dot ∉ id := h.notMem rfl
  have hlen : id.length = 64 := h.1
  have hne : id ≠ [] := List.ne_nil_of_length_pos (by omega)
  have hshort : id.take fanoutLen ≠ [] := by
    apply List.ne_nil_of_length_pos
    rw [List.length_take, hlen]
    decide
  rw [path, join_of_notMem (fun hm => hslash (List.mem_of_mem_take hm))
    (fun hm => hdot (List.mem_of_mem_take hm)) hshort, join_of_notMem hslash hdot hne,
    List.append_assoc]
  rfl

theorem path_dropLast (root : Path) (h : Valid id) :
    (path root id).dropLast = root ++ [id.take fanoutLen] := by
  rw [path_eq root h, show [id.take fanoutLen, id] = [id.take fanoutLen] ++ [id] from rfl,
    ← List.append_assoc, List.dropLast_concat]

theorem tmpName_eq (root : Path) (h : Valid id) (suffix : List Char) :
    (path root id).dropLast ++ [tmpPattern id ++ suffix] = tmpPath root id suffix := by
  rw [path_dropLast root h, tmpPath, List.append_assoc]
  rfl

theorem path_injective (h : Valid id) (h' : Valid id') (heq : path root id = path root id') :
    id = id' := by
  rw [path_eq root h, path_eq root h'] at heq
  have := List.append_cancel_left heq
  simp only [List.cons.injEq, and_true] at this
  exact this.2

/-- Temporary files have names of their own. -/
theorem tmpPath_ne_path (id : ChunkID) (suffix : List Char) (h' : Valid id') :
    tmpPath root id suffix ≠ path root id' := by
  intro heq
  rw [path_eq root h', tmpPath] at heq
  have hnames := List.append_cancel_left heq
  simp only [List.cons.injEq, and_true] at hnames
  have hdot : dot ∈ id' := by
    rw [← hnames.2, tmpPattern]
    simp
  exact h'.notMem rfl hdot

theorem tmpPath_injective (h : Valid id) (h' : Valid id') {suffix suffix' : List Char}
    (heq : tmpPath root id suffix = tmpPath root id' suffix') : id = id' := by
  have hnames := List.append_cancel_left heq
  simp only [tmpPattern, List.cons_append, List.append_assoc, List.cons.injEq, true_and,
    and_true] at hnames
  exact (List.append_inj hnames.2 (h.1.trans h'.1.symm)).1

theorem tmpPath_suffix_injective : Function.Injective (tmpPath root id) := by
  intro suffix suffix' heq
  have hnames := List.append_cancel_left heq
  simp only [List.cons.injEq, List.append_cancel_left_eq, and_true, true_and] at hnames
  exact hnames

end Paths

end VaultFS.Chunk
