import VaultFS.Metadata.Heartbeat
import VaultFS.Metadata.Lease

/-!
# The master server

`internal/master/server.go`: the replicated commands and how a master applies them, and the
answers it gives from the namespace it has applied. A command changes the namespace and, when
a chunk map is attached, the chunk map; everything else of the server stays.

Proposing a command, and the loop that applies the committed ones and wakes the callers,
belong to the cluster (`VaultFS.Master.Cluster`).
-/

namespace VaultFS.Master

open KeyValue SlashPath Metadata

inductive OpKind where
  | create
  | finalize
  | delete
  deriving DecidableEq

/-- The unit that is replicated. The numbers a master gives to its commands are written in
decimal in the source, so that they are equal exactly when the texts are. -/
structure Command where
  opID : ℕ := 0
  kind : OpKind
  path : List Char
  chunkIDs : List String := []
  size : ℤ := 0
  deriving DecidableEq

structure NodeInfo where
  nodeID : String
  address : String
  deriving DecidableEq

/-- The status codes the master and its clients tell apart. -/
inductive Code where
  | canceled
  | deadlineExceeded
  | notFound
  | failedPrecondition
  | aborted
  | internal
  | unavailable
  deriving DecidableEq

structure Status where
  code : Code
  message : String
  deriving DecidableEq

structure Server (σ : Type*) where
  ns : Namespace σ
  leases : LeaseManager
  chunkNodes : List NodeInfo
  rf : ℕ
  /-- The chunk map, when one is attached. -/
  chunkMap : Option ChunkMap

namespace Server

variable {σ : Type*} [Store σ Char FileInfo]

def new (ns : Namespace σ) (leases : LeaseManager) (chunkNodes : List NodeInfo) (rf : ℤ)
    (chunkMap : Option ChunkMap) : Server σ :=
  { ns, leases, chunkNodes, chunkMap, rf := if rf ≤ 0 then defaultReplicationFactor else rf.toNat }

def placement (s : Server σ) : List NodeInfo :=
  let n := if s.rf > s.chunkNodes.length then s.chunkNodes.length else s.rf
  s.chunkNodes.take n

def recordChunkLocations (s : Server σ) (chunkIDs : List String) : Server σ :=
  match s.chunkMap with
  | none => s
  | some chunkMap =>
      let chunkMap := chunkIDs.foldl (fun cm id =>
        s.placement.foldl (fun cm n => cm.addLocation id ⟨n.nodeID, n.address⟩) cm) chunkMap
      { s with chunkMap := some chunkMap }

/-- How a finalize ends: the inode could not be written, or the chunks are recorded. -/
def finalized (s : Server σ) (chunkIDs : List String) :
    Namespace σ × Except Error Unit → Server σ × Except Error Unit
  | (ns, .error err) => ({ s with ns }, .error err)
  | (ns, .ok _) => (recordChunkLocations { s with ns } chunkIDs, .ok ())

section Clock

variable (clock : ℕ → Time)

/-- The loop of `ensureParents`: `cur` is a parent that is there, the parts are still to be
descended, and the last of them is the file's own name. -/
def ensureParentsFrom (cur : List Char) :
    List (List Char) → Namespace σ → Namespace σ × Except Error Unit
  | part :: part' :: parts, ns =>
      let cur := cur ++ '/' :: part
      match ns.stat cur with
      | .ok _ => ensureParentsFrom cur (part' :: parts) ns
      | .error err =>
          if !err.isNotFound then (ns, .error err)
          else match ns.createDir clock cur with
            | (ns, .ok _) => ensureParentsFrom cur (part' :: parts) ns
            | (ns, .error err) =>
                if err.isAlreadyExists then ensureParentsFrom cur (part' :: parts) ns
                else (ns, .error err)
  | _, ns => (ns, .ok ())

def ensureParents (ns : Namespace σ) (path : List Char) : Namespace σ × Except Error Unit :=
  ensureParentsFrom clock [] (split '/' (trim '/' path)) ns

/-- How `apply` creates a file that is not there: first the directories above it. -/
def createWithParents (ns : Namespace σ) (info : FileInfo) : Namespace σ × Except Error Unit :=
  match ensureParents clock ns info.path with
  | (ns, .error err) => (ns, .error err)
  | (ns, .ok _) => ns.createFile clock info

def apply (s : Server σ) (cmd : Command) : Server σ × Except Error Unit :=
  match cmd.kind with
  | .create =>
      match s.ns.stat cmd.path with
      | .ok _ => (s, .ok ())
      | .error _ =>
          let (ns, res) := createWithParents clock s.ns { path := cmd.path }
          ({ s with ns }, res)
  | .finalize =>
      let fi : FileInfo := { path := cmd.path, size := cmd.size, chunkIDs := cmd.chunkIDs }
      match s.ns.stat cmd.path with
      | .ok _ => s.finalized cmd.chunkIDs (s.ns.updateFile clock fi)
      | .error _ => s.finalized cmd.chunkIDs (createWithParents clock s.ns fi)
  | .delete =>
      match s.ns.deleteFile cmd.path with
      | (ns, .error err) => ({ s with ns }, if err.isNotFound then .ok () else .error err)
      | (ns, .ok _) => ({ s with ns }, .ok ())

/-- Apply commands in order, with the result of each. -/
def applyAll (s : Server σ) : List Command → Server σ × List (Except Error Unit)
  | [] => (s, [])
  | cmd :: cmds =>
      let (s, res) := s.apply clock cmd
      let (s, ress) := s.applyAll cmds
      (s, res :: ress)

end Clock

/-! ### Answers from the applied state -/

/-- A file as it is sent to clients. -/
structure FileInfoProto where
  path : List Char
  isDir : Bool
  size : ℤ
  chunkIds : List String
  mode : ℕ
  createdAtUnix : ℤ
  updatedAtUnix : ℤ
  deriving DecidableEq

def fileInfoToProto (fi : FileInfo) : FileInfoProto where
  path := fi.path
  isDir := fi.isDir
  size := fi.size
  chunkIds := fi.chunkIDs
  mode := fi.mode
  createdAtUnix := fi.createdAt.unix
  updatedAtUnix := fi.updatedAt.unix

structure ChunkLocation where
  chunkId : String
  nodes : List NodeInfo
  deriving DecidableEq

structure OpenForReadResponse where
  file : FileInfoProto
  locations : List ChunkLocation
  deriving DecidableEq

/-- The inode for a read, or the status of its failure. -/
def lookup (s : Server σ) (context : String) (path : List Char) : Except Status FileInfo :=
  match s.ns.stat path with
  | .ok fi => .ok fi
  | .error err =>
      if err.isNotFound then .error ⟨.notFound, String.ofList path ++ " not found"⟩
      else .error ⟨.internal, context ++ ": " ++ err.message⟩

def stat (s : Server σ) (path : List Char) : Except Status FileInfoProto :=
  (s.lookup "stat" path).map fileInfoToProto

def listDir (s : Server σ) (path : List Char) : Except Status (List FileInfoProto) :=
  match s.ns.listDir path with
  | .error err => .error ⟨.internal, "list dir: " ++ err.message⟩
  | .ok entries => .ok (entries.map fileInfoToProto)

def openForRead (s : Server σ) (path : List Char) : Except Status OpenForReadResponse :=
  (s.lookup "open for read" path).map fun fi =>
    { file := fileInfoToProto fi
      locations := fi.chunkIDs.map fun id => { chunkId := id, nodes := s.placement } }

def openForWrite (s : Server σ) (chunkIds : List String) : Except Status (List ChunkLocation) :=
  if s.chunkNodes = [] then .error ⟨.unavailable, "no chunk servers available"⟩
  else .ok (chunkIds.map fun id => { chunkId := id, nodes := s.placement })

/-- The answer of `FinalizeWrite` once `propose` has returned. -/
def finalizeWrite (s : Server σ) (path : List Char) :
    Except Status Unit → Except Status FileInfoProto
  | .error st => .error st
  | .ok _ =>
      match s.ns.stat path with
      | .error err => .error ⟨.internal, "post-finalize stat: " ++ err.message⟩
      | .ok fi => .ok (fileInfoToProto fi)

/-- A lease as it is sent to clients. -/
structure LeaseProto where
  chunkId : String
  holder : String
  expiryUnix : ℤ
  deriving DecidableEq

def getLease (s : Server σ) (now : Time) (chunkId holder : String) :
    Server σ × Except Status LeaseProto :=
  match s.leases.grant now chunkId holder with
  | (leases, .error .held) =>
      ({ s with leases }, .error ⟨.failedPrecondition, "lease held by another node"⟩)
  | (leases, .ok lease) =>
      ({ s with leases }, .ok ⟨lease.chunkID, lease.holder, lease.expiry.unix⟩)

end Server

end VaultFS.Master
