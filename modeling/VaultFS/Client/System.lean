import VaultFS.Chunk.Servers.Durability
import VaultFS.Client.Availability
import VaultFS.Client.ReadYourWrites
import VaultFS.Master.Liveness

/-!
# Clients, masters and chunk servers

The masters (`VaultFS.Master.Cluster`) and the chunk servers (`VaultFS.Chunk.Servers`) beside each
other, and how both serve the operations of a client. Masters and chunk servers do not talk to each
other here, so that what the masters do during a `WriteChunk` may as well come before it.

A chunk server is good for a client if it can be reached and its file system does not fail while the
client reads; from another server, reads can return anything.
-/

namespace VaultFS.Client

open KeyValue Metadata Master Cluster Transition Interaction
open Chunk.Servers (Fleet Reaches)

structure System (M σ : Type*) where
  masters : World M σ
  servers : Chunk.Servers.World

inductive SystemEvent (M : Type*) where
  | masters (e : Event M)
  | servers (e : Chunk.Servers.Event)

/-- The name of a chunk, as the chunk servers make it. -/
def hashChunk (fl : Fleet) (data : List UInt8) : String :=
  String.ofList (Chunk.hash fl.sum256 data)

/-- The answer to `WriteChunk`, with codes that a client does not tell apart as one. -/
def writeAnswer : Except Chunk.Pipeline.Status Chunk.ChunkID → Except Status Unit
  | .ok _ => .ok ()
  | .error ⟨.unavailable, message⟩ => .error ⟨.unavailable, message⟩
  | .error ⟨_, message⟩ => .error ⟨.internal, message⟩

/-- The answer to `ReadChunk`, likewise. -/
def readAnswer : Except Chunk.Servers.ReadStatus (List UInt8) → Except Status (List UInt8)
  | .ok data => .ok data
  | .error ⟨.notFound, message⟩ => .error ⟨.notFound, message⟩
  | .error ⟨.dataLoss, message⟩ => .error ⟨.internal, message⟩

/-- The result of `ReadChunk` on a server on which no operation fails. -/
def Reads (fl : Fleet) (w : Chunk.Servers.World) (addr : String) (id : Chunk.ChunkID)
    (res : Except Chunk.Servers.ReadStatus (List UInt8)) : Prop :=
  ∃ i t, (Chunk.Servers.readChunk (fl.server addr) id).Ends (Chunk.unfailing (fl.server addr) i)
    (w.processes addr).shared res t

theorem Reads.eq_ok_iff {fl : Fleet} {w : Chunk.Servers.World} {addr : String}
    {id : Chunk.ChunkID} {data : List UInt8}
    {res : Except Chunk.Servers.ReadStatus (List UInt8)} (h : Reads fl w addr id res) :
    res = .ok data ↔
      KeyValue.get (w.processes addr).shared.files (Chunk.path (fl.root addr) id) = some data ∧
        Chunk.hash fl.sum256 data = id := by
  obtain ⟨i, t, hends⟩ := h
  refine Iff.trans ?_ (Chunk.readResult_eq_ok : Chunk.readResult (fl.server addr) _ _ = _ ↔ _)
  have hensures : Prog.Ensures (Chunk.unfailing (fl.server addr) i) (fun _ => True)
      (fun res _ => res = .ok data ↔
        Chunk.readResult (fl.server addr) (w.processes addr).shared id = .ok data)
      (w.processes addr).shared (Chunk.Servers.readChunk (fl.server addr) id) := by
    refine .bind (Chunk.ensures_readResult ..) fun res t _ hres => ?_
    rw [← hres]
    cases res with
    | ok content => exact .ret trivial (by simp)
    | error err =>
        dsimp only
        split <;> exact .ret trivial (by simp)
  exact hensures.ends hends

theorem reads_of_get {fl : Fleet} {w : Chunk.Servers.World} {addr : String}
    {data : List UInt8} (h : KeyValue.get (w.processes addr).shared.files
      (Chunk.path (fl.root addr) (Chunk.hash fl.sum256 data)) = some data) :
    Reads fl w addr (Chunk.hash fl.sum256 data) (.ok data) := by
  have hends : (Chunk.readChunk (fl.server addr) _).Ends
      (Chunk.unfailing (fl.server addr) 0) _ _ _ := Chunk.ends_readChunk h
  exact ⟨0, _, hends.bind (.ret _ _)⟩

namespace System

variable {M σ : Type*}

def start (init : M → Server σ) (files : String → Chunk.FS) (now : Time)
    (referenced : Chunk.ChunkID → Bool) : System M σ :=
  ⟨.start init, .init files now referenced⟩

/-- The servers of the masters wake only the callers of their own commands. -/
def Own (s : System M σ) : SystemEvent M → Prop
  | .masters e => OwnEntry s.masters e
  | .servers _ => True

variable [Store σ Char FileInfo] [DecidableEq M]

def step (fl : Fleet) (clock : M → ℕ → Time) (s : System M σ) :
    SystemEvent M → Option (System M σ)
  | .masters e => (Cluster.step clock s.masters e).map fun w => { s with masters := w }
  | .servers e => (Chunk.Servers.step fl s.servers e).map fun w => { s with servers := w }

def Serves (fl : Fleet) (clock : M → ℕ → Time) (N : Network M σ)
    (good : String → Prop) (s : System M σ) : (op : Op M) → Res op → System M σ → Prop
  | .chunkClient addr, r, t => t = s ∧ (good addr → r = .ok ())
  | .writeChunk addr id data downstream, r, t => t.masters = s.masters ∧
      ((∃ call res, Reaches fl
          (s.servers.send { addr, chunkId := id.toList, data, downstream }) t.servers ∧
          t.servers.calls[s.servers.calls.length]? = some call ∧ call.stage = .returned res ∧
          r = writeAnswer res) ∨
        Reaches fl s.servers t.servers ∧ ∃ st, N.lost st ∧ r = .error st)
  | .readChunk addr id, r, t => t = s ∧
      (good addr → ∃ res, Reads fl s.servers addr id.toList res ∧ r = readAnswer res) ∧
      (¬ good addr → ∀ data, r = .ok data → N.replies data)
  | op, r, t => t.servers = s.servers ∧ N.Serves clock s.masters op r t.masters

variable {fl : Fleet} {clock : M → ℕ → Time} {N : Network M σ} {good : String → Prop}
  {s t : System M σ}

/-! ### Parts of a run -/

theorem masters_path (h : Path (step fl clock) Own s t) :
    Path (Cluster.step clock) OwnEntry s.masters t.masters := by
  refine (h.map masters (I := fun _ => True) trivial ?_).2
  intro s e t _ hok hstep
  refine ⟨trivial, ?_⟩
  cases e with
  | masters e =>
      obtain ⟨w, hw, rfl⟩ := Option.map_eq_some_iff.mp hstep
      exact .single hok hw
  | servers e =>
      obtain ⟨w, -, rfl⟩ := Option.map_eq_some_iff.mp hstep
      exact .refl

theorem servers_path (h : Path (step fl clock) Own s t) : Reaches fl s.servers t.servers := by
  refine (h.map servers (I := fun _ => True) trivial ?_).2
  intro s e t _ _ hstep
  refine ⟨trivial, ?_⟩
  cases e with
  | masters e =>
      obtain ⟨w, -, rfl⟩ := Option.map_eq_some_iff.mp hstep
      exact .refl
  | servers e =>
      obtain ⟨w, hw, rfl⟩ := Option.map_eq_some_iff.mp hstep
      exact .single trivial hw

/-- Masters and servers can go one after the other. -/
theorem path_of_parts (hm : Path (Cluster.step clock) OwnEntry s.masters t.masters)
    (hv : Reaches fl s.servers t.servers) : Path (step fl clock) Own s t := by
  obtain ⟨w, v⟩ := s
  obtain ⟨w', v'⟩ := t
  have hfirst : Path (step fl clock) Own (⟨w, v⟩ : System M σ) ⟨w', v⟩ := by
    refine (hm.map (fun w => System.mk w v) (I := fun _ => True) trivial ?_).2
    intro w e w' _ hok hstep
    exact ⟨trivial, .single (e := .masters e) hok (by rw [step, hstep, Option.map_some])⟩
  refine hfirst.trans (hv.map (fun v => System.mk w' v) (I := fun _ => True) trivial ?_).2
  intro v e v' _ _ hstep
  exact ⟨trivial, .single (e := .servers e) trivial (by rw [step, hstep, Option.map_some])⟩

theorem reaches_send (w : Chunk.Servers.World) (addr : String) (chunkId : Chunk.ChunkID)
    (data : List UInt8) (downstream : List String) :
    Reaches fl w (w.send { addr, chunkId, data, downstream }) :=
  .single (e := .request addr chunkId data downstream) trivial rfl

theorem serves_path (s : System M σ) (op : Op M) (r : Res op) (t : System M σ)
    (h : Serves fl clock N good s op r t) : Path (step fl clock) Own s t := by
  cases op with
  | chunkClient addr =>
      obtain ⟨rfl, -⟩ := h
      exact .refl
  | readChunk addr id =>
      obtain ⟨rfl, -⟩ := h
      exact .refl
  | writeChunk addr id data downstream =>
      obtain ⟨heq, hcall⟩ := h
      refine path_of_parts (heq ▸ .refl) ?_
      rcases hcall with ⟨call, res, hpath, -⟩ | ⟨hpath, -⟩
      · exact (reaches_send ..).trans hpath
      · exact hpath
  | ctxErr | wait | conn | stat | openForRead | openForWrite | request | response | create
  | write => exact path_of_parts (Network.serves_path _ _ _ _ h.2) (h.1 ▸ .refl)

theorem serves_writeChunk {w : World M σ} {v v' : Chunk.Servers.World} {addr id : String}
    {data : List UInt8} {downstream : List String}
    {call : Chunk.Servers.Call} {res : Except Chunk.Pipeline.Status Chunk.ChunkID}
    (hpath : Reaches fl (v.send { addr, chunkId := id.toList, data, downstream }) v')
    (hcall : v'.calls[v.calls.length]? = some call) (hstage : call.stage = .returned res) :
    Serves fl clock N good ⟨w, v⟩ (.writeChunk addr id data downstream) (writeAnswer res) ⟨w, v'⟩ :=
  ⟨rfl, Or.inl ⟨call, res, hpath, hcall, hstage, rfl⟩⟩

/-- A run of a client in the whole system. -/
abbrev Runs {α : Type} (fl : Fleet) (clock : M → ℕ → Time) (N : Network M σ)
    (good : String → Prop) : System M σ → Act M α → α → System M σ → Prop :=
  Run (step fl clock) Own (Serves fl clock N good)

/-- The same network, with nothing said about the bytes that are read. -/
def anyReplies (N : Network M σ) : Network M σ := { N with replies := fun _ => True }

/-- What a run in the whole system is for the masters. -/
theorem runs_masters {α : Type} {p : Act M α} {a : α} (h : Runs fl clock N good s p a t) :
    (anyReplies N).Runs clock s.masters p a t.masters := by
  refine h.map masters (I := fun _ => True) trivial ?_ ?_
  · intro s e t _ hok hstep
    exact ⟨trivial, masters_path (.single hok hstep)⟩
  · intro s op r t _ hserves
    refine ⟨trivial, ?_⟩
    cases op with
    | chunkClient addr => exact congrArg masters hserves.1
    | writeChunk addr id data downstream => exact hserves.1
    | readChunk addr id => exact ⟨congrArg masters hserves.1, fun _ _ => trivial⟩
    | ctxErr | wait | conn | stat | openForRead | openForWrite | request | response | create
    | write => exact hserves.2

end System

end VaultFS.Client
