import VaultFS.Client.System

/-!
# What Put stores, Get returns

A `Put` that returns without an error has stored every chunk on every server of the placement
(`put_on_placement`). A later `Get` of the path, answered by masters that have applied the write,
then returns the file if every chunk has one good replica, on a server with no excuse to be without
it, whatever the other replicas do and however often the processes have died (`get_after_put`).
-/

namespace VaultFS.Master

open KeyValue Metadata

theorem Server.openForWrite_eq_ok {σ : Type*} [Store σ Char FileInfo] {s : Server σ}
    {chunkIds : List String} {placements : List ChunkLocation}
    (h : s.openForWrite chunkIds = .ok placements) :
    placements = chunkIds.map fun id => ⟨id, s.placement⟩ := by
  unfold openForWrite at h
  split at h
  · cases h
  · cases h
    rfl

namespace Cluster

variable {M σ : Type*} [Store σ Char FileInfo] {init : M → Server σ} {clock : M → ℕ → Time}

theorem applyAll_placement (clock : ℕ → Time) (server : Server σ) (cmds : List Command)
    [LawfulStore σ] : (server.applyAll clock cmds).1.placement = server.placement := by
  induction cmds generalizing server with
  | nil => rfl
  | cons cmd cmds ih => exact (ih _).trans (Server.apply_placement clock server cmd)

/-- The masters keep the placement they were configured with. -/
theorem Sound.placement [LawfulStore σ] {w : World M σ} (hw : Sound init clock w) (m : M) :
    (w.hosts m).server.placement = (init m).placement := by
  rw [hw.server m]
  exact applyAll_placement _ _ _

end Cluster

end VaultFS.Master

namespace VaultFS.Client

open KeyValue Metadata Master Cluster Transition Interaction
open Chunk.Servers (Fleet Running Intact Reaches Distinct ExcusedSince two relayed relayedWorld)

namespace System

variable {M σ : Type*} [Store σ Char FileInfo] [DecidableEq M] {fl : Fleet}
  {clock : M → ℕ → Time} {N : Network M σ} {good : String → Prop} {s t : System M σ}
  {files : String → Chunk.FS} {rp : RetryPolicy} {addrs : List M} {path : List Char}
  {nodes : List NodeInfo}

/-! ### Put -/

/-- A call of `WriteChunk` for the chunk along these nodes, sent after the first `k` calls, has
returned an ID. -/
def Acked (w : Chunk.Servers.World) (k : ℕ) (nodes : List NodeInfo) (ch : Chunk) : Prop :=
  ∃ c call id, k ≤ c ∧ w.calls[c]? = some call ∧ call.stage = .returned (.ok id) ∧
    call.chunkId = ch.id.toList ∧ call.data = ch.data ∧
    call.addr :: call.downstream = nodes.map (·.address)

theorem Acked.mono {w w' : Chunk.Servers.World} {k k' : ℕ} {ch : Chunk}
    (h : Acked w k nodes ch) (hk : k' ≤ k) (hpath : Reaches fl w w') : Acked w' k' nodes ch := by
  obtain ⟨c, call, id, hc, hcall, hret, hid, hdata, hchain⟩ := h
  obtain ⟨call', hcall', hcont⟩ := hpath.continues hcall
  refine ⟨c, call', id, hk.trans hc, hcall', hcont.returned _ hret, hcont.chunkId.trans hid,
    hcont.data.trans hdata, ?_⟩
  rw [hcont.addr, hcont.downstream, hchain]

theorem writeAnswer_eq_ok {res : Except Chunk.Pipeline.Status Chunk.ChunkID}
    (h : .ok () = writeAnswer res) : ∃ id, res = .ok id := by
  cases res with
  | ok id => exact ⟨id, rfl⟩
  | error status =>
      obtain ⟨code, message⟩ := status
      cases code <;> cases h

/-- An answered `WriteChunk` is a call that has returned. -/
theorem acked_of_serves {addr : String} {ch : Chunk} {downstream : List String}
    (h : Serves fl clock N good s (.writeChunk addr ch.id ch.data downstream) (.ok ()) t)
    (hchain : addr :: downstream = nodes.map (·.address)) :
    Acked t.servers s.servers.calls.length nodes ch := by
  rcases h with ⟨-, ⟨call, res, hpath, hcall, hstage, hres⟩ | ⟨-, st, -, hres⟩⟩
  · obtain ⟨id, rfl⟩ := writeAnswer_eq_ok hres
    have hsent : (s.servers.send { addr, chunkId := ch.id.toList, data := ch.data, downstream
        }).calls[s.servers.calls.length]? =
          some { addr, chunkId := ch.id.toList, data := ch.data, downstream } := by
      simp [Chunk.Servers.World.send]
    obtain ⟨call', hcall', hcont⟩ := hpath.continues hsent
    obtain rfl : call = call' := Option.some.inj (hcall.symm.trans hcall')
    refine ⟨_, call, id, le_rfl, hcall, hstage, hcont.chunkId, hcont.data, ?_⟩
    rw [hcont.addr, hcont.downstream, hchain]
  · cases hres

theorem writeChunk_acked {placement : Server.ChunkLocation} (hnodes : placement.nodes = nodes)
    {ch : Chunk} (h : Runs fl clock N good s (writeChunk rp placement ch) (.ok ()) t) :
    Acked t.servers s.servers.calls.length nodes ch := by
  subst hnodes
  unfold writeChunk at h
  split at h
  · cases (run_ret h).1
  · rename_i primary rest hnodes
    obtain ⟨r, u, hclient, h⟩ := run_bind h
    cases r with
    | error err => cases (run_ret h).1
    | ok _ =>
        rcases doFrom_run serves_path h with ⟨x, y, hx, hrpc, hy⟩ | ⟨deadline, hctx⟩
        · obtain ⟨r, hr, x', y', hx', hask, hy'⟩ := run_rpc hrpc
          obtain ⟨x'', y'', hx'', hserved, hy''⟩ := run_op hask
          cases r with
          | error st => cases hr
          | ok _ =>
              have hsx := (((hclient.path serves_path).trans hx).trans hx').trans hx''
              have hyt := (hy''.trans hy').trans hy
              have hchain : primary.address :: rest.map (·.address) =
                  placement.nodes.map (·.address) := by rw [hnodes, List.map_cons]
              exact (acked_of_serves hserved hchain).mono (servers_path hsx).length_le
                (servers_path hyt)
        · cases hctx

theorem writeChunks_acked {chunks : List Chunk}
    (h : Runs fl clock N good s
      (writeChunks rp (chunks.map fun ch => ⟨ch.id, nodes⟩) chunks) (.ok ()) t) :
    ∀ ch ∈ chunks, Acked t.servers s.servers.calls.length nodes ch := by
  induction chunks generalizing s with
  | nil => nofun
  | cons ch chunks ih =>
      obtain ⟨r, u, hwrite, hrest⟩ := run_bind h
      have hsu := servers_path (hwrite.path serves_path)
      cases r with
      | error err => cases (run_ret hrest).1
      | ok _ =>
          have hut := servers_path (hrest.path serves_path)
          intro ch' hch'
          rcases List.mem_cons.mp hch' with rfl | hch'
          · exact (writeChunk_acked rfl hwrite).mono le_rfl hut
          · exact (ih hrest ch' hch').mono hsu.length_le (.refl : Reaches fl _ _)

/-- The program gets the master's answer to a request, or no answer. -/
def Asks {α : Type} (fl : Fleet) (clock : M → ℕ → Time) (N : Network M σ)
    (good : String → Prop) (answer : Server σ → Except Status α) (m : M)
    (p : Act M (Except Status α)) : Prop :=
  ∀ s r t, Runs fl clock N good s p r t → ∃ x, Path (step fl clock) Own s x ∧
    Path (step fl clock) Own x t ∧ N.Answered x.masters m answer r

theorem asks_openForWrite (m : M) (chunkIds : List String) :
    Asks fl clock N good (·.openForWrite chunkIds) m (ask (.openForWrite m path chunkIds)) := by
  intro s r t h
  obtain ⟨x, y, hx, hserved, hy⟩ := run_op h
  exact ⟨x, hx, (serves_path _ _ _ _ hserved).trans hy, hserved.2.2⟩

theorem asks_openForRead (m : M) :
    Asks fl clock N good (·.openForRead path) m (ask (.openForRead m path)) := by
  intro s r t h
  obtain ⟨x, y, hx, hserved, hy⟩ := run_op h
  exact ⟨x, hx, (serves_path _ _ _ _ hserved).trans hy, hserved.2.2⟩

/-- A request that succeeds has been answered by one of the masters. -/
theorem callMaster_ok {α : Type} {answer : Server σ → Except Status α}
    {p : M → Act M (Except Status α)} (hp : ∀ m, Asks fl clock N good answer m (p m)) {a : α}
    (h : Runs fl clock N good s (callMaster rp addrs fun m => rpc (p m)) (.ok a) t) :
    ∃ m x, Path (step fl clock) Own s x ∧ Path (step fl clock) Own x t ∧
      N.answers x.masters m ∧ answer (x.masters.hosts m).server = .ok a := by
  rcases callMaster_run serves_path h with hends | ⟨-, hres⟩
  · cases hends with
    | @attempt m _ hm hatt =>
        obtain ⟨x, y, hx, hrpc, hy⟩ := hatt
        obtain ⟨r, hr, x', y', hx', hrun, hy'⟩ := run_rpc hrpc
        cases r with
        | error st => cases hr
        | ok _ =>
            cases hr
            obtain ⟨z, hz, hzy, ⟨hm, hanswer⟩ | ⟨st, -, hlost⟩⟩ := hp m x' _ y' hrun
            · exact ⟨m, z, (hx.trans hx').trans hz, (hzy.trans hy').trans hy, hm, hanswer.symm⟩
            · cases hlost
  · cases hres

section Put

variable [LawfulStore σ] {init : M → Server σ} {now : Time} {referenced : Chunk.ChunkID → Bool}
  (hnodes : ∀ m, (init m).placement = nodes)
  (hs : Path (step fl clock) Own (start init files now referenced) s)
include hnodes hs

/-- What `OpenForWrite` answers is the configured placement for each chunk. -/
theorem openForWrite_ok {chunkIds : List String} {placements : List Server.ChunkLocation}
    (h : Runs fl clock N good s (openForWrite rp addrs path chunkIds) (.ok placements) t) :
    placements = chunkIds.map fun id => ⟨id, nodes⟩ := by
  obtain ⟨m, x, hx, -, -, hanswer⟩ :=
    callMaster_ok (fun m => asks_openForWrite m chunkIds) h
  have hsound := Sound.of_path (masters_path (hs.trans hx))
  rw [Server.openForWrite_eq_ok hanswer, hsound.placement m, hnodes m]

/-- A `Put` that succeeds has had every chunk acknowledged, and its `FinalizeWrite`. -/
theorem put_acked {chunkSize : ℤ} {localPath : String}
    {f : Reader}
    (h : Runs fl clock N good s (put (hashChunk fl) rp addrs chunkSize localPath (.ok f) path)
      (.ok ()) t) :
    ∃ chunks, splitChunks (hashChunk fl) f chunkSize = .ok chunks ∧
      (∀ ch ∈ chunks, Acked t.servers s.servers.calls.length nodes ch) ∧
      ∃ x y file, Path (step fl clock) Own s x ∧ Path (step fl clock) Own y t ∧
        Runs fl clock N good x
          (finalizeWrite rp addrs path (chunks.map (·.id)) (totalSize chunks)) (.ok file) y := by
  unfold put at h
  dsimp only at h
  cases hchunks : splitChunks (hashChunk fl) f chunkSize with
  | error err =>
      rw [hchunks] at h
      cases (run_ret h).1
  | ok chunks =>
      rw [hchunks] at h
      refine ⟨chunks, rfl, ?_⟩
      obtain ⟨r, u, hopen, h⟩ := run_bind h
      cases r with
      | error err => cases (run_ret h).1
      | ok placements =>
          obtain rfl := openForWrite_ok hnodes hs hopen
          rw [List.map_map] at h
          dsimp only at h
          split at h
          · cases (run_ret h).1
          · obtain ⟨r, v, hwrite, h⟩ := run_bind h
            have hsu := hopen.path serves_path
            cases r with
            | error err => cases (run_ret h).1
            | ok _ =>
                obtain ⟨r, y, hfinalize, h⟩ := run_bind h
                have hvt := (hfinalize.path serves_path).trans (h.path serves_path)
                refine ⟨fun ch hch => ?_, ?_⟩
                · exact (writeChunks_acked hwrite ch hch).mono (servers_path hsu).length_le
                    (servers_path hvt)
                · cases r with
                  | error err => cases (run_ret h).1
                  | ok file =>
                      exact ⟨v, y, file, hsu.trans (hwrite.path serves_path), h.path serves_path,
                        hfinalize⟩

end Put

/-- A chunk that was acknowledged along the nodes is on each of them that has no excuse. -/
theorem Acked.stored {w v : Chunk.Servers.World} {ch : Chunk} {node : NodeInfo}
    (hw : Running fl files w) (hv : Reaches fl w v) (h : Acked v w.calls.length nodes ch)
    (hdial : ∀ node ∈ nodes, fl.dialer node.address = true) (hnode : node ∈ nodes)
    (hkept : ¬ ExcusedSince fl w v node.address ch.data)
    (hdistinct : Distinct fl files v node.address ch.data) :
    KeyValue.get (v.processes node.address).shared.files
      (Chunk.path (fl.root node.address) ch.id.toList) = some ch.data := by
  obtain ⟨c, call, id, hc, hcall, hret, hchunkId, hdata, hchain⟩ := h
  have hdialer : ∀ addr ∈ call.addr :: call.downstream, fl.dialer addr = true := by
    rw [hchain]
    intro addr haddr
    obtain ⟨node, hnode, rfl⟩ := List.mem_map.mp haddr
    exact hdial node hnode
  have hreached : node.address ∈ fl.reached call.addr call.downstream := by
    rw [Chunk.Servers.Fleet.reached_eq _ _ hdialer, hchain]
    exact List.mem_map_of_mem hnode
  rw [← hdata] at hkept hdistinct
  obtain ⟨rfl, hstored⟩ := Running.stored hc hcall hret hreached hdistinct hw hv
  rw [← hchunkId, ← hdata]
  exact hstored.resolve_right hkept

/-! ### Get -/

/-- What a `ReadChunk` can return: what good servers know, and what comes from the others. -/
def Returnable (fl : Fleet) (files : String → Chunk.FS) (replies : List UInt8 → Prop)
    (good : String → Prop) (w : Chunk.Servers.World) : Set (List UInt8) :=
  {data | replies data ∨ ∃ addr, good addr ∧
    Chunk.Known (fl.server addr) (files addr) (w.processes addr).shared.log data}

theorem returnable_of_serves {addr id : String} {data : List UInt8}
    (hs : Running fl files s.servers)
    (h : Serves fl clock N good s (.readChunk addr id) (.ok data) t) :
    data ∈ Returnable fl files N.replies good s.servers := by
  obtain ⟨-, hgood, hbad⟩ := h
  by_cases haddr : good addr
  · obtain ⟨res, hreads, hres⟩ := hgood haddr
    cases res with
    | error status =>
        obtain ⟨code, message⟩ := status
        cases code <;> cases hres
    | ok content =>
        cases hres
        obtain ⟨hget, hhash⟩ := hreads.eq_ok_iff.mp rfl
        have hvalid : Chunk.Valid id.toList := hhash ▸ Chunk.valid_hash _ _
        exact Or.inr ⟨addr, haddr, ((hs addr).orderly.1.chunks _ _ hvalid hget).2.2.1⟩
  · exact Or.inl (hbad haddr data rfl)

theorem Returnable.mono {replies : List UInt8 → Prop} {w w' : Chunk.Servers.World}
    (h : Reaches fl w w') :
    Returnable fl files replies good w ⊆ Returnable fl files replies good w' := by
  rintro data (hreply | ⟨addr, haddr, hknown⟩)
  · exact Or.inl hreply
  · exact Or.inr ⟨addr, haddr, hknown.mono (h.log addr)⟩

/-- How a download ends for which the replicas are not to blame: before the local file was created,
with the whole content, or because the local file could not be written. -/
inductive Downloaded (localPath : String) (content : List UInt8) :
    Option (List UInt8) → Except Error Unit → Prop where
  | notStarted (err : Error) : Downloaded localPath content none (.error err)
  | complete : Downloaded localPath content (some content) (.ok ())
  | cut {written : List UInt8} (h : written <+: content) (err : Error) :
      Downloaded localPath content (some written) (.error (writeError localPath err))

/-- A download of chunks that stay on a good server each. -/
theorem download_downloaded {localPath : String} {chunks : List Chunk} {written : List UInt8}
    {res : Except Error Unit} (hs : Running fl files s.servers)
    (hnames : ∀ ch ∈ chunks, hashChunk fl ch.data = ch.id)
    (hdistinct : ∀ ch ∈ chunks, ∀ data ∈ Returnable fl files N.replies good t.servers,
      Chunk.hash fl.sum256 data = Chunk.hash fl.sum256 ch.data → data = ch.data)
    (hstored : ∀ ch ∈ chunks, ∃ node ∈ nodes, good node.address ∧
      ∀ w, Reaches fl s.servers w → Reaches fl w t.servers →
        KeyValue.get (w.processes node.address).shared.files
          (Chunk.path (fl.root node.address) ch.id.toList) = some ch.data)
    (h : Runs fl clock N good s (download (hashChunk fl) rp localPath 0 (chunks.map (·.id))
      (chunks.map fun ch => ⟨ch.id, nodes⟩) []) (written, res) t) :
    Downloaded localPath (chunks.map (·.data)).flatten (some written) res := by
  have hwithin := h.within serves_path .refl .refl
  have hid : ∀ ch ∈ chunks, Chunk.hash fl.sum256 ch.data = ch.id.toList := by
    intro ch hch
    rw [← hnames ch hch, hashChunk, String.toList_ofList]
  -- what is read is what was asked for
  have hchunks : ∀ ch ∈ chunks, ∀ data, data ∈ Returnable fl files N.replies good t.servers →
      hashChunk fl data = ch.id → data = ch.data := by
    intro ch hch data hdata hhash
    refine hdistinct ch hch data hdata ?_
    rw [hid ch hch, ← hhash, hashChunk, String.toList_ofList]
  have hpart := download_run (fun _ _ _ _ hserved => serves_path _ _ _ _ hserved.1) ?_ hchunks
    hwithin
  -- and every chunk can be read
  have hcompletes := download_completes (fun ch hch => ⟨hnames ch hch, ?_⟩) hwithin
  · obtain ⟨bytes, rfl, hpart, hall⟩ := hpart
    rcases hcompletes with rfl | ⟨err, rfl⟩
    · obtain rfl := hall rfl
      exact .complete
    · exact .cut hpart err
  · obtain ⟨node, hnode, hgood, hget⟩ := hstored ch hch
    refine ⟨node, hnode, fun x r y hserved => hserved.1.2 hgood, fun x r y hserved => ?_⟩
    obtain ⟨⟨rfl, hreads, -⟩, hx, hy⟩ := hserved
    obtain ⟨r', hread, rfl⟩ := hreads hgood
    have hok := hread.eq_ok_iff.mpr ⟨hget _ (servers_path hx) (servers_path hy), hid ch hch⟩
    rw [hok]
    rfl
  · rintro x addr id data y ⟨hserved, hx, hy⟩
    exact Returnable.mono (servers_path ((serves_path _ _ _ _ hserved).trans hy))
      (returnable_of_serves (hs.of_path (servers_path hx)) hserved)

section Results

variable [LawfulStore σ] {init : M → Server σ} {now : Time} {referenced : Chunk.ChunkID → Bool}
  {chunkSize : ℤ} {localPath : String} {f : Reader}

/-- What `OpenForRead` answers for a file that was written and not touched since, if the master has
applied the write. -/
theorem openForRead_ok {k : ℕ} {e : Cluster.Entry} {chunkIds : List String} {size : ℤ}
    {resp : Server.OpenForReadResponse} (hnodes : ∀ m, (init m).placement = nodes)
    (hs : Path (step fl clock) Own (start init files now referenced) s)
    (he : s.masters.committed[k]? = some e) (hwrites : e.cmd.Finalizes path chunkIds size)
    (hafter : Undisturbed t.masters k path chunkIds size)
    (h : Runs fl clock (N.caughtUp k) good s (openForRead rp addrs path) (.ok resp) t) :
    resp.file.chunkIds = chunkIds ∧ resp.locations = chunkIds.map fun id => ⟨id, nodes⟩ := by
  obtain ⟨m, x, hx, hxt, ⟨-, hk⟩, hanswer⟩ := callMaster_ok asks_openForRead h
  have hsound := Sound.of_path (masters_path (hs.trans hx))
  have hcommitted := Growth.getElem?_of_prefix (Later.of_path (masters_path hx)).committed he
  have hview := view_of_applied hsound hk hcommitted hwrites
    (hafter.of_later (Later.of_path (masters_path hxt)))
  obtain ⟨fi, hfi, hids, -⟩ := Server.lookup_of_view hview "open for read"
  rw [Server.openForRead, hfi, hsound.placement m, hnodes m] at hanswer
  cases hanswer
  exact ⟨hids, congrArg _ hids⟩

-- a `Put` that has returned without an error, in a system that started with intact files, with one
-- placement on all masters and a dialer on each of its servers; at every step so far a master has
-- woken only callers of its own commands (`Own`)
variable (hfiles : Intact fl files) (hnodes : ∀ m, (init m).placement = nodes)
  (hdial : ∀ node ∈ nodes, fl.dialer node.address = true)
  (hs : Path (step fl clock) Own (start init files now referenced) s)
  (hput : Runs fl clock N good s
    (put (hashChunk fl) rp addrs chunkSize localPath (.ok f) path) (.ok ()) t)

include hfiles hnodes hdial hs hput in
/-- When `Put` has returned without an error, every chunk of the file is on every server of the
placement, then and later as long as `Own` holds, except for a server with an excuse: the chunk was
deleted there, or a write of the same data has found the ID in flight. -/
theorem put_on_placement {u : System M σ} (hu : Path (step fl clock) Own t u) :
    ∃ chunks, splitChunks (hashChunk fl) f chunkSize = .ok chunks ∧
      ∀ ch ∈ chunks, ∀ node ∈ nodes,
        ¬ ExcusedSince fl s.servers u.servers node.address ch.data →
        Distinct fl files u.servers node.address ch.data →
        KeyValue.get (u.servers.processes node.address).shared.files
          (Chunk.path (fl.root node.address) ch.id.toList) = some ch.data := by
  obtain ⟨chunks, hsplit, hacked, -⟩ := put_acked hnodes hs hput
  have hsu := servers_path ((hput.path serves_path).trans hu)
  refine ⟨chunks, hsplit, fun ch hch node hnode => ?_⟩
  exact ((hacked ch hch).mono le_rfl (servers_path hu)).stored (.run hfiles (servers_path hs)) hsu
    hdial hnode

/-! ### A file of one byte on two servers -/

/-- A master that places chunks on the two servers. -/
def placing : Server (SortedList Char FileInfo) :=
  .new .empty (.new 0) [⟨"a", "a"⟩, ⟨"b", "b"⟩] 2 none

/-- Two masters, whose clocks stand still, and the two servers. -/
abbrev Pair := System Bool (SortedList Char FileInfo)

abbrev PairRuns {α : Type} (N : Network Bool (SortedList Char FileInfo)) (good : String → Prop) :
    Pair → Act Bool α → α → Pair → Prop :=
  Runs two (fun _ _ => 0) N good

def idle : Pair := start (fun _ => placing) (fun _ => Store.empty) 0 fun _ => false

def oneByte : Chunk := ⟨hashChunk two [1], [1]⟩

theorem oneByte_id : oneByte.id.toList = Chunk.hash Chunk.sample.sum256 [1] := by
  rw [oneByte, hashChunk, String.toList_ofList]
  rfl

def finalizing : Command :=
  { kind := .finalize, path := ['/', 'a'], chunkIDs := [oneByte.id], size := 1 }

/-- What the masters say of the file afterwards. -/
def listing : Server.FileInfoProto := ⟨['/', 'a'], false, 1, [oneByte.id], 0, 0, 0⟩

def finalized : World Bool (SortedList Char FileInfo) :=
  final (guarded (Cluster.step fun _ _ => 0) OwnEntry) idle.masters
    (.call true finalizing :: writeEvents)

def uploaded : Pair := ⟨finalized, relayedWorld⟩

theorem calm (N : Network Bool (SortedList Char FileInfo)) (good : String → Prop) (s : Pair) :
    Calm (Serves two (fun _ _ => 0) N good) s where
  ctxErr := ⟨rfl, rfl⟩
  wait _ := ⟨rfl, rfl⟩
  conn _ := ⟨rfl, rfl, nofun⟩

theorem run_writeChunk_uploaded (w : World Bool (SortedList Char FileInfo)) :
    PairRuns .plain (fun _ => True) ⟨w, idle.servers⟩
      (writeChunk .default ⟨oneByte.id, placing.placement⟩ oneByte) (.ok ())
      ⟨w, relayedWorld⟩ := by
  have hsent : final (guarded (Chunk.Servers.step two) fun _ _ => True) idle.servers
      (relayed.take 1) =
        idle.servers.send ⟨"a", Chunk.hash Chunk.sample.sum256 [1], [1], ["b"], .sent, none⟩ := rfl
  have hpath : Reaches two
      (final (guarded (Chunk.Servers.step two) fun _ _ => True) idle.servers
        (relayed.take 1)) relayedWorld :=
    Path.final_append (by decide +kernel)
  rw [hsent, ← oneByte_id] at hpath
  have hserved : Serves two (fun _ _ => 0) .plain (fun _ => True) ⟨w, idle.servers⟩
      (.writeChunk "a" oneByte.id [1] ["b"]) (.ok ()) ⟨w, relayedWorld⟩ :=
    serves_writeChunk hpath Chunk.Servers.relayedWorld_calls rfl
  refine Run.bind (a := .ok ()) (.op ⟨rfl, fun _ => rfl⟩) ?_
  exact run_doOp (Run.bind (.op hserved) (.ret _ _)) nofun

theorem run_finalizeWrite_uploaded (v : Chunk.Servers.World) :
    PairRuns .plain (fun _ => True) ⟨idle.masters, v⟩
      (finalizeWrite .default [true] ['/', 'a'] [oneByte.id] 1) (.ok listing) ⟨finalized, v⟩ := by
  have hpath : Path (Cluster.step fun _ _ => 0) OwnEntry
      (final (guarded (Cluster.step fun _ _ => 0) OwnEntry) idle.masters [.call true finalizing])
      finalized := Path.final_append (by decide +kernel)
  have hcall : finalized.calls[0]? =
      some ⟨true, { finalizing with opID := 1 }, .returned (.ok ()), true, none⟩ := by
    decide +kernel
  have hfile : .ok listing =
      (finalized.hosts true).server.finalizeWrite ['/', 'a'] (.ok ()) := by decide +kernel
  refine run_callMaster (calm _ _ _) ?_ nofun
  refine Run.bind (a := .ok 0) (t := ⟨final (guarded (Cluster.step fun _ _ => 0) OwnEntry)
    idle.masters [.call true finalizing], v⟩) (.op ⟨rfl, Or.inl ⟨rfl, rfl⟩⟩) ?_
  refine Run.bind (a := .ok listing) ?_ (.ret _ _)
  refine Run.of_path (t := ⟨finalized, v⟩) (path_of_parts hpath .refl) (.op ⟨rfl, rfl, Or.inl ?_⟩)
  exact ⟨_, .ok (), hcall, rfl, hfile⟩

theorem splitChunks_oneByte :
    splitChunks (hashChunk two) ⟨[1], none⟩ 1 = .ok [oneByte] := by
  decide +kernel

theorem run_put_uploaded :
    PairRuns .plain (fun _ => True) idle
      (put (hashChunk two) .default [true] 1 "in" (.ok ⟨[1], none⟩) ['/', 'a'])
      (.ok ()) uploaded := by
  let placements : List Server.ChunkLocation := [⟨oneByte.id, placing.placement⟩]
  have hopen : PairRuns .plain (fun _ => True) idle
      (openForWrite .default [true] ['/', 'a'] [oneByte.id]) (.ok placements) idle := by
    refine run_callMaster (calm _ _ idle) (Run.bind (a := .ok placements) (.op ?_) (.ret idle _))
      nofun
    exact ⟨rfl, rfl, Or.inl ⟨trivial, by decide +kernel⟩⟩
  unfold put
  simp only [splitChunks_oneByte]
  refine hopen.bind ?_
  refine Run.bind (a := .ok ()) ((run_writeChunk_uploaded idle.masters).bind (.ret _ _)) ?_
  exact (run_finalizeWrite_uploaded _).bind (.ret uploaded _)

theorem uploaded_servers : uploaded.servers = relayedWorld := by
  rw [uploaded]

theorem put_on_placement_uploaded : placing.placement.length = 2 ∧
    ∀ node ∈ placing.placement,
      KeyValue.get (uploaded.servers.processes node.address).shared.files
        (Chunk.path (two.root node.address) oneByte.id.toList) = some [1] := by
  have haddr : ∀ node ∈ placing.placement, node.address ∈ ["a", "b"] := by decide
  obtain ⟨chunks, hchunks, hstored⟩ := put_on_placement Chunk.Servers.intact_empty (fun _ => rfl)
    (fun _ _ => rfl) .refl run_put_uploaded .refl
  obtain rfl := Except.ok.inj (splitChunks_oneByte.symm.trans hchunks)
  rw [uploaded_servers] at hstored ⊢
  refine ⟨rfl, fun node hnode => ?_⟩
  exact hstored oneByte List.mem_cons_self node hnode
    (Chunk.Servers.relayedWorld_unexcused (haddr node hnode) _)
    fun data hdata _ => Chunk.Servers.relayedWorld_known (haddr node hnode) hdata

include hfiles hnodes hdial hs hput in
/-- When `Put` has returned without an error, its write is committed. A `Get` that is answered by
masters that have applied it, while nothing else is written to the path, returns the content of the
file if every chunk has a replica on a server that is good for the reader and has no excuse to be
without it. -/
theorem get_after_put :
    ∃ chunks k e, splitChunks (hashChunk fl) f chunkSize = .ok chunks ∧
      t.masters.committed[k]? = some e ∧
      e.cmd.Finalizes path (chunks.map (·.id)) (totalSize chunks) ∧
      ∀ (N' : Network M σ) (good' : String → Prop) (rp' : RetryPolicy) (addrs' : List M)
        (localPath' : String) (u v : System M σ) (out : Option (List UInt8))
        (res : Except Error Unit), Path (step fl clock) Own t u →
        Runs fl clock (N'.caughtUp k) good' u (get (hashChunk fl) rp' addrs' path localPath')
          (out, res) v →
        Undisturbed v.masters k path (chunks.map (·.id)) (totalSize chunks) →
        (∀ ch ∈ chunks, ∃ node ∈ nodes, good' node.address ∧
          ¬ ExcusedSince fl s.servers v.servers node.address ch.data) →
        (∀ ch ∈ chunks, ∀ data ∈ Returnable fl files N'.replies good' v.servers,
          Chunk.hash fl.sum256 data = Chunk.hash fl.sum256 ch.data → data = ch.data) →
        Downloaded localPath' f.data out res := by
  obtain ⟨chunks, hsplit, hacked, x, y, file, hx, hy, hfinalize⟩ := put_acked hnodes hs hput
  obtain ⟨hcontent, hnames⟩ := splitChunks_holds hsplit
  obtain ⟨k, e, he, hwrites, -⟩ := finalizeWrite_ok (masters_path (hs.trans hx))
    (runs_masters hfinalize)
  have he := Growth.getElem?_of_prefix (Later.of_path (masters_path hy)).committed he
  refine ⟨chunks, k, e, hsplit, he, hwrites, ?_⟩
  intro N' good' rp' addrs' localPath' u v out res hu hget hafter hgood hdistinct
  rcases get_cases serves_path hget with ⟨rfl, hres⟩ | ⟨resp, a, written, rfl, hopen, hdownload⟩
  · cases res with
    | ok _ => exact absurd rfl hres
    | error err => exact .notStarted err
  obtain ⟨b, c, hab, hrun, hcv⟩ := hdownload
  have hput := hput.path serves_path
  have hbc := hrun.path serves_path
  have hav := (hab.trans hbc).trans hcv
  obtain ⟨hids, hlocations⟩ := openForRead_ok hnodes ((hs.trans hput).trans hu)
    (Growth.getElem?_of_prefix (Later.of_path (masters_path hu)).committed he) hwrites
    (hafter.of_later (Later.of_path (masters_path hav))) hopen
  rw [hids, hlocations, List.map_map] at hrun
  have hrunning := Running.run hfiles (servers_path hs)
  have htb := (hu.trans (hopen.path serves_path)).trans hab
  rw [← hcontent]
  refine download_downloaded (hrunning.of_path (servers_path (hput.trans htb))) hnames
    (fun ch hch data hdata => ?_) (fun ch hch => ?_) hrun
  · exact hdistinct ch hch data (Returnable.mono (servers_path hcv) hdata)
  · obtain ⟨node, hnode, haddr, hkept⟩ := hgood ch hch
    refine ⟨node, hnode, haddr, fun w hbw hwc => ?_⟩
    have hwv : Reaches fl w v.servers := hwc.trans (servers_path hcv)
    have htw := (servers_path htb).trans hbw
    refine ((hacked ch hch).mono le_rfl htw).stored hrunning ((servers_path hput).trans htw) hdial
      hnode (fun hexcused => hkept (hexcused.mono hwv)) ?_
    intro data hdata
    exact hdistinct ch hch data (Or.inr ⟨_, haddr, hdata.mono (hwv.log _)⟩)

/-- The first server, which cannot be trusted, returns other bytes. -/
def corrupting : Network Bool (SortedList Char FileInfo) :=
  { Network.plain with replies := (· = [2]) }

theorem run_readChunk_second {N : Network Bool (SortedList Char FileInfo)}
    {s : Pair} (hreply : N.replies [2])
    (hread : Reads two s.servers "b" oneByte.id.toList (.ok [1])) :
    PairRuns N (· = "b") s
      (readChunk (hashChunk two) .default oneByte.id ⟨oneByte.id, placing.placement⟩)
      (.ok [1]) s := by
  have hother : ¬ "a" = "b" := by decide
  have hcorrupt : hashChunk two [2] ≠ oneByte.id := by decide +kernel
  refine Run.bind (a := .ok ()) (.op ⟨rfl, fun _ => rfl⟩) ?_
  refine Run.bind (a := .ok [2]) (run_doOp (Run.bind (a := .ok [2])
    (.op ⟨rfl, fun h => absurd h hother, ?_⟩) (.ret s _)) nofun) ?_
  · rintro - data ⟨⟩
    exact hreply
  dsimp only
  rw [verifyChunk, if_pos hcorrupt]
  exact run_readChunkFrom ⟨rfl, fun _ => rfl⟩ ⟨rfl, fun _ => ⟨_, hread, rfl⟩, absurd rfl⟩ rfl

theorem run_get_corrupting {k : ℕ} (hk : k < 1) :
    PairRuns (corrupting.caughtUp k) (· = "b") uploaded
      (get (hashChunk two) .default [true] ['/', 'a'] "out") (some [1], .ok ())
      uploaded := by
  let resp : Server.OpenForReadResponse := ⟨listing, [⟨oneByte.id, placing.placement⟩]⟩
  have happlied : (finalized.hosts true).applied = 1 := by decide +kernel
  have hopened : .ok resp = (finalized.hosts true).server.openForRead ['/', 'a'] := by
    decide +kernel
  have hopen : PairRuns (corrupting.caughtUp k) (· = "b") uploaded
      (openForRead .default [true] ['/', 'a']) (.ok resp) uploaded := by
    refine run_callMaster (calm _ _ uploaded) (Run.bind (a := .ok resp) (.op ?_) (.ret uploaded _))
      nofun
    exact ⟨rfl, rfl, Or.inl ⟨⟨trivial, happlied ▸ hk⟩, hopened⟩⟩
  refine hopen.bind ?_
  refine Run.bind (a := .ok ()) (.op ⟨rfl, rfl⟩) ?_
  refine Run.bind (a := ([1], .ok ())) ?_ (.ret uploaded _)
  have hget : KeyValue.get (relayedWorld.processes "b").shared.files
      (Chunk.path (two.root "b") (Chunk.hash Chunk.sample.sum256 [1])) = some [1] := by
    decide +kernel
  have hread : Reads two uploaded.servers "b" oneByte.id.toList (.ok [1]) := by
    rw [uploaded_servers, oneByte_id]
    exact reads_of_get hget
  refine Run.bind (run_readChunk_second rfl hread) ?_
  exact Run.bind (a := .ok ()) (.op ⟨rfl, rfl⟩) (.ret _ _)

theorem get_after_put_uploaded : ∃ k,
    PairRuns (corrupting.caughtUp k) (· = "b") uploaded
        (get (hashChunk two) .default [true] ['/', 'a'] "out") (some [1], .ok ())
        uploaded ∧
      Downloaded "out" [1] (some [1]) (.ok ()) := by
  obtain ⟨chunks, k, e, hchunks, he, -, hget⟩ := get_after_put Chunk.Servers.intact_empty
    (fun _ => rfl) (fun _ _ => rfl) .refl run_put_uploaded
  obtain rfl := Except.ok.inj (splitChunks_oneByte.symm.trans hchunks)
  have hlength : finalized.committed.length = 1 := by decide +kernel
  have hk : k < 1 := hlength ▸ (List.getElem?_eq_some_iff.mp he).1
  have hrun := run_get_corrupting hk
  refine ⟨k, hrun, hget _ _ _ _ _ _ _ _ _ .refl hrun ?_ ?_ ?_⟩
  · intro j e hj he
    have hlt := hlength ▸ (List.getElem?_eq_some_iff.mp he).1
    omega
  · intro ch hch
    obtain rfl := List.mem_singleton.mp hch
    refine ⟨⟨"b", "b"⟩, by decide, rfl, ?_⟩
    rw [uploaded_servers]
    exact Chunk.Servers.relayedWorld_unexcused (by decide) _
  · intro ch hch data hdata hhash
    obtain rfl := List.mem_singleton.mp hch
    rw [uploaded_servers] at hdata
    rcases hdata with rfl | ⟨addr, rfl, hknown⟩
    · exact absurd hhash (by decide)
    · exact Chunk.Servers.relayedWorld_known (by decide) hknown

end Results

end System

end VaultFS.Client
