import VaultFS.Client.Network
import VaultFS.Client.Transfer

/-!
# End-to-end integrity

Any number of `Put`s to one remote path run beside a `Get` of it, over a cluster of masters and
chunk servers that may return any bytes. If no two of the chunks involved have the same hash, the
local file holds the content of one of the `Put`s, or a part of it from its beginning when `Get`
fails (`get_holds_put`).

The `Put`s are programs that go on one operation at a time, with any answers, and what they ask the
masters to finalize are calls of the cluster. Seen from the cluster, the calls for the path finalize
a file that was uploaded, which is all that is used of the `Put`s.
-/

namespace VaultFS.Master

open KeyValue SlashPath Metadata

/-- The command leaves what is stored at the path, or that nothing is. -/
def Command.Spares (cmd : Command) (path : List Char) : Prop :=
  path ≠ cmd.path ∧ path ∉ parents '/' cmd.path

instance (cmd : Command) (path : List Char) : Decidable (cmd.Spares path) :=
  inferInstanceAs (Decidable (_ ∧ _))

namespace Tree

theorem apply_of_spares {t : Tree} {cmd : Command} {path : List Char} (h : cmd.Spares path) :
    t.apply cmd path = t path := by
  rw [apply_of_ne h.1]
  split
  · exact if_neg fun hmem => h.2 hmem.1
  · rfl

/-- What is stored at a path that is only written by finalizing it. -/
theorem applyAll_of_finalized {t : Tree} {path : List Char} {cmds : List Command}
    (h : ∀ cmd ∈ cmds, cmd.path = path ∧ cmd.kind = .finalize ∨ cmd.Spares path) :
    t.applyAll cmds path = t path ∨ ∃ cmd ∈ cmds, cmd.path = path ∧
      t.applyAll cmds path = some (.file cmd.size cmd.chunkIDs) := by
  induction cmds generalizing t with
  | nil => exact Or.inl rfl
  | cons cmd cmds ih =>
      rw [applyAll_cons]
      rcases ih fun c hc => h c (List.mem_cons_of_mem _ hc) with hsame | ⟨c, hc, hpath, hlast⟩
      · rw [hsame]
        rcases h cmd List.mem_cons_self with ⟨rfl, hkind⟩ | hspares
        · exact Or.inr ⟨cmd, List.mem_cons_self, rfl, t.apply_finalize hkind⟩
        · exact Or.inl (apply_of_spares hspares)
      · exact Or.inr ⟨c, List.mem_cons_of_mem _ hc, hpath, hlast⟩

end Tree

theorem Server.openForRead_ok {σ : Type*} [Store σ Char FileInfo] {s : Server σ} {path : List Char}
    {resp : Server.OpenForReadResponse} (h : s.openForRead path = .ok resp) :
    ∃ fi, s.ns.find path = some fi ∧ resp.file.chunkIds = fi.chunkIDs := by
  unfold Server.openForRead Server.lookup at h
  cases hstat : s.ns.stat path with
  | ok fi =>
      rw [hstat] at h
      cases h
      exact ⟨fi, Namespace.stat_eq_ok.mp hstat, rfl⟩
  | error err =>
      rw [hstat] at h
      dsimp only at h
      split at h <;> cases h

namespace Cluster

open Transition

variable {M σ : Type*} [Store σ Char FileInfo] {init : M → Server σ} {clock : M → ℕ → Time}
  {w : World M σ} {path : List Char}

/-- All calls that are started are for commands that satisfy the predicate. -/
def CallsOnly (Q : Command → Prop) (_ : World M σ) : Event M → Prop
  | .call _ cmd => Q cmd
  | _ => True

theorem World.received_of_callsOnly [DecidableEq M] {Q : Command → Prop}
    (hQ : ∀ cmd opID, Q cmd → Q { cmd with opID })
    (h : Path (step clock) (CallsOnly Q) (World.start init) w) {m : M} :
    ∀ cmd ∈ w.received m, Q cmd := by
  have hheads : ∀ x ∈ w.heads, Q x.2 := by
    refine h.invariant (I := fun u => ∀ x ∈ u.heads, Q x.2) (by simp [World.heads, World.start]) ?_
    intro u e u' hu hok hs x hx
    rcases World.heads_step hs with heq | ⟨m, cmd, rfl, heq⟩
    · exact hu x (heq ▸ hx)
    · rw [heq] at hx
      rcases List.mem_append.mp hx with hold | hnew
      · exact hu x hold
      · obtain rfl := List.mem_singleton.mp hnew
        exact hQ cmd _ hok
  intro cmd hcmd
  obtain ⟨e, he, rfl⟩ := List.mem_map.mp hcmd
  obtain ⟨m', hm'⟩ := (Sound.of_path h).entry e (List.mem_of_mem_take he)
  exact hheads _ (List.mem_of_getElem? hm')

/-- What a master answers about a path that is only written by finalizing it. -/
theorem openForRead_received [LawfulStore σ] (hw : Sound init clock w) {m : M}
    (hinit : (init m).ns.find path = none)
    (hreceived : ∀ cmd ∈ w.received m, cmd.path = path ∧ cmd.kind = .finalize ∨ cmd.Spares path)
    {resp : Server.OpenForReadResponse} (h : (w.hosts m).server.openForRead path = .ok resp) :
    ∃ cmd ∈ w.received m, cmd.path = path ∧ resp.file.chunkIds = cmd.chunkIDs := by
  obtain ⟨fi, hfind, hfile⟩ := Server.openForRead_ok h
  have hview : Server.view (w.hosts m).server.ns path = some (.ofInfo fi) := by
    rw [Server.view, hfind]
    rfl
  rw [hw.server m, World.replay, Server.view_applyAll] at hview
  rcases Tree.applyAll_of_finalized hreceived with hsame | ⟨cmd, hcmd, hpath, hlast⟩
  · rw [hsame, Server.view, hinit] at hview
    cases hview
  · rw [hlast] at hview
    obtain ⟨-, -, hids⟩ := Master.Entry.mk.inj (Option.some.inj hview)
    exact ⟨cmd, hcmd, hpath, hfile.trans hids.symm⟩

end Cluster

end VaultFS.Master

namespace VaultFS.Client

open KeyValue SlashPath Metadata Master Cluster Transition Interaction

section Download

variable {M σ ε : Type*} {step : σ → ε → Option σ} {ok : σ → ε → Prop}
  {serves : σ → (op : Op M) → Res op → σ → Prop} {s t : σ} {hashChunk : List UInt8 → String}
  {rp : RetryPolicy} {R : List UInt8 → Prop}
  (hserves : ∀ s op r t, serves s op r t → Path step ok s t)
  (hreplies : ∀ s addr chunkId data t, serves s (.readChunk addr chunkId) (.ok data) t → R data)
include hserves hreplies

/-- What is read is what a chunk server has returned, and has the hash it was asked by. -/
theorem readChunkFrom_run {chunkID : String} {nodes : List NodeInfo} {lastErr : Option Error}
    {data : List UInt8}
    (h : Run step ok serves s (readChunkFrom hashChunk rp chunkID nodes lastErr) (.ok data) t) :
    R data ∧ hashChunk data = chunkID := by
  induction nodes generalizing s lastErr with
  | nil => cases (run_ret h).1
  | cons node nodes ih =>
      obtain ⟨r, u, -, h⟩ := run_bind h
      cases r with
      | error err => exact ih h
      | ok _ =>
          obtain ⟨r, v, hread, h⟩ := run_bind h
          cases r with
          | error err => exact ih h
          | ok bytes =>
              dsimp only at h
              by_cases hid : hashChunk bytes = chunkID
              · rw [verifyChunk, if_neg (not_not.mpr hid)] at h
                obtain ⟨hdata, -⟩ := run_ret h
                cases hdata
                rcases doFrom_run hserves hread with ⟨x, y, -, hrpc, -⟩ | ⟨deadline, hres⟩
                · obtain ⟨r, hr, x', y', -, hask, -⟩ := run_rpc hrpc
                  obtain ⟨x'', y'', -, hreply, -⟩ := run_op hask
                  cases r with
                  | error st => cases hr
                  | ok _ =>
                      cases hr
                      exact ⟨hreplies _ _ _ _ _ hreply, hid⟩
                · cases hres
              · rw [verifyChunk, if_pos hid] at h
                exact ih h

/-- What is written after the first chunks is a part of the rest, from its beginning. -/
theorem download_run {localPath : String} {chunks : List Chunk}
    (hchunks : ∀ ch ∈ chunks, ∀ data, R data → hashChunk data = ch.id → data = ch.data) {i : ℕ}
    {locations : List Server.ChunkLocation} {written out : List UInt8} {res : Except Error Unit}
    (h : Run step ok serves s
      (download hashChunk rp localPath i (chunks.map (·.id)) locations written) (out, res) t) :
    ∃ bytes, out = written ++ bytes ∧ bytes <+: (chunks.map (·.data)).flatten ∧
      (res = .ok () → bytes = (chunks.map (·.data)).flatten) := by
  induction chunks generalizing s i locations written with
  | nil =>
      obtain ⟨hres, -⟩ := run_ret h
      cases hres
      exact ⟨[], (List.append_nil _).symm, List.nil_prefix, fun _ => rfl⟩
  | cons ch chunks ih =>
      -- nothing is written when the loop stops before the chunk
      have hstop : ∀ {u : σ} {err : Error},
          Run step ok serves u (.ret (written, .error err)) (out, res) t →
          ∃ bytes, out = written ++ bytes ∧ bytes <+: ((ch :: chunks).map (·.data)).flatten ∧
            (res = .ok () → bytes = ((ch :: chunks).map (·.data)).flatten) := by
        intro u err hret
        obtain ⟨hres, -⟩ := run_ret hret
        cases hres
        exact ⟨[], (List.append_nil _).symm, List.nil_prefix, nofun⟩
      cases locations with
      | nil => exact hstop h
      | cons loc locations =>
          obtain ⟨r, u, hread, h⟩ := run_bind h
          cases r with
          | error err => exact hstop h
          | ok data =>
              obtain ⟨hR, hid⟩ := readChunkFrom_run hserves hreplies hread
              obtain rfl := hchunks ch List.mem_cons_self data hR hid
              obtain ⟨r, v, -, h⟩ := run_bind h
              rw [List.map_cons, List.flatten_cons]
              cases r with
              | error err =>
                  obtain ⟨hres, -⟩ := run_ret h
                  cases hres
                  exact ⟨_, rfl, (List.take_prefix _ _).trans (List.prefix_append _ _), nofun⟩
              | ok _ =>
                  obtain ⟨bytes, rfl, hbytes, hall⟩ :=
                    ih (fun c hc => hchunks c (List.mem_cons_of_mem _ hc)) h
                  refine ⟨ch.data ++ bytes, List.append_assoc .., ?_, fun hres => ?_⟩
                  · exact (List.prefix_append_right_inj _).mpr hbytes
                  · rw [hall hres]

omit hserves hreplies in
theorem run_readChunkFrom {chunkID : String} {node : NodeInfo} {nodes : List NodeInfo}
    {lastErr : Option Error} {data : List UInt8}
    (hclient : serves s (.chunkClient node.address) (.ok ()) s)
    (hread : serves s (.readChunk node.address chunkID) (.ok data) s)
    (hid : hashChunk data = chunkID) :
    Run step ok serves s (readChunkFrom hashChunk rp chunkID (node :: nodes) lastErr) (.ok data)
      s := by
  refine Run.bind (a := .ok ()) (.op hclient) ?_
  refine Run.bind (a := .ok data) (run_doOp (Run.bind (.op hread) (.ret s _)) nofun) ?_
  dsimp only
  rw [verifyChunk, if_neg (not_not.mpr hid)]
  exact .ret s _

omit hreplies in
/-- A download has failed before it created the file, or the file has been opened for reading. -/
theorem get_cases {addrs : List M} {path : List Char} {localPath : String}
    {out : Option (List UInt8)} {res : Except Error Unit}
    (h : Run step ok serves s (get hashChunk rp addrs path localPath) (out, res) t) :
    (out = none ∧ res ≠ .ok ()) ∨ ∃ resp u written, out = some written ∧
      Run step ok serves s (openForRead rp addrs path) (.ok resp) u ∧
      Attempted step ok serves u
        (download hashChunk rp localPath 0 resp.file.chunkIds resp.locations [])
        (written, res) t := by
  obtain ⟨r, u, hopen, h⟩ := run_bind h
  cases r with
  | error err =>
      obtain ⟨hres, -⟩ := run_ret h
      cases hres
      exact Or.inl ⟨rfl, nofun⟩
  | ok resp =>
      obtain ⟨r, v, hcreate, h⟩ := run_bind h
      cases r with
      | error err =>
          obtain ⟨hres, -⟩ := run_ret h
          cases hres
          exact Or.inl ⟨rfl, nofun⟩
      | ok _ =>
          obtain ⟨⟨written, r⟩, x, hdownload, h⟩ := run_bind h
          obtain ⟨hres, hpath⟩ := run_ret h
          cases hres
          exact Or.inr ⟨resp, u, written, rfl, hopen, v, x, hcreate.path hserves, hdownload, hpath⟩

end Download

/-- A call of `Put`: the client, and what opening the local file gives. -/
structure Upload (M : Type*) where
  masterAddrs : List M
  retry : RetryPolicy
  chunkSize : ℤ
  localPath : String
  file : Except Error Reader

variable {M σ ι : Type*} (hashChunk : List UInt8 → String) (path : List Char)

namespace Upload

def put (u : Upload M) : Act M (Except Error Unit) :=
  Client.put hashChunk u.retry u.masterAddrs u.chunkSize u.localPath u.file path

/-- The upload has read the file and split it into the chunks. -/
def Splits (u : Upload M) (f : Reader) (chunks : List Chunk) : Prop :=
  u.file = .ok f ∧ splitChunks hashChunk f u.chunkSize = .ok chunks

/-- The command is the one of the upload's `FinalizeWrite`. -/
def Finalizes (u : Upload M) (f : Reader) (cmd : Command) : Prop :=
  ∃ chunks, u.Splits hashChunk f chunks ∧
    cmd.Finalizes path (chunks.map (·.id)) (totalSize chunks)

end Upload

/-- The bytes that are uploaded as chunks or returned as chunks. -/
def Involved (N : Network M σ) (uploads : ι → Upload M) : Set (List UInt8) :=
  {data | N.replies data ∨
    ∃ i f chunks, (uploads i).Splits hashChunk f chunks ∧ ∃ ch ∈ chunks, ch.data = data}

/-- The commands that are requested: those of the uploads, and others that leave the path alone. -/
def Requested (uploads : ι → Upload M) (cmd : Command) : Prop :=
  (∃ i f, (uploads i).Finalizes hashChunk path f cmd) ∨ cmd.Spares path

variable [Store σ Char FileInfo]

/-- The master answers about the path with the chunks of an upload whose `FinalizeWrite` it has
applied. -/
def AnswersWith (N : Network M σ) (uploads : ι → Upload M) (w : World M σ) (m : M) (i : ι)
    (f : Reader) : Prop :=
  N.answers w m ∧ ∃ cmd ∈ w.received m, (uploads i).Finalizes hashChunk path f cmd ∧
    ∃ resp, (w.hosts m).server.openForRead path = .ok resp ∧ resp.file.chunkIds = cmd.chunkIDs

variable [DecidableEq M] {N : Network M σ} {uploads : ι → Upload M} {clock : M → ℕ → Time}
  {init : M → Server σ} {hashChunk path}

/-- What is answered when the calls for the path are those of uploads. -/
theorem answersWith_of_answer [LawfulStore σ] {w : World M σ} {m : M}
    (hinit : ∀ m, (init m).ns.find path = none)
    (hw : Path (step clock) (CallsOnly (Requested hashChunk path uploads)) (World.start init) w)
    (hm : N.answers w m) {resp : Server.OpenForReadResponse}
    (h : (w.hosts m).server.openForRead path = .ok resp) :
    ∃ i f chunks, AnswersWith hashChunk path N uploads w m i f ∧
      (uploads i).Splits hashChunk f chunks ∧ resp.file.chunkIds = chunks.map (·.id) := by
  have hreceived := World.received_of_callsOnly (m := m) (fun _ _ => id) hw
  have hfinalized : ∀ cmd ∈ w.received m,
      cmd.path = path ∧ cmd.kind = .finalize ∨ cmd.Spares path := by
    intro cmd hcmd
    rcases hreceived cmd hcmd with ⟨_, _, _, _, hfinal⟩ | hspares
    · exact Or.inl ⟨hfinal.2.1, hfinal.1⟩
    · exact Or.inr hspares
  obtain ⟨cmd, hcmd, hpath, hids⟩ :=
    openForRead_received (Sound.of_path hw) (hinit m) hfinalized h
  rcases hreceived cmd hcmd with ⟨i, f, chunks, hsplits, hfinal⟩ | hspares
  · exact ⟨i, f, chunks, ⟨hm, cmd, hcmd, ⟨chunks, hsplits, hfinal⟩, resp, h, hids⟩, hsplits,
      hids.trans hfinal.2.2.1⟩
  · exact absurd hpath.symm hspares.1

/-- What is known of a download when the calls for the path are those of uploads. -/
theorem get_run [LawfulStore σ] {w w' : World M σ} (hinit : ∀ m, (init m).ns.find path = none)
    (hhash : (Involved hashChunk N uploads).InjOn hashChunk)
    (hw : Path (step clock) (CallsOnly (Requested hashChunk path uploads)) (World.start init) w)
    {rp : RetryPolicy} {addrs : List M} {localPath : String} {out : Option (List UInt8)}
    {res : Except Error Unit}
    (h : Run (step clock) (CallsOnly (Requested hashChunk path uploads)) (N.Serves clock) w
      (get hashChunk rp addrs path localPath) (out, res) w') :
    (res = .ok () → out.isSome) ∧ ∀ bytes, out = some bytes → ∃ u, ∃ m ∈ addrs, ∃ i f,
      Path (step clock) (CallsOnly (Requested hashChunk path uploads)) w u ∧
      Path (step clock) (CallsOnly (Requested hashChunk path uploads)) u w' ∧
      AnswersWith hashChunk path N uploads u m i f ∧
      bytes <+: f.data ∧ (res = .ok () → bytes = f.data) := by
  -- a download asks for no command, so that answering it leaves the cluster as it is
  have hpath : ∀ (s : World M σ) (op : Op M) (r : Res op) (t : World M σ),
      op.Requests (fun _ => False) ∧ N.Serves clock s op r t →
        Path (step clock) (CallsOnly (Requested hashChunk path uploads)) s t := by
    rintro s op r t ⟨hop, hserves⟩
    refine hserves.path ?_
    rintro m cmd rfl
    exact hop.elim
  have hreplies : ∀ (s : World M σ) (addr chunkId : String) (data : List UInt8) (t : World M σ),
      (Op.readChunk addr chunkId : Op M).Requests (fun _ => False) ∧
        N.Serves clock s (.readChunk addr chunkId) (.ok data) t → N.replies data :=
    fun _ _ _ data _ hserved => hserved.2.2 data rfl
  rcases get_cases hpath (h.only get_only) with
    ⟨rfl, hres⟩ | ⟨resp, u, written, rfl, hopen, x, y, hux, hdownload, hyw'⟩
  · exact ⟨fun heq => absurd heq hres, nofun⟩
  refine ⟨fun _ => rfl, ?_⟩
  rintro bytes ⟨⟩
  have haddrs : addrs ≠ [] := by
    rintro rfl
    cases (run_ret hopen).1
  have hanswered := Network.callMaster_answered hpath (fun _ _ _ _ => And.right) haddrs
    (·.openForRead path) ?_ hopen
  · rcases hanswered with ⟨m, hm, v, hwv, hvu, hanswers, hresp⟩ | ⟨err, herr, -⟩
    · have hresp' : (v.hosts m).server.openForRead path = .ok resp := by
        cases hr : (v.hosts m).server.openForRead path with
        | error st =>
            rw [hr] at hresp
            cases hresp
        | ok resp' =>
            rw [hr] at hresp
            cases hresp
            rfl
      obtain ⟨i, f, chunks, hwith, hsplits, hids⟩ :=
        answersWith_of_answer hinit (hw.trans hwv) hanswers hresp'
      obtain ⟨hflatten, hnames⟩ := splitChunks_holds hsplits.2
      have hchunks : ∀ ch ∈ chunks, ∀ data, N.replies data → hashChunk data = ch.id →
          data = ch.data := by
        intro ch hch data hdata hhashed
        refine hhash (Or.inl hdata) (Or.inr ⟨i, f, chunks, hsplits, ch, hch, rfl⟩) ?_
        rw [hhashed, hnames ch hch]
      rw [hids] at hdownload
      obtain ⟨bytes, rfl, hpart, hall⟩ := download_run hpath hreplies hchunks hdownload
      rw [hflatten] at hpart hall
      refine ⟨v, m, hm, i, f, hwv, ?_, hwith, hpart, hall⟩
      exact ((hvu.trans hux).trans (hdownload.path hpath)).trans hyw'
    · cases herr
  · intro m s r t hask
    obtain ⟨x, y, hx, ⟨-, rfl, hr⟩, hy⟩ := run_op hask
    exact ⟨_, hx, hy, hr⟩

/-! ### Uploads beside a download -/

/-- The cluster, and what is left to do of the uploads. -/
structure Scene (M σ ι : Type*) where
  world : World M σ
  puts : ι → Act M (Except Error Unit)

inductive SceneEvent (M ι : Type*) where
  | cluster (e : Event M)
  /-- An upload is answered what it asks for. If that is a command, the request has reached the
  master or not. -/
  | put (i : ι) (answers : (op : Op M) → Res op) (reached : Bool)

namespace Scene

def start (hashChunk : List UInt8 → String) (path : List Char) (init : M → Server σ)
    (uploads : ι → Upload M) : Scene M σ ι :=
  ⟨World.start init, fun i => (uploads i).put hashChunk path⟩

/-- What an operation of an upload does to the cluster. -/
def reach (clock : M → ℕ → Time) (w : World M σ) : Op M → Bool → Option (World M σ)
  | .request m cmd, true => Cluster.step clock w (.call m cmd)
  | _, _ => some w

def step [DecidableEq ι] (clock : M → ℕ → Time) (s : Scene M σ ι) :
    SceneEvent M ι → Option (Scene M σ ι)
  | .cluster e => (Cluster.step clock s.world e).map fun world => { s with world }
  | .put i answers reached =>
      match s.puts i with
      | .ret _ => none
      | .ask op next => (reach clock s.world op reached).map fun world =>
          { world, puts := Function.update s.puts i (next (answers op)) }

/-- Other clients leave the path alone. -/
def Elsewhere (path : List Char) (_ : Scene M σ ι) : SceneEvent M ι → Prop
  | .cluster (.call _ cmd) => cmd.Spares path
  | _ => True

instance (path : List Char) (s : Scene M σ ι) : ∀ e, Decidable (Elsewhere path s e)
  | .cluster (.call _ cmd) => inferInstanceAs (Decidable (cmd.Spares path))
  | .put _ _ _ | .cluster (.register _) | .cluster (.propose _ _) | .cluster (.commit _)
  | .cluster (.deliver _) | .cluster (.lookup _) | .cluster (.send _) | .cluster (.receive _)
  | .cluster (.cancel _ _) | .cluster (.unregister _) => isTrue trivial

/-- A client is served by the cluster. -/
def Serves (N : Network M σ) (clock : M → ℕ → Time) (s : Scene M σ ι) (op : Op M) (r : Res op)
    (t : Scene M σ ι) : Prop :=
  N.Serves clock s.world op r t.world ∧ t.puts = s.puts

abbrev Runs [DecidableEq ι] {α : Type} (N : Network M σ) (clock : M → ℕ → Time) (path : List Char) :
    Scene M σ ι → Act M α → α → Scene M σ ι → Prop :=
  Run (step clock) (Elsewhere path) (Serves N clock)

/-- What is left of an upload requests no other command than the upload. -/
def Uploading (hashChunk : List UInt8 → String) (path : List Char) (uploads : ι → Upload M)
    (s : Scene M σ ι) : Prop :=
  ∀ i, (s.puts i).Only (Op.Requests fun cmd => ∃ f, (uploads i).Finalizes hashChunk path f cmd)

omit [Store σ Char FileInfo] [DecidableEq M] in
theorem uploading_start : Uploading hashChunk path uploads (start hashChunk path init uploads) :=
  fun _ => put_only fun f chunks hfile hchunks =>
    ⟨f, chunks, ⟨hfile, hchunks⟩, rfl, rfl, rfl, rfl⟩

/-- Seen from the cluster, uploads start calls. -/
theorem uploading_step [DecidableEq ι] {s t : Scene M σ ι} {e : SceneEvent M ι}
    (hs : Uploading hashChunk path uploads s) (hok : Elsewhere path s e)
    (h : step clock s e = some t) :
    Uploading hashChunk path uploads t ∧
      Path (Cluster.step clock) (CallsOnly (Requested hashChunk path uploads)) s.world t.world := by
  cases e with
  | cluster e =>
      obtain ⟨world, hworld, rfl⟩ := Option.map_eq_some_iff.mp h
      refine ⟨hs, .single ?_ hworld⟩
      cases e with
      | call m cmd => exact Or.inr hok
      | _ => trivial
  | put i answers reached =>
      simp only [step] at h
      split at h
      · cases h
      · rename_i op next hput
        have hi := hs i
        rw [hput] at hi
        obtain ⟨hop, hnext⟩ := hi
        obtain ⟨world, hworld, rfl⟩ := Option.map_eq_some_iff.mp h
        refine ⟨?_, ?_⟩
        · intro j
          dsimp only
          by_cases hj : j = i
          · subst hj
            rw [Function.update_self]
            exact hnext _
          · rw [Function.update_of_ne hj]
            exact hs j
        · unfold reach at hworld
          split at hworld
          · refine .single ?_ hworld
            exact Or.inl ⟨i, hop⟩
          · cases hworld
            exact .refl

end Scene

/-- Any number of uploads to the path and other clients that leave it alone run beside a download
of it. If no two of the chunks involved have the same hash, a local file that is created holds the
content of an upload whose `FinalizeWrite` the answering master has applied, or a part of it from
its beginning, and the whole content if the download succeeds. -/
theorem get_holds_put [LawfulStore σ] [DecidableEq ι] {s t : Scene M σ ι}
    (hinit : ∀ m, (init m).ns.find path = none)
    (hhash : (Involved hashChunk N uploads).InjOn hashChunk)
    (hs : Path (Scene.step clock) (Scene.Elsewhere path)
      (Scene.start hashChunk path init uploads) s)
    {rp : RetryPolicy} {addrs : List M} {localPath : String} {out : Option (List UInt8)}
    {res : Except Error Unit}
    (hget : Scene.Runs N clock path s (get hashChunk rp addrs path localPath) (out, res) t) :
    (res = .ok () → out.isSome) ∧ ∀ bytes, out = some bytes → ∃ w, ∃ m ∈ addrs, ∃ i f,
      Path (step clock) (CallsOnly (Requested hashChunk path uploads)) s.world w ∧
      Path (step clock) (CallsOnly (Requested hashChunk path uploads)) w t.world ∧
      AnswersWith hashChunk path N uploads w m i f ∧
      bytes <+: f.data ∧ (res = .ok () → bytes = f.data) := by
  obtain ⟨huploading, hw⟩ := hs.map Scene.world (I := Scene.Uploading hashChunk path uploads)
    Scene.uploading_start fun _ _ _ => Scene.uploading_step
  refine get_run hinit hhash hw
    (hget.map Scene.world huploading (fun _ _ _ => Scene.uploading_step) ?_)
  rintro u op r u' hu ⟨hserved, hputs⟩
  refine ⟨?_, hserved⟩
  intro i
  rw [hputs]
  exact hu i

/-! ### One upload and one download -/

/-- A master with one chunk server. -/
def stocked : Server (SortedList Char FileInfo) := .new .empty (.new 0) [⟨"n", "n:1"⟩] 1 none

/-- A file of three bytes in chunks of two. -/
def threeBytes : Upload Bool := ⟨[true], .default, 2, "in", .ok ⟨[1, 2, 3], none⟩⟩

/-- A hash that tells the two chunks apart. -/
def shortHash (data : List UInt8) : String := if data = [1, 2] then "x" else "y"

/-- The chunk server returns one of the two chunks, whatever it is asked for. -/
def twoChunks : Network Bool (SortedList Char FileInfo) where
  lost _ := False
  undialable _ _ := False
  answers _ _ := True
  replies data := data = [1, 2] ∨ data = [3]

theorem splits_threeBytes {f : Reader} {chunks : List Chunk}
    (h : threeBytes.Splits shortHash f chunks) : chunks = [⟨"x", [1, 2]⟩, ⟨"y", [3]⟩] := by
  obtain ⟨hfile, hchunks⟩ := h
  cases hfile
  have heval : splitChunks shortHash ⟨[1, 2, 3], none⟩ 2 = .ok [⟨"x", [1, 2]⟩, ⟨"y", [3]⟩] := by
    decide +kernel
  exact Except.ok.inj (hchunks.symm.trans heval)

theorem shortHash_injOn :
    (Involved shortHash twoChunks fun _ : Unit => threeBytes).InjOn shortHash := by
  have hinvolved : ∀ data ∈ Involved shortHash twoChunks fun _ : Unit => threeBytes,
      data = [1, 2] ∨ data = [3] := by
    rintro data (hdata | ⟨i, f, chunks, hsplits, ch, hch, rfl⟩)
    · exact hdata
    · obtain rfl := splits_threeBytes hsplits
      rcases List.mem_pair.mp hch with rfl | rfl
      · exact Or.inl rfl
      · exact Or.inr rfl
  intro a ha b hb hab
  rcases hinvolved a ha with rfl | rfl <;> rcases hinvolved b hb with rfl | rfl
  · rfl
  · exact absurd hab (by decide)
  · exact absurd hab (by decide)
  · rfl

/-- Answers with which the upload goes on to its end. -/
def agree : (op : Op Bool) → Res op
  | .ctxErr | .wait _ => none
  | .conn _ | .chunkClient _ | .writeChunk _ _ _ _ | .create _ | .write _ => .ok ()
  | .stat _ _ | .openForRead _ _ | .readChunk _ _ => .error ⟨.notFound, "not found"⟩
  | .openForWrite _ _ ids => .ok (ids.map fun id => ⟨id, [⟨"n", "n:1"⟩]⟩)
  | .request _ _ => .ok 0
  | .response _ path => .ok ⟨path, false, 3, ["x", "y"], 0, 0, 0⟩

/-- The upload up to its last request, which the master commits and applies. -/
def uploadEvents : List (SceneEvent Bool Unit) :=
  List.replicate 10 (.put () agree true) ++
    [.register 0, .propose 0 true, .commit 0, .deliver true].map .cluster

def uploaded : Scene Bool (SortedList Char FileInfo) Unit :=
  final (guarded (Scene.step fun _ _ => 0) (Scene.Elsewhere ['/', 'a']))
    (Scene.start shortHash ['/', 'a'] (fun _ => stocked) fun _ => threeBytes) uploadEvents

theorem run_get_uploaded :
    Scene.Runs twoChunks (fun _ _ => 0) ['/', 'a'] uploaded
      (get shortHash .default [true] ['/', 'a'] "out") (some [1, 2, 3], .ok ()) uploaded := by
  have hcalm : Calm (Scene.Serves twoChunks fun _ _ => 0) uploaded :=
    ⟨⟨rfl, rfl⟩, fun _ => ⟨rfl, rfl⟩, fun _ => ⟨⟨rfl, nofun⟩, rfl⟩⟩
  let nodes : List NodeInfo := [⟨"n", "n:1"⟩]
  let resp : Server.OpenForReadResponse :=
    ⟨⟨['/', 'a'], false, 3, ["x", "y"], 0, 0, 0⟩, [⟨"x", nodes⟩, ⟨"y", nodes⟩]⟩
  have hopen : Scene.Runs twoChunks (fun _ _ => 0) ['/', 'a'] uploaded
      (openForRead .default [true] ['/', 'a']) (.ok resp) uploaded := by
    refine run_callMaster hcalm (Run.bind (a := .ok resp) (.op ?_) (.ret uploaded _)) nofun
    exact ⟨⟨rfl, Or.inl ⟨trivial, by decide +kernel⟩⟩, rfl⟩
  have hchunk : ∀ {chunkID : String} {data : List UInt8}, twoChunks.replies data →
      shortHash data = chunkID → Scene.Runs twoChunks (fun _ _ => 0) ['/', 'a'] uploaded
        (readChunk shortHash .default chunkID ⟨chunkID, nodes⟩) (.ok data) uploaded := by
    intro chunkID data hdata hid
    refine run_readChunkFrom ⟨rfl, rfl⟩ ⟨⟨rfl, ?_⟩, rfl⟩ hid
    rintro data ⟨⟩
    exact hdata
  refine hopen.bind ?_
  refine Run.bind (a := .ok ()) (.op ⟨rfl, rfl⟩) ?_
  refine Run.bind (a := ([1, 2, 3], .ok ())) ?_ (.ret uploaded _)
  refine (hchunk (Or.inl rfl) rfl).bind ?_
  refine Run.bind (a := .ok ()) (.op ⟨rfl, rfl⟩) ?_
  refine (hchunk (Or.inr rfl) rfl).bind ?_
  exact Run.bind (a := .ok ()) (.op ⟨rfl, rfl⟩) (.ret uploaded _)

theorem get_holds_put_uploaded :
    Scene.Runs twoChunks (fun _ _ => 0) ['/', 'a'] uploaded
        (get shortHash .default [true] ['/', 'a'] "out") (some [1, 2, 3], .ok ()) uploaded ∧
      ∃ w, ∃ m ∈ [true], ∃ i f,
        AnswersWith shortHash ['/', 'a'] twoChunks (fun _ : Unit => threeBytes) w m i f ∧
          [1, 2, 3] = f.data := by
  refine ⟨run_get_uploaded, ?_⟩
  have huploaded : Path (Scene.step fun _ _ => 0) (Scene.Elsewhere ['/', 'a'])
      (Scene.start shortHash ['/', 'a'] (fun _ => stocked) fun _ => threeBytes) uploaded :=
    Path.final (by decide +kernel)
  obtain ⟨w, m, hm, i, f, -, -, hwith, -, hall⟩ :=
    (get_holds_put (by decide +kernel) shortHash_injOn huploaded run_get_uploaded).2 _ rfl
  exact ⟨w, m, hm, i, f, hwith, hall rfl⟩

end VaultFS.Client
