import Mathlib.Data.PNat.Basic
import VaultFS.Client.Basic

/-!
# Uploads and downloads

`Put` and `Get` of `pkg/client/client.go`, and the splitting of a file into chunks from
`pkg/client/file.go`. A chunk is named by its hash, which is a parameter here. `Put` is given what
opening the local file gives, and `Get` returns what it has written to the local file, if it has
created one, besides its error.
-/

namespace VaultFS.Client

open Metadata Master Interaction

/-- What is still to be read, and the error that reading it ends with, if any. -/
structure Reader where
  data : List UInt8
  fail : Option Error

inductive ReadError where
  | eof
  | unexpectedEOF
  | failed (err : Error)

/-- `io.ReadFull` into a buffer of the given size. -/
def Reader.readFull (r : Reader) (size : ℕ) : List UInt8 × Option ReadError × Reader :=
  if size ≤ r.data.length then (r.data.take size, none, { r with data := r.data.drop size })
  else
    let err := match r.fail with
      | some err => .failed err
      | none => if r.data = [] then .eof else .unexpectedEOF
    (r.data, some err, { r with data := [] })

theorem Reader.readFull_none {r r' : Reader} {size : ℕ} {data : List UInt8}
    (h : r.readFull size = (data, none, r')) :
    data.length = size ∧ data ++ r'.data = r.data := by
  unfold readFull at h
  split at h
  · rename_i hsize
    cases h
    exact ⟨List.length_take_of_le hsize, List.take_append_drop size r.data⟩
  · cases h

theorem Reader.readFull_lt {r r' : Reader} {size : ℕ+} {data : List UInt8}
    (h : r.readFull size = (data, none, r')) : r'.data.length < r.data.length := by
  obtain ⟨hlength, hdata⟩ := readFull_none h
  have hsize := size.pos
  rw [← hdata, List.length_append]
  omega

theorem Reader.readFull_some {r r' : Reader} {size : ℕ} {data : List UInt8} {err : ReadError}
    (h : r.readFull size = (data, some err, r')) : data = r.data := by
  unfold readFull at h
  split at h <;> cases h
  rfl

structure Chunk where
  id : String
  data : List UInt8
  deriving DecidableEq

def defaultChunkSize : ℕ+ := 4 * 1024 * 1024

section Hash

-- the name of a chunk, the hash of its bytes
variable (hashChunk : List UInt8 → String)

def appendChunk (chunks : List Chunk) (data : List UInt8) : List Chunk :=
  if data.length > 0 then chunks ++ [⟨hashChunk data, data⟩] else chunks

/-- The loop of `splitChunks`. -/
def splitFrom (size : ℕ+) (r : Reader) (chunks : List Chunk) : Except Error (List Chunk) :=
  match hread : r.readFull size with
  | (data, none, r') =>
      have : r'.data.length < r.data.length := Reader.readFull_lt hread
      splitFrom size r' (appendChunk hashChunk chunks data)
  | (data, some .eof, _) | (data, some .unexpectedEOF, _) => .ok (appendChunk hashChunk chunks data)
  | (_, some (.failed err), _) => .error (.wrapped "client: read input: " err)
termination_by r.data.length

theorem toNat_pos_of_not_le {size : ℤ} (h : ¬ size ≤ 0) : 0 < size.toNat := by
  omega

def splitChunks (r : Reader) (size : ℤ) : Except Error (List Chunk) :=
  splitFrom hashChunk
    (if h : size ≤ 0 then defaultChunkSize else ⟨size.toNat, toNat_pos_of_not_le h⟩) r []

/-- The chunks hold the bytes, in order, and are named by their hashes. -/
def Holds (chunks : List Chunk) (data : List UInt8) : Prop :=
  (chunks.map (·.data)).flatten = data ∧ ∀ ch ∈ chunks, hashChunk ch.data = ch.id

theorem appendChunk_holds (chunks : List Chunk) (data : List UInt8) :
    ∃ new, appendChunk hashChunk chunks data = chunks ++ new ∧ Holds hashChunk new data := by
  unfold appendChunk
  split
  · exact ⟨[⟨hashChunk data, data⟩], rfl, by simp, by simp⟩
  · rename_i hempty
    obtain rfl := List.length_eq_zero_iff.mp (Nat.eq_zero_of_not_pos hempty)
    exact ⟨[], (List.append_nil _).symm, rfl, nofun⟩

variable {hashChunk} in
/-- What the loop adds to the chunks holds what was still to be read. -/
theorem splitFrom_holds {size : ℕ+} {r : Reader} {chunks all : List Chunk}
    (h : splitFrom hashChunk size r chunks = .ok all) :
    ∃ new, all = chunks ++ new ∧ Holds hashChunk new r.data := by
  fun_induction splitFrom hashChunk size r chunks with
  | case1 r chunks data r' hread _ ih =>
      obtain ⟨rest, rfl, hrest⟩ := ih h
      obtain ⟨first, hfirst, hdata⟩ := appendChunk_holds hashChunk chunks data
      refine ⟨first ++ rest, by rw [hfirst, List.append_assoc], ?_, ?_⟩
      · rw [List.map_append, List.flatten_append, hdata.1, hrest.1, (Reader.readFull_none hread).2]
      · intro ch hch
        exact (List.mem_append.mp hch).elim (hdata.2 ch) (hrest.2 ch)
  | case2 r chunks data r' hread =>
      cases h
      exact Reader.readFull_some hread ▸ appendChunk_holds hashChunk chunks data
  | case3 r chunks data r' hread =>
      cases h
      exact Reader.readFull_some hread ▸ appendChunk_holds hashChunk chunks data
  | case4 => cases h

variable {hashChunk} in
theorem splitChunks_holds {r : Reader} {size : ℤ} {chunks : List Chunk}
    (h : splitChunks hashChunk r size = .ok chunks) : Holds hashChunk chunks r.data := by
  obtain ⟨new, rfl, hnew⟩ := splitFrom_holds h
  exact hnew

def verifyChunk (expectedID : String) (data : List UInt8) : Except Error Unit :=
  if hashChunk data ≠ expectedID then
    .error (.text ("client: chunk integrity check failed: want " ++ expectedID ++ ", got " ++
      hashChunk data))
  else .ok ()

variable {M : Type*} (rp : RetryPolicy)

/-! ### Put -/

def writeChunk (placement : Server.ChunkLocation) (ch : Chunk) : Act M (Except Error Unit) :=
  match placement.nodes with
  | [] => return .error (.text ("client: no chunk server assigned for chunk " ++ ch.id))
  | primary :: nodes => do
      let downstream := nodes.map (·.address)
      match ← ask (.chunkClient primary.address) with
      | .error err => return .error err
      | .ok _ => rp.doOp (rpc (ask (.writeChunk primary.address ch.id ch.data downstream)))

/-- The loop of `Put` over the chunks. -/
def writeChunks : List Server.ChunkLocation → List Chunk → Act M (Except Error Unit)
  | placement :: placements, ch :: chunks => do
      match ← writeChunk rp placement ch with
      | .error err => return .error err
      | .ok _ => writeChunks placements chunks
  | _, _ => return .ok ()

def totalSize (chunks : List Chunk) : ℤ :=
  chunks.foldl (fun total ch => total + (ch.data.length : ℤ)) 0

/-- `Put`, with what opening the local file gives. -/
def put (masterAddrs : List M) (chunkSize : ℤ) (localPath : String) (file : Except Error Reader)
    (remotePath : List Char) : Act M (Except Error Unit) :=
  match file with
  | .error err => return .error (.wrapped ("client: open " ++ localPath ++ ": ") err)
  | .ok f =>
      match splitChunks hashChunk f chunkSize with
      | .error err => return .error err
      | .ok chunks => do
          let chunkIDs := chunks.map (·.id)
          let total := totalSize chunks
          match ← openForWrite rp masterAddrs remotePath chunkIDs with
          | .error err =>
              return .error
                (.wrapped ("client: open for write " ++ String.ofList remotePath ++ ": ") err)
          | .ok placements =>
              if placements.length ≠ chunks.length then
                return .error (.text ("client: master returned " ++ toString placements.length ++
                  " placements for " ++ toString chunks.length ++ " chunks"))
              else match ← writeChunks rp placements chunks with
                | .error err => return .error err
                | .ok _ =>
                    match ← finalizeWrite rp masterAddrs remotePath chunkIDs total with
                    | .error err =>
                        return .error (.wrapped
                          ("client: finalize write " ++ String.ofList remotePath ++ ": ") err)
                    | .ok _ => return .ok ()

/-! ### Get -/

/-- The loop of `readChunk` over the replicas. -/
def readChunkFrom (chunkID : String) :
    List NodeInfo → Option Error → Act M (Except Error (List UInt8))
  | [], lastErr =>
      let lastErr := lastErr.getD (.text ("client: chunk " ++ chunkID ++ " has no replicas"))
      return .error (.wrapped ("client: read chunk " ++ chunkID ++ ": ") lastErr)
  | node :: nodes, _ => do
      match ← ask (.chunkClient node.address) with
      | .error err => readChunkFrom chunkID nodes (some err)
      | .ok _ =>
          match ← rp.doOp (rpc (ask (.readChunk node.address chunkID))) with
          | .error err => readChunkFrom chunkID nodes (some err)
          | .ok data =>
              match verifyChunk hashChunk chunkID data with
              | .error err => readChunkFrom chunkID nodes (some err)
              | .ok _ => return .ok data

def readChunk (chunkID : String) (loc : Server.ChunkLocation) : Act M (Except Error (List UInt8)) :=
  readChunkFrom hashChunk rp chunkID loc.nodes none

/-- The loop of `Get` over the chunks, with what has been written. The locations are walked along
with the chunks, `i` is the index. -/
def download (localPath : String) : ℕ → List String → List Server.ChunkLocation → List UInt8 →
    Act M (List UInt8 × Except Error Unit)
  | _, [], _, written => return (written, .ok ())
  | i, chunkID :: _, [], written =>
      return (written, .error (.text ("client: missing location for chunk " ++ toString i ++ " (" ++
        chunkID ++ ")")))
  | i, chunkID :: chunkIDs, loc :: locations, written => do
      match ← readChunk hashChunk rp chunkID loc with
      | .error err => return (written, .error err)
      | .ok data =>
          match ← ask (.write data) with
          | .error (n, err) =>
              return (written ++ data.take n,
                .error (.wrapped ("client: write " ++ localPath ++ ": ") err))
          | .ok _ => download localPath (i + 1) chunkIDs locations (written ++ data)

/-- `Get`, with what it has written to the local file if it has created it. -/
def get (masterAddrs : List M) (remotePath : List Char) (localPath : String) :
    Act M (Option (List UInt8) × Except Error Unit) := do
  match ← openForRead rp masterAddrs remotePath with
  | .error err =>
      return (none,
        .error (.wrapped ("client: open for read " ++ String.ofList remotePath ++ ": ") err))
  | .ok resp =>
      match ← ask (.create localPath) with
      | .error err => return (none, .error (.wrapped ("client: create " ++ localPath ++ ": ") err))
      | .ok _ => do
          let (written, res) ←
            download hashChunk rp localPath 0 resp.file.chunkIds resp.locations []
          return (some written, res)

/-! ### What is requested -/

section Only

variable {Q : Command → Prop} {hashChunk rp}

theorem writeChunk_only (placement : Server.ChunkLocation) (ch : Chunk) :
    (writeChunk rp placement ch : Act M _).Only (Op.Requests Q) := by
  unfold writeChunk
  split
  · trivial
  · refine Prog.Only.bind (.op trivial) fun r => ?_
    cases r with
    | error err => trivial
    | ok _ => exact doOp_only (rpc_only (.op trivial))

theorem writeChunks_only (placements : List Server.ChunkLocation) (chunks : List Chunk) :
    (writeChunks rp placements chunks : Act M _).Only (Op.Requests Q) := by
  induction chunks generalizing placements with
  | nil => cases placements <;> trivial
  | cons ch chunks ih =>
      cases placements with
      | nil => trivial
      | cons placement placements =>
          refine Prog.Only.bind (writeChunk_only placement ch) fun r => ?_
          cases r with
          | error err => trivial
          | ok _ => exact ih placements

/-- `Put` requests that its file be finalized with the chunks it was split into. -/
theorem put_only {masterAddrs : List M} {chunkSize : ℤ} {localPath : String}
    {file : Except Error Reader} {remotePath : List Char}
    (hQ : ∀ f chunks, file = .ok f → splitChunks hashChunk f chunkSize = .ok chunks →
      Q { kind := .finalize, path := remotePath, chunkIDs := chunks.map (·.id)
          size := totalSize chunks }) :
    (put hashChunk rp masterAddrs chunkSize localPath file remotePath).Only (Op.Requests Q) := by
  cases file with
  | error err => trivial
  | ok f =>
      unfold put
      dsimp only
      cases hchunks : splitChunks hashChunk f chunkSize with
      | error err => trivial
      | ok chunks =>
          refine Prog.Only.bind (callMaster_only fun m => rpc_only (.op trivial)) fun r => ?_
          cases r with
          | error err => trivial
          | ok placements =>
              dsimp only
              split
              · trivial
              · refine Prog.Only.bind (writeChunks_only placements chunks) fun r => ?_
                cases r with
                | error err => trivial
                | ok _ =>
                    refine Prog.Only.bind (finalizeWrite_only (hQ f chunks rfl hchunks)) fun r => ?_
                    cases r <;> trivial

theorem readChunkFrom_only (chunkID : String) (nodes : List NodeInfo) (lastErr : Option Error) :
    (readChunkFrom hashChunk rp chunkID nodes lastErr : Act M _).Only (Op.Requests Q) := by
  induction nodes generalizing lastErr with
  | nil => trivial
  | cons node nodes ih =>
      refine Prog.Only.bind (.op trivial) fun r => ?_
      cases r with
      | error err => exact ih _
      | ok _ =>
          refine Prog.Only.bind (doOp_only (rpc_only (.op trivial))) fun r => ?_
          cases r with
          | error err => exact ih _
          | ok data =>
              dsimp only
              split
              · exact ih _
              · trivial

theorem download_only (localPath : String) (i : ℕ) (chunkIDs : List String)
    (locations : List Server.ChunkLocation) (written : List UInt8) :
    (download hashChunk rp localPath i chunkIDs locations written : Act M _).Only
      (Op.Requests Q) := by
  induction chunkIDs generalizing i locations written with
  | nil => trivial
  | cons chunkID chunkIDs ih =>
      cases locations with
      | nil => trivial
      | cons loc locations =>
          refine Prog.Only.bind (readChunkFrom_only chunkID loc.nodes none) fun r => ?_
          cases r with
          | error err => trivial
          | ok data =>
              refine Prog.Only.bind (.op trivial) fun r => ?_
              cases r with
              | error err => trivial
              | ok _ => exact ih _ _ _

/-- `Get` requests no command. -/
theorem get_only {masterAddrs : List M} {remotePath : List Char} {localPath : String} :
    (get hashChunk rp masterAddrs remotePath localPath).Only (Op.Requests Q) := by
  refine Prog.Only.bind (callMaster_only fun m => rpc_only (.op trivial)) fun r => ?_
  cases r with
  | error err => trivial
  | ok resp =>
      refine Prog.Only.bind (.op trivial) fun r => ?_
      cases r with
      | error err => trivial
      | ok _ =>
          refine Prog.Only.bind (download_only _ _ _ _ _) fun r => ?_
          trivial

end Only

end Hash

end VaultFS.Client
