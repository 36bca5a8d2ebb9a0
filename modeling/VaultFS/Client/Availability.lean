import VaultFS.Client.Integrity

/-!
# Downloads with faulty replicas

`Get` tries the replicas of a chunk one after the other, and goes on to the next when one cannot be
reached, fails or returns other bytes than were asked for. One good replica of every chunk is
enough, wherever it stands in the list and whatever the others answer: a download that has begun
then fails only if the local file cannot be written (`download_completes`).
-/

namespace VaultFS.Client

open KeyValue Metadata Master Transition Interaction

variable {M σ ε : Type*} {α : Type} {step : σ → ε → Option σ} {ok : σ → ε → Prop}
  {serves : σ → (op : Op M) → Res op → σ → Prop} {s t : σ} {hashChunk : List UInt8 → String}
  {rp : RetryPolicy} {chunkID : String} {data : List UInt8}

/-- The server at the address can be reached and returns these bytes for the chunk. -/
structure Delivers (serves : σ → (op : Op M) → Res op → σ → Prop) (addr chunkID : String)
    (data : List UInt8) : Prop where
  client : ∀ s r t, serves s (.chunkClient addr) r t → r = .ok ()
  read : ∀ s r t, serves s (.readChunk addr chunkID) r t → r = .ok data

/-- An operation that succeeds at once is not retried. -/
theorem doOp_of_ok {op : Act M (Except Error α)} {a : α} {res : Except Error α}
    (hop : ∀ r u, Run step ok serves s op r u → r = .ok a)
    (h : Run step ok serves s (rp.doOp op) res t) : res = .ok a := by
  unfold RetryPolicy.doOp RetryPolicy.doFrom at h
  obtain ⟨r, u, hrun, hrest⟩ := run_bind h
  obtain rfl := hop r u hrun
  exact (run_ret hrest).1

theorem Delivers.doOp_read {addr : String} {res : Except Error (List UInt8)}
    (hgood : Delivers serves addr chunkID data)
    (h : Run step ok serves s (rp.doOp (rpc (ask (.readChunk addr chunkID)))) res t) :
    res = .ok data := by
  refine doOp_of_ok (fun r u hrun => ?_) h
  obtain ⟨r', rfl, x, y, -, hask, -⟩ := run_rpc hrun
  obtain ⟨x', y', -, hread, -⟩ := run_op hask
  rw [hgood.read x' r' y' hread]
  rfl

/-- A chunk is read if one of the replicas is good. The induction is over the replicas before it. -/
theorem readChunkFrom_delivers {nodes : List NodeInfo} {node : NodeInfo} (hnode : node ∈ nodes)
    (hgood : Delivers serves node.address chunkID data) (hid : hashChunk data = chunkID)
    {lastErr : Option Error} {res : Except Error (List UInt8)}
    (h : Run step ok serves s (readChunkFrom hashChunk rp chunkID nodes lastErr) res t) :
    ∃ data, res = .ok data := by
  induction nodes generalizing s lastErr with
  | nil => cases hnode
  | cons first nodes ih =>
      obtain ⟨r, u, hclient, h⟩ := run_bind h
      rcases List.mem_cons.mp hnode with rfl | hnode
      · have hr : r = .ok () := by
          obtain ⟨x, y, -, hserved, -⟩ := run_op hclient
          exact hgood.client x r y hserved
        subst hr
        obtain ⟨r, v, hread, h⟩ := run_bind h
        obtain rfl := hgood.doOp_read hread
        dsimp only at h
        rw [verifyChunk, if_neg (not_not.mpr hid)] at h
        exact ⟨data, (run_ret h).1⟩
      · -- whatever the first one does, the loop returns bytes or goes on
        cases r with
        | error err => exact ih hnode h
        | ok _ =>
            obtain ⟨r, v, hread, h⟩ := run_bind h
            cases r with
            | error err => exact ih hnode h
            | ok bytes =>
                dsimp only at h
                split at h
                · exact ih hnode h
                · exact ⟨bytes, (run_ret h).1⟩

/-- The error of a failed write to the local file. -/
def writeError (localPath : String) (err : Error) : Error :=
  .wrapped ("client: write " ++ localPath ++ ": ") err

/-- A download with a good replica of every chunk ends well or because of the local file. -/
theorem download_completes {localPath : String} {chunks : List Chunk} {nodes : List NodeInfo}
    (hgood : ∀ ch ∈ chunks, hashChunk ch.data = ch.id ∧ ∃ node ∈ nodes,
      Delivers serves node.address ch.id ch.data) {i : ℕ} {written out : List UInt8}
    {res : Except Error Unit}
    (h : Run step ok serves s (download hashChunk rp localPath i (chunks.map (·.id))
      (chunks.map fun ch => ⟨ch.id, nodes⟩) written) (out, res) t) :
    res = .ok () ∨ ∃ err, res = .error (writeError localPath err) := by
  induction chunks generalizing s i written with
  | nil =>
      obtain ⟨hres, -⟩ := run_ret h
      cases hres
      exact Or.inl rfl
  | cons ch chunks ih =>
      obtain ⟨r, u, hread, h⟩ := run_bind h
      obtain ⟨hid, node, hnode, hdelivers⟩ := hgood ch List.mem_cons_self
      obtain ⟨data, rfl⟩ := readChunkFrom_delivers hnode hdelivers hid hread
      obtain ⟨r, v, hwrite, h⟩ := run_bind h
      cases r with
      | error err =>
          obtain ⟨hres, -⟩ := run_ret h
          cases hres
          exact Or.inr ⟨err.2, rfl⟩
      | ok _ => exact ih (fun ch' hch' => hgood ch' (List.mem_cons_of_mem _ hch')) h

end VaultFS.Client
