import VaultFS.Chunk.Writer

/-!
# Stored chunks have the content of their names

In every run of a chunk server, all threads keep to the discipline of the store (`Orderly`). From an
empty root, the files there are then chunks with the content of their names and temporary files, and
`ListChunks` tells them apart (`Tidy`). What `WriteChunk` has acknowledged is stored, unless another
call was writing the same chunk when it looked.
-/

namespace VaultFS.Chunk

open Interaction KeyValue Metadata Transition

variable {cfg : Config} {start : FS} {i : ℕ} {s t : Shared}

section Threads

/-- The operations of `WriteChunk` and `ReplicateChunk`. They rename and remove only temporary
files. -/
def Op.Writing (cfg : Config) : Op → Prop
  | .rename old _ => ∀ data, dest cfg data ≠ old
  | .remove p remover => remover = .writer ∧ ∀ data, dest cfg data ≠ p
  | .list | .observe _ _ => False
  | _ => True

theorem only_commit {id : ChunkID} {data : List UInt8} {tmpName p : Path}
    (h : ∀ data, dest cfg data ≠ tmpName) :
    (commit id data tmpName p).Only (Op.Writing cfg) := by
  rw [commit]
  refine .bind (.op trivial) fun a => ?_
  split
  · exact .bind (.op trivial) fun _ => trivial
  · refine .bind (.op trivial) fun a => ?_
    split
    · exact .bind (.op trivial) fun _ => trivial
    · refine .bind (.op trivial) fun a => ?_
      split
      · trivial
      · refine .bind (.op h) fun a => ?_
        split <;> trivial

theorem only_writeChunk (data : List UInt8) : (writeChunk cfg data).Only (Op.Writing cfg) := by
  rw [writeChunk]
  refine .bind (.op trivial) fun a => ?_
  split
  · trivial
  · refine .bind (.op trivial) fun a => ?_
    split
    · trivial
    · refine .bind ?_ fun res => .bind (.op trivial) fun _ => trivial
      rw [persist]
      refine .bind (.op trivial) fun a => ?_
      split
      · trivial
      · refine .bind (.op trivial) fun a => ?_
        split
        · trivial
        · refine .bind (.op trivial) fun a => ?_
          split
          · rename_i suffix
            have htmp : ∀ data', dest cfg data' ≠
                (path cfg.root (hash cfg.sum256 data)).dropLast ++
                  [tmpPattern (hash cfg.sum256 data) ++ suffix] := by
              intro data'
              rw [tmpName_eq cfg.root (valid_hash cfg.sum256 data)]
              exact dest_ne_tmpPath cfg data' _ suffix
            exact .bind (only_commit htmp) fun _ => .bind (.op ⟨rfl, htmp⟩) fun _ => trivial
          · trivial
          · trivial

theorem only_replicateChunk (req : ReplicateRequest) :
    (replicateChunk cfg req).Only (Op.Writing cfg) := by
  rw [replicateChunk]
  split
  · trivial
  · refine .bind (.op trivial) fun a => ?_
    split
    · trivial
    · refine .bind (.op trivial) fun a => ?_
      split
      · refine .bind (only_writeChunk _) fun res => ?_
        split <;> trivial
      · trivial
      · trivial

theorem only_sweepFrom (now : Time) (live ids : List ChunkID) :
    (sweepFrom cfg now live ids).Only (Op.Harmless cfg) := by
  induction ids generalizing live with
  | nil => exact .bind (.op trivial) fun _ => trivial
  | cons id rest ih =>
      have hforget : (do
          let _ ← Prog.op (.forget id)
          sweepFrom cfg now (live ++ [id]) rest : Act (Option String)).Only (Op.Harmless cfg) :=
        .bind (.op trivial) fun _ => ih _
      rw [sweepFrom]
      refine .bind (.op trivial) fun a => ?_
      split
      · trivial
      · refine .bind (.op trivial) fun a => ?_
        split
        · exact hforget
        · refine .bind (.op trivial) fun a => ?_
          split
          · refine .bind (only_deleteChunk trivial trivial rfl) fun err => ?_
            split
            · exact ih _
            · exact hforget
          · exact ih _

theorem only_sweep : (sweep cfg).Only (Op.Harmless cfg) := by
  rw [sweep]
  refine .bind (.op trivial) fun a => ?_
  split
  · refine .bind (.op trivial) fun a => ?_
    split
    · exact only_sweepFrom _ _ _
    · trivial
  · trivial
  · trivial

/-- What is known of an acknowledged `WriteChunk` when it returns. -/
def Returned (cfg : Config) (start : FS) (i : ℕ) (x : Call × Reply) (s : Shared) : Prop :=
  ∀ data id, x = (.write data, .wrote (.ok id)) → id = hash cfg.sum256 data ∧
    (.joined i ∈ s.log ∨ Safely cfg start data s)

theorem safe_of_harmless {α : Type} {p : Act α} (h : p.Only (Op.Harmless cfg)) :
    Safe (discipline cfg start) i (fun _ _ => True) s p :=
  .of_only h fun _ _ _ _ ho hs hserve => by
    obtain ⟨hsound, hrely⟩ := serve_harmless ho hs hserve
    exact ⟨hsound, fun j _ => hrely j⟩

theorem safe_replicateChunk (hs : Sound cfg start s) (req : ReplicateRequest) :
    Safe (discipline cfg start) i (fun _ _ => True) s (replicateChunk cfg req) := by
  have hret : ∀ {s : Shared} {res : Except Status ChunkID},
      Safe (discipline cfg start) i (fun _ _ => True) s (pure res) :=
    .ret fun _ _ _ => trivial
  rw [replicateChunk]
  split
  · exact hret
  · refine .bind hs (safe_harmless trivial fun _ _ => trivial) ?_
    intro a t ht _
    split
    · exact hret
    · refine .bind ht (safe_harmless trivial fun _ _ => trivial) ?_
      intro a t ht _
      split
      · refine .bind ht (safe_writeChunk ht _) ?_
        intro res t ht _
        split <;> exact hret
      · exact hret
      · exact hret

theorem safe_call (hs : Sound cfg start s) (call : Call) :
    Safe (discipline cfg start) i (Returned cfg start i) s (call.prog cfg) := by
  -- only the result of a write says anything
  have hother : ∀ {s} reply, (∀ data, call ≠ .write data) →
      Safe (discipline cfg start) i (Returned cfg start i) s (pure (call, reply)) :=
    fun reply hne => .ret fun _ _ _ data id heq => absurd (congrArg Prod.fst heq) (hne data)
  cases call with
  | write data =>
      refine .bind hs (safe_writeChunk hs data) ?_
      intro res t ht hres
      refine .ret fun u _ htu data' id heq => ?_
      cases heq
      obtain ⟨hid, hjoined | hsafe⟩ := hres id rfl
      · exact ⟨hid, Or.inl ((Rely.log htu).subset hjoined)⟩
      · exact ⟨hid, Or.inr (hsafe.mono htu)⟩
  | replicate req =>
      exact .bind hs (safe_replicateChunk hs req) fun res _ _ _ => hother _ (by simp)
  | delete id =>
      have honly : (deleteChunk cfg id (.delete id)).Only (Op.Harmless cfg) :=
        only_deleteChunk trivial trivial rfl
      exact .bind hs (safe_of_harmless honly) fun res _ _ _ => hother _ (by simp)
  | sweep => exact .bind hs (safe_of_harmless only_sweep) fun res _ _ _ => hother _ (by simp)

end Threads

section Runs

theorem get_cutFiles {dirty : Path → Bool} {k : Path} (h : dirty k = false)
    (cuts : List (Path × ℕ)) (files : FS) : get (cutFiles dirty cuts files) k = get files k := by
  induction cuts generalizing files with
  | nil => rfl
  | cons cut cuts ih =>
      rw [cutFiles, ih]
      split
      · rename_i hdirty _
        refine get_put_of_ne files _ ?_
        rintro rfl
        rw [h] at hdirty
        cases hdirty
      · rfl

theorem isSome_get_cutFiles {dirty : Path → Bool} {k : Path} (cuts : List (Path × ℕ)) (files : FS) :
    (get (cutFiles dirty cuts files) k).isSome = (get files k).isSome := by
  induction cuts generalizing files with
  | nil => rfl
  | cons cut cuts ih =>
      rw [cutFiles, ih]
      split
      · rename_i hget
        rw [get_put]
        split
        · rename_i heq
          rw [heq, hget]
          rfl
        · rfl
      · rfl

/-- What a crash takes from files that were not synced is nothing of a chunk. -/
theorem Sound.restart (h : Sound cfg start s) (cuts : List (Path × ℕ)) :
    Sound cfg start (s.restart cuts) := by
  refine ⟨?_, ?_⟩
  · intro id data hvalid hget
    have hthere : (get s.files (path cfg.root id)).isSome := by
      rw [← isSome_get_cutFiles cuts s.files]
      exact Option.isSome_of_mem hget
    obtain ⟨content, hcontent⟩ := Option.isSome_iff_exists.mp hthere
    obtain ⟨-, hclean, -⟩ := h.chunks id content hvalid hcontent
    exact h.chunks id data hvalid ((get_cutFiles hclean cuts s.files).symm.trans hget)
  · intro k hk
    exact h.names k ((isSome_get_cutFiles cuts s.files).symm.trans hk)

/-- All threads of a process keep to the discipline. -/
def Orderly (cfg : Config) (start : FS) (w : World) : Prop :=
  AllSafe (discipline cfg start) (Returned cfg start) w.shared w.threads

theorem Orderly.init (h : ∀ id data, Valid id → get start (path cfg.root id) = some data →
    hash cfg.sum256 data = id) (now : Time) (referenced : ChunkID → Bool) :
    Orderly cfg start (.init start now referenced) := by
  refine ⟨⟨?_, fun k hk => Or.inl hk⟩, ?_⟩
  · intro id data hvalid hget
    have hhash := h id data hvalid hget
    have hstart : get start (dest cfg data) = some data := by rw [dest, hhash, ← hget]; rfl
    exact ⟨hhash, rfl, Or.inl hstart, Or.inl hstart⟩
  · intro i p hp
    cases hp

theorem Orderly.step {w w' : World} {e : Event} (h : Orderly cfg start w)
    (hstep : step cfg w e = some w') : Orderly cfg start w' := by
  have henv : ∀ s : Shared, s.files = w.shared.files → s.dirty = w.shared.dirty →
      w.shared.log <+: s.log → s.writing = w.shared.writing →
      AllSafe (discipline cfg start) (Returned cfg start) s w.threads :=
    fun s hfiles hdirty hlog hwriting => h.env (h.1.of_eq hfiles hdirty hlog)
      fun i _ _ => .of_eq hfiles hdirty hlog fun _ hid => hwriting ▸ hid
  cases e with
  | start call =>
      cases hstep
      exact h.start (safe_call h.1 call)
  | op i answer =>
      obtain ⟨o, next, s, hthread, hs, rfl⟩ := step_op hstep
      exact h.op hthread hs
  | finish i =>
      obtain ⟨call, reply, -, rfl⟩ := step_finish hstep
      exact (henv (w.shared.finish i reply) rfl rfl (List.prefix_append _ _) rfl).finish i
  | crash cuts =>
      cases hstep
      refine ⟨h.1.restart cuts, ?_⟩
      intro i p hp
      cases hp
  | tick d =>
      cases hstep
      exact henv _ rfl rfl List.prefix_rfl rfl
  | refer id b =>
      cases hstep
      exact henv _ rfl rfl List.prefix_rfl rfl

theorem Orderly.run {now : Time} {referenced : ChunkID → Bool} {w : World}
    (hstart : ∀ id data, Valid id → get start (path cfg.root id) = some data →
      hash cfg.sum256 data = id)
    (h : Transition.Path (Chunk.step cfg) (fun _ _ => True) (.init start now referenced) w) :
    Orderly cfg start w :=
  h.invariant (.init hstart now referenced) fun _ _ _ hw _ hs => hw.step hs

end Runs

section Listing

variable {root : Path} {files : FS} {id : ChunkID}

/-- Every file below the root is at the path of a valid ID, or it is a temporary file. -/
def Tidy (root : Path) (files : FS) : Prop :=
  ∀ k, root <+: k → (get files k).isSome →
    (∃ id, Valid id ∧ k = path root id) ∨ ∃ id suffix, Valid id ∧ k = tmpPath root id suffix

theorem getLast?_path (h : Valid id) : (path root id).getLast? = some id := by
  rw [path_eq root h]
  simp

theorem not_valid_tmp (id : ChunkID) (suffix : List Char) : ¬ Valid (tmpPattern id ++ suffix) := by
  intro hvalid
  refine hvalid.notMem (c := dot) rfl ?_
  simp [tmpPattern]

/-- A file below the root with a valid ID for a name is at the path of this ID. -/
theorem Tidy.eq_path (h : Tidy root files) {k : Path} (hroot : root <+: k)
    (hk : (get files k).isSome) (hlast : k.getLast? = some id) (hvalid : Valid id) :
    k = path root id := by
  rcases h k hroot hk with ⟨id', hvalid', rfl⟩ | ⟨id', suffix, -, rfl⟩
  · rw [getLast?_path hvalid', Option.some.injEq] at hlast
    rw [hlast]
  · have hname : tmpPattern id' ++ suffix = id := by simpa [tmpPath] using hlast
    exact absurd (hname ▸ hvalid) (not_valid_tmp id' suffix)

theorem Tidy.mem_listChunks (h : Tidy root files) :
    id ∈ listChunks root files ↔ Valid id ∧ (get files (path root id)).isSome := by
  simp only [listChunks, List.mem_filter, List.mem_filterMap, decide_eq_true_eq]
  constructor
  · rintro ⟨⟨⟨k, data⟩, hmem, hlast⟩, hvalid⟩
    obtain ⟨hroot, hget⟩ := (mem_scan files root k data).mp hmem
    have hk : (get files k).isSome := Option.isSome_of_mem hget
    exact ⟨hvalid, h.eq_path hroot hk hlast hvalid ▸ hk⟩
  · rintro ⟨hvalid, hthere⟩
    obtain ⟨data, hget⟩ := Option.isSome_iff_exists.mp hthere
    refine ⟨⟨(path root id, data), (mem_scan files root _ data).mpr ⟨?_, hget⟩, ?_⟩, hvalid⟩
    · rw [path_eq root hvalid]
      exact List.prefix_append _ _
    · exact getLast?_path hvalid

theorem Tidy.nodup_listChunks (h : Tidy root files) : (listChunks root files).Nodup := by
  rw [listChunks, List.filter_filterMap, List.Nodup, List.pairwise_filterMap]
  have hpath : ∀ x ∈ scan files root, ∀ id, (x.1.getLast?.filter fun name => Valid name) = some id →
      x.1 = path root id := by
    intro x hx id hid
    obtain ⟨hroot, hget⟩ := (mem_scan files root x.1 x.2).mp hx
    obtain ⟨hlast, hvalid⟩ := Option.filter_eq_some_iff.mp hid
    exact h.eq_path hroot (Option.isSome_of_mem hget) hlast (of_decide_eq_true hvalid)
  refine (pairwise_scan files root).imp_of_mem ?_
  rintro x y hx hy hlt id hid _ hid' rfl
  rw [hpath x hx id hid, hpath y hy id hid'] at hlt
  exact lt_irrefl _ hlt

end Listing

theorem ensures_readChunk {σ : Type} {serve : σ → Op → Answer → Option σ} {s : σ} (id : ChunkID) :
    Prog.Ensures serve (fun _ => True)
      (fun res _ => ∀ data, res = .ok data → hash cfg.sum256 data = id) s (readChunk cfg id) := by
  have herr : ∀ {s : σ} err, Prog.Ensures serve (fun _ => True)
      (fun res _ => ∀ data, res = .ok data → hash cfg.sum256 data = id) s
      (pure (.error err) : Act (Except String (List UInt8))) :=
    fun err => .ret trivial fun data hdata => by cases hdata
  have hop : ∀ {s : σ} {o : Op}, Prog.Ensures serve (fun _ => True) (fun _ _ => True) s (.op o) :=
    .op trivial fun _ _ _ => ⟨trivial, trivial⟩
  rw [readChunk]
  refine .bind hop fun a t _ _ => ?_
  split
  · exact herr _
  · split
    · exact .bind hop fun _ _ _ _ => herr _
    · refine .bind hop fun a t _ _ => ?_
      split
      · split
        · exact herr _
        · rename_i hverify
          refine .ret trivial fun data hdata => ?_
          cases hdata
          exact verify_eq_none hverify
      · exact herr _
      · exact herr _

section Results

variable {now : Time} {referenced : ChunkID → Bool} {w : World}

theorem Orderly.tidy (h : Orderly cfg start w) (hempty : ∀ k, cfg.root <+: k → get start k = none) :
    Tidy cfg.root w.shared.files := by
  intro k hroot hk
  rcases h.1.names k hk with hstart | hrest
  · rw [hempty k hroot] at hstart
    cases hstart
  · exact hrest

/-- Chunks have the content of their names, `ListChunks` gives each of them once and no temporary
file, and `ReadChunk` returns nothing else, whatever the disk answers. -/
theorem chunk_store_integrity (hempty : ∀ k, cfg.root <+: k → get start k = none)
    (h : Transition.Path (step cfg) (fun _ _ => True) (.init start now referenced) w) :
    (∀ id data, Valid id → get w.shared.files (path cfg.root id) = some data →
      hash cfg.sum256 data = id) ∧
    (listChunks cfg.root w.shared.files).Nodup ∧
    (∀ id, id ∈ listChunks cfg.root w.shared.files ↔
      Valid id ∧ (get w.shared.files (path cfg.root id)).isSome) ∧
    (∀ id suffix, tmpPattern id ++ suffix ∉ listChunks cfg.root w.shared.files) ∧
    ∀ id answers data, (readChunk cfg id).play (fun _ _ _ => some ()) () answers =
      some ((), .ret (.ok data)) → hash cfg.sum256 data = id := by
  have hstart : ∀ id data, Valid id → get start (path cfg.root id) = some data →
      hash cfg.sum256 data = id := by
    intro id data hvalid hget
    have hroot : cfg.root <+: path cfg.root id := by
      rw [path_eq cfg.root hvalid]
      exact List.prefix_append _ _
    rw [hempty _ hroot] at hget
    cases hget
  have horderly : Orderly cfg start w := .run hstart h
  have htidy := horderly.tidy hempty
  refine ⟨?_, htidy.nodup_listChunks, fun id => htidy.mem_listChunks, ?_, ?_⟩
  · intro id data hvalid hget
    exact (horderly.1.chunks id data hvalid hget).1
  · intro id suffix hmem
    exact not_valid_tmp id suffix (htidy.mem_listChunks.mp hmem).1
  · intro id answers data hplay
    exact (ensures_readChunk id).ended hplay rfl data rfl

/-- A chunk server whose hash is the first byte of the data, repeated. -/
def sample : Config where
  sum256 data := .replicate 32 (data.headD 0)
  root := [['d', 'a', 't', 'a']]
  grace := 10
  dialer := true

/-- All operations of a `WriteChunk` that stores its data. -/
def storing (i : ℕ) : List Event :=
  [.op i .done, .op i (.flag false), .op i .notExist, .op i .done, .op i (.name ['0']), .op i .done,
    .op i .done, .op i .done, .op i .done, .op i .notExist, .op i .done]

/-- One chunk is stored, and the process dies when it has written a second one to a temporary file,
which loses its bytes. -/
def interrupted : List Event :=
  .start (.write [1]) :: storing 0 ++ .finish 0 :: .start (.write [2]) :: (storing 1).take 6 ++
    [.crash [(tmpPath sample.root (hash sample.sum256 [2]) ['0'], 0)]]

theorem interrupted_integrity :
    let w := final (guarded (step sample) fun _ _ => True)
      (.init Store.empty 0 fun _ => false) interrupted
    get w.shared.files (path sample.root (hash sample.sum256 [1])) = some [1] ∧
    get w.shared.files (tmpPath sample.root (hash sample.sum256 [2]) ['0']) = some [] ∧
    ∀ id, id ∈ listChunks sample.root w.shared.files ↔
      Valid id ∧ (get w.shared.files (path sample.root id)).isSome := by
  have henabled : Enabled (guarded (step sample) fun _ _ => True)
      (.init Store.empty 0 fun _ => false) interrupted := by decide +kernel
  exact ⟨by decide +kernel, by decide +kernel,
    (chunk_store_integrity (fun k _ => get_empty k) (.final henabled)).2.2.1⟩

/-- The file for the ID is there with the data, or a `DeleteChunk` of the ID has come after they
were stored. -/
def StoredAs (cfg : Config) (start : FS) (s : Shared) (id : ChunkID) (data : List UInt8) : Prop :=
  get s.files (path cfg.root id) = some data ∨
    ∃ before after, s.log = before ++ .deleted id :: after ∧
      (get start (path cfg.root id) = some data ∨ .stored (path cfg.root id) data ∈ before)

/-- When a `WriteChunk` returns an ID without having found it in flight, the data are stored, as
long as the store was sound at the start, the data have different hashes and nothing but valid IDs
is deleted. -/
theorem acknowledged_stored {id : ChunkID} {data : List UInt8}
    (hstart : ∀ id data, Valid id → get start (path cfg.root id) = some data →
      hash cfg.sum256 data = id)
    (h : Transition.Path (step cfg) (fun _ _ => True) (.init start now referenced) w)
    (hreturn : w.threads i = some (.ret (.write data, .wrote (.ok id))))
    (hjoined : .joined i ∉ w.shared.log) (hfree : CollisionFree cfg start w.shared.log)
    (hdeleted : ∀ id, .deleted id ∈ w.shared.log → Valid id) :
    id = hash cfg.sum256 data ∧ StoredAs cfg start w.shared id data := by
  obtain ⟨hid, hsafe⟩ := (Orderly.run hstart h).ended hreturn data id rfl
  refine ⟨hid, ?_⟩
  rcases hsafe.resolve_left hjoined hfree with hthere | ⟨before, id', after, hlog, hpath, hstored⟩
  · exact Or.inl (hid ▸ hthere)
  · have hvalid : Valid id' := hdeleted id' (by simp [hlog])
    have heq : id' = id :=
      hid ▸ path_injective hvalid (valid_hash cfg.sum256 data) hpath
    exact Or.inr ⟨before, after, heq ▸ hlog, hid ▸ hstored⟩

/-- A second call with the same data finds the chunk in place. -/
def rewriting : List Event :=
  .start (.write [1]) :: .start (.write [1]) :: storing 0 ++ .finish 0 ::
    [.op 1 .done, .op 1 (.flag false), .op 1 .done, .op 1 .done]

theorem acknowledged_stored_twice :
    let w := final (guarded (step sample) fun _ _ => True)
      (.init Store.empty 0 fun _ => false) rewriting
    StoredAs sample Store.empty w.shared (hash sample.sum256 [1]) [1] := by
  have henabled : Enabled (guarded (step sample) fun _ _ => True)
      (.init Store.empty 0 fun _ => false) rewriting := by decide +kernel
  have hlog : (final (guarded (step sample) fun _ _ => True)
      (.init Store.empty 0 fun _ => false) rewriting).shared.log =
        [.called 0 [1], .stored (path sample.root (hash sample.sum256 [1])) [1],
          .acked (hash sample.sum256 [1]) 0, .called 1 [1]] := by decide +kernel
  have hknown : ∀ data, Known sample Store.empty [.called 0 [1],
      .stored (path sample.root (hash sample.sum256 [1])) [1],
      .acked (hash sample.sum256 [1]) 0, .called 1 [1]] data → data = [1] := by
    rintro data (hstart | ⟨i, hcalled⟩)
    · rw [get_empty] at hstart
      cases hstart
    · simp at hcalled
      rcases hcalled with ⟨-, rfl⟩ | ⟨-, rfl⟩ <;> rfl
  have hreturn : (final (guarded (step sample) fun _ _ => True)
      (.init Store.empty 0 fun _ => false) rewriting).threads 1 =
        some (.ret (.write [1], .wrote (.ok (hash sample.sum256 [1])))) :=
    threads_eq_ret (by decide +kernel)
  refine (acknowledged_stored ?_ (.final henabled) hreturn ?_ ?_ ?_).2
  · intro id data _ hget
    rw [get_empty] at hget
    cases hget
  · rw [hlog]
    decide +kernel
  · rw [hlog]
    intro data data' hd hd' _
    rw [hknown data hd, hknown data' hd']
  · rw [hlog]
    intro id hid
    simp at hid

/-- The second call returns as soon as it finds the ID in flight, while the first one has not even
looked for the file. -/
theorem acknowledged_not_stored : ∃ w, Transition.Path (step sample) (fun _ _ => True)
      (.init Store.empty 0 fun _ => false) w ∧
    w.threads 1 = some (.ret (.write [1], .wrote (.ok (hash sample.sum256 [1])))) ∧
    get w.shared.files (path sample.root (hash sample.sum256 [1])) = none ∧
    ¬ StoredAs sample Store.empty w.shared (hash sample.sum256 [1]) [1] := by
  have henabled : Enabled (guarded (step sample) fun _ _ => True)
      (.init Store.empty 0 fun _ => false) [.start (.write [1]), .start (.write [1]),
        .op 0 .done, .op 0 (.flag false), .op 1 .done, .op 1 (.flag true)] := by decide +kernel
  refine ⟨_, .final henabled, rfl, by decide +kernel, ?_⟩
  rintro (hthere | ⟨before, after, hlog, -⟩)
  · revert hthere
    decide +kernel
  · have hmem : Happening.deleted (hash sample.sum256 [1]) ∈ before ++ .deleted _ :: after :=
      List.mem_append_right _ List.mem_cons_self
    rw [← hlog] at hmem
    revert hmem
    decide +kernel

end Results

end VaultFS.Chunk
