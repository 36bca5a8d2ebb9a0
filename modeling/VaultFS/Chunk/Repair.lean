import VaultFS.Chunk.Solo

/-!
# Writing and replicating over what is on disk

`WriteChunk` takes a file at the path of its ID for the chunk, while `ReadChunk` trusts the hash
only. A write therefore makes its data readable unless another content is there, and replicating
over a damaged file does not repair it. `ReplicateChunk` stores what the source sends under the hash
of that, whatever ID was asked for.
-/

namespace VaultFS.Chunk

open Interaction KeyValue Metadata

/-- The operations of a call in which none fails. -/
def unfailing (cfg : Config) (i : ℕ) (s : Shared) (o : Op) : Answer → Option Shared
  | .failed _ _ => none
  | a => serve cfg i s o a

/-- A `ReadChunk` in which nothing fails returns the data: each that ends, and there is one. -/
structure ReadsBack (cfg : Config) (s : Shared) (id : ChunkID) (data : List UInt8) : Prop where
  only : ∀ i res t, (readChunk cfg id).Ends (unfailing cfg i) s res t → res = .ok data
  ends : ∃ i t, (readChunk cfg id).Ends (unfailing cfg i) s (.ok data) t

section Reading

variable {cfg : Config} {i : ℕ} {s : Shared} {id : ChunkID} {data : List UInt8}

theorem verify_hash (sum256 : List UInt8 → Sum) (data : List UInt8) :
    verify sum256 (hash sum256 data) data = none := by
  simp [verify]

/-- What a `ReadChunk` returns in which nothing fails. -/
def readResult (cfg : Config) (s : Shared) (id : ChunkID) : Except String (List UInt8) :=
  match get s.files (path cfg.root id) with
  | some data =>
      match verify cfg.sum256 id data with
      | some err => .error err
      | none => .ok data
  | none => .error ("chunk: not found: " ++ String.ofList id)

theorem ensures_live (cfg : Config) (i : ℕ) (s : Shared) :
    Prog.Ensures (unfailing cfg i) (fun _ => True) (fun a t => a = .done ∧ t = s) s
      (.op .ctxErr) := by
  refine .op trivial ?_
  intro a t ht
  cases a <;> simp only [unfailing, serve, Option.some.injEq, reduceCtorEq] at ht
  exact ⟨trivial, rfl, ht.symm⟩

/-- A panic does not return. -/
theorem ensures_panic (cfg : Config) (i : ℕ) (s : Shared) :
    Prog.Ensures (unfailing cfg i) (fun _ => True) (fun _ _ => False) s (.op .panic) := by
  refine .op trivial ?_
  intro a t ht
  cases a <;> simp only [unfailing, serve, reduceCtorEq] at ht

theorem ensures_readFile (cfg : Config) (i : ℕ) (s : Shared) (file : Path) :
    Prog.Ensures (unfailing cfg i) (fun _ => True)
      (fun a t => t = s ∧ (a = .notExist ∧ get s.files file = none ∨
        ∃ data, a = .bytes data ∧ get s.files file = some data)) s (.op (.readFile file)) := by
  refine .op trivial ?_
  intro a t ht
  cases a <;> simp only [unfailing, serve, reduceCtorEq] at ht
  case notExist =>
    split at ht
    · cases ht
    · rename_i hnone
      cases ht
      exact ⟨trivial, rfl, .inl ⟨rfl, Option.not_isSome_iff_eq_none.mp hnone⟩⟩
  case bytes data =>
    split at ht
    · rename_i hget
      cases ht
      exact ⟨trivial, rfl, .inr ⟨data, rfl, hget⟩⟩
    · cases ht

theorem ensures_readResult (cfg : Config) (i : ℕ) (s : Shared) (id : ChunkID) :
    Prog.Ensures (unfailing cfg i) (fun _ => True) (fun res _ => res = readResult cfg s id) s
      (readChunk cfg id) := by
  rw [readChunk]
  refine .bind (ensures_live cfg i s) fun a t _ hdone => ?_
  obtain ⟨rfl, rfl⟩ := hdone
  simp only
  split
  · exact .bind (ensures_panic cfg i t) fun _ _ _ hfalse => hfalse.elim
  · refine .bind (ensures_readFile cfg i t _) fun b u _ hb => ?_
    obtain ⟨rfl, ⟨rfl, hget⟩ | ⟨data, rfl, hget⟩⟩ := hb
    · refine .ret trivial ?_
      simp only [readResult, hget]
    · simp only [readResult, hget]
      cases verify cfg.sum256 id data <;> exact .ret trivial rfl

theorem readResult_eq_ok : readResult cfg s id = .ok data ↔
    get s.files (path cfg.root id) = some data ∧ hash cfg.sum256 data = id := by
  rw [readResult]
  constructor
  · intro h
    split at h
    · rename_i content hget
      split at h
      · cases h
      · rename_i hverify
        cases h
        exact ⟨hget, verify_eq_none hverify⟩
    · cases h
  · rintro ⟨hget, rfl⟩
    rw [hget]
    simp only [verify_hash]

theorem ends_readChunk (h : get s.files (path cfg.root (hash cfg.sum256 data)) = some data) :
    (readChunk cfg (hash cfg.sum256 data)).Ends (unfailing cfg i) s (.ok data) s := by
  have hlen : ¬ (hash cfg.sum256 data).length < fanoutLen := by
    rw [(valid_hash cfg.sum256 data).1]
    decide
  have hread : unfailing cfg i s (.readFile (path cfg.root (hash cfg.sum256 data))) (.bytes data) =
      some s := if_pos h
  rw [readChunk]
  refine .bind (.op (r := .done) rfl) ?_
  simp only [if_neg hlen]
  refine .bind (.op hread) ?_
  simp only [verify_hash]
  exact .ret s _

theorem readsBack_iff : ReadsBack cfg s id data ↔
    get s.files (path cfg.root id) = some data ∧ hash cfg.sum256 data = id := by
  constructor
  · rintro ⟨-, i, t, hends⟩
    exact readResult_eq_ok.mp ((ensures_readResult cfg i s id).ends hends).symm
  · rintro ⟨hget, rfl⟩
    refine ⟨?_, 0, s, ends_readChunk hget⟩
    intro i res t hends
    rw [(ensures_readResult cfg i s _).ends hends]
    exact readResult_eq_ok.mpr ⟨hget, rfl⟩

end Reading

section Runs

variable {cfg : Config} {i : ℕ} {s t : Shared} {data : List UInt8} {content : Option (List UInt8)}

/-- After the dial and the answer of the source, a `ReplicateChunk` is a `WriteChunk`. -/
theorem play_replicateChunk (hdial : cfg.dialer = true) (req : ReplicateRequest)
    (rs : List Answer) :
    (replicateChunk cfg req).play (serve cfg i) s (.done :: .bytes data :: rs) =
      (do match ← writeChunk cfg data with
          | .error err => return .error ⟨.internal, "store replicated chunk: " ++ err⟩
          | .ok id => return .ok id : Act (Except Status ChunkID)).play (serve cfg i) s rs := by
  simp only [replicateChunk, hdial, Bool.true_eq_false, if_false]
  rfl

/-- A server without a dialer does not replicate. -/
theorem dialer_of_play {req : ReplicateRequest} {a : Answer} {rs : List Answer}
    {x : Shared × Act (Except Status ChunkID)}
    (hplay : (replicateChunk cfg req).play (serve cfg i) s (a :: rs) = some x) :
    cfg.dialer = true := by
  cases hdial : cfg.dialer with
  | true => rfl
  | false =>
      simp only [replicateChunk, hdial, if_true] at hplay
      cases hplay

/-- What a `WriteChunk` of the data ensures holds after a `ReplicateChunk` that was sent them. -/
theorem replicateChunk_ensures {C : Shared → Prop} {Q : Except String ChunkID → Shared → Prop}
    (h : Prog.Ensures (serve cfg i) C Q s (writeChunk cfg data)) {req : ReplicateRequest}
    {rs : List Answer} {id : ChunkID}
    (hplay : (replicateChunk cfg req).play (serve cfg i) s (.done :: .bytes data :: rs) =
      some (t, .ret (.ok id))) : Q (.ok id) t := by
  rw [play_replicateChunk (dialer_of_play hplay)] at hplay
  have hensures : Prog.Ensures (serve cfg i) C (fun res u => ∀ id, res = .ok id → Q (.ok id) u) s
      (do match ← writeChunk cfg data with
          | .error err => return .error ⟨.internal, "store replicated chunk: " ++ err⟩
          | .ok id => return .ok id : Act (Except Status ChunkID)) := by
    refine .bind h fun res u hcut hres => ?_
    cases res with
    | error err => exact .ret hcut nofun
    | ok id =>
        refine .ret hcut ?_
        rintro id' ⟨⟩
        exact hres
  exact hensures.ended hplay rfl id rfl

/-- A `WriteChunk` ends as its part with the chunk in flight does. -/
theorem ends_writeChunk (hfree : s.writing (hash cfg.sum256 data) = none)
    (hpersist : ∀ u, u.files = s.files → ∃ t,
      (persist (hash cfg.sum256 data) data (dest cfg data)).Ends (serve cfg i) u
        (.ok (hash cfg.sum256 data)) t ∧ get t.files (dest cfg data) = content) :
    ∃ t, (writeChunk cfg data).Ends (serve cfg i) s (.ok (hash cfg.sum256 data)) t ∧
      get t.files (dest cfg data) = content := by
  have henter : serve cfg i s (.enter (hash cfg.sum256 data) data) (.flag false) = some { s with
      writing := Function.update s.writing (hash cfg.sum256 data) (some i)
      log := s.log ++ [.called i data] } := by
    simp [serve, hfree]
  obtain ⟨t, hends, hget⟩ := hpersist { s with
      writing := Function.update s.writing (hash cfg.sum256 data) (some i)
      log := s.log ++ [.called i data] } rfl
  refine ⟨{ t with writing := Function.update t.writing (hash cfg.sum256 data) none }, ?_, hget⟩
  rw [writeChunk]
  refine .bind (.op (r := .done) rfl) (.bind (.op henter) (.bind hends ?_))
  exact .bind (.op (r := .done) rfl) (.ret _ _)

/-- There is a run of `WriteChunk` that finds the file, whatever is in it. -/
theorem ends_found (hfree : s.writing (hash cfg.sum256 data) = none)
    (hsome : (get s.files (dest cfg data)).isSome) :
    ∃ t, (writeChunk cfg data).Ends (serve cfg i) s (.ok (hash cfg.sum256 data)) t ∧
      get t.files (dest cfg data) = get s.files (dest cfg data) := by
  refine ends_writeChunk hfree fun u hfiles => ⟨u, ?_, by rw [hfiles]⟩
  have hstat : serve cfg i u (.stat (dest cfg data)) .done = some u := if_pos (by rwa [hfiles])
  rw [persist]
  exact .bind (.op hstat) (.ret u _)

theorem ends_commit (cfg : Config) (i : ℕ) (id : ChunkID) (data : List UInt8) (target : Path)
    {tmpName : Path} (hsome : (get s.files tmpName).isSome) :
    ∃ t, (commit id data tmpName target).Ends (serve cfg i) s (.ok id) t ∧
      t.files = put (delete (put s.files tmpName data) tmpName) target data := by
  let u : Shared := { s with
    files := overwrite s.files tmpName data
    dirty := Function.update (Function.update s.dirty tmpName true) tmpName false }
  have hfiles : u.files = put s.files tmpName data := if_pos hsome
  let t : Shared := { u with
    files := put (delete u.files tmpName) target data
    dirty := Function.update u.dirty target (u.dirty tmpName)
    log := u.log ++ [.stored target data] }
  have hrename : serve cfg i u (.rename tmpName target) .done = some t := by
    simp only [serve, t, hfiles, get_put_self, Option.map_some]
  refine ⟨t, ?_, congrArg (fun files => put (delete files tmpName) target data) hfiles⟩
  rw [commit]
  refine .bind (.op (r := .done) rfl) (.bind (.op (r := .done) rfl) ?_)
  refine .bind (.op (r := .done) rfl) ?_
  exact .bind (.op hrename) (.ret t _)

/-- There is a run of `WriteChunk` that finds no file and stores the data. -/
theorem ends_stored (hfree : s.writing (hash cfg.sum256 data) = none) :
    ∃ t, (writeChunk cfg data).Ends (serve cfg i) s (.ok (hash cfg.sum256 data)) t ∧
      get t.files (dest cfg data) = some data := by
  have hvalid := valid_hash cfg.sum256 data
  refine ends_writeChunk hfree fun u hfiles => ?_
  obtain ⟨suffix, hfresh⟩ := exists_get_eq_none
    (f := tmpPath cfg.root (hash cfg.sum256 data)) tmpPath_suffix_injective u.files
  let v : Shared := { u with
    files := put u.files (tmpPath cfg.root (hash cfg.sum256 data) suffix) []
    dirty := Function.update u.dirty (tmpPath cfg.root (hash cfg.sum256 data) suffix) true }
  have hcreate : serve cfg i u (.createTemp (dest cfg data).dropLast
      (tmpPattern (hash cfg.sum256 data))) (.name suffix) = some v := by
    simp only [serve, dest, tmpName_eq cfg.root hvalid, hfresh]
    rfl
  have hsome : (get v.files (tmpPath cfg.root (hash cfg.sum256 data) suffix)).isSome := by
    simp only [v, get_put_self, Option.isSome_some]
  obtain ⟨t, hcommit, htfiles⟩ :=
    ends_commit cfg i (hash cfg.sum256 data) data (dest cfg data) hsome
  have hgone : get t.files (tmpPath cfg.root (hash cfg.sum256 data) suffix) = none := by
    rw [htfiles, get_put_of_ne _ _ (dest_ne_tmpPath cfg data _ suffix).symm, get_delete_self]
  have hremove : serve cfg i t (.remove (tmpPath cfg.root (hash cfg.sum256 data) suffix) .writer)
      .notExist = some t := by
    simp [serve, hgone]
  refine ⟨t, ?_, by rw [htfiles, get_put_self]⟩
  rw [persist]
  refine .bind (.op (r := .notExist) rfl) (.bind (.op (r := .done) rfl) (.bind (.op hcreate) ?_))
  simp only [dest, tmpName_eq cfg.root hvalid]
  exact .bind hcommit (.bind (.op hremove) (.ret t _))

/-- A `ReplicateChunk` that gets the data ends as a `WriteChunk` of them does. -/
theorem ends_replicateChunk (hdial : cfg.dialer = true) (req : ReplicateRequest) {id : ChunkID}
    (h : (writeChunk cfg data).Ends (serve cfg i) s (.ok id) t) :
    ∃ rs, (replicateChunk cfg req).play (serve cfg i) s (.done :: .bytes data :: rs) =
      some (t, .ret (.ok id)) := by
  simp only [play_replicateChunk hdial]
  exact h.bind (.ret t _)

end Runs

section Repair

variable {cfg : Config} {s : Shared} {data : List UInt8}

/-- Each `WriteChunk` of the data, and each `ReplicateChunk` that is sent them, leaves them readable
when it returns an ID. -/
def MakesReadable (cfg : Config) (s : Shared) (data : List UInt8) : Prop :=
  (∀ i id t, (writeChunk cfg data).Ends (serve cfg i) s (.ok id) t → ReadsBack cfg t id data) ∧
  ∀ i req rs id t, (replicateChunk cfg req).play (serve cfg i) s (.done :: .bytes data :: rs) =
    some (t, .ret (.ok id)) → ReadsBack cfg t id data

theorem Written.readsBack {t : Shared} {id : ChunkID}
    (h : get s.files (dest cfg data) = none ∨ get s.files (dest cfg data) = some data)
    (hwritten : Written cfg data s (.ok id) t) : ReadsBack cfg t id data := by
  obtain ⟨rfl, ⟨hstays, hsome⟩ | hgains⟩ := hwritten
  · refine readsBack_iff.mpr ⟨?_, rfl⟩
    rw [hstays _ (valid_hash cfg.sum256 data)]
    rcases h with hnone | hdata
    · rw [hnone] at hsome
      cases hsome
    · exact hdata
  · exact readsBack_iff.mpr ⟨hgains.stored, rfl⟩

/-- A write makes its data readable exactly if no other content is at their path. -/
theorem makesReadable_iff (hfree : s.writing (hash cfg.sum256 data) = none) :
    MakesReadable cfg s data ↔
      get s.files (dest cfg data) = none ∨ get s.files (dest cfg data) = some data := by
  constructor
  · rintro ⟨hwrite, -⟩
    cases hget : get s.files (dest cfg data) with
    | none => exact .inl rfl
    | some content =>
        obtain ⟨t, hends, hsame⟩ := ends_found hfree (by rw [hget]; rfl)
        have hread := readsBack_iff.mp (hwrite 0 _ t hends)
        right
        rw [← hget, ← hsame]
        exact hread.1
  · intro h
    refine ⟨?_, ?_⟩
    · intro i id t hends
      exact ((ensures_writeChunk hfree).ends hends).1.readsBack h
    · intro i req rs id t hplay
      exact (replicateChunk_ensures (ensures_writeChunk hfree) hplay).1.readsBack h

/-- A store without files. -/
def vacant : Shared := (World.init Store.empty 0 fun _ => false).shared

theorem get_vacant (k : Path) : get vacant.files k = none := get_empty k

/-- A store with one file, which holds a chunk. -/
def intact : Shared :=
  (World.init (put Store.empty (dest sample [1]) [1]) 0 fun _ => false).shared

theorem makesReadable_sample :
    MakesReadable sample vacant [1] ∧ MakesReadable sample intact [1] :=
  ⟨(makesReadable_iff rfl).mpr (.inl (get_vacant _)),
    (makesReadable_iff rfl).mpr (.inr (get_put_self _ _ _))⟩

/-- A store with one file, whose content does not have the hash of its name. -/
def damaged : Shared :=
  (World.init (put Store.empty (dest sample [1]) [2]) 0 fun _ => false).shared

/-- Writing or replicating a chunk over a damaged file reports success and leaves the file. -/
theorem damaged_not_repaired :
    (∃ t, (writeChunk sample [1]).Ends (serve sample 0) damaged (.ok (hash sample.sum256 [1])) t ∧
      get t.files (dest sample [1]) = some [2] ∧
      ¬ ReadsBack sample t (hash sample.sum256 [1]) [1]) ∧
    ¬ MakesReadable sample damaged [1] := by
  have hget : get damaged.files (dest sample [1]) = some [2] := get_put_self _ _ _
  have hfree : damaged.writing (hash sample.sum256 [1]) = none := rfl
  obtain ⟨t, hends, hsame⟩ := ends_found (i := 0) hfree (by rw [hget]; rfl)
  have hcontent : get t.files (dest sample [1]) = some [2] := hsame.trans hget
  have hnot : ¬ ReadsBack sample t (hash sample.sum256 [1]) [1] := by
    intro hread
    have hone : get t.files (dest sample [1]) = some [1] := (readsBack_iff.mp hread).1
    rw [hcontent] at hone
    cases hone
  exact ⟨⟨t, hends, hcontent, hnot⟩, fun hall => hnot (hall.1 0 _ t hends)⟩

end Repair

section Restore

variable {cfg : Config} {i : ℕ} {s t : Shared} {id : ChunkID} {data : List UInt8}

/-- There are bytes to be read under the ID. -/
def Readable (cfg : Config) (s : Shared) (id : ChunkID) : Prop := ∃ data, ReadsBack cfg s id data

/-- The chunk is there, and no other one was added. -/
structure Restored (cfg : Config) (id : ChunkID) (s t : Shared) : Prop where
  readable : Readable cfg t id
  other : ∀ id', Valid id' → id' ≠ id → (get t.files (path cfg.root id')).isSome →
    (get s.files (path cfg.root id')).isSome

/-- Each `ReplicateChunk` of the ID that is sent the data restores the chunk when it returns without
an error. -/
def Restores (cfg : Config) (s : Shared) (id : ChunkID) (data : List UInt8) : Prop :=
  ∀ i source rs id' t, (replicateChunk cfg ⟨id, source⟩).play (serve cfg i) s
    (.done :: .bytes data :: rs) = some (t, .ret (.ok id')) → Restored cfg id s t

theorem Readable.valid (h : Readable cfg s id) : Valid id := by
  obtain ⟨data, hread⟩ := h
  rw [← (readsBack_iff.mp hread).2]
  exact valid_hash cfg.sum256 data

theorem Readable.of_get (h : Readable cfg s id)
    (hget : get t.files (path cfg.root id) = get s.files (path cfg.root id)) :
    Readable cfg t id := by
  obtain ⟨data, hread⟩ := h
  rw [readsBack_iff, ← hget, ← readsBack_iff] at hread
  exact ⟨data, hread⟩

/-- The files of a store hash to their IDs. -/
def Intact (cfg : Config) (s : Shared) : Prop :=
  ∀ id data, Valid id → get s.files (path cfg.root id) = some data → hash cfg.sum256 data = id

theorem Intact.readable_iff (h : Intact cfg s) (hvalid : Valid id) :
    Readable cfg s id ↔ (get s.files (path cfg.root id)).isSome := by
  constructor
  · rintro ⟨data, hread⟩
    rw [(readsBack_iff.mp hread).1]
    rfl
  · intro hsome
    obtain ⟨data, hget⟩ := Option.isSome_iff_exists.mp hsome
    exact ⟨data, readsBack_iff.mpr ⟨hget, h id data hvalid hget⟩⟩

/-- Where a write of the chunk is in flight, a `WriteChunk` changes no file. -/
theorem ensures_joined (h : (s.writing (hash cfg.sum256 data)).isSome) :
    Prog.Ensures (serve cfg i) (fun _ => True) (fun _ t => t.files = s.files) s
      (writeChunk cfg data) := by
  rw [writeChunk]
  refine .bind (Q := fun _ t => t = s) (.op trivial ?_) fun a t _ ht => ?_
  · intro a t ht
    cases served ht <;> exact ⟨trivial, rfl⟩
  · subst ht
    split
    · exact .ret trivial rfl
    · refine .bind (Q := fun b u => b = .flag true ∧ u.files = t.files) (.op trivial ?_)
        fun b u _ hb => ?_
      · intro b u hu
        cases served hu with
        | failed ho => exact ho.elim
        | joined => exact ⟨trivial, rfl, rfl⟩
        | entered _ hfree => simp [hfree] at h
      · obtain ⟨rfl, hfiles⟩ := hb
        exact .ret trivial hfiles

theorem ends_joined (h : (s.writing (hash cfg.sum256 data)).isSome) :
    ∃ t, (writeChunk cfg data).Ends (serve cfg i) s (.ok (hash cfg.sum256 data)) t := by
  have henter : serve cfg i s (.enter (hash cfg.sum256 data) data) (.flag true) = some { s with
      log := s.log ++ [.called i data, .joined i] } := by
    simp [serve, h]
  refine ⟨{ s with log := s.log ++ [.called i data, .joined i] }, ?_⟩
  rw [writeChunk]
  refine .bind (.op (r := .done) rfl) ?_
  exact .bind (.op henter) (.ret _ _)

theorem restores_joined_iff (hdial : cfg.dialer = true)
    (h : (s.writing (hash cfg.sum256 data)).isSome) :
    Restores cfg s id data ↔ Readable cfg s id := by
  constructor
  · intro hrestores
    obtain ⟨t, hends⟩ := ends_joined (i := 0) h
    obtain ⟨rs, hplay⟩ := ends_replicateChunk hdial ⟨id, ""⟩ hends
    have hfiles : t.files = s.files := (ensures_joined h).ends hends
    exact (hrestores 0 "" rs _ t hplay).readable.of_get (by rw [hfiles])
  · intro hread i source rs id' t hplay
    have hfiles : t.files = s.files := replicateChunk_ensures (ensures_joined h) hplay
    refine ⟨hread.of_get (by rw [hfiles]), ?_⟩
    intro id' _ _ hsome
    rwa [hfiles] at hsome

theorem Written.restored {id' : ChunkID} (h : Written cfg data s (.ok id') t)
    (hintact : Intact cfg s) (hid : hash cfg.sum256 data = id ∨
      Readable cfg s id ∧ Readable cfg s (hash cfg.sum256 data)) : Restored cfg id s t := by
  have hvalid := valid_hash cfg.sum256 data
  obtain ⟨-, ⟨hstays, hsome⟩ | hgains⟩ := h
  · -- A file was found, and it is the chunk.
    have hread : Readable cfg s id := by
      rcases hid with rfl | ⟨hread, -⟩
      · exact (hintact.readable_iff hvalid).mpr hsome
      · exact hread
    refine ⟨hread.of_get (hstays id hread.valid), ?_⟩
    intro id' hid' _ hsome'
    rwa [hstays id' hid'] at hsome'
  · have hstored : Readable cfg t (hash cfg.sum256 data) :=
      ⟨data, readsBack_iff.mpr ⟨hgains.stored, rfl⟩⟩
    by_cases heq : hash cfg.sum256 data = id
    · subst heq
      refine ⟨hstored, ?_⟩
      intro id' hid' hne hsome'
      rwa [hgains.other id' hid' hne] at hsome'
    · obtain ⟨hread, hsent⟩ := hid.resolve_left heq
      refine ⟨hread.of_get (hgains.other id hread.valid (Ne.symm heq)), ?_⟩
      intro id' hid' _ hsome'
      by_cases hdest : id' = hash cfg.sum256 data
      · subst hdest
        exact (hintact.readable_iff hvalid).mp hsent
      · rwa [hgains.other id' hid' hdest] at hsome'

theorem restores_free_iff (hdial : cfg.dialer = true) (hintact : Intact cfg s)
    (hfree : s.writing (hash cfg.sum256 data) = none) : Restores cfg s id data ↔
      hash cfg.sum256 data = id ∨ Readable cfg s id ∧ Readable cfg s (hash cfg.sum256 data) := by
  have hvalid := valid_hash cfg.sum256 data
  constructor
  · intro hrestores
    by_cases hsome : (get s.files (dest cfg data)).isSome
    · obtain ⟨t, hends, hsame⟩ := ends_found (i := 0) hfree hsome
      obtain ⟨rs, hplay⟩ := ends_replicateChunk hdial ⟨id, ""⟩ hends
      have hread := (hrestores 0 "" rs _ t hplay).readable
      have hget : get s.files (path cfg.root id) = get t.files (path cfg.root id) := by
        by_cases heq : id = hash cfg.sum256 data
        · subst heq
          exact hsame.symm
        · obtain ⟨-, ⟨hstays, -⟩ | hgains⟩ := ((ensures_writeChunk hfree).ends hends).1
          · exact (hstays id hread.valid).symm
          · exact (hgains.other id hread.valid heq).symm
      exact .inr ⟨hread.of_get hget, (hintact.readable_iff hvalid).mpr hsome⟩
    · obtain ⟨t, hends, hstored⟩ := ends_stored (i := 0) hfree
      obtain ⟨rs, hplay⟩ := ends_replicateChunk hdial ⟨id, ""⟩ hends
      left
      by_contra hne
      refine hsome ((hrestores 0 "" rs _ t hplay).other _ hvalid hne ?_)
      change (get t.files (dest cfg data)).isSome
      rw [hstored]
      rfl
  · intro hid i source rs id' t hplay
    exact (replicateChunk_ensures (ensures_writeChunk hfree) hplay).1.restored hintact hid

/-- `ReplicateChunk` restores the chunk exactly if the source sends this chunk, or if both the chunk
and the one that is sent are there before. A write of the sent data in flight counts as done for
`WriteChunk`, which then stores nothing. -/
theorem restores_iff (hintact : Intact cfg s) : Restores cfg s id data ↔
    cfg.dialer = false ∨
      (s.writing (hash cfg.sum256 data)).isSome ∧ Readable cfg s id ∨
      s.writing (hash cfg.sum256 data) = none ∧ (hash cfg.sum256 data = id ∨
        Readable cfg s id ∧ Readable cfg s (hash cfg.sum256 data)) := by
  cases hdial : cfg.dialer with
  | false =>
      refine iff_of_true ?_ (.inl rfl)
      intro i source rs id' t hplay
      rw [dialer_of_play hplay] at hdial
      cases hdial
  | true =>
      cases hwriting : s.writing (hash cfg.sum256 data) with
      | none => simp [restores_free_iff hdial hintact hwriting]
      | some j =>
          have hsome : (s.writing (hash cfg.sum256 data)).isSome := by rw [hwriting]; rfl
          simp [restores_joined_iff hdial hsome]

theorem intact_vacant (cfg : Config) : Intact cfg vacant := by
  intro id data _ hget
  rw [get_vacant] at hget
  cases hget

theorem restores_requested : Restores sample vacant (hash sample.sum256 [1]) [1] :=
  (restores_iff (intact_vacant sample)).mpr (.inr (.inr ⟨rfl, .inl rfl⟩))

/-- The source sends other bytes. They are stored as another chunk, and the call succeeds. -/
theorem replicated_other :
    (∃ rs t, (replicateChunk sample ⟨hash sample.sum256 [1], "source"⟩).play (serve sample 0) vacant
        (.done :: .bytes [2] :: rs) = some (t, .ret (.ok (hash sample.sum256 [2]))) ∧
      get t.files (path sample.root (hash sample.sum256 [2])) = some [2] ∧
      ¬ Readable sample t (hash sample.sum256 [1])) ∧
    Intact sample vacant ∧ ¬ Restores sample vacant (hash sample.sum256 [1]) [2] := by
  have hfree : vacant.writing (hash sample.sum256 [2]) = none := rfl
  have hne : hash sample.sum256 [1] ≠ hash sample.sum256 [2] := by decide
  obtain ⟨t, hends, hstored⟩ := ends_stored (i := 0) hfree
  have hnone : get t.files (path sample.root (hash sample.sum256 [1])) = none := by
    have hvalid := valid_hash sample.sum256 [1]
    obtain ⟨-, ⟨hstays, -⟩ | hgains⟩ := ((ensures_writeChunk hfree).ends hends).1
    · exact (hstays _ hvalid).trans (get_vacant _)
    · exact (hgains.other _ hvalid hne).trans (get_vacant _)
  have hnot : ¬ Readable sample t (hash sample.sum256 [1]) := by
    rintro ⟨data, hread⟩
    rw [readsBack_iff, hnone] at hread
    cases hread.1
  obtain ⟨rs, hplay⟩ := ends_replicateChunk rfl ⟨hash sample.sum256 [1], "source"⟩ hends
  refine ⟨⟨rs, t, hplay, hstored, hnot⟩, intact_vacant sample, ?_⟩
  intro hrestores
  exact hnot (hrestores 0 "source" rs _ t hplay).readable

end Restore

end VaultFS.Chunk
