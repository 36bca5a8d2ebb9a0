import VaultFS.Chunk.Integrity

/-!
# One call at a time

Calls to a chunk server while no other call is going on. A `WriteChunk` leaves all chunks as they
were, or adds the data under their own ID (`ensures_writeChunk`). When it returns without an error
the file of the ID is there, but it is the new one only if `WriteChunk` has not found one before:
a file that exists is taken for the chunk, whatever is in it.
-/

namespace VaultFS.Chunk

open Interaction KeyValue Metadata

/-- The chunks are the same. -/
def Stays (cfg : Config) (s t : Shared) : Prop :=
  ∀ id, Valid id → get t.files (path cfg.root id) = get s.files (path cfg.root id)

/-- The data are there as a chunk, and the other chunks are the same. -/
structure Gains (cfg : Config) (data : List UInt8) (s t : Shared) : Prop where
  stored : get t.files (dest cfg data) = some data
  other : ∀ id, Valid id → id ≠ hash cfg.sum256 data →
    get t.files (path cfg.root id) = get s.files (path cfg.root id)

/-- At every moment the chunks are the old ones, with or without the data. -/
def StaysOrGains (cfg : Config) (data : List UInt8) (s t : Shared) : Prop :=
  Stays cfg s t ∨ Gains cfg data s t

/-- What a `WriteChunk` has done to the chunks. -/
def Written (cfg : Config) (data : List UInt8) (s : Shared) (res : Except String ChunkID)
    (t : Shared) : Prop :=
  match res with
  | .error _ => Stays cfg s t
  | .ok id => id = hash cfg.sum256 data ∧
      (Stays cfg s t ∧ (get s.files (dest cfg data)).isSome ∨ Gains cfg data s t)

variable {cfg : Config} {i : ℕ} {s t u : Shared} {data : List UInt8}

namespace Stays

theorem refl (cfg : Config) (s : Shared) : Stays cfg s s := fun _ _ => rfl

theorem trans (h : Stays cfg s t) (h' : Stays cfg t u) : Stays cfg s u :=
  fun id hid => (h' id hid).trans (h id hid)

theorem of_files (h : t.files = s.files) : Stays cfg s t := by
  intro id _
  rw [h]

/-- A change at a temporary file. -/
theorem of_tmp (id : ChunkID) {suffix : List Char}
    (h : ∀ k, k ≠ tmpPath cfg.root id suffix → get t.files k = get s.files k) : Stays cfg s t :=
  fun _ hid => h _ (tmpPath_ne_path id suffix hid).symm

/-- A temporary file gets the name of its content. -/
theorem rename {suffix : List Char} (h : Stays cfg s t)
    (hfiles : u.files = put (delete t.files
      (tmpPath cfg.root (hash cfg.sum256 data) suffix)) (dest cfg data) data) :
    Gains cfg data s u := by
  refine ⟨?_, ?_⟩
  · rw [hfiles]
    exact get_put_self _ _ _
  · intro id hid hne
    have hpath : path cfg.root id ≠ dest cfg data :=
      fun heq => hne (path_injective hid (valid_hash cfg.sum256 data) heq)
    rw [hfiles, get_put_of_ne _ _ hpath, get_delete_of_ne _ (tmpPath_ne_path _ suffix hid).symm]
    exact h id hid

end Stays

theorem Gains.trans (h : Gains cfg data s t) (h' : Stays cfg t u) : Gains cfg data s u :=
  ⟨(h' _ (valid_hash cfg.sum256 data)).trans h.stored,
    fun id hid hne => (h' id hid).trans (h.other id hid hne)⟩

namespace Written

theorem trans {res : Except String ChunkID} (h : Written cfg data s res t) (h' : Stays cfg t u) :
    Written cfg data s res u := by
  cases res with
  | error err => exact Stays.trans h h'
  | ok id =>
      obtain ⟨hid, ⟨hstays, hsome⟩ | hgains⟩ := h
      · exact ⟨hid, .inl ⟨hstays.trans h', hsome⟩⟩
      · exact ⟨hid, .inr (hgains.trans h')⟩

theorem staysOrGains {res : Except String ChunkID} (h : Written cfg data s res t) :
    StaysOrGains cfg data s t := by
  cases res with
  | error err => exact .inl h
  | ok id =>
      obtain ⟨-, ⟨hstays, -⟩ | hgains⟩ := h
      · exact .inl hstays
      · exact .inr hgains

end Written

section Write

/-- The state of a write: the chunks are still the old ones, and the writes in flight are as
given. -/
structure Drafting (cfg : Config) (s : Shared) (writing : ChunkID → Option ℕ) (t : Shared) :
    Prop where
  stays : Stays cfg s t
  writing : t.writing = writing

variable {writing : ChunkID → Option ℕ}

/-- An operation that leaves the files alone. -/
theorem ensures_quiet {o : Op} (ho : o.Quiet) (h : Drafting cfg s writing t) :
    Prog.Ensures (serve cfg i) (StaysOrGains cfg data s)
      (fun _ u => Drafting cfg s writing u ∧ u.files = t.files) t (.op o) := by
  refine .op (.inl h.stays) ?_
  intro a u hu
  obtain ⟨hfiles, -, hwriting, -⟩ := serve_quiet ho hu
  have hstays := h.stays.trans (.of_files hfiles)
  exact ⟨.inl hstays, ⟨hstays, hwriting.trans h.writing⟩, hfiles⟩

theorem ensures_fail (h : Drafting cfg s writing t) (err : String) :
    Prog.Ensures (serve cfg i) (StaysOrGains cfg data s)
      (fun res u => Written cfg data s res u ∧ u.writing = writing) t
      (pure (.error err) : Act (Except String ChunkID)) :=
  .ret (.inl h.stays) ⟨h.stays, h.writing⟩

theorem ensures_close_fail (h : Drafting cfg s writing t) (tmpName : Path) (err : String) :
    Prog.Ensures (serve cfg i) (StaysOrGains cfg data s)
      (fun res u => Written cfg data s res u ∧ u.writing = writing) t
      (do let _ ← Prog.op (.close tmpName)
          return .error err : Act (Except String ChunkID)) :=
  .bind (ensures_quiet (o := .close tmpName) trivial h) fun _ _ _ hu => ensures_fail hu.1 err

theorem ensures_sync {tmpName : Path} (h : Drafting cfg s writing t) :
    Prog.Ensures (serve cfg i) (StaysOrGains cfg data s)
      (fun _ u => Drafting cfg s writing u ∧ u.files = t.files) t (.op (.sync tmpName)) := by
  refine .op (.inl h.stays) ?_
  intro a u hu
  cases served hu with
  | synced | failed => exact ⟨.inl h.stays, ⟨h.stays, h.writing⟩, rfl⟩

theorem ensures_stat (h : Drafting cfg s writing t) :
    Prog.Ensures (serve cfg i) (StaysOrGains cfg data s)
      (fun a u => Drafting cfg s writing u ∧ u.files = t.files ∧
        (a = .done → (get t.files (dest cfg data)).isSome)) t (.op (.stat (dest cfg data))) := by
  refine .op (.inl h.stays) ?_
  intro a u hu
  obtain ⟨hfiles, -, hwriting, -⟩ := serve_quiet (o := .stat (dest cfg data)) trivial hu
  have hstays := h.stays.trans (.of_files hfiles)
  refine ⟨.inl hstays, ⟨hstays, hwriting.trans h.writing⟩, hfiles, ?_⟩
  rintro rfl
  cases served hu with
  | found hsome => exact hsome

/-- A new temporary file. -/
theorem ensures_createTemp (h : Drafting cfg s writing t) :
    Prog.Ensures (serve cfg i) (StaysOrGains cfg data s)
      (fun a u => Drafting cfg s writing u ∧ ∀ suffix, a = .name suffix →
        (get u.files (tmpPath cfg.root (hash cfg.sum256 data) suffix)).isSome) t
      (.op (.createTemp (dest cfg data).dropLast (tmpPattern (hash cfg.sum256 data)))) := by
  refine .op (.inl h.stays) ?_
  intro a u hu
  cases served hu with
  | created =>
      simp only [dest, tmpName_eq cfg.root (valid_hash cfg.sum256 data)]
      refine ⟨.inl ?stays, ⟨?stays, h.writing⟩, ?_⟩
      case stays =>
        exact h.stays.trans (.of_tmp _ fun k hk => get_put_of_ne t.files [] hk)
      rintro suffix' ⟨⟩
      simp only [get_put_self, Option.isSome_some]
  | failed => exact ⟨.inl h.stays, ⟨h.stays, h.writing⟩, fun _ hname => by cases hname⟩

theorem ensures_write {suffix : List Char} (h : Drafting cfg s writing t)
    (htmp : (get t.files (tmpPath cfg.root (hash cfg.sum256 data) suffix)).isSome) :
    Prog.Ensures (serve cfg i) (StaysOrGains cfg data s)
      (fun a u => Drafting cfg s writing u ∧ (a.Ok →
        get u.files (tmpPath cfg.root (hash cfg.sum256 data) suffix) = some data)) t
      (.op (.write (tmpPath cfg.root (hash cfg.sum256 data) suffix) data)) := by
  refine .op (.inl h.stays) ?_
  intro a u hu
  cases served hu with
  | wrote =>
      refine ⟨.inl ?stays, ⟨?stays, h.writing⟩, fun _ => ?_⟩
      case stays =>
        exact h.stays.trans (.of_tmp _ fun k hk => get_overwrite_of_ne t.files data hk)
      simp only [overwrite, if_pos htmp]
      exact get_put_self _ _ _
  | wroteInPart _ _ err n =>
      refine ⟨.inl ?stays, ⟨?stays, h.writing⟩, fun hok => absurd rfl (hok err n)⟩
      exact h.stays.trans (.of_tmp _ fun k hk => get_overwrite_of_ne t.files _ hk)
  | failed ho => exact ho.elim

/-- The temporary file gets the name of its content. -/
theorem ensures_rename {suffix : List Char} (h : Drafting cfg s writing t)
    (htmp : get t.files (tmpPath cfg.root (hash cfg.sum256 data) suffix) = some data) :
    Prog.Ensures (serve cfg i) (StaysOrGains cfg data s)
      (fun a u => u.writing = writing ∧
        (a.Ok ∧ Gains cfg data s u ∨
          (∃ err n, a = .failed err n) ∧ Stays cfg s u)) t
      (.op (.rename (tmpPath cfg.root (hash cfg.sum256 data) suffix) (dest cfg data))) := by
  refine .op (.inl h.stays) ?_
  intro a u hu
  cases served hu with
  | renamed _ hget =>
      obtain rfl := Option.some.inj (htmp.symm.trans hget)
      refine ⟨.inr ?gains, h.writing, .inl ⟨?_, ?gains⟩⟩
      case gains => exact h.stays.rename rfl
      intro err n hfailed
      cases hfailed
  | failed _ err n => exact ⟨.inl h.stays, h.writing, .inr ⟨⟨err, n, rfl⟩, h.stays⟩⟩

theorem ensures_commit {suffix : List Char} (h : Drafting cfg s writing t)
    (htmp : (get t.files (tmpPath cfg.root (hash cfg.sum256 data) suffix)).isSome) :
    Prog.Ensures (serve cfg i) (StaysOrGains cfg data s)
      (fun res u => Written cfg data s res u ∧ u.writing = writing) t
      (commit (hash cfg.sum256 data) data (tmpPath cfg.root (hash cfg.sum256 data) suffix)
        (dest cfg data)) := by
  rw [commit]
  refine .bind (ensures_write h htmp) fun a t₁ _ hwrite => ?_
  obtain ⟨h₁, hdata₁⟩ := hwrite
  split
  · exact ensures_close_fail h₁ _ _
  · rename_i hok
    refine .bind (ensures_sync h₁) fun b t₂ _ hsync => ?_
    obtain ⟨h₂, hfiles₂⟩ := hsync
    split
    · exact ensures_close_fail h₂ _ _
    · refine .bind (ensures_quiet (o := .close _) trivial h₂) fun c t₃ _ hclose => ?_
      obtain ⟨h₃, hfiles₃⟩ := hclose
      split
      · exact ensures_fail h₃ _
      · have htmp₃ := hdata₁ hok
        rw [← hfiles₂, ← hfiles₃] at htmp₃
        refine .bind (ensures_rename h₃ htmp₃) fun d t₄ hcut hd => ?_
        obtain ⟨hwriting, ⟨hnot, hgains⟩ | ⟨⟨err, n, rfl⟩, hstays⟩⟩ := hd
        · split
          · rename_i err n
            exact absurd rfl (hnot err n)
          · exact .ret hcut ⟨⟨rfl, .inr hgains⟩, hwriting⟩
        · exact .ret hcut ⟨hstays, hwriting⟩

/-- The temporary file is removed in the end. -/
theorem ensures_remove_tmp {suffix : List Char} {res : Except String ChunkID}
    (h : Written cfg data s res t) (hwriting : t.writing = writing) :
    Prog.Ensures (serve cfg i) (StaysOrGains cfg data s)
      (fun _ u => Written cfg data s res u ∧ u.writing = writing) t
      (.op (.remove (tmpPath cfg.root (hash cfg.sum256 data) suffix) .writer)) := by
  refine .op h.staysOrGains ?_
  intro a u hu
  have hu' : u.writing = t.writing ∧ Stays cfg t u := by
    cases served hu with
    | removed => exact ⟨rfl, .of_tmp _ fun k hk => get_delete_of_ne _ hk⟩
    | removedDir | nothingToRemove | failed => exact ⟨rfl, .refl cfg t⟩
  have hwritten := h.trans hu'.2
  exact ⟨hwritten.staysOrGains, hwritten, hu'.1.trans hwriting⟩

theorem ensures_persist (h : Drafting cfg s writing t) (hfiles : t.files = s.files) :
    Prog.Ensures (serve cfg i) (StaysOrGains cfg data s)
      (fun res u => Written cfg data s res u ∧ u.writing = writing) t
      (persist (hash cfg.sum256 data) data (dest cfg data)) := by
  rw [persist]
  refine .bind (ensures_stat h) fun a t₁ _ hstat => ?_
  obtain ⟨h₁, hfiles₁, hdone⟩ := hstat
  split
  · -- A file is there, and nothing is written.
    have hsome := hdone rfl
    rw [hfiles] at hsome
    exact .ret (.inl h₁.stays) ⟨⟨rfl, .inl ⟨h₁.stays, hsome⟩⟩, h₁.writing⟩
  · refine .bind (ensures_quiet (o := .mkdirAll _) trivial h₁) fun b t₂ _ hmkdir => ?_
    have h₂ := hmkdir.1
    split
    · exact ensures_fail h₂ _
    · refine .bind (ensures_createTemp h₂) fun c t₃ _ hcreate => ?_
      obtain ⟨h₃, hname⟩ := hcreate
      split
      · rename_i suffix
        simp only [dest, tmpName_eq cfg.root (valid_hash cfg.sum256 data)]
        refine .bind (ensures_commit h₃ (hname suffix rfl)) fun res t₄ _ h₄ => ?_
        refine .bind (ensures_remove_tmp h₄.1 h₄.2) fun _ t₅ hcut h₅ => ?_
        exact .ret hcut h₅
      · exact ensures_fail h₃ _
      · exact ensures_fail h₃ _

end Write

section Flight

/-- The ID is entered when no write of it is in flight. -/
theorem ensures_enter (h : Drafting cfg s s.writing t)
    (hfree : s.writing (hash cfg.sum256 data) = none) :
    Prog.Ensures (serve cfg i) (StaysOrGains cfg data s)
      (fun a u => a = .flag false ∧
        Drafting cfg s (Function.update s.writing (hash cfg.sum256 data) (some i)) u ∧
        u.files = t.files) t (.op (.enter (hash cfg.sum256 data) data)) := by
  refine .op (.inl h.stays) ?_
  intro a u hu
  cases served hu with
  | failed ho => exact ho.elim
  | joined _ hsome =>
      rw [h.writing, hfree] at hsome
      cases hsome
  | entered =>
      have hwriting := h.writing
      exact ⟨.inl h.stays, rfl, ⟨h.stays, by simp only [hwriting]⟩, rfl⟩

theorem ensures_leave {res : Except String ChunkID} (h : Written cfg data s res t)
    (hwriting : t.writing = Function.update s.writing (hash cfg.sum256 data) (some i))
    (hfree : s.writing (hash cfg.sum256 data) = none) :
    Prog.Ensures (serve cfg i) (StaysOrGains cfg data s)
      (fun _ u => Written cfg data s res u ∧ u.writing = s.writing) t
      (.op (.leave (hash cfg.sum256 data))) := by
  refine .op h.staysOrGains ?_
  intro a u hu
  cases served hu with
  | failed ho => exact ho.elim
  | left =>
      have hwritten := h.trans (u := { t with
        writing := Function.update t.writing (hash cfg.sum256 data) none }) (.of_files rfl)
      refine ⟨hwritten.staysOrGains, hwritten, ?_⟩
      simp only [hwriting, Function.update_idem]
      rw [← hfree, Function.update_eq_self]

end Flight

/-- What a `WriteChunk` does that no other call disturbs, up to each of its operations and in the
end. -/
theorem ensures_writeChunk (hfree : s.writing (hash cfg.sum256 data) = none) :
    Prog.Ensures (serve cfg i) (StaysOrGains cfg data s)
      (fun res t => Written cfg data s res t ∧ t.writing = s.writing) s (writeChunk cfg data) := by
  have h₀ : Drafting cfg s s.writing s := ⟨.refl cfg s, rfl⟩
  rw [writeChunk]
  refine .bind (ensures_quiet (o := .ctxErr) trivial h₀) fun a t₁ _ hctx => ?_
  obtain ⟨h₁, hfiles₁⟩ := hctx
  split
  · exact ensures_fail h₁ _
  · refine .bind (ensures_enter h₁ hfree) fun b t₂ _ henter => ?_
    obtain ⟨rfl, h₂, hfiles₂⟩ := henter
    refine .bind (ensures_persist h₂ (hfiles₂.trans hfiles₁)) fun res t₃ _ h₃ => ?_
    refine .bind (ensures_leave h₃.1 h₃.2 hfree) fun _ t₄ hcut h₄ => ?_
    exact .ret hcut h₄

end VaultFS.Chunk
