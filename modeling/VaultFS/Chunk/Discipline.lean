import VaultFS.Chunk.Process

/-!
# How threads share a chunk store

Every file at the path of a valid ID is synced and has content with this hash (`Sound`). As long as
an ID is in flight its writer has the temporary files of this ID to itself; other threads can at
most remove them (`Rely`). Operations that keep both for all threads whatever the state are
`Harmless`.
-/

namespace VaultFS.Chunk

open Interaction KeyValue Metadata Transition

/-- The operation leaves the files, the writes in flight and the log alone. -/
def Op.Quiet : Op → Prop
  | .enter _ _ | .leave _ | .createTemp _ _ | .write _ _ | .sync _ | .rename _ _
  | .remove _ _ => False
  | _ => True

theorem serve_quiet {cfg : Config} {i : ℕ} {s t : Shared} {o : Op} {a : Answer} (ho : o.Quiet)
    (h : serve cfg i s o a = some t) :
    t.files = s.files ∧ t.dirty = s.dirty ∧ t.writing = s.writing ∧ t.log = s.log := by
  cases served h with
  | joined | entered | left | created | wrote | wroteInPart | synced | renamed | removed =>
      exact ho.elim
  | _ => exact ⟨rfl, rfl, rfl, rfl⟩

section Statements

variable (cfg : Config) (start : FS)

/-- The path at which data belong. -/
def dest (data : List UInt8) : Path := path cfg.root (hash cfg.sum256 data)

/-- The data were there at the start, or `WriteChunk` was called with them. -/
def Known (log : List Happening) (data : List UInt8) : Prop :=
  get start (dest cfg data) = some data ∨ ∃ i, .called i data ∈ log

/-- No two of the known data have the same hash. -/
def CollisionFree (log : List Happening) : Prop :=
  ∀ data data', Known cfg start log data → Known cfg start log data' →
    hash cfg.sum256 data = hash cfg.sum256 data' → data = data'

def WasStored (log : List Happening) (data : List UInt8) : Prop :=
  get start (dest cfg data) = some data ∨ .stored (dest cfg data) data ∈ log

/-- After the data were stored, a `DeleteChunk` has removed the file. -/
def WasDeleted (log : List Happening) (data : List UInt8) : Prop :=
  ∃ before id after, log = before ++ .deleted id :: after ∧ path cfg.root id = dest cfg data ∧
    WasStored cfg start before data

def Kept (s : Shared) (data : List UInt8) : Prop :=
  get s.files (dest cfg data) = some data ∨ WasDeleted cfg start s.log data

/-- Files with a valid ID are synced and have the content of their names. Files below the root that
were not there at the start are chunks or temporary files. -/
structure Sound (s : Shared) : Prop where
  chunks : ∀ id data, Valid id → get s.files (path cfg.root id) = some data →
    hash cfg.sum256 data = id ∧ s.dirty (path cfg.root id) = false ∧
      Known cfg start s.log data ∧ WasStored cfg start s.log data
  names : ∀ k, (get s.files k).isSome → (get start k).isSome ∨
    (∃ id, Valid id ∧ k = path cfg.root id) ∨ ∃ id suffix, Valid id ∧ k = tmpPath cfg.root id suffix

/-- What a thread can rely on: its IDs stay in flight, the temporary files for them are left as
they are or removed, and what was kept is kept. -/
structure Rely (i : ℕ) (s t : Shared) : Prop where
  log : s.log <+: t.log
  owned : ∀ id, s.writing id = some i → t.writing id = some i
  tmp : ∀ id suffix, Valid id → s.writing id = some i →
    (get t.files (tmpPath cfg.root id suffix) = get s.files (tmpPath cfg.root id suffix) ∧
      t.dirty (tmpPath cfg.root id suffix) = s.dirty (tmpPath cfg.root id suffix)) ∨
    get t.files (tmpPath cfg.root id suffix) = none
  kept : CollisionFree cfg start t.log → ∀ data, Kept cfg start s data → Kept cfg start t data

end Statements

variable {cfg : Config} {start : FS} {i : ℕ} {s t u : Shared} {data : List UInt8}

section Log

variable {log log' : List Happening}

theorem Known.mono (h : Known cfg start log data) (hlog : log <+: log') :
    Known cfg start log' data :=
  h.imp id (Exists.imp fun _ hi => hlog.subset hi)

theorem WasStored.mono (h : WasStored cfg start log data) (hlog : log <+: log') :
    WasStored cfg start log' data :=
  h.imp id fun hm => hlog.subset hm

theorem WasDeleted.mono (h : WasDeleted cfg start log data) (hlog : log <+: log') :
    WasDeleted cfg start log' data := by
  obtain ⟨before, id, after, rfl, hpath, hstored⟩ := h
  obtain ⟨more, rfl⟩ := hlog
  exact ⟨before, id, after ++ more, by simp, hpath, hstored⟩

theorem CollisionFree.mono (h : CollisionFree cfg start log') (hlog : log <+: log') :
    CollisionFree cfg start log :=
  fun data data' hd hd' => h data data' (hd.mono hlog) (hd'.mono hlog)

end Log

theorem Rely.refl (cfg : Config) (start : FS) (i : ℕ) (s : Shared) : Rely cfg start i s s :=
  ⟨List.prefix_rfl, fun _ h => h, fun _ _ _ _ => Or.inl ⟨rfl, rfl⟩, fun _ _ h => h⟩

theorem Rely.trans (h : Rely cfg start i s t) (h' : Rely cfg start i t u) :
    Rely cfg start i s u := by
  refine ⟨h.log.trans h'.log, fun id hid => h'.owned id (h.owned id hid), ?_, ?_⟩
  · intro id suffix hvalid hid
    rcases h'.tmp id suffix hvalid (h.owned id hid) with ⟨hsame, hdirty⟩ | hnone
    · rw [hsame, hdirty]
      exact h.tmp id suffix hvalid hid
    · exact Or.inr hnone
  · intro hfree data hkept
    exact h'.kept hfree data (h.kept (hfree.mono h'.log) data hkept)

/-- The rules by which the threads of a chunk server share its state. -/
def discipline (cfg : Config) (start : FS) : Discipline ℕ Shared Op Answer where
  serve := serve cfg
  Inv := Sound cfg start
  rely := Rely cfg start
  refl := Rely.refl cfg start
  trans := Rely.trans

theorem dest_ne_tmpPath (cfg : Config) (data : List UInt8) (id : ChunkID) (suffix : List Char) :
    dest cfg data ≠ tmpPath cfg.root id suffix :=
  (tmpPath_ne_path id suffix (valid_hash cfg.sum256 data)).symm

section Frames

/-- What changes neither files nor marks, and adds to the log only. -/
theorem Sound.of_eq (h : Sound cfg start s) (hfiles : t.files = s.files)
    (hdirty : t.dirty = s.dirty) (hlog : s.log <+: t.log) : Sound cfg start t := by
  refine ⟨?_, ?_⟩
  · intro id data hvalid hget
    rw [hfiles] at hget
    obtain ⟨hhash, hclean, hknown, hstored⟩ := h.chunks id data hvalid hget
    exact ⟨hhash, hdirty ▸ hclean, hknown.mono hlog, hstored.mono hlog⟩
  · rw [hfiles]
    exact h.names

theorem Rely.of_eq (hfiles : t.files = s.files) (hdirty : t.dirty = s.dirty)
    (hlog : s.log <+: t.log) (howned : ∀ id, s.writing id = some i → t.writing id = some i) :
    Rely cfg start i s t := by
  refine ⟨hlog, howned, ?_, ?_⟩
  · intro id suffix _ _
    exact Or.inl ⟨by rw [hfiles], by rw [hdirty]⟩
  · intro _ data hkept
    rcases hkept with hget | hdeleted
    · exact Or.inl (by rw [hfiles, hget])
    · exact Or.inr (hdeleted.mono hlog)

/-- The states differ in the file at one path only. -/
structure SameBut (k : Path) (s t : Shared) : Prop where
  writing : t.writing = s.writing
  log : t.log = s.log
  files : ∀ k', k' ≠ k → get t.files k' = get s.files k'
  dirty : ∀ k', k' ≠ k → t.dirty k' = s.dirty k'

/-- A change at a temporary file of one's own. -/
theorem SameBut.keeps {id : ChunkID} {suffix : List Char}
    (h : SameBut (tmpPath cfg.root id suffix) s t) (hs : Sound cfg start s) (hvalid : Valid id)
    (howned : s.writing id = some i) : (discipline cfg start).Keeps i s t := by
  obtain ⟨hwriting, hlog, hfiles, hdirty⟩ := h
  refine ⟨⟨?_, ?_⟩, ?_⟩
  · intro id' data hvalid' hget
    have hne : path cfg.root id' ≠ tmpPath cfg.root id suffix :=
      (tmpPath_ne_path id suffix hvalid').symm
    rw [hfiles _ hne] at hget
    rw [hdirty _ hne, hlog]
    exact hs.chunks id' data hvalid' hget
  · intro k hk
    by_cases heq : k = tmpPath cfg.root id suffix
    · exact Or.inr (Or.inr ⟨id, suffix, hvalid, heq⟩)
    · rw [hfiles k heq] at hk
      exact hs.names k hk
  · intro j hj
    refine ⟨hlog ▸ List.prefix_rfl, fun _ h => hwriting ▸ h, ?_, ?_⟩
    · intro id' suffix' hvalid' howned'
      have hne : tmpPath cfg.root id' suffix' ≠ tmpPath cfg.root id suffix := by
        intro heq
        rw [tmpPath_injective hvalid' hvalid heq, howned, Option.some.injEq] at howned'
        exact hj howned'.symm
      exact Or.inl ⟨hfiles _ hne, hdirty _ hne⟩
    · intro _ data hkept
      rw [Kept, hlog, hfiles _ (dest_ne_tmpPath cfg data id suffix)]
      exact hkept

/-- A synced temporary file gets the name of its content. -/
theorem keeps_rename {suffix : List Char} (hs : Sound cfg start s)
    (howned : s.writing (hash cfg.sum256 data) = some i) (hknown : Known cfg start s.log data)
    (hclean : s.dirty (tmpPath cfg.root (hash cfg.sum256 data) suffix) = false) :
    (discipline cfg start).Keeps i s { s with
      files := put (delete s.files (tmpPath cfg.root (hash cfg.sum256 data) suffix))
        (dest cfg data) data
      dirty := Function.update s.dirty (dest cfg data)
        (s.dirty (tmpPath cfg.root (hash cfg.sum256 data) suffix))
      log := s.log ++ [.stored (dest cfg data) data] } := by
  have hvalid := valid_hash cfg.sum256 data
  have hgrows : s.log <+: s.log ++ [.stored (dest cfg data) data] := List.prefix_append _ _
  refine ⟨⟨?_, ?_⟩, ?_⟩
  · intro id' data' hvalid' hget
    by_cases heq : path cfg.root id' = dest cfg data
    · simp only [heq, get_put_self, Option.some.injEq] at hget
      subst hget
      refine ⟨(path_injective hvalid' hvalid heq).symm, ?_, hknown.mono hgrows, Or.inr (by simp)⟩
      simp only [heq, Function.update_self, hclean]
    · have hne : path cfg.root id' ≠ tmpPath cfg.root (hash cfg.sum256 data) suffix :=
        (tmpPath_ne_path _ suffix hvalid').symm
      simp only [get_put_of_ne _ _ heq, get_delete_of_ne _ hne] at hget
      obtain ⟨hhash, hclean', hknown', hstored⟩ := hs.chunks id' data' hvalid' hget
      refine ⟨hhash, ?_, hknown'.mono hgrows, hstored.mono hgrows⟩
      simp only [Function.update_of_ne heq, hclean']
  · intro k hk
    by_cases heq : k = dest cfg data
    · exact Or.inr (Or.inl ⟨_, hvalid, heq⟩)
    · simp only [get_put_of_ne _ _ heq, get_delete] at hk
      split at hk
      · cases hk
      · exact hs.names k hk
  · intro j hj
    refine ⟨hgrows, fun _ h => h, ?_, ?_⟩
    · intro id' suffix' hvalid' howned'
      have hne : tmpPath cfg.root id' suffix' ≠ tmpPath cfg.root (hash cfg.sum256 data) suffix := by
        intro heq
        rw [tmpPath_injective hvalid' hvalid heq, howned, Option.some.injEq] at howned'
        exact hj howned'.symm
      have hne' := (dest_ne_tmpPath cfg data id' suffix').symm
      exact Or.inl ⟨by rw [get_put_of_ne _ _ hne', get_delete_of_ne _ hne],
        Function.update_of_ne hne' _ _⟩
    · intro hfree data' hkept
      rcases hkept with hget | hdeleted
      · refine Or.inl ?_
        by_cases heq : dest cfg data' = dest cfg data
        · -- the file is replaced by one with the same hash
          obtain ⟨-, -, hknown', -⟩ := hs.chunks _ data' (valid_hash cfg.sum256 data') hget
          have hsame := hfree data' data (hknown'.mono hgrows) (hknown.mono hgrows)
            (path_injective (valid_hash cfg.sum256 data') hvalid heq)
          simp only [hsame, get_put_self]
        · simp only [get_put_of_ne _ _ heq,
            get_delete_of_ne _ (dest_ne_tmpPath cfg data' _ suffix), hget]
      · exact Or.inr (hdeleted.mono hgrows)

end Frames

/-- The remover is entitled to the path: `DeleteChunk` to the path of its ID, and a writer to a path
that is no chunk's. -/
def Remover.Entitled (cfg : Config) (p : Path) : Remover → Prop
  | .writer => ∀ data, dest cfg data ≠ p
  | .delete id | .sweep id _ => path cfg.root id = p

/-- The operation keeps what all threads rely on, in any state. -/
def Op.Harmless (cfg : Config) : Op → Prop
  | .remove p remover => remover.Entitled cfg p
  | o => o.Quiet

theorem harmless_remove {p : Path} {remover : Remover} (hs : Sound cfg start s)
    (hent : remover.Entitled cfg p) :
    let t := { s with files := delete s.files p, log := s.log ++ remover.happenings }
    Sound cfg start t ∧ ∀ j, Rely cfg start j s t := by
  intro t
  have hgrows : s.log <+: t.log := List.prefix_append _ _
  have hget : ∀ k data, get t.files k = some data → get s.files k = some data := by
    intro k data hk
    simp only [t, get_delete] at hk
    split at hk
    · cases hk
    · exact hk
  refine ⟨⟨?_, ?_⟩, fun j => ⟨hgrows, fun _ h => h, ?_, ?_⟩⟩
  · intro id data hvalid hk
    obtain ⟨hhash, hclean, hknown, hstored⟩ := hs.chunks id data hvalid (hget _ _ hk)
    exact ⟨hhash, hclean, hknown.mono hgrows, hstored.mono hgrows⟩
  · intro k hk
    obtain ⟨data, hdata⟩ := Option.isSome_iff_exists.mp hk
    exact hs.names k (by simp [hget k data hdata])
  · intro id suffix _ _
    simp only [t, get_delete]
    split
    · exact Or.inr rfl
    · exact Or.inl ⟨rfl, trivial⟩
  · intro _ data hkept
    rcases hkept with hthere | hdeleted
    · by_cases heq : dest cfg data = p
      · obtain ⟨-, -, -, hstored⟩ := hs.chunks _ data (valid_hash cfg.sum256 data) hthere
        refine Or.inr ?_
        cases remover with
        | writer => exact absurd heq (hent data)
        | delete id => exact ⟨s.log, id, [], rfl, Eq.trans hent heq.symm, hstored⟩
        | sweep id now =>
            exact ⟨s.log, id, [.collected id now], rfl, Eq.trans hent heq.symm, hstored⟩
      · exact Or.inl (by simp only [t, get_delete_of_ne _ heq, hthere])
    · exact Or.inr (hdeleted.mono hgrows)

theorem harmless_quiet {o : Op} {a : Answer} (ho : o.Quiet) (hs : Sound cfg start s)
    (h : serve cfg i s o a = some t) : Sound cfg start t ∧ ∀ j, Rely cfg start j s t := by
  obtain ⟨hfiles, hdirty, hwriting, hlog⟩ := serve_quiet ho h
  have hgrows : s.log <+: t.log := hlog ▸ List.prefix_rfl
  exact ⟨hs.of_eq hfiles hdirty hgrows,
    fun j => .of_eq hfiles hdirty hgrows fun _ hid => hwriting ▸ hid⟩

theorem serve_harmless {o : Op} {a : Answer} (ho : o.Harmless cfg) (hs : Sound cfg start s)
    (h : serve cfg i s o a = some t) : Sound cfg start t ∧ ∀ j, Rely cfg start j s t := by
  cases o with
  | remove p remover =>
      have hsame : Sound cfg start s ∧ ∀ j, Rely cfg start j s s := ⟨hs, fun j => .refl _ _ j s⟩
      cases served h with
      | removed => exact harmless_remove hs ho
      | removedDir | nothingToRemove | failed => exact hsame
  | _ =>
      refine harmless_quiet ?_ hs h
      exact ho

end VaultFS.Chunk
