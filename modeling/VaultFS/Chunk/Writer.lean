import VaultFS.Chunk.Discipline

/-!
# Writers of chunks

What a writer renames is what it has written and synced, since the temporary file is its own. So
when `WriteChunk` returns without an error, and its check did not find the ID in flight, the data
are stored (`safe_writeChunk`).
-/

namespace VaultFS.Chunk

open Interaction KeyValue Metadata Transition

variable {cfg : Config} {start : FS} {i : ℕ} {s t u : Shared} {data : List UInt8}

section Writer

/-- The thread has called `WriteChunk` with the data, and their ID is in flight for it. -/
structure Writing (cfg : Config) (i : ℕ) (data : List UInt8) (s : Shared) : Prop where
  owned : s.writing (hash cfg.sum256 data) = some i
  called : .called i data ∈ s.log

theorem Writing.mono (h : Writing cfg i data s) (hrely : Rely cfg start i s t) :
    Writing cfg i data t :=
  ⟨hrely.owned _ h.owned, hrely.log.subset h.called⟩

/-- The temporary file is as its writer has left it, or gone. -/
def Temp (cfg : Config) (data : List UInt8) (suffix : List Char) (content : List UInt8)
    (dirty : Bool) (s : Shared) : Prop :=
  (get s.files (tmpPath cfg.root (hash cfg.sum256 data) suffix) = some content ∧
    s.dirty (tmpPath cfg.root (hash cfg.sum256 data) suffix) = dirty) ∨
  get s.files (tmpPath cfg.root (hash cfg.sum256 data) suffix) = none

theorem Temp.mono {suffix : List Char} {content : List UInt8} {dirty : Bool}
    (h : Temp cfg data suffix content dirty s) (hw : Writing cfg i data s)
    (hrely : Rely cfg start i s t) : Temp cfg data suffix content dirty t := by
  rcases hrely.tmp _ suffix (valid_hash cfg.sum256 data) hw.owned with ⟨hsame, hdirty⟩ | hnone
  · rw [Temp, hsame, hdirty]
    exact h
  · exact Or.inr hnone

/-- The data are kept, unless there were collisions. -/
def Safely (cfg : Config) (start : FS) (data : List UInt8) (s : Shared) : Prop :=
  CollisionFree cfg start s.log → Kept cfg start s data

theorem Safely.mono (h : Safely cfg start data s) (hrely : Rely cfg start i s t) :
    Safely cfg start data t :=
  fun hfree => hrely.kept hfree data (h (hfree.mono hrely.log))

/-- An operation that is harmless leaves the thread what it had. -/
theorem safe_harmless {o : Op} {P : Shared → Prop} (ho : o.Harmless cfg)
    (hP : ∀ t, Rely cfg start i s t → P t) :
    Safe (discipline cfg start) i (fun _ t => P t) s (.op o) := by
  apply Safe.op
  intro t ht hst a u hu
  obtain ⟨hsound, hrely⟩ := serve_harmless ho ht hu
  exact ⟨⟨hsound, fun j _ => hrely j⟩, fun v _ huv => hP v (hst.trans ((hrely i).trans huv))⟩

/-- An operation on a temporary file of one's own. -/
theorem safe_tmp {o : Op} {Q : Answer → Shared → Prop} (hw : Writing cfg i data s)
    (hserve : ∀ t a u, Rely cfg start i s t → serve cfg i t o a = some u →
      (∃ suffix, SameBut (tmpPath cfg.root (hash cfg.sum256 data) suffix) t u) ∧ Q a u)
    (hstable : ∀ a t u, Writing cfg i data t → Rely cfg start i t u → Q a t → Q a u) :
    Safe (discipline cfg start) i (fun a t => Writing cfg i data t ∧ Q a t) s (.op o) := by
  apply Safe.op
  intro t ht hst a u hu
  obtain ⟨⟨suffix, hsame⟩, hQ⟩ := hserve t a u hst hu
  have hwt : Writing cfg i data t := hw.mono hst
  have hwu : Writing cfg i data u := ⟨hsame.writing ▸ hwt.owned, hsame.log ▸ hwt.called⟩
  exact ⟨hsame.keeps ht (valid_hash cfg.sum256 data) hwt.owned,
    fun v _ huv => ⟨hwu.mono huv, hstable a u v hwu huv hQ⟩⟩

/-- The answer is no error. -/
def Answer.Ok (a : Answer) : Prop := ∀ err stored, a ≠ .failed err stored

theorem safe_write {suffix : List Char} (hw : Writing cfg i data s) :
    Safe (discipline cfg start) i
      (fun a t => Writing cfg i data t ∧ (a.Ok → Temp cfg data suffix data true t)) s
      (.op (.write (tmpPath cfg.root (hash cfg.sum256 data) suffix) data)) := by
  have hsame : ∀ t bytes, SameBut (tmpPath cfg.root (hash cfg.sum256 data) suffix) t { t with
      files := overwrite t.files (tmpPath cfg.root (hash cfg.sum256 data) suffix) bytes
      dirty := Function.update t.dirty (tmpPath cfg.root (hash cfg.sum256 data) suffix) true } :=
    fun t bytes => ⟨rfl, rfl, fun _ hk => get_overwrite_of_ne t.files bytes hk,
      fun _ hk => Function.update_of_ne hk _ _⟩
  apply safe_tmp hw
  · intro t a u _ hu
    cases served hu with
    | wrote =>
        refine ⟨⟨suffix, hsame t data⟩, fun _ => ?_⟩
        rcases get_overwrite_self t.files _ data with hsome | hnone
        · exact Or.inl ⟨hsome, Function.update_self _ _ _⟩
        · exact Or.inr hnone
    | wroteInPart _ _ err stored =>
        exact ⟨⟨suffix, hsame t _⟩, fun hok => absurd rfl (hok err stored)⟩
    | failed ho => exact ho.elim
  · intro a t u hwt hrely hQ hok
    exact (hQ hok).mono hwt hrely

theorem safe_sync {suffix : List Char} (hw : Writing cfg i data s)
    (htemp : Temp cfg data suffix data true s) :
    Safe (discipline cfg start) i
      (fun a t => Writing cfg i data t ∧ (a.Ok → Temp cfg data suffix data false t)) s
      (.op (.sync (tmpPath cfg.root (hash cfg.sum256 data) suffix))) := by
  apply safe_tmp hw
  · intro t a u hst hu
    cases served hu with
    | synced =>
        refine ⟨⟨suffix, rfl, rfl, fun _ _ => rfl, fun _ hk => Function.update_of_ne hk _ _⟩,
          fun _ => ?_⟩
        rcases htemp.mono hw hst with ⟨hsome, -⟩ | hnone
        · exact Or.inl ⟨hsome, Function.update_self _ _ _⟩
        · exact Or.inr hnone
    | failed _ err stored =>
        exact ⟨⟨suffix, rfl, rfl, fun _ _ => rfl, fun _ _ => rfl⟩,
          fun hok => absurd rfl (hok err stored)⟩
  · intro a t u hwt hrely hQ hok
    exact (hQ hok).mono hwt hrely

theorem safe_createTemp (hw : Writing cfg i data s) :
    Safe (discipline cfg start) i (fun _ t => Writing cfg i data t ∧ True) s
      (.op (.createTemp (dest cfg data).dropLast (tmpPattern (hash cfg.sum256 data)))) := by
  apply safe_tmp hw
  · intro t a u _ hu
    cases served hu with
    | @created _ _ suffix =>
        rw [dest, tmpName_eq cfg.root (valid_hash cfg.sum256 data) suffix]
        exact ⟨⟨suffix, rfl, rfl, fun _ hk => get_put_of_ne t.files _ hk,
          fun _ hk => Function.update_of_ne hk _ _⟩, trivial⟩
    | failed => exact ⟨⟨[], rfl, rfl, fun _ _ => rfl, fun _ _ => rfl⟩, trivial⟩
  · exact fun _ _ _ _ _ _ => trivial

theorem safe_rename {suffix : List Char} (hw : Writing cfg i data s)
    (htemp : Temp cfg data suffix data false s) :
    Safe (discipline cfg start) i
      (fun a t => Writing cfg i data t ∧ (a.Ok → Safely cfg start data t)) s
      (.op (.rename (tmpPath cfg.root (hash cfg.sum256 data) suffix) (dest cfg data))) := by
  apply Safe.op
  intro t ht hst a u hu
  have hwt := hw.mono hst
  cases served hu with
  | @renamed _ _ content hcontent =>
      rcases htemp.mono hw hst with ⟨hsome, hclean⟩ | hnone
      · obtain rfl : content = data := Option.some.inj (hcontent.symm.trans hsome)
        refine ⟨keeps_rename ht hwt.owned (Or.inr ⟨i, hwt.called⟩) hclean, ?_⟩
        intro v _ huv
        have hrely : Rely cfg start i _ v := huv
        refine ⟨⟨hrely.owned _ hwt.owned, hrely.log.subset (List.mem_append_left _ hwt.called)⟩,
          fun _ => ?_⟩
        exact Safely.mono (fun _ => Or.inl (get_put_self _ _ _)) huv
      · rw [hnone] at hcontent
        cases hcontent
  | failed _ err stored =>
      exact ⟨⟨ht, fun j _ => Rely.refl _ _ j t⟩,
        fun v _ htv => ⟨hwt.mono htv, fun hok => absurd rfl (hok err stored)⟩⟩

theorem safe_stat (hw : Writing cfg i data s) :
    Safe (discipline cfg start) i
      (fun a t => Writing cfg i data t ∧ (a = .done → Safely cfg start data t)) s
      (.op (.stat (dest cfg data))) := by
  apply Safe.op
  intro t ht hst a u hu
  have hquiet : (Op.stat (dest cfg data)).Quiet := trivial
  obtain ⟨hsound, hrely⟩ := harmless_quiet hquiet ht hu
  refine ⟨⟨hsound, fun j _ => hrely j⟩, fun v _ huv => ?_⟩
  have htv := (hrely i).trans huv
  refine ⟨hw.mono (hst.trans htv), ?_⟩
  rintro rfl
  -- the file that is there has the same hash
  have hthere : (get t.files (dest cfg data)).isSome := by
    have hserved : Served cfg i t (.stat (dest cfg data)) .done u := served hu
    cases hserved with
    | found hsome => exact hsome
  obtain ⟨content, hcontent⟩ := Option.isSome_iff_exists.mp hthere
  obtain ⟨hhash, -, hknown, -⟩ := ht.chunks _ content (valid_hash cfg.sum256 data) hcontent
  refine Safely.mono (fun hfree => Or.inl ?_) htv
  rw [hcontent, hfree content data hknown (Or.inr ⟨i, (hw.mono hst).called⟩) hhash]

theorem safe_enter (data : List UInt8) :
    Safe (discipline cfg start) i (fun a t => (a = .flag true → .joined i ∈ t.log) ∧
        (a ≠ .flag true → Writing cfg i data t)) s
      (.op (.enter (hash cfg.sum256 data) data)) := by
  apply Safe.op
  intro t ht _ a u hu
  have hkeeps : ∀ happenings writing,
      (∀ j, j ≠ i → ∀ id, t.writing id = some j → writing id = some j) →
      (discipline cfg start).Keeps i t { t with writing, log := t.log ++ happenings } :=
    fun happenings writing howned => ⟨ht.of_eq rfl rfl (List.prefix_append _ _),
      fun j hj => .of_eq rfl rfl (List.prefix_append _ _) (howned j hj)⟩
  cases served hu with
  | failed ho => exact ho.elim
  | joined =>
      refine ⟨hkeeps _ _ fun _ _ _ hid => hid, fun v _ huv => ⟨fun _ => ?_, fun hne => ?_⟩⟩
      · exact (Rely.log huv).subset (by simp)
      · exact absurd rfl hne
  | entered _ hfree =>
      refine ⟨hkeeps _ _ ?_, fun v _ huv => ⟨fun htrue => ?_, fun _ => ?_⟩⟩
      · intro j _ id hid
        have hne : id ≠ hash cfg.sum256 data := by
          rintro rfl
          rw [hfree] at hid
          cases hid
        rw [Function.update_of_ne hne, hid]
      · cases htrue
      · exact Writing.mono ⟨Function.update_self _ _ _, by simp⟩ huv

theorem safe_leave {P : Shared → Prop} (hw : Writing cfg i data s)
    (hP : ∀ t u, Rely cfg start i s t → u.files = t.files → u.log = t.log → P u)
    (hstable : ∀ t u, Rely cfg start i t u → P t → P u) :
    Safe (discipline cfg start) i (fun _ t => P t) s (.op (.leave (hash cfg.sum256 data))) := by
  apply Safe.op
  intro t ht hst a u hu
  cases served hu with
  | failed ho => exact ho.elim
  | left =>
      refine ⟨⟨ht.of_eq rfl rfl List.prefix_rfl, ?_⟩,
        fun v _ huv => hstable _ v huv (hP t _ hst rfl rfl)⟩
      intro j hj
      refine .of_eq rfl rfl List.prefix_rfl ?_
      intro id hid
      have hne : id ≠ hash cfg.sum256 data := by
        rintro rfl
        rw [(hw.mono hst).owned] at hid
        exact hj (Option.some.inj hid).symm
      exact (Function.update_of_ne hne _ _).trans hid

end Writer

section Programs

/-- A successful result is the ID of the data, which are kept. -/
def Wrote (cfg : Config) (start : FS) (data : List UInt8) (res : Except String ChunkID)
    (s : Shared) : Prop :=
  ∀ id, res = .ok id → id = hash cfg.sum256 data ∧ Safely cfg start data s

theorem Wrote.mono {res : Except String ChunkID} (h : Wrote cfg start data res s)
    (hrely : Rely cfg start i s t) : Wrote cfg start data res t :=
  fun id hid => ⟨(h id hid).1, (h id hid).2.mono hrely⟩

theorem Wrote.error (cfg : Config) (start : FS) (data : List UInt8) (err : String) (s : Shared) :
    Wrote cfg start data (.error err) s := by
  intro id hid
  cases hid

/-- The temporary file may be closed before an error is returned. -/
theorem safe_fail (hw : Writing cfg i data s) (err : String) :
    Safe (discipline cfg start) i
      (fun res t => Writing cfg i data t ∧ Wrote cfg start data res t) s (pure (.error err)) :=
  .ret fun t _ hst => ⟨hw.mono hst, .error cfg start data err t⟩

theorem safe_close_fail (hs : Sound cfg start s) (hw : Writing cfg i data s) (tmpName : Path)
    (err : String) :
    Safe (discipline cfg start) i
      (fun res t => Writing cfg i data t ∧ Wrote cfg start data res t) s
      (do let _ ← Prog.op (.close tmpName)
          return .error err) :=
  .bind hs (safe_harmless trivial fun _ hst => hw.mono hst) fun _ _ _ hw => safe_fail hw err

theorem safe_commit {suffix : List Char} (hs : Sound cfg start s) (hw : Writing cfg i data s) :
    Safe (discipline cfg start) i
      (fun res t => Writing cfg i data t ∧ Wrote cfg start data res t) s
      (commit (hash cfg.sum256 data) data (tmpPath cfg.root (hash cfg.sum256 data) suffix)
        (dest cfg data)) := by
  rw [commit]
  refine .bind hs (safe_write hw) ?_
  rintro a t ht ⟨hw, htemp⟩
  split
  · exact safe_close_fail ht hw _ _
  · rename_i hok
    refine .bind ht (safe_sync hw (htemp hok)) ?_
    rintro a t ht ⟨hw, htemp⟩
    split
    · exact safe_close_fail ht hw _ _
    · rename_i hok
      have hclose : Safe (discipline cfg start) i
          (fun _ t => Writing cfg i data t ∧ Temp cfg data suffix data false t) t
          (.op (.close (tmpPath cfg.root (hash cfg.sum256 data) suffix))) :=
        safe_harmless trivial fun t hst => ⟨hw.mono hst, (htemp hok).mono hw hst⟩
      refine .bind ht hclose ?_
      rintro a t ht ⟨hw, htemp⟩
      split
      · exact safe_fail hw _
      · refine .bind ht (safe_rename hw htemp) ?_
        rintro a t ht ⟨hw, hsafe⟩
        split
        · exact safe_fail hw _
        · rename_i hok
          refine .ret fun u _ htu => ⟨hw.mono htu, fun id hid => ?_⟩
          exact ⟨(Except.ok.inj hid).symm, (hsafe hok).mono htu⟩

theorem safe_persist (hs : Sound cfg start s) (hw : Writing cfg i data s) :
    Safe (discipline cfg start) i
      (fun res t => Writing cfg i data t ∧ Wrote cfg start data res t) s
      (persist (hash cfg.sum256 data) data (dest cfg data)) := by
  rw [persist]
  refine .bind hs (safe_stat hw) ?_
  rintro a t ht ⟨hw, hthere⟩
  split
  · refine .ret fun u _ htu => ⟨hw.mono htu, fun id hid => ?_⟩
    exact ⟨(Except.ok.inj hid).symm, (hthere rfl).mono htu⟩
  · refine .bind ht (safe_harmless trivial fun _ hst => hw.mono hst) ?_
    intro a t ht hw
    split
    · exact safe_fail hw _
    · refine .bind ht (safe_createTemp hw) ?_
      rintro a t ht ⟨hw, -⟩
      split
      · rename_i suffix
        have htmp := tmpName_eq cfg.root (valid_hash cfg.sum256 data) suffix
        simp only [dest, htmp]
        refine .bind ht (safe_commit ht hw) ?_
        rintro res t ht ⟨hw, hwrote⟩
        have hremove : Safe (discipline cfg start) i
            (fun _ t => Writing cfg i data t ∧ Wrote cfg start data res t) t
            (.op (.remove (tmpPath cfg.root (hash cfg.sum256 data) suffix) .writer)) :=
          safe_harmless (fun data' => dest_ne_tmpPath cfg data' _ suffix)
            fun t hst => ⟨hw.mono hst, hwrote.mono hst⟩
        refine .bind ht hremove ?_
        rintro _ t ht ⟨hw, hwrote⟩
        exact .ret fun u _ htu => ⟨hw.mono htu, hwrote.mono htu⟩
      · exact safe_fail hw _
      · exact safe_fail hw _

/-- `WriteChunk` returns the ID of the data, which are kept, or its check has found the ID in
flight. -/
theorem safe_writeChunk (hs : Sound cfg start s) (data : List UInt8) :
    Safe (discipline cfg start) i
      (fun res t => ∀ id, res = .ok id → id = hash cfg.sum256 data ∧
        (.joined i ∈ t.log ∨ Safely cfg start data t)) s (writeChunk cfg data) := by
  rw [writeChunk]
  refine .bind hs (safe_harmless trivial fun _ _ => trivial) ?_
  intro a t ht _
  split
  · exact .ret fun _ _ _ id hid => by cases hid
  · refine .bind ht (safe_enter data) ?_
    rintro a t ht ⟨hjoined, hwriting⟩
    split
    · refine .ret fun u _ htu id hid => ⟨(Except.ok.inj hid).symm, Or.inl ?_⟩
      exact (Rely.log htu).subset (hjoined rfl)
    · rename_i hne
      refine .bind ht (safe_persist ht (hwriting fun heq => hne heq)) ?_
      rintro res t ht ⟨hw, hwrote⟩
      have hleave : Safe (discipline cfg start) i (fun _ t => Wrote cfg start data res t) t
          (.op (.leave (hash cfg.sum256 data))) := by
        refine safe_leave hw ?_ fun _ _ hrely hwrote => hwrote.mono hrely
        intro u v hst hfiles hlog id hid
        refine ⟨(hwrote id hid).1, ?_⟩
        rw [Safely, Kept, hfiles, hlog]
        exact (hwrote id hid).2.mono hst
      refine .bind ht hleave ?_
      intro _ t ht hwrote
      refine .ret fun u _ htu id hid => ⟨(hwrote id hid).1, Or.inr ?_⟩
      exact (hwrote.mono htu id hid).2

end Programs

end VaultFS.Chunk
