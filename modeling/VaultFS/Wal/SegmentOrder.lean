import Mathlib.Data.List.Sort
import Mathlib.Data.Set.List
import VaultFS.SlashPath.Clean
import VaultFS.Wal.Recovery

/-!
# The order of segment files

`recover` sorts the paths of the segment files as strings. A path is the directory's, which may be
of any form, and a name with the segment's number in 16 digits, so that the order of the paths is
that of the numbers as long as these have no more digits (`segmentPathIn_lt_iff`), and a number is
read back from its path (`segmentIDFromPathIn_segmentPathIn`).

The log itself is modelled with the names in its directory. On a directory with such segments,
`Open` has them in the order of their numbers, and the next one comes after all of them
(`Resumed`). `Glob` finds the files of the directory: the directory's own path is no pattern.
-/

namespace VaultFS.Wal

open KeyValue SlashPath Transition

/-- `segmentPath` with the directory. -/
def segmentPathIn (dir : List Char) (id : UInt64) : List Char :=
  joinPath '/' '.' dir (segmentPath id)

/-- `segmentIDFromPath` of a path with directories. -/
def segmentIDFromPathIn (path : List Char) : Except String UInt64 :=
  segmentIDFromPath (base '/' '.' path)

/-- The paths that `recover` goes through, from the names that are listed in the directory. -/
def sortedMatches (dir : List Char) (names : List (List Char)) : List (List Char) :=
  let found := (names.filter fun name => walSuffix.isSuffixOf name).map (joinPath '/' '.' dir)
  found.mergeSort fun a b => decide (a ≤ b)

/-- The files that match `*.wal` are segments, and their numbers have at most 16 digits. -/
def SegmentsOnly (files : Dir) : Prop :=
  ∀ name ∈ glob files, ∃ id : UInt64, id.toNat < 10 ^ 16 ∧ name = segmentPath id

/-- The log has the segments with these numbers in order, and its next number is larger than those
of all files. -/
structure Resumed (ids : List UInt64) (files : Dir) (log : WAL) : Prop where
  segments : log.segments.map (·.id) = ids
  above : ∀ id, (get files (segmentPath id)).isSome = true → id < log.active.id + 1
  fresh : get files (segmentPath (log.active.id + 1)) = none

theorem fileName_segmentPath (id : UInt64) : FileName '/' '.' (segmentPath id) := by
  have hpos := List.length_pos_iff.mpr (Decimal.pad_ne_nil 16 id.toNat)
  have hlen : 2 < (segmentPath id).length := by
    rw [segmentPath, List.length_append]
    have : walSuffix.length = 4 := rfl
    omega
  refine ⟨List.ne_nil_of_length_pos (by omega), ?_, ?_, ?_⟩
  · intro hmem
    rcases List.mem_append.mp hmem with hdigit | hsuffix
    · exact absurd (Decimal.isDigit_of_mem_pad hdigit) (by decide)
    · exact absurd hsuffix (by decide)
  · intro heq
    rw [heq] at hlen
    exact absurd hlen (by decide)
  · intro heq
    rw [heq] at hlen
    exact absurd hlen (by decide)

theorem segmentPath_lt_iff {a b : UInt64} (ha : a.toNat < 10 ^ 16) (hb : b.toNat < 10 ^ 16) :
    segmentPath a < segmentPath b ↔ a < b := by
  rw [UInt64.lt_iff_toNat_lt]
  constructor
  · intro hlt
    by_contra hle
    rcases (not_lt.mp hle).lt_or_eq with hgt | heq
    · exact hlt.asymm (segmentPath_lt hgt ha)
    · rw [UInt64.toNat_inj.mp heq] at hlt
      exact lt_irrefl _ hlt
  · intro hlt
    exact segmentPath_lt hlt hb

theorem segmentPathIn_lt_iff (dir : List Char) {a b : UInt64} (ha : a.toNat < 10 ^ 16)
    (hb : b.toNat < 10 ^ 16) : segmentPathIn dir a < segmentPathIn dir b ↔ a < b := by
  rw [segmentPathIn, segmentPathIn,
    joinPath_lt_iff (fileName_segmentPath a) (fileName_segmentPath b), segmentPath_lt_iff ha hb]

theorem segmentIDFromPathIn_segmentPathIn (dir : List Char) (id : UInt64) :
    segmentIDFromPathIn (segmentPathIn dir id) = .ok id := by
  rw [segmentIDFromPathIn, segmentPathIn, base_joinPath (fileName_segmentPath id),
    segmentIDFromPath_segmentPath]

section Files

variable {files files' : Dir} {ids : List UInt64}

theorem segmentPath_mem_glob {id : UInt64} (h : (get files (segmentPath id)).isSome = true) :
    segmentPath id ∈ glob files := by
  obtain ⟨content, hget⟩ := Option.isSome_iff_exists.mp h
  have hmem := (SortedList.lookup_eq_some_iff files.sorted).mp hget
  rw [glob, SortedList.scan_nil]
  exact List.mem_filter.mpr ⟨List.mem_map_of_mem hmem, List.isSuffixOf_iff_suffix.mpr ⟨_, rfl⟩⟩

theorem sorted_glob (files : Dir) : (glob files).Pairwise (· < ·) := by
  have hsorted : (files.pairs.map (·.1)).Pairwise (· < ·) := List.pairwise_map.mpr files.sorted
  rw [glob, SortedList.scan_nil]
  exact hsorted.filter _

/-- The numbers of the segments, in order. -/
theorem SegmentsOnly.exists_ids (h : SegmentsOnly files) :
    ∃ ids : List UInt64, (∀ id ∈ ids, id.toNat < 10 ^ 16) ∧ ids.Pairwise (· < ·) ∧
      glob files = ids.map segmentPath := by
  have hrange : glob files ∈ Set.range (List.map segmentPath) := by
    rw [Set.range_list_map]
    intro name hname
    obtain ⟨id, -, rfl⟩ := h name hname
    exact ⟨id, rfl⟩
  obtain ⟨ids, hids⟩ := hrange
  have hsmall : ∀ id ∈ ids, id.toNat < 10 ^ 16 := by
    intro id hid
    obtain ⟨id', hid', heq⟩ := h (segmentPath id) (hids ▸ List.mem_map_of_mem hid)
    rwa [segmentPath_injective heq]
  refine ⟨ids, hsmall, ?_, hids.symm⟩
  have hsorted := sorted_glob files
  rw [← hids, List.pairwise_map] at hsorted
  exact hsorted.imp_of_mem fun ha hb hlt =>
    (segmentPath_lt_iff (hsmall _ ha) (hsmall _ hb)).mp hlt

/-- Sorting the paths gives the segments in the order of their numbers, in whatever order the files
are listed. -/
theorem sortedMatches_eq (hsmall : ∀ id ∈ ids, id.toNat < 10 ^ 16) (hids : ids.Pairwise (· < ·))
    (hglob : glob files = ids.map segmentPath) (dir : List Char) {names : List (List Char)}
    (hnames : names.Perm (files.pairs.map (·.1))) :
    sortedMatches dir names = ids.map (segmentPathIn dir) := by
  have hperm : (sortedMatches dir names).Perm (ids.map (segmentPathIn dir)) := by
    refine (List.mergeSort_perm _ _).trans ?_
    have hfound := (hnames.filter fun name => walSuffix.isSuffixOf name).map (joinPath '/' '.' dir)
    have hfiles : (files.pairs.map (·.1)).filter (fun name => walSuffix.isSuffixOf name) =
        ids.map segmentPath := by
      rw [← hglob, glob, SortedList.scan_nil]
    rwa [hfiles, List.map_map] at hfound
  have hsorted : (sortedMatches dir names).Pairwise (· ≤ ·) := by
    refine (List.pairwise_mergeSort ?_ ?_ _).imp of_decide_eq_true
    · intro a b c hab hbc
      simp only [decide_eq_true_eq] at hab hbc ⊢
      exact hab.trans hbc
    · intro a b
      simpa using le_total a b
  have hsorted' : (ids.map (segmentPathIn dir)).Pairwise (· ≤ ·) := by
    refine List.pairwise_map.mpr (hids.imp_of_mem fun ha hb hlt => ?_)
    exact ((segmentPathIn_lt_iff dir (hsmall _ ha) (hsmall _ hb)).mpr hlt).le
  exact hperm.eq_of_pairwise (fun a b _ _ => le_antisymm) hsorted hsorted'

/-- What `recover` has done if it succeeds: the segments are in the order of the paths, and there
are no other files than before. -/
theorem of_recoverFrom {crc32 : List UInt8 → UInt32} {maxSegSz : ℤ} {older : List Segment}
    {lastIdx : UInt64} {log : WAL} (hne : ids ≠ [])
    (h : recoverFrom crc32 maxSegSz files older lastIdx (ids.map segmentPath) = .ok (files', log)) :
    log.segments.map (·.id) = older.map (·.id) ++ ids ∧
      ∀ path, (get files' path).isSome = (get files path).isSome := by
  induction ids generalizing older lastIdx with
  | nil => exact absurd rfl hne
  | cons id ids ih =>
      rw [List.map_cons, recoverFrom] at h
      simp only [segmentIDFromPath_segmentPath, bind, Except.bind] at h
      cases hreplay : replayFile crc32 files (segmentPath id) with
      | error err =>
          rw [hreplay] at h
          cases h
      | ok replayed =>
          simp only [hreplay, Except.mapError] at h
          cases hget : get files (segmentPath id) with
          | none => simp [replayFile, hget] at hreplay
          | some content =>
              split at h
              · -- The last segment is opened for writing.
                rename_i hlast
                obtain rfl := List.map_eq_nil_iff.mp hlast
                simp only [openSegmentForWrite, hget, pure, Except.pure] at h
                obtain ⟨rfl, rfl⟩ := Prod.mk.inj (Except.ok.inj h)
                refine ⟨by simp [WAL.segments], ?_⟩
                intro path
                rw [get_put]
                split
                · rename_i hpath
                  rw [hpath, hget]
                  rfl
                · rfl
              · rename_i hmore
                simp only [hget] at h
                obtain ⟨hsegs, hfiles⟩ := ih (by simpa using hmore) h
                exact ⟨by simpa using hsegs, hfiles⟩

theorem resumed_of_last {log : WAL} (before : List UInt64) {last : UInt64}
    (hsegs : log.segments.map (·.id) = before ++ [last])
    (hsmall : last.toNat < 10 ^ 16) (hle : ∀ id, (get files (segmentPath id)).isSome = true →
      id.toNat ≤ last.toNat) : Resumed (before ++ [last]) files log := by
  have hid : log.active.id = last := by
    rw [WAL.segments, List.map_append, List.map_singleton] at hsegs
    exact List.singleton_inj.mp (List.append_inj_right' hsegs rfl)
  have habove : ∀ id, (get files (segmentPath id)).isSome = true → id < log.active.id + 1 := by
    intro id hsome
    rw [UInt64.lt_iff_toNat_lt, hid, toNat_succ hsmall]
    exact Nat.lt_succ_of_le (hle id hsome)
  refine ⟨hsegs, habove, ?_⟩
  by_contra hsome
  exact UInt64.lt_irrefl _ (habove _ (Option.ne_none_iff_isSome.mp hsome))

/-- `Open` goes on after the last segment. -/
theorem resumed_of_openLog {crc32 : List UInt8 → UInt32} {maxSegSz : ℤ} {log : WAL}
    (hsmall : ∀ id ∈ ids, id.toNat < 10 ^ 16) (hids : ids.Pairwise (· < ·))
    (hglob : glob files = ids.map segmentPath)
    (h : openLog crc32 maxSegSz files = .ok (files', log)) :
    Resumed (if ids = [] then [1] else ids) files' log := by
  have hmem : ∀ id, (get files (segmentPath id)).isSome = true → id ∈ ids := by
    intro id hsome
    have hname := segmentPath_mem_glob hsome
    rw [hglob] at hname
    obtain ⟨id', hid', heq⟩ := List.mem_map.mp hname
    rwa [← segmentPath_injective heq]
  rw [openLog, hglob] at h
  rcases List.eq_nil_or_concat' ids with rfl | ⟨before, last, rfl⟩
  · rw [List.map_nil, recoverFrom] at h
    split at h
    · cases h
    · rename_i dir hcreate
      obtain ⟨rfl, rfl⟩ := Prod.mk.inj (Except.ok.inj h)
      refine resumed_of_last [] rfl (by decide) ?_
      intro id hsome
      rw [createFile] at hcreate
      split at hcreate
      · cases hcreate
      · obtain rfl := Option.some.inj hcreate
        rw [get_put] at hsome
        split at hsome
        · rename_i heq
          rw [segmentPath_injective heq]
        · exact absurd (hmem id hsome) List.not_mem_nil
  · obtain ⟨hsegs, hfiles⟩ := of_recoverFrom (by simp) h
    rw [if_neg (by simp)]
    refine resumed_of_last before hsegs (hsmall last (by simp)) ?_
    intro id hsome
    rw [hfiles] at hsome
    rcases List.mem_append.mp (hmem id hsome) with hbefore | hlast
    · have hlt := (List.pairwise_append.mp hids).2.2 id hbefore last (by simp)
      exact (UInt64.lt_iff_toNat_lt.mp hlt).le
    · rw [List.mem_singleton.mp hlast]

end Files

theorem Holds.segmentsOnly {crc32 : List UInt8 → UInt32} {dir : Dir} {parts : List Part}
    (h : Holds crc32 dir parts) : SegmentsOnly dir := by
  intro name hname
  rw [h.glob_eq] at hname
  obtain ⟨p, hp, rfl⟩ := List.mem_map.mp hname
  have hmem : p.id.toNat ∈ List.range' 1 parts.length := h.numbered ▸ List.mem_map_of_mem hp
  have hle := (List.mem_range'_1.mp hmem).2
  have hfew := h.few
  exact ⟨p.id, by omega, rfl⟩

/-- In every directory, the order of the segments' paths is that of their numbers, and `recover`
goes by it. The directories that the log's runs leave are of this kind. -/
theorem segment_order_numeric (dir : List Char) :
    (∀ a b : UInt64, a.toNat < 10 ^ 16 → b.toNat < 10 ^ 16 →
      (segmentPathIn dir a < segmentPathIn dir b ↔ a < b)) ∧
    (∀ a, segmentIDFromPathIn (segmentPathIn dir a) = .ok a) ∧
    (∀ files names, SegmentsOnly files → names.Perm (files.pairs.map (·.1)) →
      ∃ ids : List UInt64, ids.Pairwise (· < ·) ∧
        sortedMatches dir names = ids.map (segmentPathIn dir) ∧
        ∀ crc32 maxSegSz files' log, openLog crc32 maxSegSz files = .ok (files', log) →
          Resumed (if ids = [] then [1] else ids) files' log) ∧
    ∀ crc32 w, Path (step crc32) (fun w ev => ev.Successful ∧ Numbered w ev) .init w →
      SegmentsOnly w.dir := by
  refine ⟨fun a b => segmentPathIn_lt_iff dir, segmentIDFromPathIn_segmentPathIn dir, ?_, ?_⟩
  · intro files names hfiles hnames
    obtain ⟨ids, hsmall, hids, hglob⟩ := hfiles.exists_ids
    refine ⟨ids, hids, sortedMatches_eq hsmall hids hglob dir hnames, ?_⟩
    intro crc32 maxSegSz files' log hopen
    exact resumed_of_openLog hsmall hids hglob hopen
  · intro crc32 w hrun
    obtain ⟨parts, hholds, -⟩ := (tidy_of_path hrun).1.holds
    exact hholds.segmentsOnly

end VaultFS.Wal
