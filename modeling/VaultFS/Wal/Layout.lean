import VaultFS.Wal.Log

/-!
# What the files of a log hold

A segment file holds whole records and then a rest, which is empty or a record that was cut short or
damaged (`Part`). The directory of a log is a list of such parts in the order of their names
(`Stores`). On a directory of this form `ReadAll` gives the records of all parts in order, and
`Open` succeeds and drops the rest of the last one.
-/

namespace VaultFS.Wal

open Framing KeyValue

structure Part where
  id : UInt64
  records : List Entry
  torn : List UInt8

namespace Part

def path (p : Part) : List Char := segmentPath p.id

/-- The part without its rest. -/
def whole (p : Part) : Part := { p with torn := [] }

variable (crc32 : List UInt8 → UInt32)

def bytes (p : Part) : List UInt8 := (codec crc32).encodeAll p.records ++ p.torn

/-- Reading the part ends at its rest, and takes that for the end of the log. -/
def Readable (p : Part) : Prop :=
  ∃ err, (codec crc32).Splits (p.bytes crc32) p.records p.torn err ∧ err.endsLog = true

/-- The segment that `Open` makes of the part when it is not the last one. -/
def segment (p : Part) : Segment := ⟨p.id, p.path, false, (p.bytes crc32).length⟩

variable {crc32}

theorem bytes_whole (p : Part) : p.whole.bytes crc32 = (codec crc32).encodeAll p.records := by
  simp [bytes, whole]

theorem Readable.fits {p : Part} (h : p.Readable crc32) : ∀ e ∈ p.records, e.Fits := by
  obtain ⟨err, hsplits, -⟩ := h
  exact hsplits.fits

theorem readable_of_decode {p : Part} {err : DecodeError} (hfits : ∀ e ∈ p.records, e.Fits)
    (htorn : decode crc32 p.torn = .error err) (hend : err.endsLog = true) : p.Readable crc32 :=
  ⟨err, ⟨rfl, hfits, htorn⟩, hend⟩

theorem readable_of_fits {p : Part} (hfits : ∀ e ∈ p.records, e.Fits) (htorn : p.torn = []) :
    p.Readable crc32 := by
  have heof : decode crc32 p.torn = .error .eof := if_pos htorn
  exact readable_of_decode hfits heof rfl

theorem Readable.whole {p : Part} (h : p.Readable crc32) : p.whole.Readable crc32 :=
  readable_of_fits h.fits rfl

end Part

section Checksum

variable {crc32 : List UInt8 → UInt32}

/-- The file of the part is in the directory. -/
def Present (crc32 : List UInt8 → UInt32) (dir : Dir) (p : Part) : Prop :=
  p.Readable crc32 ∧ get dir p.path = some (p.bytes crc32)

theorem Present.replayFile {dir : Dir} {p : Part} (h : Present crc32 dir p) :
    replayFile crc32 dir p.path = .ok (p.records, ((codec crc32).encodeAll p.records).length) := by
  obtain ⟨⟨err, hsplits, hend⟩, hget⟩ := h
  rw [Wal.replayFile, hget]
  simp only [replayFrom_of_splits hsplits, hend, if_true, List.nil_append, Nat.zero_add]

theorem readFrom_eq {dir : Dir} {segs : List Segment} {parts : List Part}
    (hpresent : ∀ p ∈ parts, Present crc32 dir p) (hpaths : segs.map (·.path) = parts.map (·.path))
    (all : List Entry) :
    readFrom crc32 dir all segs = .ok (all ++ parts.flatMap (·.records)) := by
  induction parts generalizing segs all with
  | nil =>
      have hnil : segs = [] := List.map_eq_nil_iff.mp hpaths
      simp [hnil, readFrom]
  | cons p parts ih =>
      cases segs with
      | nil => cases hpaths
      | cons seg segs =>
          obtain ⟨hhead, hrest⟩ := List.cons_eq_cons.mp hpaths
          have hpath : seg.path = p.path := hhead
          rw [readFrom, hpath, (hpresent p List.mem_cons_self).replayFile]
          simp only
          rw [ih (fun q hq => hpresent q (List.mem_cons_of_mem p hq)) hrest, List.flatMap_cons,
            List.append_assoc]

/-- `recover` goes over readable segments that are not the last one. -/
theorem recoverFrom_append {dir : Dir} {parts : List Part} {rest : List (List Char)}
    (hpresent : ∀ p ∈ parts, Present crc32 dir p) (hrest : rest ≠ []) (maxSegSz : ℤ)
    (older : List Segment) (lastIdx : UInt64) :
    recoverFrom crc32 maxSegSz dir older lastIdx (parts.map (·.path) ++ rest) =
      recoverFrom crc32 maxSegSz dir (older ++ parts.map (·.segment crc32))
        ((parts.flatMap (·.records)).foldl advance lastIdx) rest := by
  induction parts generalizing older lastIdx with
  | nil => simp
  | cons p parts ih =>
      have hp := hpresent p List.mem_cons_self
      have hid : segmentIDFromPath p.path = .ok p.id := segmentIDFromPath_segmentPath p.id
      have hmore : parts.map (·.path) ++ rest ≠ [] := List.append_ne_nil_of_right_ne_nil _ hrest
      rw [List.map_cons, List.cons_append, recoverFrom]
      simp only [hid, hp.replayFile, hp.2, Except.mapError, if_neg hmore, bind, Except.bind]
      rw [ih fun q hq => hpresent q (List.mem_cons_of_mem p hq)]
      simp [Part.segment, List.foldl_append]

theorem recoverFrom_singleton {dir : Dir} {p : Part} (h : Present crc32 dir p) (maxSegSz : ℤ)
    (older : List Segment) (lastIdx : UInt64) :
    recoverFrom crc32 maxSegSz dir older lastIdx [p.path] =
      .ok (put dir p.path (p.whole.bytes crc32),
        ⟨older, ⟨p.id, p.path, true, (p.whole.bytes crc32).length⟩, p.records.foldl advance lastIdx,
          maxSegSz⟩) := by
  have hid : segmentIDFromPath p.path = .ok p.id := segmentIDFromPath_segmentPath p.id
  have htrunc : truncate ((codec crc32).encodeAll p.records).length (p.bytes crc32) =
      p.whole.bytes crc32 := by
    rw [p.bytes_whole, truncate, Part.bytes]
    simp
  rw [recoverFrom]
  simp [hid, h.replayFile, h.2, Except.mapError, bind, Except.bind, pure, Except.pure,
    openSegmentForWrite, htrunc, p.bytes_whole]

/-- A directory with nothing but segment files. -/
theorem glob_of_forall {dir : Dir} (h : ∀ x ∈ dir.pairs, ∃ id, x.1 = segmentPath id) :
    glob dir = dir.pairs.map (·.1) := by
  rw [glob, SortedList.scan_nil]
  refine List.filter_eq_self.mpr ?_
  intro name hname
  obtain ⟨x, hx, rfl⟩ := List.mem_map.mp hname
  obtain ⟨id, hid⟩ := h x hx
  rw [hid]
  exact List.isSuffixOf_iff_suffix.mpr ⟨_, rfl⟩

/-- The files of the directory are the parts, in this order. -/
structure Stores (crc32 : List UInt8 → UInt32) (dir : Dir) (parts : List Part) : Prop where
  pairs : dir.pairs = parts.map fun p => (p.path, p.bytes crc32)
  readable : ∀ p ∈ parts, p.Readable crc32

namespace Stores

variable {dir : Dir} {parts before after : List Part} {p : Part}

theorem present (h : Stores crc32 dir parts) : ∀ p ∈ parts, Present crc32 dir p := by
  intro p hp
  refine ⟨h.readable p hp, SortedList.get_of_mem_pairs ?_⟩
  rw [h.pairs]
  exact List.mem_map_of_mem hp

theorem glob_eq (h : Stores crc32 dir parts) : glob dir = parts.map (·.path) := by
  rw [glob_of_forall, h.pairs, List.map_map]
  · rfl
  · intro x hx
    rw [h.pairs] at hx
    obtain ⟨p, -, rfl⟩ := List.mem_map.mp hx
    exact ⟨p.id, rfl⟩

/-- The files are in the order of their names. -/
theorem sorted (h : Stores crc32 dir parts) : parts.Pairwise fun p q => p.path < q.path := by
  have hsorted : (dir.pairs.map (·.1)).Pairwise (· < ·) := List.pairwise_map.mpr dir.sorted
  rw [h.pairs, List.map_map] at hsorted
  exact List.pairwise_map.mp hsorted

theorem update (h : Stores crc32 dir (before ++ p :: after)) {q : Part} (hid : q.id = p.id)
    (hq : q.Readable crc32) :
    Stores crc32 (put dir p.path (q.bytes crc32)) (before ++ q :: after) := by
  have hpath : q.path = p.path := by rw [Part.path, Part.path, hid]
  refine ⟨?_, ?_⟩
  · have hpairs := h.pairs
    rw [List.map_append, List.map_cons] at hpairs ⊢
    rw [SortedList.pairs_put_of_eq hpairs, hpath]
  · intro x hx
    rcases List.mem_append.mp hx with hbefore | hcons
    · exact h.readable x (List.mem_append_left _ hbefore)
    · rcases List.mem_cons.mp hcons with rfl | hafter
      · exact hq
      · exact h.readable x (List.mem_append_right _ (List.mem_cons_of_mem p hafter))

/-- A new file behind all others. -/
theorem create (h : Stores crc32 dir parts) {id : UInt64}
    (hlast : ∀ p ∈ parts, p.path < segmentPath id) :
    Stores crc32 (put dir (segmentPath id) []) (parts ++ [⟨id, [], []⟩]) := by
  refine ⟨?_, ?_⟩
  · rw [SortedList.pairs_put_of_forall_lt, h.pairs, List.map_append]
    · rfl
    · intro x hx
      rw [h.pairs] at hx
      obtain ⟨p, hp, rfl⟩ := List.mem_map.mp hx
      exact hlast p hp
  · intro x hx
    rcases List.mem_append.mp hx with hparts | hnew
    · exact h.readable x hparts
    · rw [List.mem_singleton.mp hnew]
      exact Part.readable_of_fits (by simp) rfl

/-- A new file in its place. -/
theorem insert (h : Stores crc32 dir parts) {id : UInt64} (hnew : get dir (segmentPath id) = none) :
    ∃ before after, parts = before ++ after ∧
      Stores crc32 (put dir (segmentPath id) []) (before ++ ⟨id, [], []⟩ :: after) := by
  obtain ⟨l, l', hpairs, hput⟩ := SortedList.exists_pairs_put hnew
  rw [h.pairs] at hpairs
  obtain ⟨before, after, rfl, rfl, rfl⟩ := List.map_eq_append_iff.mp hpairs
  refine ⟨before, after, rfl, ?_, ?_⟩
  · rw [hput, List.map_append, List.map_cons]
    rfl
  · intro x hx
    rcases List.mem_append.mp hx with hbefore | hcons
    · exact h.readable x (List.mem_append_left _ hbefore)
    · rcases List.mem_cons.mp hcons with rfl | hafter
      · exact Part.readable_of_fits (by simp) rfl
      · exact h.readable x (List.mem_append_right _ hafter)

theorem openLog_nil (h : Stores crc32 dir []) (maxSegSz : ℤ) :
    openLog crc32 maxSegSz dir =
      .ok (put dir (segmentPath 1) [], ⟨[], .created 1, 0, maxSegSz⟩) := by
  have hnone : get dir (segmentPath 1) = none := by
    change SortedList.lookup _ dir.pairs = none
    rw [h.pairs]
    rfl
  rw [openLog, h.glob_eq, List.map_nil, recoverFrom, createFile, hnone]
  rfl

theorem openLog_concat (h : Stores crc32 dir (before ++ [p])) (maxSegSz : ℤ) :
    openLog crc32 maxSegSz dir =
      .ok (put dir p.path (p.whole.bytes crc32),
        ⟨before.map (·.segment crc32), ⟨p.id, p.path, true, (p.whole.bytes crc32).length⟩,
          ((before ++ [p]).flatMap (·.records)).foldl advance 0, maxSegSz⟩) := by
  have hbefore : ∀ q ∈ before, Present crc32 dir q :=
    fun q hq => h.present q (List.mem_append_left _ hq)
  have hp : Present crc32 dir p := h.present p (by simp)
  rw [openLog, h.glob_eq, List.map_append, recoverFrom_append hbefore (by simp),
    List.map_singleton, recoverFrom_singleton hp]
  simp

/-- What `ReadAll` returns after `Open`. -/
theorem readAll_openLog (h : Stores crc32 dir parts) (hne : parts ≠ []) (maxSegSz : ℤ) :
    ∃ dir' log, openLog crc32 maxSegSz dir = .ok (dir', log) ∧
      log.readAll crc32 dir' = .ok (parts.flatMap (·.records)) := by
  obtain ⟨before, p, rfl⟩ := (List.eq_nil_or_concat' parts).resolve_left hne
  refine ⟨_, _, h.openLog_concat maxSegSz, ?_⟩
  have hwhole := h.update (q := p.whole) rfl (h.readable p (by simp)).whole
  rw [WAL.readAll, readFrom_eq hwhole.present]
  · simp [Part.whole]
  · simp [WAL.segments, Part.segment, Part.path, Part.whole]

end Stores

end Checksum

end VaultFS.Wal
