import VaultFS.Wal.Concurrent

/-!
# What a `ReadAll` beside `Append` returns

The segments that a `ReadAll` has copied are parts of the log. All of them but the last one are no
longer written to, so that what was read of them is all that they hold (`Follows`). In the file it
is reading, the bytes that it has got are the first ones of the part (`Reads`), and when it stops
there it has got every record that was in the file then.
-/

namespace VaultFS.Wal.Concurrent

open Framing KeyValue LittleEndian Transition

section Checksum

variable {crc32 : List UInt8 → UInt32} {parts parts' : List Part} {p : Part}
  {owed all order : List Entry} {segs : List Segment}

/-- The segments that are left are parts of the log and the parts before them are read. Together
they hold the entries that the reader has to return. -/
def Follows (parts : List Part) (owed all : List Entry) (segs : List Segment) : Prop :=
  ∃ before unread after, parts = before ++ unread ++ after ∧
    unread.map (·.path) = segs.map (·.path) ∧ before.flatMap (·.records) = all ∧
    owed <+: all ++ unread.flatMap (·.records)

namespace Follows

theorem mono (h : Follows parts owed all segs) (hsegs : segs ≠ [])
    (hgrows : Grows crc32 parts parts') : Follows parts' owed all segs := by
  obtain ⟨before, unread, after, rfl, hpaths, hall, howed⟩ := h
  obtain ⟨older, p, p', more, heq, rfl, hlonger⟩ := hgrows
  have hunread : unread ≠ [] := by
    rintro rfl
    exact hsegs (List.map_eq_nil_iff.mp hpaths.symm)
  rcases List.eq_nil_or_concat' after with rfl | ⟨after, z, rfl⟩
  · -- The last one of the segments is the last part, which has grown.
    obtain ⟨unread, q, rfl⟩ := (List.eq_nil_or_concat' unread).resolve_left hunread
    rw [List.append_nil, ← List.append_assoc] at heq
    obtain ⟨rfl, hq⟩ := List.append_inj' heq rfl
    obtain rfl := List.singleton_inj.mp hq
    refine ⟨before, unread ++ [p'], more, by simp, ?_, hall, howed.trans ?_⟩
    · rw [← hpaths, List.map_append, List.map_append, List.map_singleton, List.map_singleton,
        hlonger.path]
    · simpa using hlonger.records
  · rw [← List.append_assoc] at heq
    obtain ⟨rfl, -⟩ := List.append_inj' heq rfl
    exact ⟨before, unread, after ++ p' :: more, by simp, hpaths, hall, howed⟩

theorem advance {seg : Segment} (h : Follows parts owed all (seg :: segs))
    (hnodup : (parts.map (·.path)).Nodup) (hp : p ∈ parts) (hpath : p.path = seg.path) :
    Follows parts owed (all ++ p.records) segs := by
  obtain ⟨before, unread, after, rfl, hpaths, hall, howed⟩ := h
  obtain ⟨q, unread, rfl, hq, hrest⟩ := List.map_eq_cons_iff.mp hpaths
  obtain rfl : q = p := List.inj_on_of_nodup_map hnodup (by simp) hp (hq.trans hpath.symm)
  refine ⟨before ++ [q], unread, after, by simp, hrest, by simp [hall], ?_⟩
  simpa using howed

/-- Each segment that is left is a part of the log. -/
theorem exists_part (h : Follows parts owed all segs) {seg : Segment} (hseg : seg ∈ segs) :
    ∃ p ∈ parts, p.path = seg.path := by
  obtain ⟨before, unread, after, rfl, hpaths, -, -⟩ := h
  have hmem : seg.path ∈ unread.map (·.path) := hpaths ▸ List.mem_map_of_mem hseg
  obtain ⟨p, hp, hpath⟩ := List.mem_map.mp hmem
  exact ⟨p, by simp [hp], hpath⟩

end Follows

/-- The reader has got the first bytes of the part. -/
structure Reads (crc32 : List UInt8 → UInt32) (p : Part) (c : Cursor) : Prop where
  fits : ∀ e ∈ c.entries, e.Fits
  bytes : (codec crc32).encodeAll c.entries ++ c.got <+: p.bytes crc32
  pos : c.pos = ((codec crc32).encodeAll c.entries ++ c.got).length

/-- What the reader still has to do in the file of a part. A read byte is to be decoded. -/
def todo (crc32 : List UInt8 → UInt32) (p : Part) (c : Cursor) : ℕ :=
  2 * ((p.bytes crc32).length - c.pos) + c.got.length

namespace Reads

variable {c : Cursor} {content : List Char → Option (List UInt8)} {n : ℕ} {r : Reader}

theorem mono {p' : Part} (h : Reads crc32 p c) (hlonger : Longer crc32 p p') :
    Reads crc32 p' c :=
  ⟨h.fits, h.bytes.trans hlonger.bytes, h.pos⟩

/-- Where no record can be read, all records of the part are read. -/
theorem records_eq (h : Reads crc32 p c) (hp : p.Readable crc32) {rest : List UInt8}
    {err : DecodeError}
    (hbytes : p.bytes crc32 = (codec crc32).encodeAll c.entries ++ (c.got ++ rest))
    (hdecode : decode crc32 (c.got ++ rest) = .error err) :
    p.records = c.entries ∧ err.endsLog = true := by
  obtain ⟨err', hsplits, hends⟩ := hp
  rw [hbytes] at hsplits
  obtain ⟨more, hrecords, hmore⟩ := hsplits.of_append h.fits
  have hstop : (codec crc32).Splits (c.got ++ rest) [] (c.got ++ rest) err := .nil hdecode
  obtain ⟨rfl, -, rfl⟩ := hmore.unique hstop
  exact ⟨by simpa using hrecords, hends⟩

/-- The reader takes a record from the bytes that it has got. -/
theorem decoded {entry : Entry} {got : List UInt8} (h : Reads crc32 p c)
    (hdecode : decode crc32 c.got = .ok (entry, got)) :
    Reads crc32 p { c with entries := c.entries ++ [entry], got := got } := by
  obtain ⟨hfits, hgot⟩ := of_decode hdecode
  obtain ⟨rest, hrest⟩ := h.bytes
  refine ⟨?_, ⟨rest, ?_⟩, ?_⟩
  · intro e he
    rcases List.mem_append.mp he with hold | hnew
    · exact h.fits e hold
    · exact List.mem_singleton.mp hnew ▸ hfits
  · rw [← hrest, hgot]
    simp [codec]
  · rw [h.pos, hgot]
    simp [codec]

/-- The reader gets the next bytes of the file. -/
theorem extend {rest : List UInt8} (h : Reads crc32 p c) (hn : n ≤ rest.length)
    (hrest : (codec crc32).encodeAll c.entries ++ c.got ++ rest = p.bytes crc32) :
    Reads crc32 p { c with got := c.got ++ rest.take n, pos := c.pos + n } := by
  refine ⟨h.fits, ⟨rest.drop n, ?_⟩, ?_⟩
  · rw [← hrest]
    simp
  · simp only [h.pos, List.length_append, List.length_take_of_le hn]
    omega

/-- A step of the reader in the file of a part: it gets on, or it is through with the part. -/
theorem proceed (h : Reads crc32 p c) (hp : p.Readable crc32)
    (hcontent : content c.seg.path = some (p.bytes crc32))
    (hs : Reader.proceed crc32 content n (.reading c) = some r) :
    (∃ c', r = .reading c' ∧ c'.all = c.all ∧ c'.seg = c.seg ∧ c'.rest = c.rest ∧
      Reads crc32 p c' ∧ todo crc32 p c' < todo crc32 p c) ∨
    r = .next (c.all ++ p.records) c.rest := by
  obtain ⟨rest, hrest⟩ := h.bytes
  have hstop : ∀ {err}, decode crc32 (c.got ++ rest) = .error err →
      Reader.stop c err = .next (c.all ++ p.records) c.rest := by
    intro err hdecode
    obtain ⟨hrecords, hends⟩ := h.records_eq hp (by rw [← hrest, List.append_assoc]) hdecode
    rw [Reader.stop, if_pos hends, hrecords]
  have hleft : ((content c.seg.path).getD []).drop c.pos = rest := by
    rw [hcontent, Option.getD_some, ← hrest, h.pos, List.drop_left]
  simp only [Reader.proceed, hleft] at hs
  split at hs
  · rename_i entry got hdecode
    obtain rfl := Option.some.inj hs
    refine .inl ⟨_, rfl, rfl, rfl, rfl, h.decoded hdecode, ?_⟩
    have hlt : got.length < c.got.length := (codec crc32).length_lt_of_decode hdecode
    simp only [todo]
    omega
  · rename_i err hdecode
    split at hs
    · split at hs
      · rename_i hnil
        obtain rfl := Option.some.inj hs
        exact .inr (hstop (by rw [hnil, List.append_nil, hdecode]))
      · split at hs
        · rename_i hn
          obtain rfl := Option.some.inj hs
          refine .inl ⟨_, rfl, rfl, rfl, rfl, h.extend hn.2.2 hrest, ?_⟩
          have hlength : (p.bytes crc32).length = c.pos + rest.length := by
            rw [← hrest, List.length_append, h.pos]
          simp only [todo, List.length_append, List.length_take_of_le hn.2.2, hlength]
          omega
        · cases hs
    · rename_i htruncated
      obtain rfl := Option.some.inj hs
      have herr : err.truncated = false := Bool.not_eq_true _ ▸ htruncated
      exact .inr (hstop (decode_append_of_error hdecode herr rest))

end Reads

/-- A read can get a byte of the record, if the file has one. -/
theorem wanted_pos {got : List UInt8} {err : DecodeError} (h : decode crc32 got = .error err)
    (herr : err.truncated = true) : 0 < Reader.wanted got := by
  unfold Reader.wanted
  split
  · omega
  · rename_i hlong
    obtain ⟨len, crc, r, rfl, hlen, hcrc⟩ := exists_frame (not_lt.mp hlong)
    rw [decode_frame hlen hcrc, decodePayload] at h
    have hshort : r.length < value len := by
      split at h
      · cases h
        cases herr
      · split at h
        · cases h
          cases herr
        · split at h
          · assumption
          · simp only at h
            split at h
            · cases h
              cases herr
            · cases h
    rw [List.append_assoc, List.take_left' hlen, List.length_append, List.length_append, hlen, hcrc,
      headerSize]
    omega

theorem exists_proceed (crc32 : List UInt8 → UInt32)
    (content : List Char → Option (List UInt8)) (c : Cursor) :
    ∃ r, Reader.proceed crc32 content 1 (.reading c) = some r := by
  simp only [Reader.proceed]
  split
  · exact ⟨_, rfl⟩
  · rename_i err hdecode
    split
    · rename_i herr
      split
      · exact ⟨_, rfl⟩
      · rename_i hleft
        rw [if_pos ⟨one_pos, wanted_pos hdecode herr, List.length_pos_iff.mpr hleft⟩]
        exact ⟨_, rfl⟩
    · exact ⟨_, rfl⟩

/-- What holds of a `ReadAll` beside the parts that it sees. -/
def Reader.Sound (crc32 : List UInt8 → UInt32) (parts : List Part) (order owed : List Entry) :
    Reader → Prop
  | .idle => True
  | .called => owed <+: parts.flatMap (·.records)
  | .opening all seg rest => Follows parts owed all (seg :: rest)
  | .reading c => Follows parts owed c.all (c.seg :: c.rest) ∧
      ∃ p ∈ parts, p.path = c.seg.path ∧ Reads crc32 p c
  | .done res => ∃ es, res = .ok es ∧ owed <+: es ∧ es <+: order

theorem Grows.flatMap_records (h : Grows crc32 parts parts') :
    parts.flatMap (·.records) <+: parts'.flatMap (·.records) := by
  obtain ⟨before, p, p', more, rfl, rfl, hlonger⟩ := h
  simp only [List.flatMap_append, List.flatMap_cons, List.flatMap_nil, List.append_nil]
  exact (List.prefix_append_right_inj _).mpr (hlonger.records.trans (List.prefix_append _ _))

namespace Reader.Sound

variable {r : Reader}

/-- The files grow, and calls of `Append` come. -/
theorem mono {order' : List Entry} (h : r.Sound crc32 parts order owed)
    (hgrows : Grows crc32 parts parts') (horder : order <+: order') :
    r.Sound crc32 parts' order' owed := by
  cases r with
  | idle => trivial
  | called => exact h.trans hgrows.flatMap_records
  | opening all seg rest => exact Follows.mono h (by simp) hgrows
  | reading c =>
      obtain ⟨hfollows, p, hp, hpath, hreads⟩ := h
      refine ⟨hfollows.mono (by simp) hgrows, ?_⟩
      obtain ⟨before, q, q', more, rfl, rfl, hlonger⟩ := hgrows
      rcases List.mem_append.mp hp with hbefore | hlast
      · exact ⟨p, List.mem_append_left _ hbefore, hpath, hreads⟩
      · obtain rfl := List.mem_singleton.mp hlast
        exact ⟨q', by simp, hlonger.path.trans hpath, hreads.mono hlonger⟩
  | done res =>
      obtain ⟨es, hres, howed, hes⟩ := h
      exact ⟨es, hres, howed, hes.trans horder⟩

/-- The reader goes on with the next segment, or returns. -/
theorem next (h : Follows parts owed all segs) (horder : parts.flatMap (·.records) <+: order) :
    (Reader.next all segs).Sound crc32 parts order owed := by
  cases segs with
  | cons seg rest => exact h
  | nil =>
      obtain ⟨before, unread, after, rfl, hpaths, hall, howed⟩ := h
      obtain rfl : unread = [] := List.map_eq_nil_iff.mp hpaths
      refine ⟨all, rfl, by simpa using howed, List.IsPrefix.trans ?_ horder⟩
      rw [← hall]
      simp

/-- A step of the reader, on the files as it sees them. -/
theorem proceed {w : World} {r' : Reader} {n : ℕ} (h : r.Sound crc32 parts w.order owed)
    (hsees : Sees crc32 w parts) (hs : r.proceed crc32 w.content n = some r') :
    r'.Sound crc32 parts w.order owed := by
  cases r with
  | idle => cases hs
  | called => cases hs
  | done res => cases hs
  | opening all seg rest =>
      have hfollows : Follows parts owed all (seg :: rest) := h
      obtain ⟨p, hp, hpath⟩ := hfollows.exists_part List.mem_cons_self
      have hcontent : w.content seg.path = some (p.bytes crc32) := hpath ▸ hsees.files.bytes p hp
      simp only [Reader.proceed, hcontent] at hs
      obtain rfl := Option.some.inj hs
      exact ⟨hfollows, p, hp, hpath, by simp, by simp, by simp⟩
  | reading c =>
      obtain ⟨hfollows, p, hp, hpath, hreads⟩ := h
      have hcontent : w.content c.seg.path = some (p.bytes crc32) := hpath ▸ hsees.files.bytes p hp
      rcases hreads.proceed (hsees.files.readable p hp) hcontent hs with
        ⟨c', rfl, hall, hseg, hrest, hreads', -⟩ | rfl
      · refine ⟨?_, p, hp, hseg ▸ hpath, hreads'⟩
        rw [hall, hseg, hrest]
        exact hfollows
      · exact next (hfollows.advance hsees.files.nodup hp hpath) hsees.records

end Reader.Sound

/-- The parts of the log as the reader sees them, and where the reader is. -/
def Consistent (crc32 : List UInt8 → UInt32) (w : World) : Prop :=
  ∃ parts, Writes crc32 w parts ∧ w.reader.Sound crc32 (w.shown crc32 parts) w.order w.owed

theorem Consistent.step {w w' : World} {ev : Event} (h : Consistent crc32 w) (hfits : ev.Fits)
    (hs : step crc32 w ev = some w') : Consistent crc32 w' := by
  obtain ⟨parts, hwrites, hsound⟩ := h
  obtain ⟨parts', hwrites', hgrows, horder⟩ := hwrites.step hfits hs
  have hmono := hsound.mono hgrows horder
  have hsees := hwrites'.sees
  refine ⟨parts', hwrites', ?_⟩
  cases stepped hs with
  | append => exact hmono
  | reveal => exact hmono
  | op => exact hmono
  | unlock => exact hmono
  | call => exact hsees.returned
  | copy hw hr =>
      obtain ⟨before, p, rfl, hsettled⟩ := hwrites'.idle hw
      have hactive : w.wal.active.path = p.path := hsettled.path
      refine .next ⟨[], before ++ [p], [], ?_, ?_, rfl, ?_⟩ hsees.records
      · simp [World.shown, hw]
      · simp [WAL.segments, hsettled.older, hactive]
      · rw [hr] at hmono
        simpa [Reader.Sound, World.shown, hw] using hmono
  | read hr => exact hmono.proceed hsees hr

/-- A step of the reader. -/
def Event.IsRead : Event → Prop
  | .copy | .read _ => True
  | _ => False

section Progress

variable {w : World}

/-- The reader comes to the end of a file. -/
theorem path_next (hsees : Sees crc32 w parts) (hp : p ∈ parts) {c : Cursor}
    (hpath : p.path = c.seg.path) (h : Reads crc32 p c) :
    Path (step crc32) (fun _ ev => ev.IsRead) { w with reader := .reading c }
      { w with reader := .next (c.all ++ p.records) c.rest } := by
  induction hn : todo crc32 p c using Nat.strong_induction_on generalizing c with
  | _ n ih =>
      obtain ⟨r, hr⟩ := exists_proceed crc32 w.content c
      have hcontent : w.content c.seg.path = some (p.bytes crc32) := hpath ▸ hsees.files.bytes p hp
      have hstep : step crc32 { w with reader := .reading c } (.read 1) =
          some { w with reader := r } := by
        change (Reader.proceed crc32 w.content 1 (.reading c)).map _ = _
        rw [hr]
        rfl
      have hfirst : Path (step crc32) (fun _ ev => ev.IsRead) { w with reader := .reading c }
          { w with reader := r } := .single (e := .read 1) trivial hstep
      rcases h.proceed (hsees.files.readable p hp) hcontent hr with
        ⟨c', rfl, hall, hseg, hrest, hreads, hlt⟩ | rfl
      · have hmore := ih _ (hn ▸ hlt) (hseg ▸ hpath) hreads rfl
        rw [hall, hrest] at hmore
        exact hfirst.trans hmore
      · exact hfirst

/-- The reader comes to the end of all its files. -/
theorem path_done (hsees : Sees crc32 w parts) (all : List Entry)
    (hparts : ∀ seg ∈ segs, ∃ p ∈ parts, p.path = seg.path) :
    ∃ es, Path (step crc32) (fun _ ev => ev.IsRead) { w with reader := .next all segs }
      { w with reader := .done (.ok es) } := by
  induction segs generalizing all with
  | nil => exact ⟨all, .refl⟩
  | cons seg rest ih =>
      obtain ⟨p, hp, hpath⟩ := hparts seg List.mem_cons_self
      have hcontent : w.content seg.path = some (p.bytes crc32) := hpath ▸ hsees.files.bytes p hp
      have hstep : step crc32 { w with reader := .opening all seg rest } (.read 0) =
          some { w with reader := .reading ⟨all, seg, rest, [], [], 0⟩ } := by
        change (Reader.proceed crc32 w.content 0 (.opening all seg rest)).map _ = _
        simp only [Reader.proceed, hcontent]
        rfl
      have hreads : Reads crc32 p ⟨all, seg, rest, [], [], 0⟩ := ⟨by simp, by simp, by simp⟩
      obtain ⟨es, hes⟩ := ih (all ++ p.records) fun s hs =>
        hparts s (List.mem_cons_of_mem seg hs)
      have hrest := (path_next hsees hp hpath hreads).trans hes
      exact ⟨es, (Path.single (e := .read 0) trivial hstep).trans hrest⟩

/-- The reader never waits, but for the mutex. -/
theorem Consistent.returns (h : Consistent crc32 w) (hidle : w.reader ≠ .idle)
    (hmutex : w.reader = .called → w.writer = none) :
    ∃ es, Path (Concurrent.step crc32) (fun _ ev => ev.IsRead) w
      { w with reader := .done (.ok es) } := by
  obtain ⟨parts, hwrites, hsound⟩ := h
  have hsees := hwrites.sees
  cases hr : w.reader with
  | idle => exact absurd hr hidle
  | called =>
      have hw := hmutex hr
      obtain ⟨before, p, rfl, hsettled⟩ := hwrites.idle hw
      have hcopy : Concurrent.step crc32 w .copy =
          some { w with reader := .next [] w.wal.segments } := by
        simp only [Concurrent.step, hw, hr]
      have hpaths : w.wal.segments.map (·.path) = (before ++ [p]).map (·.path) := by
        simp [WAL.segments, hsettled.older, hsettled.path]
      have hshown : w.shown crc32 (before ++ [p]) = before ++ [p] := by simp [World.shown, hw]
      rw [hshown] at hsees
      obtain ⟨es, hes⟩ := path_done hsees [] fun seg hseg => by
        have hmem : seg.path ∈ (before ++ [p]).map (·.path) := hpaths ▸ List.mem_map_of_mem hseg
        exact List.mem_map.mp hmem
      exact ⟨es, (Path.single (e := .copy) trivial hcopy).trans hes⟩
  | opening all seg rest =>
      rw [hr] at hsound
      have hfollows : Follows (w.shown crc32 parts) w.owed all (seg :: rest) := hsound
      obtain ⟨es, hes⟩ := path_done hsees all fun s hs => hfollows.exists_part hs
      have hnext : Reader.next all (seg :: rest) = w.reader := hr.symm
      rw [hnext] at hes
      exact ⟨es, hes⟩
  | reading c =>
      rw [hr] at hsound
      obtain ⟨hfollows, p, hp, hpath, hreads⟩ := hsound
      have hnext := path_next hsees hp hpath hreads
      rw [← hr] at hnext
      obtain ⟨es, hes⟩ := path_done hsees (c.all ++ p.records) fun s hs =>
        hfollows.exists_part (List.mem_cons_of_mem c.seg hs)
      exact ⟨es, hnext.trans hes⟩
  | done res =>
      rw [hr] at hsound
      obtain ⟨es, rfl, -⟩ := hsound
      exact ⟨es, hr ▸ .refl⟩

end Progress

theorem files_of_stores {dir : Dir} (h : Stores crc32 dir parts) : Files crc32 (get dir) parts := by
  refine ⟨?_, h.readable, fun p hp => (h.present p hp).2⟩
  rw [List.Nodup, List.pairwise_map]
  exact h.sorted.imp ne_of_lt

/-- A log that was opened. -/
theorem settled_of_openLog {dir dir' : Dir} {maxSegSz : ℤ} {log : WAL}
    (hstores : Stores crc32 dir parts) (hopen : openLog crc32 maxSegSz dir = .ok (dir', log)) :
    ∃ before p, Settled crc32 dir' log before p (parts.flatMap (·.records)) := by
  rcases List.eq_nil_or_concat' parts with rfl | ⟨before, p, rfl⟩
  · rw [hstores.openLog_nil] at hopen
    obtain ⟨rfl, rfl⟩ := Prod.mk.inj (Except.ok.inj hopen)
    have hnew : Stores crc32 (put dir (segmentPath 1) []) [⟨1, [], []⟩] :=
      hstores.create (by simp)
    exact ⟨[], ⟨1, [], []⟩, files_of_stores hnew, rfl, rfl, rfl, rfl⟩
  · rw [hstores.openLog_concat] at hopen
    obtain ⟨rfl, rfl⟩ := Prod.mk.inj (Except.ok.inj hopen)
    have hnew := hstores.update (q := p.whole) rfl (hstores.readable p (by simp)).whole
    refine ⟨before, p.whole, files_of_stores hnew, ?_, rfl, rfl, by simp [Part.whole]⟩
    simp [Part.segment, Part.path]

/-- A `ReadAll` beside calls of `Append` on a log that was opened. It returns, without an error, the
first entries in the order of the calls, with all whose call had returned before. -/
theorem readAll_beside_append {dir dir' : Dir} {maxSegSz : ℤ} {log : WAL} {w : World}
    (hstores : Stores crc32 dir parts) (hopen : openLog crc32 maxSegSz dir = .ok (dir', log))
    (h : Path (step crc32) (fun _ ev => ev.Fits)
      (.init dir' log (parts.flatMap (·.records))) w) :
    (∀ res, w.reader = .done res → ∃ es, res = .ok es ∧ w.owed <+: es ∧ es <+: w.order) ∧
    (w.reader ≠ .idle → (w.reader = .called → w.writer = none) → ∃ es,
      Path (step crc32) (fun _ ev => ev.IsRead) w { w with reader := .done (.ok es) }) := by
  obtain ⟨before, p, hsettled⟩ := settled_of_openLog hstores hopen
  have hinit : Consistent crc32 (.init dir' log (parts.flatMap (·.records))) :=
    ⟨before ++ [p], ⟨fun _ => ⟨before, p, rfl, hsettled⟩, by simp [World.init]⟩, trivial⟩
  have hw := h.invariant hinit fun _ _ _ hI hfits hs => hI.step hfits hs
  refine ⟨?_, hw.returns⟩
  intro res hres
  obtain ⟨parts', -, hsound⟩ := hw
  rw [hres] at hsound
  exact hsound

end Checksum

def Reader.isDone : Reader → Bool
  | .done _ => true
  | _ => false

theorem Reader.isDone_iff {r : Reader} : r.isDone = true ↔ ∃ res, r = .done res := by
  cases r <;> simp [isDone]

/-- The reader gets the second record in two parts, and has copied the list of segments before the
third one went to a new segment. -/
theorem readAll_beside_rotation :
    let events : List Event := [.append ⟨1, [7]⟩, .op ⟨21, none⟩, .op {}, .unlock, .call, .copy,
      .append ⟨2, [8]⟩, .reveal 5, .read 0, .read 12, .read 9, .read 0, .read 5, .op ⟨21, none⟩,
      .op {}, .unlock, .append ⟨3, [9]⟩, .op {}, .op {}, .op {}, .op ⟨21, none⟩, .op {}, .read 7,
      .read 9, .read 0, .read 0]
    let log : WAL := ⟨[], .created 1, 0, 45⟩
    let w := final (guarded (step checksumIEEE) fun _ ev => ev.Fits)
      (.init (put Store.empty (segmentPath 1) []) log []) events
    w.owed = [⟨1, [7]⟩] ∧ w.order = [⟨1, [7]⟩, ⟨2, [8]⟩, ⟨3, [9]⟩] ∧
    ∃ es, w.reader = .done (.ok es) ∧ w.owed <+: es ∧ es <+: w.order := by
  intro events log w
  have hstores : Stores checksumIEEE Store.empty [] := ⟨rfl, by simp⟩
  have hopen : openLog checksumIEEE 45 Store.empty =
      .ok (put Store.empty (segmentPath 1) [], log) := hstores.openLog_nil 45
  have hpath : Path (step checksumIEEE) (fun _ ev => ev.Fits)
      (.init (put Store.empty (segmentPath 1) []) log []) w := .final (by decide +kernel)
  refine ⟨by decide +kernel, by decide +kernel, ?_⟩
  obtain ⟨res, hres⟩ : ∃ res, w.reader = .done res := Reader.isDone_iff.mp (by decide +kernel)
  obtain ⟨es, rfl, howed, hes⟩ := (readAll_beside_append hstores hopen hpath).1 res hres
  exact ⟨es, hres, howed, hes⟩

end VaultFS.Wal.Concurrent
