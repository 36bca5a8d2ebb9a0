import Mathlib.Data.List.ModifyLast
import VaultFS.Interaction.Ghost
import VaultFS.Wal.Recovery

/-!
# `ReadAll` beside `Append`

A `ReadAll` copies the list of segments under the mutex and reads the files without it, while calls
of `Append` go on. The file operations of the calls and of the reader come in any order. While a
record is being written, the reader sees any number of its bytes, which only goes up. Only calls of
`Append` that succeed are considered, one after the other, as the mutex has it.

The reader gets the bytes of a record in any number of reads, and the file may grow in between. A
read gets at least one byte, or it has seen the end of the file.

The files that a reader sees are a list of parts that grows at its end only (`Grows`), and their
records are the first entries in the order of the calls (`Sees`).
-/

namespace VaultFS.Wal.Concurrent

open Framing Interaction KeyValue LittleEndian Transition

/-- A call of `Append` that has the mutex, with what is left of it. -/
structure Writer where
  entry : Entry
  prog : Act (WAL × Option String)
  /-- The bytes that are seen already of the write that comes next. -/
  visible : ℕ

/-- The bytes of a file that are seen before they are written. -/
def Writer.shows (wr : Writer) (path : List Char) : List UInt8 :=
  match wr.prog with
  | .ask (.write path' p) _ => if path' = path then p.take wr.visible else []
  | _ => []

/-- The place of a `ReadAll` in the file of a segment. -/
structure Cursor where
  /-- The entries of the segments before. -/
  all : List Entry
  seg : Segment
  rest : List Segment
  entries : List Entry
  /-- The bytes of the next record that were read. -/
  got : List UInt8
  /-- The offset of the file. -/
  pos : ℕ

inductive Reader where
  | idle
  | called
  /-- About to open the file of the first segment. -/
  | opening (all : List Entry) (seg : Segment) (rest : List Segment)
  | reading (c : Cursor)
  | done (res : Except String (List Entry))

namespace Reader

/-- Go on with the segments that are left. -/
def next (all : List Entry) : List Segment → Reader
  | [] => .done (.ok all)
  | seg :: rest => .opening all seg rest

/-- An error of `ReadAll` at a segment. -/
def fail (seg : Segment) (err : String) : Reader :=
  .done (.error ("wal: read segment " ++ toString seg.id.toNat ++ ": " ++ err))

/-- The end of the loop of `replayFile`. -/
def stop (c : Cursor) (err : DecodeError) : Reader :=
  if err.endsLog then next (c.all ++ c.entries) c.rest
  else fail c.seg ("wal: replay decode: " ++ err.message)

/-- The bytes that the `io.ReadFull` of the header or of the payload still asks for. -/
def wanted (got : List UInt8) : ℕ :=
  if got.length < headerSize then headerSize - got.length
  else headerSize + value (got.take lenFieldSize) - got.length

variable (crc32 : List UInt8 → UInt32)

/-- The next call of the reader to the file system, on files with the given content. A read gets
`n` bytes. `Decode` reads on as long as the error is the one for the end of the file. -/
def proceed (content : List Char → Option (List UInt8)) (n : ℕ) : Reader → Option Reader
  | .opening all seg rest =>
      match content seg.path with
      | none => some (fail seg ("wal: open for replay " ++ (String.ofList seg.path).quote ++
          ": no such file or directory"))
      | some _ => some (.reading ⟨all, seg, rest, [], [], 0⟩)
  | .reading c =>
      match decode crc32 c.got with
      | .ok (entry, rest) =>
          some (.reading { c with entries := c.entries ++ [entry], got := rest })
      | .error err =>
          if err.truncated then
            let left := ((content c.seg.path).getD []).drop c.pos
            if left = [] then some (stop c err)
            else if 0 < n ∧ n ≤ wanted c.got ∧ n ≤ left.length then
              some (.reading { c with got := c.got ++ left.take n, pos := c.pos + n })
            else none
          else some (stop c err)
  | _ => none

end Reader

structure World where
  dir : Dir
  /-- The log, as it is when the mutex is free. -/
  wal : WAL
  writer : Option Writer
  reader : Reader
  /-- The entries in the order in which the calls got the mutex. -/
  order : List Entry
  /-- The entries whose `Append` had returned when `ReadAll` was called. -/
  owed : List Entry

namespace World

def init (dir : Dir) (wal : WAL) (order : List Entry) : World := ⟨dir, wal, none, .idle, order, []⟩

/-- The entries whose `Append` has returned. -/
def returned (w : World) : List Entry :=
  match w.writer with
  | none => w.order
  | some _ => w.order.dropLast

/-- What a reader sees of a file. -/
def content (w : World) (path : List Char) : Option (List UInt8) :=
  (get w.dir path).map (· ++ w.writer.elim [] (·.shows path))

end World

/-- A call to the file system that succeeds. -/
def serveOk (dir : Dir) (o : Op) (a : Answer) : Option Dir :=
  if a.err = none then (serve ⟨dir, 0⟩ o a).map (·.dir) else none

inductive Event where
  /-- A call of `Append` gets the mutex. -/
  | append (e : Entry)
  /-- More of the bytes of a write can be seen. -/
  | reveal (n : ℕ)
  | op (answer : Answer)
  /-- The call of `Append` returns. -/
  | unlock
  /-- A call of `ReadAll`. -/
  | call
  /-- `ReadAll` gets the mutex and copies the list of segments. -/
  | copy
  /-- `ReadAll` goes on, and a read gets so many bytes. -/
  | read (n : ℕ)

/-- The payload of the entry is not too large. -/
def Event.Fits : Event → Prop
  | .append e => e.Fits
  | _ => True

instance : (ev : Event) → Decidable ev.Fits
  | .append e => inferInstanceAs (Decidable e.Fits)
  | .reveal _ | .op _ | .unlock | .call | .copy | .read _ => .isTrue trivial

section Checksum

variable (crc32 : List UInt8 → UInt32)

def step (w : World) : Event → Option World
  | .append e =>
      match w.writer with
      | none => some { w with
          writer := some ⟨e, w.wal.append crc32 e, 0⟩, order := w.order ++ [e] }
      | some _ => none
  | .reveal n =>
      match w.writer with
      | some ⟨e, .ask (.write path p) next, visible⟩ =>
          if visible ≤ n ∧ n ≤ p.length then
            some { w with writer := some ⟨e, .ask (.write path p) next, n⟩ }
          else none
      | _ => none
  | .op a =>
      match w.writer with
      | some ⟨e, .ask o next, _⟩ =>
          (serveOk w.dir o a).map fun dir => { w with dir, writer := some ⟨e, next a, 0⟩ }
      | _ => none
  | .unlock =>
      match w.writer with
      | some ⟨_, .ret (wal, none), _⟩ => some { w with wal, writer := none }
      | _ => none
  | .call =>
      match w.reader with
      | .idle => some { w with reader := .called, owed := w.returned }
      | _ => none
  | .copy =>
      match w.writer, w.reader with
      | none, .called => some { w with reader := .next [] w.wal.segments }
      | _, _ => none
  | .read n => (w.reader.proceed crc32 w.content n).map ({ w with reader := · })

variable {crc32}

/-- What a step can do. -/
inductive Stepped (crc32 : List UInt8 → UInt32) (w : World) : Event → World → Prop where
  | append {e : Entry} (hw : w.writer = none) : Stepped crc32 w (.append e) { w with
      writer := some ⟨e, w.wal.append crc32 e, 0⟩, order := w.order ++ [e] }
  | reveal {e : Entry} {path : List Char} {p : List UInt8}
      {next : Answer → Act (WAL × Option String)} {visible n : ℕ}
      (hw : w.writer = some ⟨e, .ask (.write path p) next, visible⟩)
      (hn : visible ≤ n ∧ n ≤ p.length) : Stepped crc32 w (.reveal n)
        { w with writer := some ⟨e, .ask (.write path p) next, n⟩ }
  | op {e : Entry} {o : Op} {next : Answer → Act (WAL × Option String)} {visible : ℕ} {a : Answer}
      {dir : Dir} (hw : w.writer = some ⟨e, .ask o next, visible⟩)
      (hdir : serveOk w.dir o a = some dir) : Stepped crc32 w (.op a)
        { w with dir, writer := some ⟨e, next a, 0⟩ }
  | unlock {e : Entry} {wal : WAL} {visible : ℕ}
      (hw : w.writer = some ⟨e, .ret (wal, none), visible⟩) : Stepped crc32 w .unlock
        { w with wal, writer := none }
  | call (hr : w.reader = .idle) :
      Stepped crc32 w .call { w with reader := .called, owed := w.returned }
  | copy (hw : w.writer = none) (hr : w.reader = .called) :
      Stepped crc32 w .copy { w with reader := .next [] w.wal.segments }
  | read {n : ℕ} {r : Reader} (hr : w.reader.proceed crc32 w.content n = some r) :
      Stepped crc32 w (.read n) { w with reader := r }

theorem stepped {w w' : World} {ev : Event} (h : step crc32 w ev = some w') :
    Stepped crc32 w ev w' := by
  unfold step at h
  split at h
  · split at h
    · rename_i hw
      obtain rfl := Option.some.inj h
      exact .append hw
    · cases h
  · split at h
    · rename_i hw
      split at h
      · rename_i hn
        obtain rfl := Option.some.inj h
        exact .reveal hw hn
      · cases h
    · cases h
  · split at h
    · rename_i hw
      obtain ⟨dir, hdir, rfl⟩ := Option.map_eq_some_iff.mp h
      exact .op hw hdir
    · cases h
  · split at h
    · rename_i hw
      obtain rfl := Option.some.inj h
      exact .unlock hw
    · cases h
  · split at h
    · rename_i hr
      obtain rfl := Option.some.inj h
      exact .call hr
    · cases h
  · split at h
    · rename_i hw hr
      obtain rfl := Option.some.inj h
      exact .copy hw hr
    · cases h
  · obtain ⟨r, hr, rfl⟩ := Option.map_eq_some_iff.mp h
    exact .read hr

/-- The files with the given content are the parts. -/
structure Files (crc32 : List UInt8 → UInt32) (content : List Char → Option (List UInt8))
    (parts : List Part) : Prop where
  nodup : (parts.map (·.path)).Nodup
  readable : ∀ p ∈ parts, p.Readable crc32
  bytes : ∀ p ∈ parts, content p.path = some (p.bytes crc32)

/-- The part is the same segment, with more at its end. -/
structure Longer (crc32 : List UInt8 → UInt32) (p p' : Part) : Prop where
  path : p'.path = p.path
  bytes : p.bytes crc32 <+: p'.bytes crc32
  records : p.records <+: p'.records

theorem Longer.refl (p : Part) : Longer crc32 p p := ⟨rfl, List.prefix_rfl, List.prefix_rfl⟩

/-- The list of parts has new parts at its end, and the last one of the old parts has grown. -/
def Grows (crc32 : List UInt8 → UInt32) (parts parts' : List Part) : Prop :=
  ∃ before p p' more, parts = before ++ [p] ∧ parts' = before ++ p' :: more ∧ Longer crc32 p p'

theorem Grows.refl {parts : List Part} (h : parts ≠ []) : Grows crc32 parts parts := by
  obtain ⟨before, p, rfl⟩ := (List.eq_nil_or_concat' parts).resolve_left h
  exact ⟨before, p, p, [], rfl, rfl, .refl p⟩

/-- A new part. -/
theorem Grows.concat {parts : List Part} (h : parts ≠ []) (p : Part) :
    Grows crc32 parts (parts ++ [p]) := by
  obtain ⟨before, q, rfl⟩ := (List.eq_nil_or_concat' parts).resolve_left h
  refine ⟨before, q, q, [p], rfl, ?_, .refl q⟩
  rw [List.append_assoc, List.singleton_append]

namespace Files

variable {content content' : List Char → Option (List UInt8)} {parts before : List Part}
  {p q : Part}

theorem congr (h : Files crc32 content parts)
    (hcontent : ∀ p ∈ parts, content' p.path = content p.path) : Files crc32 content' parts :=
  ⟨h.nodup, h.readable, fun p hp => (hcontent p hp).trans (h.bytes p hp)⟩

/-- The file of the last part has another content. -/
theorem update (h : Files crc32 content (before ++ [p])) (hpath : q.path = p.path)
    (hq : q.Readable crc32) (hbytes : content' q.path = some (q.bytes crc32))
    (hcontent : ∀ path, path ≠ p.path → content' path = content path) :
    Files crc32 content' (before ++ [q]) := by
  have hnodup := h.nodup
  rw [List.map_append, List.map_singleton, ← List.concat_eq_append, List.nodup_concat] at hnodup
  refine ⟨?_, ?_, ?_⟩
  · simpa [hpath] using h.nodup
  · intro x hx
    rcases List.mem_append.mp hx with hbefore | hlast
    · exact h.readable x (List.mem_append_left _ hbefore)
    · exact List.mem_singleton.mp hlast ▸ hq
  · intro x hx
    rcases List.mem_append.mp hx with hbefore | hlast
    · have hne : x.path ≠ p.path := by
        intro heq
        exact hnodup.1 (heq ▸ List.mem_map_of_mem hbefore)
      rw [hcontent _ hne]
      exact h.bytes x (List.mem_append_left _ hbefore)
    · exact List.mem_singleton.mp hlast ▸ hbytes

/-- A new file. -/
theorem create {dir : Dir} {id : UInt64} (h : Files crc32 (get dir) parts)
    (hnew : get dir (segmentPath id) = none) :
    Files crc32 (get (put dir (segmentPath id) [])) (parts ++ [⟨id, [], []⟩]) := by
  have hother : ∀ p ∈ parts, p.path ≠ segmentPath id := by
    intro p hp heq
    have hget := h.bytes p hp
    rw [heq, hnew] at hget
    cases hget
  refine ⟨?_, ?_, ?_⟩
  · rw [List.map_append, List.map_singleton, ← List.concat_eq_append, List.nodup_concat]
    refine ⟨?_, h.nodup⟩
    intro hmem
    obtain ⟨p, hp, heq⟩ := List.mem_map.mp hmem
    exact hother p hp heq
  · intro x hx
    rcases List.mem_append.mp hx with hold | hlast
    · exact h.readable x hold
    · rw [List.mem_singleton.mp hlast]
      exact Part.readable_of_fits (by simp) rfl
  · intro x hx
    rcases List.mem_append.mp hx with hold | hlast
    · rw [get_put_of_ne _ _ (hother x hold)]
      exact h.bytes x hold
    · rw [List.mem_singleton.mp hlast]
      exact get_put_self _ _ _

end Files

/-- The log on the parts while nobody has the mutex: the parts hold the entries in their order, and
the active segment has whole records only. -/
structure Settled (crc32 : List UInt8 → UInt32) (dir : Dir) (log : WAL) (before : List Part)
    (p : Part) (order : List Entry) : Prop where
  files : Files crc32 (get dir) (before ++ [p])
  older : log.older.map (·.path) = before.map (·.path)
  path : log.active.path = p.path
  whole : p.torn = []
  records : (before ++ [p]).flatMap (·.records) = order

/-- The parts hold the entries in their order, with or without the last one. -/
structure Kept (crc32 : List UInt8 → UInt32) (order : List Entry) (e : Entry) (parts : List Part)
    (dir : Dir) : Prop where
  ne_nil : parts ≠ []
  files : Files crc32 (get dir) parts
  before : order <+: parts.flatMap (·.records)
  records : parts.flatMap (·.records) <+: order ++ [e]

section Settled

variable {dir : Dir} {log : WAL} {before : List Part} {p : Part} {order : List Entry}

theorem Settled.kept_before (h : Settled crc32 dir log before p order) (e : Entry) :
    Kept crc32 order e (before ++ [p]) dir :=
  ⟨by simp, h.files, h.records ▸ List.prefix_rfl, h.records ▸ List.prefix_append _ _⟩

theorem Settled.kept {e : Entry} (h : Settled crc32 dir log before p (order ++ [e])) :
    Kept crc32 order e (before ++ [p]) dir :=
  ⟨by simp, h.files, h.records ▸ List.prefix_append _ _, h.records ▸ List.prefix_rfl⟩

end Settled

/-- What holds when a call of `Append` is about to do a file operation. -/
def Asked (crc32 : List UInt8 → UInt32) (order : List Entry) (e : Entry) (parts : List Part)
    (dir : Dir) : Op → Prop
  | .write path p => p = encode crc32 e ∧ ∃ before q, parts = before ++ [q] ∧
      Files crc32 (get dir) parts ∧ parts.flatMap (·.records) = order ∧ q.path = path ∧ q.torn = []
  | _ => Kept crc32 order e parts dir

/-- What a file operation does to the parts. -/
def Moves (e : Entry) (parts : List Part) : Op → List Part → Prop
  | .create path, parts' => ∃ id, segmentPath id = path ∧ parts' = parts ++ [⟨id, [], []⟩]
  | .write _ _, parts' => ∃ before q, parts = before ++ [q] ∧
      parts' = before ++ [{ q with records := q.records ++ [e] }]
  | _, parts' => parts' = parts

/-- What holds when it is about to return. -/
def Ended (crc32 : List UInt8 → UInt32) (order : List Entry) (e : Entry)
    (x : WAL × Option String) (parts : List Part) (dir : Dir) : Prop :=
  Kept crc32 order e parts dir ∧ (x.2 = none → ∃ before p, parts = before ++ [p] ∧
    Settled crc32 dir x.1 before p (order ++ [e]))

section Append

variable {dir : Dir} {log : WAL} {before : List Part} {p : Part} {order : List Entry} {e : Entry}

/-- Syncing and closing leave everything as it is. -/
theorem traces_quiet {o : Op} {parts : List Part} (ho : ∃ path, o = .sync path ∨ o = .close path)
    (h : Kept crc32 order e parts dir) :
    Prog.Traces serveOk (Asked crc32 order e) (Moves e)
      (fun r parts' dir' => r.err = none ∧ parts' = parts ∧ dir' = dir) parts dir (.op o) := by
  have hserve : ∀ r t, serveOk dir o r = some t → r.err = none ∧ t = dir := by
    intro r t hr
    unfold serveOk at hr
    split at hr
    · rename_i hnone
      obtain ⟨path, rfl | rfl⟩ := ho
      · exact ⟨hnone, (Option.some.inj hr).symm⟩
      · exact ⟨hnone, (Option.some.inj hr).symm⟩
    · cases hr
  refine .op ?_ ?_
  · obtain ⟨path, rfl | rfl⟩ := ho
    · exact h
    · exact h
  · intro r t hr
    obtain ⟨hnone, rfl⟩ := hserve r t hr
    refine ⟨parts, ?_, hnone, rfl, rfl⟩
    obtain ⟨path, rfl | rfl⟩ := ho
    · rfl
    · rfl

theorem traces_sync {parts : List Part} (h : Kept crc32 order e parts dir)
    (seg : Segment) :
    Prog.Traces serveOk (Asked crc32 order e) (Moves e)
      (fun _ parts' dir' => parts' = parts ∧ dir' = dir) parts dir seg.sync := by
  unfold Segment.sync
  split
  · refine .bind (traces_quiet ⟨_, .inl rfl⟩ h) ?_
    rintro r parts' t ⟨-, rfl, rfl⟩
    exact .ret ⟨rfl, rfl⟩
  · exact .ret ⟨rfl, rfl⟩

theorem traces_close (h : Settled crc32 dir log before p order) (e : Entry) :
    Prog.Traces serveOk (Asked crc32 order e) (Moves e)
      (fun x parts' dir' => parts' = before ++ [p] ∧ dir' = dir ∧ x.2 = none ∧
        x.1.id = log.active.id ∧ x.1.path = log.active.path) (before ++ [p]) dir
      log.active.close := by
  have hkept := h.kept_before e
  unfold Segment.close
  split
  · refine .bind (traces_quiet ⟨_, .inl rfl⟩ hkept) ?_
    rintro r parts t ⟨hr, rfl, rfl⟩
    refine .bind (traces_quiet ⟨_, .inr rfl⟩ hkept) ?_
    rintro c parts t' ⟨hc, rfl, rfl⟩
    rw [hr, hc]
    exact .ret ⟨rfl, rfl, rfl, rfl, rfl⟩
  · exact .ret ⟨rfl, rfl, rfl, rfl, rfl⟩

theorem traces_createSegment {parts : List Part} (h : Kept crc32 order e parts dir)
    (id : UInt64) :
    Prog.Traces serveOk (Asked crc32 order e) (Moves e)
      (fun r parts' dir' => r = .ok (.created id) ∧ parts' = parts ++ [⟨id, [], []⟩] ∧
        Files crc32 (get dir') parts') parts dir (createSegment id) := by
  refine .bind (Q := fun r parts' dir' => r.err = none ∧ parts' = parts ++ [⟨id, [], []⟩] ∧
    Files crc32 (get dir') parts') (.op h ?_) ?_
  · intro r t hr
    unfold serveOk at hr
    split at hr
    · rename_i hnone
      simp only [serve, hnone, createFile] at hr
      split at hr
      · cases hr
      · rename_i hnew
        obtain rfl := Option.some.inj hr
        have hget : get dir (segmentPath id) = none := Option.not_isSome_iff_eq_none.mp hnew
        exact ⟨_, ⟨id, rfl, rfl⟩, hnone, rfl, h.files.create hget⟩
    · cases hr
  · rintro r parts' t ⟨hr, rfl, hfiles'⟩
    rw [hr]
    exact .ret ⟨rfl, rfl, hfiles'⟩

theorem traces_rotate (h : Settled crc32 dir log before p order) (e : Entry) :
    Prog.Traces serveOk (Asked crc32 order e) (Moves e)
      (fun x parts' dir' => x.2 = none ∧ ∃ before' p', parts' = before' ++ [p'] ∧
        Settled crc32 dir' x.1 before' p' order) (before ++ [p]) dir log.rotate := by
  refine .bind (traces_close h e) ?_
  rintro ⟨active, err⟩ parts t ⟨rfl, rfl, rfl, hid, hpath⟩
  have hkept := h.kept_before e
  refine .bind (traces_createSegment hkept (active.id + 1)) ?_
  rintro r parts t' ⟨rfl, rfl, hfiles⟩
  refine .ret ⟨rfl, before ++ [p], _, rfl, hfiles, ?_, rfl, rfl, ?_⟩
  · have hactive : active.path = p.path := hpath.trans h.path
    simp [h.older, hactive]
  · simp [← h.records]

theorem traces_write (h : Settled crc32 dir log before p order) (hfits : e.Fits) :
    Prog.Traces serveOk (Asked crc32 order e) (Moves e)
      (fun x parts' dir' => Kept crc32 order e parts' dir' ∧
        (x.2 = none → x.1.path = log.active.path ∧
          ∃ p', parts' = before ++ [p'] ∧ Settled crc32 dir' log before p' (order ++ [e])))
      (before ++ [p]) dir (log.active.write (encode crc32 e)) := by
  unfold Segment.write
  split
  · refine .bind (Q := fun r parts' dir' => ∃ p', parts' = before ++ [p'] ∧
      Settled crc32 dir' log before p' (order ++ [e])) (.op ?_ ?_) ?_
    · exact ⟨rfl, before, p, rfl, h.files, h.records, h.path.symm, h.whole⟩
    · intro r t hr
      unfold serveOk at hr
      split at hr
      · rename_i hnone
        have hget : get dir log.active.path = some (p.bytes crc32) :=
          h.path ▸ h.files.bytes p (by simp)
        simp only [serve, hget, Option.bind_some] at hr
        split at hr
        · rename_i hstored
          obtain rfl := Option.some.inj hr
          rw [hstored.2.mp hnone, List.take_length]
          have hextend : p.extend crc32 e (encode crc32 e).length =
              { p with records := p.records ++ [e] } := if_pos rfl
          have hbytes : (p.extend crc32 e (encode crc32 e).length).bytes crc32 =
              p.bytes crc32 ++ (encode crc32 e).take (encode crc32 e).length :=
            p.bytes_extend h.whole
          have hread := (h.files.readable p (by simp)).extend hfits
            (le_refl (encode crc32 e).length)
          rw [hextend] at hbytes hread
          rw [List.take_length] at hbytes
          refine ⟨_, ⟨before, p, rfl, rfl⟩, _, rfl, ?_, h.older, h.path, h.whole, ?_⟩
          · refine h.files.update rfl hread ?_ ?_
            · rw [h.path, hbytes]
              exact get_put_self _ _ _
            · intro path hne
              exact get_put_of_ne _ _ (h.path ▸ hne)
          · simp [← h.records]
        · cases hr
      · cases hr
    · rintro r parts' t ⟨p', rfl, hsettled⟩
      exact .ret ⟨hsettled.kept, fun _ => ⟨rfl, p', rfl, hsettled⟩⟩
  · exact .ret ⟨h.kept_before e, by simp⟩

theorem traces_appendActive (h : Settled crc32 dir log before p order) (hfits : e.Fits) :
    Prog.Traces serveOk (Asked crc32 order e) (Moves e) (Ended crc32 order e) (before ++ [p]) dir
      (log.appendActive crc32 e) := by
  refine .bind (traces_write h hfits) ?_
  rintro ⟨active, err⟩ parts t ⟨hkept, hwritten⟩
  cases err with
  | some err => exact .ret ⟨hkept, by simp⟩
  | none =>
      obtain ⟨hpath, p', rfl, hsettled⟩ := hwritten rfl
      refine .bind (traces_sync hkept active) ?_
      rintro err parts t' ⟨rfl, rfl⟩
      cases err with
      | some err => exact .ret ⟨hkept, by simp⟩
      | none =>
          refine .ret ⟨hkept, fun _ => ⟨before, p', rfl, ?_⟩⟩
          exact ⟨hsettled.files, hsettled.older, hpath.trans hsettled.path, hsettled.whole,
            hsettled.records⟩

theorem traces_append (h : Settled crc32 dir log before p order) (hfits : e.Fits) :
    Prog.Traces serveOk (Asked crc32 order e) (Moves e) (Ended crc32 order e) (before ++ [p]) dir
      (log.append crc32 e) := by
  unfold WAL.append
  split
  · refine .bind (traces_rotate h e) ?_
    rintro ⟨log', err⟩ parts t ⟨rfl, before', p', rfl, hsettled⟩
    exact traces_appendActive hsettled hfits
  · exact traces_appendActive h hfits

end Append

/-- The parts as a reader sees them beside the writer. -/
def Writer.shown (crc32 : List UInt8 → UInt32) (wr : Writer) (parts : List Part) : List Part :=
  match wr.prog with
  | .ask (.write _ _) _ => parts.modifyLast (·.extend crc32 wr.entry wr.visible)
  | _ => parts

def World.shown (crc32 : List UInt8 → UInt32) (w : World) (parts : List Part) : List Part :=
  w.writer.elim parts (·.shown crc32 parts)

/-- The parts of the log, whether or not a call of `Append` has the mutex. -/
structure Writes (crc32 : List UInt8 → UInt32) (w : World) (parts : List Part) : Prop where
  idle : w.writer = none → ∃ before p, parts = before ++ [p] ∧
    Settled crc32 w.dir w.wal before p w.order
  busy : ∀ e prog visible, w.writer = some ⟨e, prog, visible⟩ →
    ∃ order, w.order = order ++ [e] ∧ e.Fits ∧
      Prog.Traces serveOk (Asked crc32 order e) (Moves e) (Ended crc32 order e) parts w.dir prog ∧
      ∀ path p next, prog = .ask (.write path p) next → visible ≤ p.length

/-- The files that a reader sees are the parts, and these hold the first entries, at least those
whose call has returned. -/
structure Sees (crc32 : List UInt8 → UInt32) (w : World) (parts : List Part) : Prop where
  ne_nil : parts ≠ []
  files : Files crc32 w.content parts
  returned : w.returned <+: parts.flatMap (·.records)
  records : parts.flatMap (·.records) <+: w.order

section Steps

variable {w w' : World} {parts : List Part}

theorem Files.content (h : Files crc32 (get w.dir) parts)
    (hshows : ∀ wr ∈ w.writer, ∀ path, wr.shows path = []) : Files crc32 w.content parts := by
  refine h.congr ?_
  intro p _
  cases hw : w.writer with
  | none => simp [World.content, hw]
  | some wr => simp [World.content, hw, hshows wr hw]

theorem Kept.sees {order : List Entry} {e : Entry} {prog : Act (WAL × Option String)} {visible : ℕ}
    (h : Kept crc32 order e parts w.dir) (hw : w.writer = some ⟨e, prog, visible⟩)
    (horder : w.order = order ++ [e]) (hshows : ∀ path, Writer.shows ⟨e, prog, visible⟩ path = []) :
    Sees crc32 w parts := by
  refine ⟨h.ne_nil, h.files.content (by simp [hw, hshows]), ?_, horder ▸ h.records⟩
  have hreturned : w.returned = order := by simp [World.returned, hw, horder]
  exact hreturned ▸ h.before

/-- The bytes of a write that are seen before they are written. -/
theorem sees_write {before : List Part} {q : Part} {e : Entry} {visible : ℕ}
    {next : Answer → Act (WAL × Option String)} {order : List Entry}
    (hw : w.writer = some ⟨e, .ask (.write q.path (encode crc32 e)) next, visible⟩)
    (horder : w.order = order ++ [e]) (hfiles : Files crc32 (get w.dir) (before ++ [q]))
    (hrecords : (before ++ [q]).flatMap (·.records) = order) (hwhole : q.torn = [])
    (hfits : e.Fits) (hle : visible ≤ (encode crc32 e).length) :
    Sees crc32 w (before ++ [q.extend crc32 e visible]) := by
  have hpath : (q.extend crc32 e visible).path = q.path := by
    rw [Part.path, Part.path, Part.id_extend]
  have hread := (hfiles.readable q (by simp)).extend hfits hle
  have hrecs : (before ++ [q.extend crc32 e visible]).flatMap (·.records) =
      order ++ landed e visible := by
    rw [← hrecords]
    simp [Part.records_extend]
  refine ⟨by simp, hfiles.update hpath hread ?_ ?_, ?_, ?_⟩
  · rw [hpath, q.bytes_extend hwhole]
    simp [World.content, hw, Writer.shows, hfiles.bytes q (by simp)]
  · intro path hne
    simp [World.content, hw, Writer.shows, hne.symm]
  · rw [hrecs]
    simp [World.returned, hw, horder]
  · rw [hrecs, horder]
    refine (List.prefix_append_right_inj _).mpr ?_
    unfold landed
    split
    · exact List.prefix_rfl
    · exact List.nil_prefix

theorem Writes.sees (h : Writes crc32 w parts) : Sees crc32 w (w.shown crc32 parts) := by
  cases hw : w.writer with
  | none =>
      obtain ⟨before, p, rfl, hsettled⟩ := h.idle hw
      simp only [World.shown, hw, Option.elim_none]
      refine ⟨by simp, hsettled.files.content (by simp [hw]), ?_, ?_⟩
      · simp [World.returned, hw, ← hsettled.records]
      · exact hsettled.records ▸ List.prefix_rfl
  | some wr =>
      obtain ⟨e, prog, visible⟩ := wr
      obtain ⟨order, horder, hfits, htraces, hvisible⟩ := h.busy e prog visible hw
      simp only [World.shown, hw, Option.elim_some]
      cases prog with
      | ret x => exact Kept.sees htraces.1 hw horder fun _ => rfl
      | ask o next =>
          cases o with
          | write path bytes =>
              obtain ⟨⟨rfl, before, q, rfl, hfiles, hrecords, rfl, hwhole⟩, -⟩ := htraces
              simp only [Writer.shown, List.modifyLast_concat]
              exact sees_write hw horder hfiles hrecords hwhole hfits (hvisible _ _ _ rfl)
          | create path => exact Kept.sees htraces.1 hw horder fun _ => rfl
          | sync path => exact Kept.sees htraces.1 hw horder fun _ => rfl
          | close path => exact Kept.sees htraces.1 hw horder fun _ => rfl

/-- More bytes of a record are seen. -/
theorem grows_extend {before : List Part} {q : Part} {e : Entry} {n n' : ℕ} (hwhole : q.torn = [])
    (hle : n ≤ n') (hle' : n' ≤ (encode crc32 e).length) :
    Grows crc32 (before ++ [q.extend crc32 e n]) (before ++ [q.extend crc32 e n']) := by
  refine ⟨before, _, _, [], rfl, rfl, ?_, ?_, ?_⟩
  · rw [Part.path, Part.path, Part.id_extend, Part.id_extend]
  · rw [q.bytes_extend hwhole, q.bytes_extend hwhole]
    exact (List.prefix_append_right_inj _).mpr (List.take_prefix_take_left hle)
  · rw [Part.records_extend, Part.records_extend]
    refine (List.prefix_append_right_inj _).mpr ?_
    unfold landed
    split
    · rename_i hall
      rw [length_encode] at hle'
      rw [if_pos (by omega)]
    · exact List.nil_prefix

theorem extend_zero {q : Part} (e : Entry) (hwhole : q.torn = []) : q.extend crc32 e 0 = q := by
  have hne : 0 ≠ (encode crc32 e).length := by
    rw [length_encode, encodedSize, headerSize, lenFieldSize]
    omega
  rw [Part.extend, if_neg hne, List.take_zero, ← hwhole]

/-- Nothing is seen yet of the first write of a call. -/
theorem shown_fresh {order : List Entry} {e : Entry} {prog : Act (WAL × Option String)} {dir : Dir}
    (h : Prog.Traces serveOk (Asked crc32 order e) (Moves e) (Ended crc32 order e) parts dir prog) :
    Writer.shown crc32 ⟨e, prog, 0⟩ parts = parts := by
  unfold Writer.shown
  split
  · rename_i path bytes next hprog
    obtain rfl : prog = _ := hprog
    obtain ⟨⟨-, before, q, rfl, -, -, -, hwhole⟩, -⟩ := h
    rw [List.modifyLast_concat]
    simp only [extend_zero e hwhole]
  · rfl

theorem Writes.start {e : Entry} (h : Writes crc32 w parts) (hw : w.writer = none)
    (hfits : e.Fits) : Writes crc32 { w with
      writer := some ⟨e, w.wal.append crc32 e, 0⟩, order := w.order ++ [e] } parts := by
  obtain ⟨before, p, rfl, hsettled⟩ := h.idle hw
  refine ⟨by simp, ?_⟩
  rintro e' prog visible ⟨rfl⟩
  exact ⟨w.order, rfl, hfits, traces_append hsettled hfits, fun _ _ _ _ => Nat.zero_le _⟩

/-- A file operation of the writer. -/
theorem Writes.op {e : Entry} {o : Op} {next : Answer → Act (WAL × Option String)} {visible : ℕ}
    {a : Answer} {dir : Dir} (h : Writes crc32 w parts)
    (hw : w.writer = some ⟨e, .ask o next, visible⟩) (hdir : serveOk w.dir o a = some dir) :
    ∃ parts', Writes crc32 { w with dir, writer := some ⟨e, next a, 0⟩ } parts' ∧
      Grows crc32 (w.shown crc32 parts) (Writer.shown crc32 ⟨e, next a, 0⟩ parts') := by
  obtain ⟨order, horder, hfits, htraces, hvisible⟩ := h.busy e _ visible hw
  obtain ⟨parts', hmoves, hnext⟩ := htraces.2 a dir hdir
  refine ⟨parts', ⟨by simp, ?_⟩, ?_⟩
  · rintro e' prog visible' ⟨rfl⟩
    exact ⟨order, horder, hfits, hnext, fun _ _ _ _ => Nat.zero_le _⟩
  · rw [shown_fresh hnext]
    simp only [World.shown, hw, Option.elim_some]
    cases o with
    | write path bytes =>
        obtain ⟨rfl, before, q, rfl, hfiles, hrecords, rfl, hwhole⟩ := htraces.1
        obtain ⟨before', q', heq, rfl⟩ := hmoves
        obtain ⟨rfl, hq⟩ := List.append_inj' heq rfl
        obtain rfl := List.singleton_inj.mp hq
        simp only [Writer.shown, List.modifyLast_concat]
        have hextend : q.extend crc32 e (encode crc32 e).length =
            { q with records := q.records ++ [e] } := if_pos rfl
        rw [← hextend]
        exact grows_extend hwhole (hvisible _ _ _ rfl) le_rfl
    | create path =>
        obtain ⟨id, -, rfl⟩ := hmoves
        exact .concat htraces.1.ne_nil _
    | sync path =>
        obtain rfl : parts' = parts := hmoves
        exact .refl htraces.1.ne_nil
    | close path =>
        obtain rfl : parts' = parts := hmoves
        exact .refl htraces.1.ne_nil

/-- The bytes that are seen of a write. -/
theorem Writes.reveal {e : Entry} {path : List Char} {bytes : List UInt8}
    {next : Answer → Act (WAL × Option String)} {visible n : ℕ} (h : Writes crc32 w parts)
    (hw : w.writer = some ⟨e, .ask (.write path bytes) next, visible⟩) (hle : visible ≤ n)
    (hle' : n ≤ bytes.length) :
    Writes crc32 { w with writer := some ⟨e, .ask (.write path bytes) next, n⟩ } parts ∧
      Grows crc32 (w.shown crc32 parts)
        (Writer.shown crc32 ⟨e, .ask (.write path bytes) next, n⟩ parts) := by
  obtain ⟨order, horder, hfits, htraces, -⟩ := h.busy e _ visible hw
  refine ⟨⟨by simp, ?_⟩, ?_⟩
  · rintro e' prog visible' ⟨rfl⟩
    refine ⟨order, horder, hfits, htraces, ?_⟩
    rintro _ _ _ ⟨rfl⟩
    exact hle'
  · obtain ⟨rfl, before, q, rfl, -, -, -, hwhole⟩ := htraces.1
    simp only [World.shown, hw, Option.elim_some, Writer.shown, List.modifyLast_concat]
    exact grows_extend hwhole hle hle'

/-- The call returns. -/
theorem Writes.unlock {e : Entry} {wal : WAL} {visible : ℕ} (h : Writes crc32 w parts)
    (hw : w.writer = some ⟨e, .ret (wal, none), visible⟩) :
    Writes crc32 { w with wal, writer := none } parts := by
  obtain ⟨order, horder, -, htraces, -⟩ := h.busy e _ visible hw
  obtain ⟨before, p, rfl, hsettled⟩ := htraces.2 rfl
  refine ⟨fun _ => ⟨before, p, rfl, ?_⟩, by simp⟩
  exact horder ▸ hsettled

/-- What one step does to the files, as the reader sees them. -/
theorem Writes.step {ev : Event} (h : Writes crc32 w parts) (hfits : ev.Fits)
    (hs : step crc32 w ev = some w') :
    ∃ parts', Writes crc32 w' parts' ∧ Grows crc32 (w.shown crc32 parts) (w'.shown crc32 parts') ∧
      w.order <+: w'.order := by
  have hsame : ∀ r owed, Writes crc32 { w with reader := r, owed } parts :=
    fun r owed => ⟨h.idle, h.busy⟩
  have hrefl : Grows crc32 (w.shown crc32 parts) (w.shown crc32 parts) := .refl h.sees.ne_nil
  cases stepped hs with
  | @append e hw =>
      have hstart := h.start hw hfits
      obtain ⟨order, -, -, htraces, -⟩ := hstart.busy e _ 0 rfl
      refine ⟨parts, hstart, ?_, List.prefix_append _ _⟩
      have hshown : w.shown crc32 parts = parts := by simp [World.shown, hw]
      rw [hshown] at hrefl ⊢
      change Grows crc32 parts (Writer.shown crc32 _ parts)
      rw [shown_fresh htraces]
      exact hrefl
  | reveal hw hn =>
      obtain ⟨hwrites, hgrows⟩ := h.reveal hw hn.1 hn.2
      exact ⟨parts, hwrites, hgrows, List.prefix_rfl⟩
  | op hw hdir =>
      obtain ⟨parts', hwrites, hgrows⟩ := h.op hw hdir
      exact ⟨parts', hwrites, hgrows, List.prefix_rfl⟩
  | unlock hw =>
      refine ⟨parts, h.unlock hw, ?_, List.prefix_rfl⟩
      have hshown : w.shown crc32 parts = parts := by simp [World.shown, hw, Writer.shown]
      rw [hshown] at hrefl ⊢
      exact hrefl
  | call => exact ⟨parts, hsame _ _, hrefl, List.prefix_rfl⟩
  | copy => exact ⟨parts, hsame _ _, hrefl, List.prefix_rfl⟩
  | read => exact ⟨parts, hsame _ _, hrefl, List.prefix_rfl⟩

end Steps

end Checksum

end VaultFS.Wal.Concurrent
