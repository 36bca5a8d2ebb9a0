import VaultFS.Transition.Basic
import VaultFS.Wal.Layout

/-!
# Runs of the log

A process opens the log, appends and closes it, and can die at any call of an `Append` to the file
system. The file system answers each call: a write stores all bytes, or fails and stores fewer. What
the callers were told is kept beside the files, with the number of bytes of each record that were
written.

An `Append` that does not write behind a damaged record adds its record to what the directory
holds, or leaves a part of it at the end of the last file (`ensures_append`).
-/

namespace VaultFS.Wal

open Framing Interaction KeyValue Transition

/-- The files, and the number of bytes written in the call that is going on. -/
structure Disk where
  dir : Dir
  written : ℕ

def serve (d : Disk) : Op → Answer → Option Disk
  | .create path, a =>
      match a.err with
      | none => (createFile d.dir path).map ({ d with dir := · })
      | some _ => some d
  | .write path p, a =>
      (get d.dir path).bind fun content =>
        if a.stored ≤ p.length ∧ (a.err = none ↔ a.stored = p.length) then
          some ⟨put d.dir path (content ++ p.take a.stored), d.written + a.stored⟩
        else none
  | .sync _, _ => some d
  | .close _, _ => some d

/-- A call of `Append`. -/
structure Attempt where
  entry : Entry
  written : ℕ
  /-- The call returned `nil`. -/
  acked : Bool
  deriving DecidableEq

/-- The entry, if all bytes of its record were written. -/
def landed (e : Entry) (written : ℕ) : List Entry :=
  if written = encodedSize e.data.length then [e] else []

structure World where
  dir : Dir
  wal : Option WAL
  history : List Attempt

namespace World

def init : World := ⟨Store.empty, none, []⟩

/-- The entries whose records were written as a whole, in the order of the calls. -/
def entries (w : World) : List Entry := w.history.flatMap fun a => landed a.entry a.written

end World

inductive Event where
  | open (maxSegSz : ℤ)
  /-- A call of `Append` that returns `nil`. -/
  | append (e : Entry) (answers : List Answer)
  /-- A call of `Append` that returns an error. -/
  | fail (e : Entry) (answers : List Answer)
  /-- The process dies in a call of `Append`, after the given answers. -/
  | crash (e : Entry) (answers : List Answer)
  | close (answers : List Answer)

section Checksum

variable (crc32 : List UInt8 → UInt32)

/-- A call of `Append` up to the end of the answers. -/
def World.play (w : World) (log : WAL) (e : Entry) (answers : List Answer) :
    Option (Disk × Act (WAL × Option String)) :=
  (log.append crc32 e).play serve ⟨w.dir, 0⟩ answers

def step (w : World) (ev : Event) : Option World :=
  match w.wal, ev with
  | none, .open maxSegSz =>
      match openLog crc32 maxSegSz w.dir with
      | .ok (dir, log) => some { w with dir, wal := some log }
      | .error _ => none
  | some log, .append e answers =>
      (w.play crc32 log e answers).bind fun (d, rest) =>
        rest.result?.bind fun (log, err) =>
          if err = none then some ⟨d.dir, some log, w.history ++ [⟨e, d.written, true⟩]⟩ else none
  | some log, .fail e answers =>
      (w.play crc32 log e answers).bind fun (d, rest) =>
        rest.result?.bind fun (log, err) =>
          if err = none then none else some ⟨d.dir, some log, w.history ++ [⟨e, d.written, false⟩]⟩
  | some log, .crash e answers =>
      (w.play crc32 log e answers).map fun (d, _) =>
        ⟨d.dir, none, w.history ++ [⟨e, d.written, false⟩]⟩
  | some log, .close answers =>
      (log.close.play serve ⟨w.dir, 0⟩ answers).bind fun (d, rest) =>
        rest.result?.map fun _ => { w with dir := d.dir, wal := none }
  | _, _ => none

variable {crc32}

theorem landed_zero (e : Entry) : landed e 0 = [] := by
  rw [landed, if_neg]
  rw [encodedSize, headerSize, lenFieldSize]
  omega

/-- The part after a number of bytes of a record were written to it. -/
def Part.extend (crc32 : List UInt8 → UInt32) (p : Part) (e : Entry) (n : ℕ) : Part :=
  if n = (encode crc32 e).length then { p with records := p.records ++ [e] }
  else { p with torn := (encode crc32 e).take n }

namespace Part

variable (p : Part) (e : Entry) {n : ℕ}

theorem id_extend (n : ℕ) : (p.extend crc32 e n).id = p.id := by
  unfold extend
  split <;> rfl

theorem records_extend (n : ℕ) : (p.extend crc32 e n).records = p.records ++ landed e n := by
  have hlen : (encode crc32 e).length = encodedSize e.data.length := length_encode e
  unfold extend landed
  rw [hlen]
  split <;> simp

theorem torn_extend (htorn : p.torn = []) :
    (p.extend crc32 e (encode crc32 e).length).torn = [] := by
  rw [extend, if_pos rfl]
  exact htorn

variable {e}

theorem bytes_extend (htorn : p.torn = []) :
    (p.extend crc32 e n).bytes crc32 = p.bytes crc32 ++ (encode crc32 e).take n := by
  unfold extend
  split
  · rename_i hall
    rw [hall, List.take_length, bytes, bytes, htorn, Codec.encodeAll_append, Codec.encodeAll_cons,
      Codec.encodeAll_nil, List.append_nil, List.append_nil, List.append_nil]
    rfl
  · rw [bytes, bytes, htorn, List.append_nil]

variable {p}

theorem Readable.extend (h : p.Readable crc32) (hfits : e.Fits)
    (hn : n ≤ (encode crc32 e).length) : (p.extend crc32 e n).Readable crc32 := by
  unfold Part.extend
  split
  · obtain ⟨err, hsplits, hend⟩ := h
    refine readable_of_decode ?_ hsplits.stop hend
    intro x hx
    rcases List.mem_append.mp hx with hold | hnew
    · exact hsplits.fits x hold
    · exact List.mem_singleton.mp hnew ▸ hfits
  · rename_i hpart
    have hne : (encode crc32 e).take n ≠ encode crc32 e := by
      intro heq
      have hlen := congrArg List.length heq
      rw [List.length_take_of_le hn] at hlen
      exact hpart hlen
    obtain ⟨err, herr, hend⟩ := decode_of_prefix hfits (List.take_prefix n _) hne
    exact readable_of_decode h.fits herr hend

end Part

/-- The files of the directory are the parts, numbered from 1. -/
structure Holds (crc32 : List UInt8 → UInt32) (dir : Dir) (parts : List Part) : Prop extends
    Stores crc32 dir parts where
  numbered : parts.map (·.id.toNat) = List.range' 1 parts.length
  few : parts.length < 10 ^ 16

namespace Holds

variable {dir : Dir} {parts before : List Part} {p : Part}

theorem nil (h : Stores crc32 dir []) : Holds crc32 dir [] := ⟨h, rfl, by decide⟩

theorem last_id (h : Holds crc32 dir (before ++ [p])) : p.id.toNat = before.length + 1 := by
  have hnum := h.numbered
  rw [List.map_append, List.length_append, List.length_singleton, List.range'_1_concat] at hnum
  have hlast := (List.append_inj_right' hnum rfl)
  simp only [List.map_cons, List.map_nil, List.cons.injEq, and_true] at hlast
  omega

theorem update (h : Holds crc32 dir (before ++ [p])) {q : Part} (hid : q.id = p.id)
    (hq : q.Readable crc32) : Holds crc32 (put dir p.path (q.bytes crc32)) (before ++ [q]) := by
  refine ⟨h.toStores.update hid hq, ?_, ?_⟩
  · simpa [hid] using h.numbered
  · simpa using h.few

theorem create (h : Holds crc32 dir parts) {id : UInt64} (hid : id.toNat = parts.length + 1)
    (hfew : id.toNat < 10 ^ 16) :
    Holds crc32 (put dir (segmentPath id) []) (parts ++ [⟨id, [], []⟩]) := by
  refine ⟨h.toStores.create ?_, ?_, ?_⟩
  · intro p hp
    have hmem : p.id.toNat ∈ List.range' 1 parts.length :=
      h.numbered ▸ List.mem_map_of_mem hp
    have hlt := (List.mem_range'_1.mp hmem).2
    exact segmentPath_lt (by omega) hfew
  · rw [List.map_append, h.numbered, List.length_append, List.length_singleton,
      List.range'_1_concat, List.map_singleton, hid, Nat.add_comm]
  · rw [List.length_append, List.length_singleton, ← hid]
    exact hfew

end Holds

/-- The log is open on the parts; the last one is the active segment. -/
structure Opened (crc32 : List UInt8 → UInt32) (dir : Dir) (log : WAL) (before : List Part)
    (p : Part) : Prop where
  holds : Holds crc32 dir (before ++ [p])
  older : log.older.map (·.path) = before.map (·.path)
  id : log.active.id = p.id
  path : log.active.path = p.path

namespace Opened

variable {dir : Dir} {log log' : WAL} {before : List Part} {p : Part}

theorem readAll (h : Opened crc32 dir log before p) :
    log.readAll crc32 dir = .ok ((before ++ [p]).flatMap (·.records)) := by
  have hpaths : log.segments.map (·.path) = (before ++ [p]).map (·.path) := by
    rw [WAL.segments, List.map_append, h.older, List.map_append, List.map_singleton, h.path,
      List.map_singleton]
  rw [WAL.readAll, readFrom_eq h.holds.present hpaths, List.nil_append]

/-- The active segment's own file. -/
theorem get_active (h : Opened crc32 dir log before p) :
    get dir log.active.path = some (p.bytes crc32) := by
  rw [h.path]
  exact (h.holds.present p (by simp)).2

/-- Only the names of the segments matter. -/
theorem congr (h : Opened crc32 dir log before p) (holder : log'.older = log.older)
    (hid : log'.active.id = log.active.id) (hpath : log'.active.path = log.active.path) :
    Opened crc32 dir log' before p :=
  ⟨h.holds, holder ▸ h.older, hid.trans h.id, hpath.trans h.path⟩

end Opened

/-- `Open` succeeds on a directory of parts and gives a log on the same records. -/
theorem openLog_of_holds {dir : Dir} {parts : List Part} (h : Holds crc32 dir parts)
    (maxSegSz : ℤ) :
    ∃ dir' log before p, openLog crc32 maxSegSz dir = .ok (dir', log) ∧
      Opened crc32 dir' log before p ∧
      (before ++ [p]).flatMap (·.records) = parts.flatMap (·.records) ∧ p.torn = [] ∧
      log.active.file = true ∧ log.lastIdx = (parts.flatMap (·.records)).foldl advance 0 := by
  rcases List.eq_nil_or_concat' parts with rfl | ⟨before, p, rfl⟩
  · have hone : (1 : UInt64).toNat = ([] : List Part).length + 1 := rfl
    refine ⟨_, _, [], ⟨1, [], []⟩, h.openLog_nil maxSegSz, ?_, rfl, rfl, rfl, rfl⟩
    exact ⟨h.create hone (by decide), rfl, rfl, rfl⟩
  · refine ⟨_, _, before, p.whole, h.openLog_concat maxSegSz, ?_, ?_, rfl, rfl, rfl⟩
    · refine ⟨h.update rfl (h.readable p (by simp)).whole, ?_, rfl, rfl⟩
      simp [Part.segment]
    · simp [Part.whole]

section Append

variable {dir : Dir} {log : WAL} {before : List Part} {p : Part} {e : Entry} {recs : List Entry}

/-- The directory holds the records from before the call, and the new one if all its bytes were
written. -/
def Survives (crc32 : List UInt8 → UInt32) (recs : List Entry) (e : Entry) (d : Disk) : Prop :=
  ∃ parts, Holds crc32 d.dir parts ∧ parts.flatMap (·.records) = recs ++ landed e d.written

/-- The same with the log open. After a success all bytes were written, and the active segment's
file is open and holds whole records only. -/
def Outcome (crc32 : List UInt8 → UInt32) (recs : List Entry) (e : Entry) (log : WAL)
    (err : Option String) (d : Disk) : Prop :=
  ∃ before p, Opened crc32 d.dir log before p ∧
    (before ++ [p]).flatMap (·.records) = recs ++ landed e d.written ∧
    (err = none → d.written = encodedSize e.data.length ∧ log.active.file = true ∧ p.torn = [])

theorem Outcome.survives {err : Option String} {d : Disk} (h : Outcome crc32 recs e log err d) :
    Survives crc32 recs e d := by
  obtain ⟨before, p, hopened, hrecs, -⟩ := h
  exact ⟨_, hopened.holds, hrecs⟩

/-- A failure says less than a success. -/
theorem Outcome.weaken {d : Disk} (h : Outcome crc32 recs e log none d) (err : Option String) :
    Outcome crc32 recs e log err d := by
  obtain ⟨before, p, hopened, hrecs, hok⟩ := h
  exact ⟨before, p, hopened, hrecs, fun _ => hok rfl⟩

theorem Opened.outcome (h : Opened crc32 dir log before p)
    (hrecs : (before ++ [p]).flatMap (·.records) = recs) (e : Entry) (err : String) :
    Outcome crc32 recs e log (some err) ⟨dir, 0⟩ := by
  refine ⟨before, p, h, ?_, by simp⟩
  rw [hrecs, landed_zero, List.append_nil]

/-- What a write leaves in the active segment's file, if that held whole records only. -/
theorem Opened.write (h : Opened crc32 dir log before p) (htorn : p.torn = []) (hfits : e.Fits)
    {n : ℕ} (hn : n ≤ (encode crc32 e).length) :
    Opened crc32 (put dir log.active.path (p.bytes crc32 ++ (encode crc32 e).take n)) log before
      (p.extend crc32 e n) := by
  have hread := (h.holds.readable p (by simp)).extend hfits hn
  have hholds := h.holds.update (p.id_extend e n) hread
  rw [p.bytes_extend htorn, ← h.path] at hholds
  have hpath : (p.extend crc32 e n).path = p.path := by
    rw [Part.path, Part.path, p.id_extend e n]
  exact ⟨hholds, h.older, h.id.trans (p.id_extend e n).symm, h.path.trans hpath.symm⟩

/-- What a write to a segment's file leaves. -/
inductive Wrote (d : Disk) (seg : Segment) (content b : List UInt8) :
    Segment × Option String → Disk → Prop where
  | closed {err : String} (hfile : seg.file = false) : Wrote d seg content b (seg, some err) d
  | stored {n : ℕ} {err : Option String} (hfile : seg.file = true) (hn : n ≤ b.length)
      (herr : err = none ↔ n = b.length) :
      Wrote d seg content b ({ seg with size := seg.size + n }, err)
        ⟨put d.dir seg.path (content ++ b.take n), d.written + n⟩

theorem ensures_segmentWrite {C : Disk → Prop} {d : Disk} {seg : Segment} {content b : List UInt8}
    (hget : get d.dir seg.path = some content) (hc : C d)
    (hstored : seg.file = true → ∀ n ≤ b.length,
      C ⟨put d.dir seg.path (content ++ b.take n), d.written + n⟩) :
    Prog.Ensures serve C (Wrote d seg content b) d (seg.write b) := by
  unfold Segment.write
  split
  · rename_i hfile
    refine .bind (Q := fun r t => Wrote d seg content b
      ({ seg with size := seg.size + r.stored }, r.err.map (seg.describe "write")) t)
      (.op hc ?_) fun r t ht hq => .ret ht hq
    intro r t hr
    simp only [serve, hget, Option.bind_some] at hr
    split at hr
    · rename_i hle
      obtain rfl := Option.some.inj hr
      exact ⟨hstored hfile r.stored hle.1, .stored hfile hle.1 (by simpa using hle.2)⟩
    · cases hr
  · rename_i hfile
    exact .ret hc (.closed (Bool.not_eq_true _ ▸ hfile))

theorem ensures_write (h : Opened crc32 dir log before p)
    (hrecs : (before ++ [p]).flatMap (·.records) = recs) (hfits : e.Fits)
    (htorn : log.active.file = true → p.torn = []) :
    Prog.Ensures serve (Survives crc32 recs e)
      (fun x d => Outcome crc32 recs e { log with active := x.1 } x.2 d) ⟨dir, 0⟩
      (log.active.write (encode crc32 e)) := by
  have hwritten : log.active.file = true → ∀ n ≤ (encode crc32 e).length, ∀ err,
      (err = none → n = (encode crc32 e).length) →
      Outcome crc32 recs e { log with active := { log.active with size := log.active.size + n } }
        err ⟨put dir log.active.path (p.bytes crc32 ++ (encode crc32 e).take n), 0 + n⟩ := by
    intro hfile n hn err hall
    refine ⟨before, p.extend crc32 e n, (h.write (htorn hfile) hfits hn).congr rfl rfl rfl, ?_, ?_⟩
    · rw [Nat.zero_add, List.flatMap_append, List.flatMap_singleton, p.records_extend,
        ← List.append_assoc, ← hrecs, List.flatMap_append, List.flatMap_singleton]
    · intro hnone
      rw [Nat.zero_add, hall hnone]
      exact ⟨length_encode e, hfile, p.torn_extend e (htorn hfile)⟩
  have hstart := (h.outcome hrecs e "").survives
  refine (ensures_segmentWrite h.get_active hstart fun hfile n hn =>
    (hwritten hfile n hn (some "") (by simp)).survives).weaken (fun _ => id) ?_
  intro x d hx
  cases hx with
  | closed hfile => exact h.outcome hrecs e _
  | stored hfile hn herr => exact hwritten hfile _ hn _ herr.mp

theorem ensures_sync {C : Disk → Prop} {d : Disk} (hc : C d) (seg : Segment) :
    Prog.Ensures serve C (fun _ t => t = d) d seg.sync := by
  unfold Segment.sync
  split
  · refine .bind (.op hc ?_) fun r t ht hq => .ret ht hq
    intro r t hr
    obtain rfl := Option.some.inj hr
    exact ⟨hc, rfl⟩
  · exact .ret hc rfl

theorem ensures_close {C : Disk → Prop} {d : Disk} (hc : C d) (seg : Segment) :
    Prog.Ensures serve C (fun x t => t = d ∧ x.1 = { seg with file := false }) d seg.close := by
  have hsync : ∀ o ∈ [Op.sync seg.path, Op.close seg.path],
      Prog.Ensures serve C (fun _ t => t = d) d (.op o) := by
    intro o ho
    refine .op hc ?_
    intro r t hr
    have ht : t = d := by
      rcases List.mem_pair.mp ho with rfl | rfl
      · exact (Option.some.inj hr).symm
      · exact (Option.some.inj hr).symm
    exact ⟨ht ▸ hc, ht⟩
  unfold Segment.close
  split
  · refine .bind (hsync (.sync seg.path) (by simp)) ?_
    rintro r t ht rfl
    refine .bind (hsync (.close seg.path) (by simp)) ?_
    rintro c t ht rfl
    cases r.err with
    | none => exact .ret ht ⟨rfl, rfl⟩
    | some err => exact .ret ht ⟨rfl, rfl⟩
  · rename_i hfile
    have hsame : seg.file = false := Bool.not_eq_true _ ▸ hfile
    exact .ret hc ⟨rfl, by rw [← hsame]⟩

theorem ensures_createSegment {C : Disk → Prop} {d : Disk} (hc : C d) (id : UInt64)
    (hnew : C { d with dir := put d.dir (segmentPath id) [] }) :
    Prog.Ensures serve C (fun r t => match r with
      | .error _ => t = d
      | .ok seg => seg = .created id ∧ t = { d with dir := put d.dir (segmentPath id) [] }) d
      (createSegment id) := by
  refine .bind (Q := fun r t =>
    t = if r.err = none then { d with dir := put d.dir (segmentPath id) [] } else d) (.op hc ?_) ?_
  · intro r t hr
    cases herr : r.err with
    | some err =>
        simp only [serve, herr, Option.some.injEq] at hr
        exact ⟨hr ▸ hc, hr.symm⟩
    | none =>
        simp only [serve, herr, createFile] at hr
        split at hr
        · cases hr
        · obtain rfl := Option.some.inj hr
          exact ⟨hnew, rfl⟩
  · intro r t ht hq
    cases herr : r.err with
    | some err => exact .ret ht (by simpa [herr] using hq)
    | none => exact .ret ht ⟨rfl, by simpa [herr] using hq⟩

theorem ensures_appendActive (h : Opened crc32 dir log before p)
    (hrecs : (before ++ [p]).flatMap (·.records) = recs) (hfits : e.Fits)
    (htorn : log.active.file = true → p.torn = []) :
    Prog.Ensures serve (Survives crc32 recs e)
      (fun x d => Outcome crc32 recs e x.1 x.2 d ∧
        (x.2 = none → x.1.lastIdx = advance log.lastIdx e)) ⟨dir, 0⟩
      (log.appendActive crc32 e) := by
  refine .bind (ensures_write h hrecs hfits htorn) ?_
  rintro ⟨active, err⟩ d hc hwrite
  cases err with
  | some err => exact .ret hc ⟨hwrite, by simp⟩
  | none =>
      refine .bind (ensures_sync hc active) ?_
      rintro err t ht rfl
      cases err with
      | some err => exact .ret ht ⟨hwrite.weaken (some err), by simp⟩
      | none =>
          obtain ⟨before', p', hopened, hrecs', hok⟩ := hwrite
          exact .ret ht ⟨⟨before', p', hopened.congr rfl rfl rfl, hrecs', hok⟩, fun _ => rfl⟩

theorem toNat_succ {id : UInt64} (h : id.toNat < 10 ^ 16) : (id + 1).toNat = id.toNat + 1 := by
  rw [UInt64.toNat_add, UInt64.toNat_one, Nat.mod_eq_of_lt]
  omega

/-- A rotation changes no record, and makes an empty active segment if it succeeds. -/
theorem ensures_rotate (h : Opened crc32 dir log before p)
    (hrecs : (before ++ [p]).flatMap (·.records) = recs)
    (hnum : log.active.id.toNat + 1 < 10 ^ 16) (e : Entry) :
    Prog.Ensures serve (Survives crc32 recs e)
      (fun x d => d.written = 0 ∧ x.1.lastIdx = log.lastIdx ∧ ∃ before' p',
        Opened crc32 d.dir x.1 before' p' ∧ (before' ++ [p']).flatMap (·.records) = recs ∧
        (x.2 = none → p'.torn = [])) ⟨dir, 0⟩ log.rotate := by
  have hstart := (h.outcome hrecs e "").survives
  refine .bind (ensures_close hstart log.active) ?_
  rintro ⟨active, err⟩ d hc ⟨rfl, hactive⟩
  obtain rfl : active = { log.active with file := false } := hactive
  have hclosed : Opened crc32 dir { log with active := { log.active with file := false } } before
      p := h.congr rfl rfl rfl
  cases err with
  | some err => exact .ret hc ⟨rfl, rfl, before, p, hclosed, hrecs, by simp⟩
  | none =>
      have hnext := toNat_succ (Nat.lt_of_succ_lt hnum)
      have hnew : (log.active.id + 1).toNat = (before ++ [p]).length + 1 := by
        rw [hnext, h.id, h.holds.last_id]
        simp
      have hholds := h.holds.create hnew (by rw [hnext]; exact hnum)
      have hcreated : Opened crc32 (put dir (segmentPath (log.active.id + 1)) [])
          { log with
            older := log.older ++ [{ log.active with file := false }]
            active := .created (log.active.id + 1) }
          (before ++ [p]) ⟨log.active.id + 1, [], []⟩ := by
        refine ⟨hholds, ?_, rfl, rfl⟩
        simp [h.older, h.path]
      have hsurvives : Survives crc32 recs e
          ⟨put dir (segmentPath (log.active.id + 1)) [], 0⟩ := by
        refine ⟨_, hholds, ?_⟩
        simp [landed_zero, ← hrecs]
      refine .bind (ensures_createSegment hc (log.active.id + 1) hsurvives) ?_
      intro r t ht hr
      cases r with
      | error err =>
          obtain rfl : t = _ := hr
          exact .ret ht ⟨rfl, rfl, before, p, hclosed, hrecs, by simp⟩
      | ok seg =>
          obtain ⟨rfl, rfl⟩ : seg = _ ∧ t = _ := hr
          refine .ret ht ⟨rfl, rfl, before ++ [p], _, hcreated, ?_, fun _ => rfl⟩
          simp [← hrecs]

theorem ensures_append (h : Opened crc32 dir log before p)
    (hrecs : (before ++ [p]).flatMap (·.records) = recs) (hfits : e.Fits)
    (hnum : log.active.id.toNat + 1 < 10 ^ 16)
    (htorn : log.active.file = true → ¬ log.Exceeds crc32 e → p.torn = []) :
    Prog.Ensures serve (Survives crc32 recs e)
      (fun x d => Outcome crc32 recs e x.1 x.2 d ∧
        (x.2 = none → x.1.lastIdx = advance log.lastIdx e)) ⟨dir, 0⟩ (log.append crc32 e) := by
  unfold WAL.append
  split
  · refine .bind (ensures_rotate h hrecs hnum e) ?_
    rintro ⟨log', err⟩ ⟨dir', written⟩ hc ⟨hwritten, hlast, before', p', hopened, hrecs', hok⟩
    obtain rfl : written = 0 := hwritten
    cases err with
    | some err => exact .ret hc ⟨hopened.outcome hrecs' e err, by simp⟩
    | none =>
        have happend := ensures_appendActive hopened hrecs' hfits fun _ => hok rfl
        rw [hlast] at happend
        exact happend
  · rename_i hroom
    exact ensures_appendActive h hrecs hfits fun hfile => htorn hfile hroom

end Append

end Checksum

end VaultFS.Wal
