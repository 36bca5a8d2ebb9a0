import VaultFS.Wal.Recovery

/-!
# The bookkeeping of segments

What the log keeps about its segments agrees with the directory at every point of a run in which no
call of `Append` returns an error: the numbers follow each other, the sizes are those of the files,
and a file that is too long holds a single record (`Books`). The process may die in a call, and the
log is opened again with the same maximum size.

The invariant `Kept` says what the files hold; what a crash leaves of it is `Remains`. It depends on
the names of the segments being in order, which ends with the number `10 ^ 16`
(`books_iff_rotations_small`).
-/

namespace VaultFS.Wal

open Framing Interaction KeyValue Transition

/-- The part has at most one record, or its records are no longer than the maximum size. -/
def Part.Small (crc32 : List UInt8 → UInt32) (maxSegSz : ℤ) (p : Part) : Prop :=
  p.records.length ≤ 1 ∨ ((codec crc32).encodeAll p.records).length ≤ maxSegSz

/-- A rotation makes a segment whose number is at most `n`. -/
def RotatesUpTo (crc32 : List UInt8 → UInt32) (n : ℕ) (w : World) : Event → Prop
  | .append e _ | .fail e _ | .crash e _ =>
      ∀ log ∈ w.wal, log.Exceeds crc32 e → log.active.id.toNat + 1 ≤ n
  | _ => True

/-- What the log says about its segments is so. -/
structure Books (crc32 : List UInt8 → UInt32) (maxSegSz : ℤ) (dir : Dir) (log : WAL) : Prop where
  consecutive : log.segments.IsChain fun a b => b.id.toNat = a.id.toNat + 1
  closed : ∀ seg ∈ log.older, seg.file = false
  active : log.active.file = true
  /-- Each segment's file has the size that is recorded, and holds at most one record if it is
  longer than the maximum size. -/
  sizes : ∀ seg ∈ log.segments, ∃ es, get dir seg.path = some ((codec crc32).encodeAll es) ∧
    seg.size = ((codec crc32).encodeAll es).length ∧ (es.length ≤ 1 ∨ seg.size ≤ maxSegSz)
  /-- The next rotation finds no file of the new segment's name. -/
  fresh : get dir (segmentPath (log.active.id + 1)) = none

/-- The open log and its files. -/
structure Kept (crc32 : List UInt8 → UInt32) (maxSegSz : ℤ) (dir : Dir) (log : WAL)
    (before : List Part) (p : Part) : Prop where
  holds : Holds crc32 dir (before ++ [p])
  older : log.older = before.map (·.segment crc32)
  active : log.active = ⟨p.id, p.path, true, (p.bytes crc32).length⟩
  max : log.maxSegSz = maxSegSz
  whole : ∀ q ∈ before ++ [p], q.torn = []
  small : ∀ q ∈ before ++ [p], q.Small crc32 maxSegSz

/-- The files without the log: the last one may end in a part of a record. -/
structure Remains (crc32 : List UInt8 → UInt32) (maxSegSz : ℤ) (dir : Dir) (parts : List Part) :
    Prop where
  holds : Holds crc32 dir parts
  whole : ∀ q ∈ parts.dropLast, q.torn = []
  small : ∀ q ∈ parts, q.Small crc32 maxSegSz

section Checksum

variable {crc32 : List UInt8 → UInt32} {maxSegSz : ℤ} {dir dir' : Dir} {log log' : WAL}
  {before parts : List Part} {p : Part} {e : Entry} {n : ℕ}

theorem Part.Small.empty (crc32 : List UInt8 → UInt32) (maxSegSz : ℤ) (id : UInt64) :
    (⟨id, [], []⟩ : Part).Small crc32 maxSegSz :=
  .inl (Nat.zero_le 1)

/-- A record that fits, or the first one of the segment. -/
theorem Part.Small.concat {p : Part} (hroom : p.records = [] ∨
    (((codec crc32).encodeAll p.records).length + (encode crc32 e).length : ℤ) ≤ maxSegSz) :
    ({ p with records := p.records ++ [e] } : Part).Small crc32 maxSegSz := by
  rcases hroom with hnil | hle
  · left
    simp [hnil]
  · right
    have hencode : (codec crc32).encode e = encode crc32 e := rfl
    rw [Codec.encodeAll_append, Codec.encodeAll_cons, Codec.encodeAll_nil, List.append_nil,
      List.length_append, hencode]
    exact_mod_cast hle

namespace Kept

theorem opened (h : Kept crc32 maxSegSz dir log before p) : Opened crc32 dir log before p := by
  refine ⟨h.holds, ?_, ?_, ?_⟩
  · rw [h.older, List.map_map]
    rfl
  · rw [h.active]
  · rw [h.active]

theorem remains (h : Kept crc32 maxSegSz dir log before p) :
    Remains crc32 maxSegSz dir (before ++ [p]) :=
  ⟨h.holds, fun q hq => h.whole q (List.mem_of_mem_dropLast hq), h.small⟩

theorem size (h : Kept crc32 maxSegSz dir log before p) :
    log.active.size = ((codec crc32).encodeAll p.records).length := by
  rw [h.active, Part.bytes, h.whole p (by simp), List.append_nil]

/-- The record is the first one of the active segment, or there is room for it. -/
def Room (crc32 : List UInt8 → UInt32) (log : WAL) (p : Part) (e : Entry) : Prop :=
  p.records = [] ∨ ¬ log.Exceeds crc32 e

theorem small_extend (h : Kept crc32 maxSegSz dir log before p) (hroom : Room crc32 log p e)
    (n : ℕ) : (p.extend crc32 e n).Small crc32 maxSegSz := by
  unfold Part.extend
  split
  · refine Part.Small.concat (hroom.imp_right fun hle => ?_)
    rw [← h.size, ← h.max]
    exact not_lt.mp hle
  · exact h.small p (by simp)

/-- A write, as a whole or in part. -/
theorem write (h : Kept crc32 maxSegSz dir log before p) (hfits : e.Fits)
    (hroom : Room crc32 log p e) (hn : n ≤ (encode crc32 e).length) :
    Remains crc32 maxSegSz
      (put dir log.active.path (p.bytes crc32 ++ (encode crc32 e).take n))
      (before ++ [p.extend crc32 e n]) := by
  have htorn := h.whole p (by simp)
  refine ⟨(h.opened.write htorn hfits hn).holds, ?_, ?_⟩
  · rw [List.dropLast_concat]
    exact (List.forall_mem_append.mp h.whole).1
  · refine List.forall_mem_append.mpr ⟨(List.forall_mem_append.mp h.small).1, ?_⟩
    exact List.forall_mem_singleton.mpr (h.small_extend hroom n)

theorem append (h : Kept crc32 maxSegSz dir log before p) (hfits : e.Fits)
    (hroom : Room crc32 log p e) (holder : log'.older = log.older)
    (hactive : log'.active =
      { log.active with size := log.active.size + (encode crc32 e).length })
    (hmax : log'.maxSegSz = log.maxSegSz) :
    Kept crc32 maxSegSz
      (put dir log.active.path
        (p.bytes crc32 ++ (encode crc32 e).take (encode crc32 e).length)) log' before
      (p.extend crc32 e (encode crc32 e).length) := by
  have htorn := h.whole p (by simp)
  have hwrite := h.write hfits hroom le_rfl
  refine ⟨hwrite.holds, holder.trans h.older, ?_, hmax.trans h.max, ?_, hwrite.small⟩
  · rw [hactive, h.active, Part.path, Part.path, p.id_extend, p.bytes_extend htorn,
      List.take_length, List.length_append]
  · refine List.forall_mem_append.mpr ⟨(List.forall_mem_append.mp h.whole).1, ?_⟩
    exact List.forall_mem_singleton.mpr (p.torn_extend e htorn)

/-- The new segment of a rotation. -/
theorem rotate (h : Kept crc32 maxSegSz dir log before p)
    (hnum : log.active.id.toNat + 1 < 10 ^ 16) :
    Kept crc32 maxSegSz (put dir (segmentPath (log.active.id + 1)) [])
      { log with
        older := log.older ++ [{ log.active with file := false }]
        active := .created (log.active.id + 1) }
      (before ++ [p]) ⟨log.active.id + 1, [], []⟩ := by
  have hnext := toNat_succ (Nat.lt_of_succ_lt hnum)
  have hid : (log.active.id + 1).toNat = (before ++ [p]).length + 1 := by
    rw [hnext, h.opened.id, h.holds.last_id]
    simp
  refine ⟨h.holds.create hid (by rw [hnext]; exact hnum), ?_, rfl, h.max, ?_, ?_⟩
  · rw [h.older, h.active, List.map_append]
    rfl
  · exact List.forall_mem_append.mpr ⟨h.whole, List.forall_mem_singleton.mpr rfl⟩
  · exact List.forall_mem_append.mpr ⟨h.small, List.forall_mem_singleton.mpr (.empty _ _ _)⟩

/-- The log keeps its books. -/
theorem books (h : Kept crc32 maxSegSz dir log before p) : Books crc32 maxSegSz dir log := by
  have hpresent := h.holds.present
  have hsegment : ∀ q ∈ before ++ [p], ∃ es,
      get dir q.path = some ((codec crc32).encodeAll es) ∧
        (q.bytes crc32).length = ((codec crc32).encodeAll es).length ∧
        (es.length ≤ 1 ∨ ((q.bytes crc32).length : ℤ) ≤ maxSegSz) := by
    intro q hq
    have hbytes : q.bytes crc32 = (codec crc32).encodeAll q.records := by
      rw [Part.bytes, h.whole q hq, List.append_nil]
    refine ⟨q.records, hbytes ▸ (hpresent q hq).2, by rw [hbytes], ?_⟩
    rw [hbytes]
    exact h.small q hq
  have hsegments : ∀ seg ∈ log.segments, ∃ q ∈ before ++ [p], seg.path = q.path ∧
      seg.size = (q.bytes crc32).length := by
    intro seg hseg
    rw [WAL.segments, h.older, h.active] at hseg
    rcases List.mem_append.mp hseg with hold | hlast
    · obtain ⟨q, hq, rfl⟩ := List.mem_map.mp hold
      exact ⟨q, List.mem_append_left _ hq, rfl, rfl⟩
    · rw [List.mem_singleton.mp hlast]
      exact ⟨p, by simp, rfl, rfl⟩
  refine ⟨?_, ?_, by rw [h.active], ?_, ?_⟩
  · have hids : log.segments.map (·.id.toNat) = List.range' 1 (before ++ [p]).length := by
      rw [← h.holds.numbered, WAL.segments, h.older, h.active]
      simp [Part.segment]
    have hchain : (log.segments.map (·.id.toNat)).IsChain fun a b => b = a + 1 := by
      rw [hids]
      exact List.isChain_range' 1 _ 1
    exact List.isChain_map .. |>.mp hchain
  · intro seg hseg
    rw [h.older] at hseg
    obtain ⟨q, -, rfl⟩ := List.mem_map.mp hseg
    rfl
  · intro seg hseg
    obtain ⟨q, hq, hpath, hsize⟩ := hsegments seg hseg
    rw [hpath, hsize]
    exact hsegment q hq
  · apply h.holds.get_eq_none
    have hlast := h.holds.last_id
    have hfew := h.holds.few
    rw [← h.opened.id] at hlast
    rw [List.length_append, List.length_singleton] at hfew ⊢
    rw [toNat_succ (by omega)]
    omega

section Calls

variable (written : ℕ)

/-- Files on which the log can be opened again. -/
def Reopens (crc32 : List UInt8 → UInt32) (maxSegSz : ℤ) (d : Disk) : Prop :=
  ∃ parts, Remains crc32 maxSegSz d.dir parts

theorem ensures_appendActive (h : Kept crc32 maxSegSz dir log before p) (hfits : e.Fits)
    (hroom : Room crc32 log p e) :
    Prog.Ensures serve (Reopens crc32 maxSegSz)
      (fun x d => x.2 = none → ∃ before p, Kept crc32 maxSegSz d.dir x.1 before p) ⟨dir, written⟩
      (log.appendActive crc32 e) := by
  refine .bind (ensures_segmentWrite (d := ⟨dir, written⟩) h.opened.get_active ⟨_, h.remains⟩
    fun _ n hn => ⟨_, h.write hfits hroom hn⟩) ?_
  rintro ⟨active, err⟩ d hc hwrote
  cases hwrote with
  | closed => exact .ret hc (by simp)
  | stored hfile hn herr =>
      cases err with
      | some err => exact .ret hc (by simp)
      | none =>
          obtain rfl := herr.mp rfl
          refine .bind (ensures_sync hc _) ?_
          rintro err t ht rfl
          cases err with
          | some err => exact .ret ht (by simp)
          | none => exact .ret ht fun _ => ⟨_, _, h.append hfits hroom rfl rfl rfl⟩

theorem ensures_rotate (h : Kept crc32 maxSegSz dir log before p)
    (hnum : log.active.id.toNat + 1 < 10 ^ 16) :
    Prog.Ensures serve (Reopens crc32 maxSegSz)
      (fun x d => x.2 = none → ∃ before p, Kept crc32 maxSegSz d.dir x.1 before p ∧
        p.records = []) ⟨dir, written⟩ log.rotate := by
  have hrotate := h.rotate hnum
  refine .bind (ensures_close ⟨_, h.remains⟩ log.active) ?_
  rintro ⟨active, err⟩ d hc ⟨rfl, hactive⟩
  obtain rfl : active = { log.active with file := false } := hactive
  cases err with
  | some err => exact .ret hc (by simp)
  | none =>
      refine .bind (ensures_createSegment hc (log.active.id + 1) ⟨_, hrotate.remains⟩) ?_
      intro r t ht hr
      cases r with
      | error err => exact .ret ht (by simp)
      | ok seg =>
          obtain ⟨rfl, rfl⟩ : seg = _ ∧ t = _ := hr
          exact .ret ht fun _ => ⟨_, _, hrotate, rfl⟩

theorem ensures_append (h : Kept crc32 maxSegSz dir log before p) (hfits : e.Fits)
    (hnum : log.Exceeds crc32 e → log.active.id.toNat + 1 < 10 ^ 16) :
    Prog.Ensures serve (Reopens crc32 maxSegSz)
      (fun x d => x.2 = none → ∃ before p, Kept crc32 maxSegSz d.dir x.1 before p) ⟨dir, written⟩
      (log.append crc32 e) := by
  unfold WAL.append
  split
  · rename_i hexceeds
    refine .bind (h.ensures_rotate written (hnum hexceeds)) ?_
    rintro ⟨log', err⟩ ⟨dir', written'⟩ hc hrotated
    cases err with
    | some err => exact .ret hc (by simp)
    | none =>
        obtain ⟨before', p', hkept, hempty⟩ := hrotated rfl
        exact hkept.ensures_appendActive written' hfits (.inl hempty)
  · rename_i hroom
    exact h.ensures_appendActive written hfits (.inr hroom)

end Calls

end Kept

theorem Remains.openLog (h : Remains crc32 maxSegSz dir parts)
    (hopen : openLog crc32 maxSegSz dir = .ok (dir', log)) :
    ∃ before p, Kept crc32 maxSegSz dir' log before p := by
  rcases List.eq_nil_or_concat' parts with rfl | ⟨before, p, rfl⟩
  · obtain ⟨rfl, rfl⟩ :=
      Prod.mk.inj (Except.ok.inj (hopen.symm.trans (h.holds.openLog_nil maxSegSz)))
    have hone : (1 : UInt64).toNat = ([] : List Part).length + 1 := rfl
    exact ⟨[], ⟨1, [], []⟩, h.holds.create hone (by decide), rfl, rfl, rfl,
      List.forall_mem_singleton.mpr rfl, List.forall_mem_singleton.mpr (.empty _ _ _)⟩
  · -- The rest of the last file is cut off.
    obtain ⟨rfl, rfl⟩ :=
      Prod.mk.inj (Except.ok.inj (hopen.symm.trans (h.holds.openLog_concat maxSegSz)))
    have hread := (h.holds.readable p (by simp)).whole
    have hwhole := h.whole
    rw [List.dropLast_concat] at hwhole
    obtain ⟨hbefore, hlast⟩ := List.forall_mem_append.mp h.small
    refine ⟨before, p.whole, h.holds.update rfl hread, rfl, rfl, rfl, ?_, ?_⟩
    · exact List.forall_mem_append.mpr ⟨hwhole, List.forall_mem_singleton.mpr rfl⟩
    · have hp : p.Small crc32 maxSegSz := List.forall_mem_singleton.mp hlast
      exact List.forall_mem_append.mpr ⟨hbefore, List.forall_mem_singleton.mpr hp⟩

/-! ### Runs -/

structure Booked (crc32 : List UInt8 → UInt32) (maxSegSz : ℤ) (w : World) : Prop where
  closed : w.wal = none → ∃ parts, Remains crc32 maxSegSz w.dir parts
  opened : ∀ log, w.wal = some log → ∃ before p, Kept crc32 maxSegSz w.dir log before p

variable {w w' : World} {ev : Event}

theorem Booked.init : Booked crc32 maxSegSz .init := by
  refine ⟨fun _ => ⟨[], .nil ⟨rfl, by simp⟩, by simp, by simp⟩, ?_⟩
  intro log hlog
  cases hlog

/-- A call of `Append`, cut at any point and at its end. -/
theorem Booked.play {answers : List Answer} {d : Disk} {rest : Act (WAL × Option String)}
    (h : Booked crc32 maxSegSz w) (hwal : w.wal = some log) (hfits : e.Fits)
    (hnum : log.Exceeds crc32 e → log.active.id.toNat + 1 < 10 ^ 16)
    (hplay : w.play crc32 log e answers = some (d, rest)) :
    (∃ parts, Remains crc32 maxSegSz d.dir parts) ∧
      ∀ log', rest.result? = some (log', none) →
        ∃ before p, Kept crc32 maxSegSz d.dir log' before p := by
  obtain ⟨before, p, hkept⟩ := h.opened log hwal
  have happend := hkept.ensures_append 0 hfits hnum
  exact ⟨happend.cut hplay, fun log' hend => happend.ended hplay hend rfl⟩

theorem Booked.step (h : Booked crc32 maxSegSz w) (hok : ev.Successful)
    (hsize : ev.SizedAs maxSegSz) (hnum : RotatesUpTo crc32 n w ev) (hn : n < 10 ^ 16)
    (hs : Wal.step crc32 w ev = some w') : Booked crc32 maxSegSz w' := by
  cases stepped hs with
  | opens hwal hopen =>
      obtain rfl : _ = maxSegSz := hsize
      obtain ⟨parts, hremains⟩ := h.closed hwal
      refine ⟨by simp, ?_⟩
      intro l hl
      obtain rfl := Option.some.inj hl
      exact hremains.openLog hopen
  | @append e answers log log' d rest hwal hplay hend =>
      obtain ⟨-, hend'⟩ := h.play hwal hok (fun hx => (hnum log hwal hx).trans_lt hn) hplay
      refine ⟨by simp, ?_⟩
      intro l hl
      obtain rfl := Option.some.inj hl
      exact hend' log' hend
  | fail => exact hok.elim
  | @crash e answers log d rest hwal hplay =>
      obtain ⟨hcut, -⟩ := h.play hwal hok (fun hx => (hnum log hwal hx).trans_lt hn) hplay
      exact ⟨fun _ => hcut, by simp⟩
  | close hwal =>
      obtain ⟨before, p, hkept⟩ := h.opened _ hwal
      exact ⟨fun _ => ⟨_, hkept.remains⟩, by simp⟩

/-- The steps of the runs in question. -/
def Allowed (crc32 : List UInt8 → UInt32) (maxSegSz : ℤ) (n : ℕ) (w : World) (ev : Event) : Prop :=
  ev.Successful ∧ ev.SizedAs maxSegSz ∧ RotatesUpTo crc32 n w ev

theorem RotatesUpTo.mono {m : ℕ} (h : RotatesUpTo crc32 n w ev) (hle : n ≤ m) :
    RotatesUpTo crc32 m w ev := by
  cases ev with
  | «open» => trivial
  | close => trivial
  | append | fail | crash =>
      intro log hwal hexceeds
      exact (h log hwal hexceeds).trans hle

theorem books_of_run (hn : n < 10 ^ 16)
    (h : Path (step crc32) (Allowed crc32 maxSegSz n) .init w) (hwal : w.wal = some log) :
    Books crc32 maxSegSz w.dir log := by
  have hbooked : Booked crc32 maxSegSz w :=
    h.invariant .init fun _ _ _ hb hok hs => hb.step hok.1 hok.2.1 hok.2.2 hn hs
  obtain ⟨before, p, hkept⟩ := hbooked.opened log hwal
  exact hkept.books

theorem Numbered.rotatesUpTo (h : Numbered w ev) : RotatesUpTo crc32 (10 ^ 16) w ev := by
  cases ev with
  | «open» => trivial
  | close => trivial
  | append | fail | crash =>
      intro log hwal _
      exact (h log hwal).le

theorem Full.toNat_id (h : Full crc32 w log before p) : log.active.id.toNat + 1 = 10 ^ 16 := by
  have hlast := h.opened.holds.last_id
  have hfew := h.opened.holds.few
  rw [← h.opened.id] at hlast
  rw [List.length_append, List.length_singleton] at hfew
  rw [← toNat_succ (by omega), h.next]

theorem step_open (hwal : w.wal = none) (hopen : openLog crc32 maxSegSz w.dir = .ok (dir, log)) :
    step crc32 w (.open maxSegSz) = some { w with dir, wal := some log } := by
  simp [step, hwal, hopen]

/-- The last rotation of the run makes a file whose name is not the last one. The log that is
opened then goes on with the segment before, and its next rotation collides. -/
theorem exists_collision (crc32 : List UInt8 → UInt32) : ∃ w log,
    Path (step crc32) (Allowed crc32 0 (10 ^ 16)) .init w ∧ w.wal = some log ∧
      log.active.id.toNat + 1 = 10 ^ 16 ∧
      (get w.dir (segmentPath (log.active.id + 1))).isSome = true := by
  obtain ⟨w, log, before, p, h⟩ := exists_full crc32
  have hfits : (⟨1, []⟩ : Entry).Fits := by decide
  obtain ⟨log', hstep, -, -, hfile', -⟩ :=
    step_append_of_exceeds h.wal (h.exceeds ⟨1, []⟩) h.file h.absent
  obtain ⟨parts, hstores⟩ := h.opened.holds.insert_before_last h.absent h.order hfits
  have hrun : Path (step crc32) (Allowed crc32 0 (10 ^ 16)) .init w :=
    h.run.mono fun _ _ hok => ⟨hok.1.1, hok.2, hok.1.2.rotatesUpTo⟩
  have happend : ∀ answers, Allowed crc32 0 (10 ^ 16) w (.append ⟨1, []⟩ answers) := by
    intro answers
    refine ⟨hfits, trivial, ?_⟩
    intro l hl _
    obtain rfl := Option.some.inj (h.wal.symm.trans hl)
    exact h.toNat_id.le
  have hclose : ∀ w answers, Allowed crc32 0 (10 ^ 16) w (.close answers) :=
    fun _ _ => ⟨trivial, trivial, trivial⟩
  have hclosed := (hrun.tail (happend _) hstep).tail (hclose _ _) (step_close rfl hfile')
  refine ⟨_, _, hclosed.tail (e := .open 0) ⟨trivial, rfl, trivial⟩
    (step_open rfl (hstores.openLog_concat 0)), rfl, ?_, ?_⟩
  · rw [← h.toNat_id, h.opened.id]
  · have hid := h.opened.id
    have horder := h.order
    rw [hid] at horder
    simp [get_put, hid, horder.ne]

/-- The bookkeeping is right in all runs if and only if the numbers of segments have at most
16 digits. -/
theorem books_iff_rotations_small (crc32 : List UInt8 → UInt32) (n : ℕ) :
    (∀ maxSegSz w log, Path (step crc32) (Allowed crc32 maxSegSz n) .init w → w.wal = some log →
      Books crc32 maxSegSz w.dir log) ↔ n < 10 ^ 16 := by
  constructor
  · intro h
    by_contra hn
    obtain ⟨w, log, hrun, hwal, -, hsome⟩ := exists_collision crc32
    have hfresh := (h 0 w log (hrun.mono fun _ _ hok => ?_) hwal).fresh
    · rw [hfresh] at hsome
      cases hsome
    · exact ⟨hok.1, hok.2.1, hok.2.2.mono (not_lt.mp hn)⟩
  · intro hn maxSegSz w log hrun hwal
    exact books_of_run hn hrun hwal

end Checksum

/-- A run with `10 ^ 16 - 1` rotations, `Close` and `Open`. -/
theorem not_books_after_16_digits : ∃ w log,
    Path (step checksumIEEE) (Allowed checksumIEEE 0 (10 ^ 16)) .init w ∧ w.wal = some log ∧
      ¬ Books checksumIEEE 0 w.dir log := by
  obtain ⟨w, log, hrun, hwal, -, hsome⟩ := exists_collision checksumIEEE
  refine ⟨w, log, hrun, hwal, fun h => ?_⟩
  rw [h.fresh] at hsome
  cases hsome

end VaultFS.Wal
