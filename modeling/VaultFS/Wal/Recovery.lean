import VaultFS.Wal.Durability

/-!
# Recovery after crashes

In a run in which no call fails, but in which the process may die in any call of `Append`, the log
always opens and returns the records that were written as a whole (`recovers_of_successful`). The
names of the segments keep their order up to 16 digits only: the segment with number `10 ^ 16`
is read before the one with number `10 ^ 16 - 1`.
-/

namespace VaultFS.Wal

open Framing Interaction KeyValue Transition

section Checksum

variable {crc32 : List UInt8 → UInt32} {w w' : World} {ev : Event}

/-- A step of a run without failing calls: the payloads are not too large. -/
def Event.Successful : Event → Prop
  | .append e _ => e.Fits
  | .fail _ _ => False
  | .crash e _ => e.Fits
  | _ => True

instance : (ev : Event) → Decidable ev.Successful
  | .append e _ => inferInstanceAs (Decidable e.Fits)
  | .fail _ _ => .isFalse id
  | .crash e _ => inferInstanceAs (Decidable e.Fits)
  | .open _ => .isTrue trivial
  | .close _ => .isTrue trivial

/-- The log is opened with this maximum size of segments. -/
def Event.SizedAs (maxSegSz : ℤ) : Event → Prop
  | .open size => size = maxSegSz
  | _ => True

/-- The index is the maximum of the indices of the entries, or 0 if there is no entry. -/
def IsLast (es : List Entry) (index : UInt64) : Prop :=
  (∀ e ∈ es, e.index ≤ index) ∧ (es = [] → index = 0) ∧ (es ≠ [] → ∃ e ∈ es, e.index = index)

theorem foldl_advance (es : List Entry) (i : UInt64) :
    i ≤ es.foldl advance i ∧ (∀ e ∈ es, e.index ≤ es.foldl advance i) ∧
      (es.foldl advance i = i ∨ ∃ e ∈ es, e.index = es.foldl advance i) := by
  induction es generalizing i with
  | nil => exact ⟨UInt64.le_refl i, by simp, Or.inl rfl⟩
  | cons a es ih =>
      obtain ⟨hstart, hall, hlast⟩ := ih (advance i a)
      have hi : i ≤ advance i a ∧ a.index ≤ advance i a ∧
          (advance i a = i ∨ advance i a = a.index) := by
        unfold advance
        split
        · rename_i hlt
          exact ⟨UInt64.le_of_lt hlt, UInt64.le_refl _, Or.inr rfl⟩
        · rename_i hle
          exact ⟨UInt64.le_refl _, UInt64.not_lt.mp hle, Or.inl rfl⟩
      rw [List.foldl_cons]
      refine ⟨UInt64.le_trans hi.1 hstart, ?_, ?_⟩
      · intro e he
        rcases List.mem_cons.mp he with rfl | hmem
        · exact UInt64.le_trans hi.2.1 hstart
        · exact hall e hmem
      · rcases hlast with heq | ⟨e, he, heq⟩
        · rcases hi.2.2 with hsame | hnew
          · exact Or.inl (heq.trans hsame)
          · exact Or.inr ⟨a, List.mem_cons_self, hnew.symm.trans heq.symm⟩
        · exact Or.inr ⟨e, List.mem_cons_of_mem a he, heq⟩

theorem isLast_foldl_advance (es : List Entry) : IsLast es (es.foldl advance 0) := by
  obtain ⟨-, hall, hlast⟩ := foldl_advance es 0
  refine ⟨hall, ?_, ?_⟩
  · rintro rfl
    rfl
  · intro hne
    rcases hlast with hzero | hmem
    · obtain ⟨e, he⟩ := List.exists_mem_of_ne_nil es hne
      have hle := hall e he
      rw [hzero] at hle
      exact ⟨e, he, (UInt64.le_zero_iff.mp hle).trans hzero.symm⟩
    · exact hmem

/-- The open log has a file of whole records to write to, and knows the last index. -/
def Tidy (crc32 : List UInt8 → UInt32) (w : World) : Prop :=
  ∀ log, w.wal = some log → Whole crc32 w.dir log.active.path ∧
    log.lastIdx = w.entries.foldl advance 0

theorem Tidy.sound (h : Tidy crc32 w) (hok : ev.Successful) (hnum : Numbered w ev) :
    Sound crc32 w ev := by
  cases ev with
  | fail => exact hok.elim
  | append e answers => exact ⟨hok, hnum, fun log hwal _ _ => (h log hwal).1⟩
  | crash e answers => exact ⟨hok, hnum, fun log hwal _ _ => (h log hwal).1⟩
  | «open» => exact ⟨trivial, trivial, trivial⟩
  | close => exact ⟨trivial, trivial, trivial⟩

theorem Tidy.step (hT : Tidy crc32 w) (hD : Durable crc32 w) (hok : ev.Successful)
    (hnum : Numbered w ev) (hs : Wal.step crc32 w ev = some w') : Tidy crc32 w' := by
  cases stepped hs with
  | @opens maxSegSz dir log hwal hopen =>
      obtain ⟨parts, hholds, hrecs⟩ := hD.closed hwal
      obtain ⟨dir', log', before, p, hopened, hout, -, htorn, -, hlast⟩ :=
        openLog_of_holds hholds maxSegSz
      obtain ⟨rfl, rfl⟩ := Prod.mk.inj (Except.ok.inj (hopen.symm.trans hopened))
      intro l hl
      obtain rfl := Option.some.inj hl
      exact ⟨hout.whole htorn, hrecs ▸ hlast⟩
  | @append e answers log log' d rest hwal hplay hend =>
      obtain ⟨hwhole, hlast⟩ := hT log hwal
      obtain ⟨-, hret⟩ := hD.play hwal hok (hnum log hwal) (fun _ _ => hwhole) hplay
      obtain ⟨⟨before, p, hout, -, hdone⟩, hadvance⟩ := hret log' none hend
      obtain ⟨hwritten, -, htorn⟩ := hdone rfl
      intro l hl
      obtain rfl := Option.some.inj hl
      refine ⟨hout.whole htorn, ?_⟩
      rw [hadvance rfl, hlast, entries_concat, landed, if_pos hwritten, List.foldl_append]
      rfl
  | fail => exact hok.elim
  | crash =>
      intro l hl
      cases hl
  | close =>
      intro l hl
      cases hl

theorem tidy_of_path (h : Path (step crc32) (fun w ev => ev.Successful ∧ Numbered w ev) .init w) :
    Durable crc32 w ∧ Tidy crc32 w := by
  refine h.invariant (I := fun w => Durable crc32 w ∧ Tidy crc32 w) ⟨.init, ?_⟩ ?_
  · intro log hlog
    cases hlog
  · rintro t e t' ⟨hD, hT⟩ ⟨hok, hnum⟩ hs
    obtain ⟨hfits, hnum', hwhole⟩ := hT.sound hok hnum
    exact ⟨hD.step hfits hnum' hwhole hs, hT.step hD hok hnum hs⟩

section Rotation

variable {log : WAL} {e : Entry}

/-- An `Append` whose calls all succeed, with a rotation. -/
theorem step_append_of_exceeds (hwal : w.wal = some log) (hexceeds : log.Exceeds crc32 e)
    (hfile : log.active.file = true)
    (hnew : get w.dir (segmentPath (log.active.id + 1)) = none) :
    ∃ log', step crc32 w (.append e [{}, {}, {}, ⟨(encode crc32 e).length, none⟩, {}]) =
        some ⟨put (put w.dir (segmentPath (log.active.id + 1)) []) (segmentPath (log.active.id + 1))
          (encode crc32 e), some log', w.history ++ [⟨e, (encode crc32 e).length, true⟩]⟩ ∧
      log'.active.id = log.active.id + 1 ∧ log'.active.path = segmentPath (log.active.id + 1) ∧
      log'.active.file = true ∧ log'.maxSegSz = log.maxSegSz := by
  refine ⟨⟨log.older ++ [{ log.active with file := false }],
    { Segment.created (log.active.id + 1) with size := (encode crc32 e).length },
    advance log.lastIdx e, log.maxSegSz⟩, ?_, rfl, rfl, rfl, rfl⟩
  simp [step, hwal, World.play, WAL.append, hexceeds, WAL.rotate, Segment.close, hfile,
    createSegment, WAL.appendActive, Segment.write, Segment.sync, Segment.created, Prog.op,
    Prog.play, Prog.bind, bind, pure, serve, createFile, hnew, Prog.result?]

theorem step_close (hwal : w.wal = some log) (hfile : log.active.file = true) :
    step crc32 w (.close [{}, {}]) = some { w with wal := none } := by
  simp [step, hwal, WAL.close, Segment.close, hfile, Prog.op, Prog.play, Prog.bind, bind, pure,
    serve, Prog.result?]

theorem segmentPath_injective : Function.Injective segmentPath := by
  intro a b h
  exact UInt64.toNat_inj.mp (Decimal.pad_injective 16 (List.append_cancel_right h))

/-- Segments with higher numbers do not exist. -/
theorem Holds.get_eq_none {dir : Dir} {parts : List Part} (h : Holds crc32 dir parts) {id : UInt64}
    (hid : parts.length < id.toNat) : get dir (segmentPath id) = none := by
  rw [Option.eq_none_iff_forall_ne_some]
  intro content hget
  have hmem := (SortedList.lookup_eq_some_iff dir.sorted).mp hget
  rw [h.pairs] at hmem
  obtain ⟨p, hp, heq⟩ := List.mem_map.mp hmem
  have hsame : p.id = id := segmentPath_injective (Prod.mk.inj heq).1
  have hrange : p.id.toNat ∈ List.range' 1 parts.length := h.numbered ▸ List.mem_map_of_mem hp
  have := (List.mem_range'_1.mp hrange).2
  rw [hsame] at this
  omega

/-- With a maximum size of 0 every record has a segment of its own. -/
theorem exceeds_of_zero (h : log.maxSegSz = 0) (e : Entry) : log.Exceeds crc32 e := by
  have hne : encode crc32 e ≠ [] := encode_ne_nil e
  have hpos := List.length_pos_iff.mpr hne
  rw [WAL.Exceeds, h]
  omega

/-- Runs with any number of segments of 16 digits, all but the first with the same record. -/
theorem exists_run (crc32 : List UInt8 → UInt32) {a : Entry} (ha : a.Fits) (n : ℕ)
    (hn : n + 1 < 10 ^ 16) :
    ∃ w log,
      Path (step crc32) (fun w ev => (ev.Successful ∧ Numbered w ev) ∧ ev.SizedAs 0) .init w ∧
      w.wal = some log ∧ log.maxSegSz = 0 ∧ log.active.file = true ∧
      log.active.id.toNat = n + 1 ∧ w.entries = List.replicate n a ∧
      (0 < n → get w.dir log.active.path = some (encode crc32 a)) := by
  induction n with
  | zero =>
      refine ⟨_, _, .single (e := .open 0) ⟨⟨trivial, trivial⟩, rfl⟩ rfl, rfl, rfl, rfl, rfl, rfl,
        ?_⟩
      intro hpos
      exact absurd hpos (lt_irrefl 0)
  | succ n ih =>
      obtain ⟨w, log, hpath, hwal, hmax, hfile, hid, hentries, -⟩ := ih (by omega)
      obtain ⟨hD, -⟩ := tidy_of_path (hpath.mono fun _ _ => And.left)
      obtain ⟨before, p, hopened, -⟩ := hD.opened log hwal
      have hnext : (log.active.id + 1).toNat = n + 2 := by
        rw [toNat_succ (by omega), hid]
      have hnew : get w.dir (segmentPath (log.active.id + 1)) = none := by
        apply hopened.holds.get_eq_none
        have hlast := hopened.holds.last_id
        rw [← hopened.id, hid] at hlast
        rw [hnext, List.length_append, List.length_singleton]
        omega
      obtain ⟨log', hstep, hid', hpath', hfile', hmax'⟩ :=
        step_append_of_exceeds hwal (exceeds_of_zero hmax a) hfile hnew
      refine ⟨_, log', hpath.tail (e := .append a _) ⟨⟨ha, ?_⟩, trivial⟩ hstep, rfl,
        hmax'.trans hmax, hfile', ?_, ?_, ?_⟩
      · intro l hl
        obtain rfl := Option.some.inj (hwal.symm.trans hl)
        omega
      · rw [hid', hnext]
      · have hlanded : landed a (encode crc32 a).length = [a] := if_pos (length_encode a)
        rw [entries_concat]
        simp only [hlanded]
        rw [List.replicate_succ', ← hentries]
        rfl
      · intro _
        rw [hpath', get_put_self]

/-- A new segment whose name comes before the last one. -/
theorem Stores.insert_before_last {dir : Dir} {before : List Part} {p : Part}
    (h : Stores crc32 dir (before ++ [p])) {id : UInt64}
    (hnew : get dir (segmentPath id) = none) (horder : segmentPath id < p.path) (hfits : e.Fits) :
    ∃ parts, Stores crc32 (put (put dir (segmentPath id) []) (segmentPath id) (encode crc32 e))
      (parts ++ [p]) := by
  obtain ⟨l, l', hparts, hinsert⟩ := h.insert hnew
  rcases List.eq_nil_or_concat' l' with rfl | ⟨l', p', rfl⟩
  · -- At the end the new name would be above the last one.
    rw [List.append_nil] at hparts
    have hsorted := hinsert.sorted
    rw [← hparts, List.append_assoc, List.singleton_append] at hsorted
    have hlt : p.path < (⟨id, [], []⟩ : Part).path :=
      (List.pairwise_cons.mp (List.pairwise_append.mp hsorted).2.1).1 _ List.mem_cons_self
    exact absurd hlt horder.asymm
  · rw [← List.append_assoc] at hparts
    obtain ⟨rfl, hsame⟩ := List.append_inj' hparts rfl
    obtain rfl := List.singleton_inj.mp hsame
    have hq : (⟨id, [e], []⟩ : Part).Readable crc32 := Part.readable_of_fits (by simpa) rfl
    have hstores := hinsert.update (q := ⟨id, [e], []⟩) rfl hq
    have hbytes : (⟨id, [e], []⟩ : Part).bytes crc32 = encode crc32 e := by
      simp [Part.bytes, codec]
    rw [hbytes, ← List.cons_append, ← List.append_assoc] at hstores
    exact ⟨_, hstores⟩

/-- The last record that is read is in the last segment. -/
theorem Stores.readAll_ne_concat {dir : Dir} {before : List Part} {p : Part}
    (h : Stores crc32 dir (before ++ [p])) (hlast : p.records ≠ []) (hother : e ∉ p.records)
    (maxSegSz : ℤ) :
    ∃ dir' log es, openLog crc32 maxSegSz dir = .ok (dir', log) ∧
      log.readAll crc32 dir' = .ok es ∧ ∀ es', es ≠ es' ++ [e] := by
  obtain ⟨dir', log, hopen, hread⟩ := h.readAll_openLog (by simp) maxSegSz
  refine ⟨dir', log, _, hopen, hread, ?_⟩
  intro es' heq
  rw [List.flatMap_append, List.flatMap_singleton] at heq
  obtain ⟨q, x, hpx⟩ := (List.eq_nil_or_concat' p.records).resolve_left hlast
  rw [hpx, ← List.append_assoc] at heq
  have hx : x = e := List.singleton_inj.mp (List.append_inj_right' heq rfl)
  exact hother (hpx ▸ by simp [hx])

/-- The run has used all numbers with 16 digits: the next segment's name comes before the last
one. Each segment but the first has a record of its own. -/
structure Full (crc32 : List UInt8 → UInt32) (w : World) (log : WAL) (before : List Part)
    (p : Part) : Prop where
  run : Path (step crc32) (fun w ev => (ev.Successful ∧ Numbered w ev) ∧ ev.SizedAs 0) .init w
  wal : w.wal = some log
  exceeds : ∀ e, log.Exceeds crc32 e
  file : log.active.file = true
  opened : Opened crc32 w.dir log before p
  records : p.records ≠ []
  same : ∀ e ∈ p.records, e = ⟨1, []⟩
  next : (log.active.id + 1).toNat = 10 ^ 16
  absent : get w.dir (segmentPath (log.active.id + 1)) = none
  order : segmentPath (log.active.id + 1) < p.path

theorem exists_full (crc32 : List UInt8 → UInt32) :
    ∃ w log before p, Full crc32 w log before p := by
  have ha : (⟨1, []⟩ : Entry).Fits := by decide
  obtain ⟨w, log, hpath, hwal, hmax, hfile, hid, hentries, hget⟩ :=
    exists_run crc32 ha (10 ^ 16 - 2) (by decide)
  obtain ⟨hD, hT⟩ := tidy_of_path (hpath.mono fun _ _ => And.left)
  obtain ⟨before, p, hopened, hrecs⟩ := hD.opened log hwal
  rw [hentries] at hrecs
  have hnext : (log.active.id + 1).toNat = 10 ^ 16 := by
    rw [UInt64.toNat_add, hid]
    decide
  refine ⟨w, log, before, p, hpath, hwal, exceeds_of_zero hmax, hfile, hopened, ?_, ?_, hnext, ?_,
    ?_⟩
  · intro hnil
    have hbytes := hopened.get_active.symm.trans (hget (by decide))
    rw [Part.bytes, hopened.torn_eq_nil (hT log hwal).1, hnil] at hbytes
    exact encode_ne_nil ⟨1, []⟩ (Option.some.inj hbytes).symm
  · intro e he
    have hmem : e ∈ List.replicate (10 ^ 16 - 2) ⟨1, []⟩ := by
      rw [← hrecs]
      exact List.mem_flatMap.mpr ⟨p, by simp, he⟩
    exact List.eq_of_mem_replicate hmem
  · apply hopened.holds.get_eq_none
    have := hopened.holds.few
    omega
  · rw [Part.path, segmentPath, segmentPath, hnext, ← hopened.id, hid]
    decide +kernel

end Rotation

/-- `ReadAll` returns the entries whose records were written as a whole, the acknowledged ones
among them, and `LastIndex` is their last index. A closed log can be opened. -/
def Recovers (crc32 : List UInt8 → UInt32) (w : World) : Prop :=
  (∀ a ∈ w.history, a.acked = true → a.written = encodedSize a.entry.data.length) ∧
  (∀ log, w.wal = some log →
    log.readAll crc32 w.dir = .ok w.entries ∧ IsLast w.entries log.lastIdx) ∧
  (w.wal = none → ∀ maxSegSz, ∃ dir log, openLog crc32 maxSegSz w.dir = .ok (dir, log) ∧
    log.readAll crc32 dir = .ok w.entries ∧ IsLast w.entries log.lastIdx)

theorem recovers_of_successful
    (h : Path (step crc32) (fun w ev => ev.Successful ∧ Numbered w ev) .init w) :
    Recovers crc32 w := by
  obtain ⟨hD, hT⟩ := tidy_of_path h
  refine ⟨hD.acked, ?_, ?_⟩
  · intro log hwal
    obtain ⟨before, p, hopened, hrecs⟩ := hD.opened log hwal
    exact ⟨hrecs ▸ hopened.readAll, (hT log hwal).2 ▸ isLast_foldl_advance w.entries⟩
  · intro hwal maxSegSz
    obtain ⟨parts, hholds, hrecs⟩ := hD.closed hwal
    obtain ⟨dir, log, before, p, hok, hopened, hsame, -, -, hlast⟩ :=
      openLog_of_holds hholds maxSegSz
    rw [hrecs] at hsame hlast
    exact ⟨dir, log, hok, hsame ▸ hopened.readAll, hlast ▸ isLast_foldl_advance w.entries⟩

end Checksum

/-- The process dies in a write, and later between the creation of a segment and the write to it. -/
theorem recovers_after_two_crashes :
    let events : List Event := [.open 45, .append ⟨4, [7]⟩ [⟨21, none⟩, {}],
      .crash ⟨5, [8]⟩ [⟨13, some "killed"⟩], .open 25, .crash ⟨6, [9]⟩ [{}, {}, {}], .open 25,
      .append ⟨3, []⟩ [⟨20, none⟩, {}], .close [{}, {}]]
    let w :=
      final (guarded (step checksumIEEE) fun w ev => ev.Successful ∧ Numbered w ev) .init events
    w.entries = [⟨4, [7]⟩, ⟨3, []⟩] ∧ Recovers checksumIEEE w :=
  ⟨by decide +kernel, recovers_of_successful (.final (by decide +kernel))⟩

/-- After `10 ^ 16 - 2` records in segments of their own, the next one goes to a segment whose
name is not the last one. -/
theorem order_lost_after_16_digits : ∃ w,
    Path (step checksumIEEE) (fun _ ev => ev.Successful) .init w ∧ ¬ Recovers checksumIEEE w := by
  generalize checksumIEEE = crc32
  obtain ⟨w, log, before, p, h⟩ := exists_full crc32
  have hb : (⟨2, []⟩ : Entry).Fits := by decide
  have hother : (⟨2, []⟩ : Entry) ∉ p.records := fun hmem => absurd (h.same _ hmem) (by decide)
  obtain ⟨log', hstep, -, -, hfile', -⟩ :=
    step_append_of_exceeds h.wal (h.exceeds ⟨2, []⟩) h.file h.absent
  obtain ⟨parts, hstores⟩ := h.opened.holds.insert_before_last h.absent h.order hb
  obtain ⟨dir, log'', es, hopen, hread, hne⟩ := hstores.readAll_ne_concat h.records hother 0
  have hrun : Path (step crc32) (fun _ ev => ev.Successful) .init w :=
    h.run.mono fun _ _ hok => hok.1.1
  have happend : ∀ answers, Event.Successful (.append ⟨2, []⟩ answers) := fun _ => hb
  refine ⟨_, (hrun.tail (happend _) hstep).tail (e := .close _) trivial
    (step_close rfl hfile'), ?_⟩
  rintro ⟨-, -, hclosed⟩
  obtain ⟨dir', log2, hopen', hread', -⟩ := hclosed rfl 0
  obtain ⟨rfl, rfl⟩ := Prod.mk.inj (Except.ok.inj (hopen.symm.trans hopen'))
  have hentries' := Except.ok.inj (hread.symm.trans hread')
  exact hne _ (hentries'.trans (entries_concat _ none w.history _))

end VaultFS.Wal
