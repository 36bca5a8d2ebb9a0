import VaultFS.Wal.Damage

/-!
# What `Append` accepts and what can be read

`Append` has no limit for the size of an entry, and `Decode` has one. A record with a larger payload
is written and acknowledged like any other. From then on every replay of its segment ends with an
error that is not the end of the log, so that neither `ReadAll` nor `Open` succeeds
(`readsBack_iff_fits`).
-/

namespace VaultFS.Wal

open Framing Interaction KeyValue LittleEndian Transition

section Checksum

variable {crc32 : List UInt8 → UInt32} {w w' : World} {dir : Dir} {log : WAL} {before : List Part}
  {p : Part} {e : Entry}

/-- `ReadAll` succeeds only if every segment can be replayed. -/
theorem replayFile_of_readFrom {segs : List Segment} {all es : List Entry}
    (h : readFrom crc32 dir all segs = .ok es) :
    ∀ seg ∈ segs, ∃ r, replayFile crc32 dir seg.path = .ok r := by
  induction segs generalizing all with
  | nil => simp
  | cons seg segs ih =>
      rw [readFrom] at h
      cases hreplay : replayFile crc32 dir seg.path with
      | error err =>
          rw [hreplay] at h
          cases h
      | ok r =>
          rw [hreplay] at h
          intro seg' hmem
          rcases List.mem_cons.mp hmem with rfl | hrest
          · exact ⟨r, hreplay⟩
          · exact ih h seg' hrest

/-- A record that is too large is not the end of the log. -/
theorem decode_encode_of_not_fits (crc32 : List UInt8 → UInt32) (h : ¬ e.Fits)
    (hsize : e.payload.length < 2 ^ 63) :
    ∃ err, decode crc32 (encode crc32 e) = .error err ∧ err.endsLog = false := by
  have hlen : value (bytes lenFieldSize e.payload.length) = e.payload.length := by
    apply value_bytes_of_lt
    exact hsize.trans (by decide)
  have hmax : maxPayloadSize < e.payload.length := by
    rw [Entry.length_payload]
    exact not_le.mp h
  refine ⟨.tooLarge e.payload.length, ?_, rfl⟩
  rw [encode, decode_frame (by simp) (by simp), hlen, decodePayload, if_pos hmax]

/-- After a success the file of the active segment was open and has the record at its end, whatever
the size of the record. -/
theorem ensures_appendActive_written (h : Opened crc32 dir log before p) (e : Entry) :
    Prog.Ensures serve (fun _ => True) (fun x d => x.2 = none → log.active.file = true ∧
        d.dir = put dir log.active.path (p.bytes crc32 ++ encode crc32 e) ∧
        x.1.older = log.older ∧ x.1.active.id = log.active.id ∧
        x.1.active.path = log.active.path) ⟨dir, 0⟩ (log.appendActive crc32 e) := by
  refine .bind (Q := fun x d => x.2 = none → log.active.file = true ∧
    d.dir = put dir log.active.path (p.bytes crc32 ++ encode crc32 e) ∧
      x.1.id = log.active.id ∧ x.1.path = log.active.path) ?_ ?_
  · refine (ensures_segmentWrite h.get_active trivial fun _ _ _ => trivial).weaken
      (fun _ => id) ?_
    intro x d hx hnone
    cases hx with
    | closed => cases hnone
    | stored hfile hn herr =>
        rw [herr.mp hnone, List.take_length]
        exact ⟨hfile, rfl, rfl, rfl⟩
  · rintro ⟨active, err⟩ d _ hwritten
    cases err with
    | some err => exact .ret trivial (by simp)
    | none =>
        obtain ⟨hfile, hdir, hid, hpath⟩ := hwritten rfl
        refine .bind (ensures_sync trivial active) ?_
        rintro err t _ rfl
        cases err with
        | some err => exact .ret trivial (by simp)
        | none => exact .ret trivial fun _ => ⟨hfile, hdir, rfl, hid, hpath⟩

/-- The files are those of the log on the parts, with the record behind the last part, which has
whole records only. -/
structure Appended (crc32 : List UInt8 → UInt32) (recs : List Entry) (e : Entry) (log : WAL)
    (dir dir₀ : Dir) (before : List Part) (p : Part) : Prop where
  opened : Opened crc32 dir₀ log before p
  records : (before ++ [p]).flatMap (·.records) = recs
  whole : p.torn = []
  files : dir = put dir₀ log.active.path (p.bytes crc32 ++ encode crc32 e)

theorem ensures_append_written {recs : List Entry} (h : Opened crc32 dir log before p)
    (hrecs : (before ++ [p]).flatMap (·.records) = recs)
    (hnum : log.active.id.toNat + 1 < 10 ^ 16)
    (htorn : log.active.file = true → ¬ log.Exceeds crc32 e → p.torn = []) :
    Prog.Ensures serve (fun _ => True) (fun x d => x.2 = none →
      ∃ dir₀ before' p', Appended crc32 recs e x.1 d.dir dir₀ before' p') ⟨dir, 0⟩
      (log.append crc32 e) := by
  unfold WAL.append
  split
  · refine .bind ((ensures_rotate h hrecs hnum e).weaken (fun _ _ => trivial) fun _ _ hx => hx) ?_
    rintro ⟨log', err⟩ ⟨dir', written⟩ _ ⟨hwritten, -, before', p', hopened, hrecs', hok⟩
    obtain rfl : written = 0 := hwritten
    cases err with
    | some err => exact .ret trivial (by simp)
    | none =>
        refine (ensures_appendActive_written hopened e).weaken (fun _ _ => trivial) ?_
        intro x d hx hnone
        obtain ⟨-, hdir, holder, hid, hpath⟩ := hx hnone
        exact ⟨dir', before', p', hopened.congr holder hid hpath, hrecs', hok rfl, hpath ▸ hdir⟩
  · rename_i hroom
    refine (ensures_appendActive_written h e).weaken (fun _ _ => trivial) ?_
    intro x d hx hnone
    obtain ⟨hfile, hdir, holder, hid, hpath⟩ := hx hnone
    exact ⟨dir, before, p, h.congr holder hid hpath, hrecs, htorn hfile hroom, hpath ▸ hdir⟩

/-- `ReadAll` succeeds and returns the entry, among others, and `Open` of the directory succeeds. -/
def ReadsBack (crc32 : List UInt8 → UInt32) (w : World) (e : Entry) : Prop :=
  (∃ log es, w.wal = some log ∧ log.readAll crc32 w.dir = .ok es ∧ e ∈ es) ∧
    ∀ maxSegSz, ∃ dir log, openLog crc32 maxSegSz w.dir = .ok (dir, log)

namespace Appended

variable {recs : List Entry} {dir₀ : Dir} {history : List Attempt}

theorem readsBack (h : Appended crc32 recs e log dir dir₀ before p) (hfits : e.Fits) :
    ReadsBack crc32 ⟨dir, some log, history⟩ e := by
  have hopened := h.opened.write h.whole hfits le_rfl
  rw [List.take_length, ← h.files] at hopened
  refine ⟨⟨log, _, rfl, hopened.readAll, ?_⟩, ?_⟩
  · have hlanded : landed e (encode crc32 e).length = [e] := if_pos (length_encode e)
    simp [Part.records_extend, hlanded]
  · intro maxSegSz
    obtain ⟨dir', log', before', p', hok, -⟩ := openLog_of_holds hopened.holds maxSegSz
    exact ⟨dir', log', hok⟩

/-- A record that is too large ends every replay of its segment with an error. -/
theorem replay_error (h : Appended crc32 recs e log dir dir₀ before p) (hfits : ¬ e.Fits)
    (hsize : e.payload.length < 2 ^ 63) :
    ∃ err, replayFrom crc32 (p.bytes crc32 ++ encode crc32 e) [] 0 = .error err := by
  obtain ⟨err, hdecode, hfatal⟩ := decode_encode_of_not_fits crc32 hfits hsize
  have hsplits : (codec crc32).Splits (p.bytes crc32 ++ encode crc32 e) p.records
      (encode crc32 e) err := by
    rw [Part.bytes, h.whole, List.append_nil]
    exact splits_of_decode (h.opened.holds.readable p (by simp)).fits hdecode
  refine ⟨"wal: replay decode: " ++ err.message, ?_⟩
  rw [replayFrom_of_splits hsplits, hfatal]
  rfl

theorem readAll_ne_ok (h : Appended crc32 recs e log dir dir₀ before p) (hfits : ¬ e.Fits)
    (hsize : e.payload.length < 2 ^ 63) (es : List Entry) : log.readAll crc32 dir ≠ .ok es := by
  intro hread
  have hactive : log.active ∈ log.segments := by simp [WAL.segments]
  obtain ⟨r, hr⟩ := replayFile_of_readFrom hread log.active hactive
  obtain ⟨err, herr⟩ := h.replay_error hfits hsize
  rw [replayFile, h.files, get_put_self] at hr
  simp only [herr] at hr
  cases hr

theorem openLog_ne_ok (h : Appended crc32 recs e log dir dir₀ before p) (hfits : ¬ e.Fits)
    (hsize : e.payload.length < 2 ^ 63) (maxSegSz : ℤ) (x : Dir × WAL) :
    openLog crc32 maxSegSz dir ≠ .ok x := by
  have hbefore : ∀ q ∈ before, q.Readable crc32 :=
    fun q hq => h.opened.holds.readable q (List.mem_append_left _ hq)
  have hpairs : dir.pairs = before.map (fun q => (q.path, q.bytes crc32)) ++
      [(segmentPath p.id, p.bytes crc32 ++ encode crc32 e)] := by
    have hold := h.opened.holds.pairs
    rw [List.map_append, List.map_singleton] at hold
    rw [h.files, h.opened.path]
    exact SortedList.pairs_put_of_eq hold _
  obtain ⟨err, herr⟩ := h.replay_error hfits hsize
  obtain ⟨err', herr'⟩ := openLog_eq_error hbefore hpairs herr maxSegSz
  intro hok
  rw [herr'] at hok
  cases hok

end Appended

/-- A call of `Append` that succeeds, on a log that has met the conditions of `Sound` so far. -/
theorem Durable.appended {answers : List Answer} (h : Durable crc32 w)
    (hnum : Numbered w (.append e answers)) (hwhole : WritesBehindWhole crc32 w (.append e answers))
    (hs : Wal.step crc32 w (.append e answers) = some w') :
    ∃ log dir dir₀ before p history, w' = ⟨dir, some log, history⟩ ∧
      Appended crc32 w.entries e log dir dir₀ before p := by
  cases stepped hs with
  | @append _ _ log log' d rest hwal hplay hend =>
      obtain ⟨before, p, hopened, hrecs⟩ := h.opened log hwal
      have happend := ensures_append_written (e := e) hopened hrecs (hnum log hwal)
        fun hfile hroom => hopened.torn_eq_nil (hwhole log hwal hfile hroom)
      obtain ⟨dir₀, before', p', happended⟩ := happend.ended hplay hend rfl
      exact ⟨log', d.dir, dir₀, before', p', _, rfl, happended⟩

/-- What `Append` accepts can be read back exactly when its payload is not too large. A slice has
fewer than `2 ^ 63` bytes. -/
theorem readsBack_iff_fits {answers : List Answer}
    (h : Path (step crc32) (Sound crc32) .init w) (hnum : Numbered w (.append e answers))
    (hwhole : WritesBehindWhole crc32 w (.append e answers)) (hsize : e.payload.length < 2 ^ 63)
    (hs : step crc32 w (.append e answers) = some w') : ReadsBack crc32 w' e ↔ e.Fits := by
  obtain ⟨log, dir, dir₀, before, p, history, rfl, happended⟩ :=
    (durable_of_path h).appended hnum hwhole hs
  constructor
  · rintro ⟨⟨log', es, hlog, hread, -⟩, -⟩
    obtain rfl := Option.some.inj hlog
    by_contra hfits
    exact happended.readAll_ne_ok hfits hsize es hread
  · exact happended.readsBack

/-- An entry that is too large is accepted like any other, and nothing can be read any more. -/
theorem exists_not_readsBack (crc32 : List UInt8 → UInt32) {data : List UInt8}
    (hlen : data.length = maxPayloadSize) :
    ∃ w w' answers, Path (step crc32) (Sound crc32) .init w ∧
      step crc32 w (.append ⟨1, data⟩ answers) = some w' ∧ ¬ ReadsBack crc32 w' ⟨1, data⟩ ∧
      (∀ log es, w'.wal = some log → log.readAll crc32 w'.dir ≠ .ok es) ∧
      ∀ maxSegSz x, openLog crc32 maxSegSz w'.dir ≠ .ok x := by
  have hfits : ¬ (⟨1, data⟩ : Entry).Fits := by
    have hpos : 0 < idxFieldSize := by decide
    rw [Entry.Fits, hlen]
    omega
  have hsize : (⟨1, data⟩ : Entry).payload.length < 2 ^ 63 := by
    have hmax : idxFieldSize + maxPayloadSize < 2 ^ 63 := by decide
    rw [Entry.length_payload, hlen]
    exact hmax
  -- With no room in a segment the record goes to a second one.
  have hpath : Path (step crc32) (Sound crc32) .init
      ⟨put Store.empty (segmentPath 1) [], some ⟨[], .created 1, 0, 0⟩, []⟩ :=
    .single (e := .open 0) ⟨trivial, trivial, trivial⟩ rfl
  have hexceeds : WAL.Exceeds crc32 ⟨[], .created 1, 0, 0⟩ ⟨1, data⟩ := exceeds_of_zero rfl _
  have hnew : get (put Store.empty (segmentPath 1) [] : Dir) (segmentPath (1 + 1)) = none := by
    decide +kernel
  obtain ⟨log, hs, -⟩ := step_append_of_exceeds (w := ⟨_, _, []⟩) rfl hexceeds rfl hnew
  have hnum : ∀ answers, Numbered
      ⟨put Store.empty (segmentPath 1) [], some ⟨[], .created 1, 0, 0⟩, []⟩
      (.append ⟨1, data⟩ answers) := by
    rintro answers log ⟨rfl⟩
    decide
  have hwhole : ∀ answers, WritesBehindWhole crc32
      ⟨put Store.empty (segmentPath 1) [], some ⟨[], .created 1, 0, 0⟩, []⟩
      (.append ⟨1, data⟩ answers) := by
    rintro answers log ⟨rfl⟩ _ hroom
    exact absurd hexceeds hroom
  obtain ⟨log, dir, dir₀, before, p, history, hw, happended⟩ :=
    (durable_of_path hpath).appended (hnum _) (hwhole _) hs
  refine ⟨_, _, _, hpath, hs, ?_⟩
  rw [hw]
  have hread := happended.readAll_ne_ok hfits hsize
  refine ⟨?_, ?_, happended.openLog_ne_ok hfits hsize⟩
  · rintro ⟨⟨log', es, hlog, hok, -⟩, -⟩
    obtain rfl := Option.some.inj hlog
    exact hread es hok
  · intro log' es hlog
    obtain rfl := Option.some.inj hlog
    exact hread es

end Checksum

/-- The second record goes to a segment of its own. -/
theorem readsBack_second :
    let w := final (guarded (step checksumIEEE) (Sound checksumIEEE)) .init
      [.open 25, .append ⟨1, [7]⟩ [⟨21, none⟩, {}]]
    ∃ w', step checksumIEEE w (.append ⟨2, [8]⟩ [{}, {}, {}, ⟨21, none⟩, {}]) = some w' ∧
      ReadsBack checksumIEEE w' ⟨2, [8]⟩ := by
  intro w
  have henabled : Enabled (guarded (step checksumIEEE) (Sound checksumIEEE)) .init
      [.open 25, .append ⟨1, [7]⟩ [⟨21, none⟩, {}]] := by decide +kernel
  have hsome : (step checksumIEEE w (.append ⟨2, [8]⟩ [{}, {}, {}, ⟨21, none⟩, {}])).isSome := by
    decide +kernel
  obtain ⟨w', hs⟩ := Option.isSome_iff_exists.mp hsome
  refine ⟨w', hs, (readsBack_iff_fits (.final henabled) ?_ ?_ ?_ hs).mpr ?_⟩
  · decide +kernel
  · decide +kernel
  · decide
  · decide

/-- An entry with 128 MiB of data is accepted, and then neither `ReadAll` nor `Open` succeeds. -/
theorem not_readsBack_too_large :
    ∃ w w' answers, Path (step checksumIEEE) (Sound checksumIEEE) .init w ∧
      step checksumIEEE w (.append ⟨1, List.replicate maxPayloadSize 0⟩ answers) = some w' ∧
      ¬ ReadsBack checksumIEEE w' ⟨1, List.replicate maxPayloadSize 0⟩ ∧
      (∀ log es, w'.wal = some log → log.readAll checksumIEEE w'.dir ≠ .ok es) ∧
      ∀ maxSegSz x, openLog checksumIEEE maxSegSz w'.dir ≠ .ok x :=
  exists_not_readsBack checksumIEEE List.length_replicate

end VaultFS.Wal
