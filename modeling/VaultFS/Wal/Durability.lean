import VaultFS.Wal.Runs

/-!
# What was acknowledged is read back

The records in the directory are those of the calls of `Append` whose bytes were all written, in the
order of the calls (`Durable`). This is kept as long as no record is written behind a damaged one,
payloads are not too large, and the number of a segment has at most 16 digits.
-/

namespace VaultFS.Wal

open Framing Interaction KeyValue Transition

section Checksum

variable {crc32 : List UInt8 → UInt32} {w w' : World} {ev : Event}

/-- What a step can do. -/
inductive Stepped (crc32 : List UInt8 → UInt32) (w : World) : Event → World → Prop where
  | opens {maxSegSz : ℤ} {dir : Dir} {log : WAL} (hwal : w.wal = none)
      (hopen : openLog crc32 maxSegSz w.dir = .ok (dir, log)) :
      Stepped crc32 w (.open maxSegSz) { w with dir, wal := some log }
  | append {e : Entry} {answers : List Answer} {log log' : WAL} {d : Disk}
      {rest : Act (WAL × Option String)} (hwal : w.wal = some log)
      (hplay : w.play crc32 log e answers = some (d, rest))
      (hend : rest.result? = some (log', none)) :
      Stepped crc32 w (.append e answers) ⟨d.dir, some log', w.history ++ [⟨e, d.written, true⟩]⟩
  | fail {e : Entry} {answers : List Answer} {log log' : WAL} {d : Disk} {err : String}
      {rest : Act (WAL × Option String)} (hwal : w.wal = some log)
      (hplay : w.play crc32 log e answers = some (d, rest))
      (hend : rest.result? = some (log', some err)) :
      Stepped crc32 w (.fail e answers) ⟨d.dir, some log', w.history ++ [⟨e, d.written, false⟩]⟩
  | crash {e : Entry} {answers : List Answer} {log : WAL} {d : Disk}
      {rest : Act (WAL × Option String)} (hwal : w.wal = some log)
      (hplay : w.play crc32 log e answers = some (d, rest)) :
      Stepped crc32 w (.crash e answers) ⟨d.dir, none, w.history ++ [⟨e, d.written, false⟩]⟩
  | close {answers : List Answer} {log : WAL} (hwal : w.wal = some log) :
      Stepped crc32 w (.close answers) { w with wal := none }

theorem stepped (h : step crc32 w ev = some w') : Stepped crc32 w ev w' := by
  unfold step at h
  split at h
  · rename_i maxSegSz hwal
    split at h
    · rename_i dir log hopen
      obtain rfl := Option.some.inj h
      exact .opens hwal hopen
    · cases h
  · rename_i log e answers hwal
    obtain ⟨⟨d, rest⟩, hplay, hrest⟩ := Option.bind_eq_some_iff.mp h
    obtain ⟨⟨log', err⟩, hend, herr⟩ := Option.bind_eq_some_iff.mp hrest
    dsimp only at herr
    split at herr
    · rename_i hnone
      obtain rfl := Option.some.inj herr
      exact .append hwal hplay (hnone ▸ hend)
    · cases herr
  · rename_i log e answers hwal
    obtain ⟨⟨d, rest⟩, hplay, hrest⟩ := Option.bind_eq_some_iff.mp h
    obtain ⟨⟨log', err⟩, hend, herr⟩ := Option.bind_eq_some_iff.mp hrest
    dsimp only at herr
    split at herr
    · cases herr
    · rename_i hsome
      obtain rfl := Option.some.inj herr
      obtain ⟨err, rfl⟩ := Option.ne_none_iff_exists'.mp hsome
      exact .fail hwal hplay hend
  · rename_i log e answers hwal
    obtain ⟨⟨d, rest⟩, hplay, hrest⟩ := Option.map_eq_some_iff.mp h
    obtain rfl := hrest
    exact .crash hwal hplay
  · rename_i log answers hwal
    obtain ⟨⟨d, rest⟩, hplay, hrest⟩ := Option.bind_eq_some_iff.mp h
    obtain ⟨x, -, rfl⟩ := Option.map_eq_some_iff.mp hrest
    have hdisk : d = ⟨w.dir, 0⟩ := by
      have hclose : Prog.Ensures serve (fun t => t = ⟨w.dir, 0⟩)
          (fun (_ : WAL × Option String) _ => True) ⟨w.dir, 0⟩ log.close := by
        refine .bind (ensures_close (C := fun t => t = ⟨w.dir, 0⟩) rfl log.active) ?_
        rintro ⟨active, err⟩ t ht -
        exact .ret ht trivial
      exact hclose.cut hplay
    rw [hdisk]
    exact .close hwal
  · cases h

/-- The file holds whole records only. -/
def Whole (crc32 : List UInt8 → UInt32) (dir : Dir) (path : List Char) : Prop :=
  ∃ es : List Entry, (∀ e ∈ es, e.Fits) ∧ get dir path = some ((codec crc32).encodeAll es)

theorem Opened.torn_eq_nil {dir : Dir} {log : WAL} {before : List Part} {p : Part}
    (h : Opened crc32 dir log before p) (hwhole : Whole crc32 dir log.active.path) :
    p.torn = [] := by
  obtain ⟨es, hfits, hget⟩ := hwhole
  obtain ⟨err, hsplits, -⟩ := h.holds.readable p (by simp)
  have hbytes : p.bytes crc32 = (codec crc32).encodeAll es :=
    Option.some.inj (h.get_active.symm.trans hget)
  have hsplits' : (codec crc32).Splits (p.bytes crc32) es [] .eof := by
    refine ⟨by simp [hbytes], hfits, rfl⟩
  exact (hsplits.unique hsplits').2.1

theorem Opened.whole {dir : Dir} {log : WAL} {before : List Part} {p : Part}
    (h : Opened crc32 dir log before p) (htorn : p.torn = []) :
    Whole crc32 dir log.active.path := by
  refine ⟨p.records, (h.holds.readable p (by simp)).fits, ?_⟩
  rw [h.get_active, Part.bytes, htorn, List.append_nil]

theorem whole_iff {dir : Dir} {path : List Char} : Whole crc32 dir path ↔
    ∃ content ∈ get dir path,
      (replayFrom crc32 content [] 0).toOption.map (·.2) = some content.length := by
  constructor
  · rintro ⟨es, hfits, hget⟩
    have hsplits : (codec crc32).Splits ((codec crc32).encodeAll es) es [] .eof :=
      ⟨by simp, hfits, rfl⟩
    refine ⟨_, hget, ?_⟩
    simp [replayFrom_of_splits hsplits, DecodeError.endsLog, Except.toOption]
  · rintro ⟨content, hget, hreplay⟩
    obtain ⟨es, tail, err, hsplits⟩ := (codec crc32).exists_splits content
    rw [replayFrom_of_splits hsplits] at hreplay
    split at hreplay
    · have hlen : ((codec crc32).encodeAll es).length = content.length := by
        simpa [Except.toOption] using hreplay
      have htail : tail = [] := by
        have := congrArg List.length hsplits.eq
        rw [List.length_append, hlen] at this
        exact List.eq_nil_of_length_eq_zero (by omega)
      refine ⟨es, hsplits.fits, ?_⟩
      have hcontent := hsplits.eq
      rw [htail, List.append_nil] at hcontent
      exact hcontent ▸ hget
    · simp [Except.toOption] at hreplay

instance (dir : Dir) (path : List Char) : Decidable (Whole crc32 dir path) :=
  decidable_of_iff _ whole_iff.symm

/-- The directory and the open log hold the entries whose records were written as a whole, and
these include the acknowledged ones. -/
structure Durable (crc32 : List UInt8 → UInt32) (w : World) : Prop where
  acked : ∀ a ∈ w.history, a.acked = true → a.written = encodedSize a.entry.data.length
  closed : w.wal = none → ∃ parts, Holds crc32 w.dir parts ∧
    parts.flatMap (·.records) = w.entries
  opened : ∀ log, w.wal = some log → ∃ before p, Opened crc32 w.dir log before p ∧
    (before ++ [p]).flatMap (·.records) = w.entries

/-- The payload of the entry is not too large. -/
def Event.Fits : Event → Prop
  | .append e _ => e.Fits
  | .fail e _ => e.Fits
  | .crash e _ => e.Fits
  | _ => True

instance : (ev : Event) → Decidable ev.Fits
  | .append e _ => inferInstanceAs (Decidable e.Fits)
  | .fail e _ => inferInstanceAs (Decidable e.Fits)
  | .crash e _ => inferInstanceAs (Decidable e.Fits)
  | .open _ => .isTrue trivial
  | .close _ => .isTrue trivial

/-- A rotation would make a segment whose number has at most 16 digits. -/
def Numbered (w : World) : Event → Prop
  | .open _ => True
  | .close _ => True
  | _ => ∀ log ∈ w.wal, log.active.id.toNat + 1 < 10 ^ 16

instance (w : World) : (ev : Event) → Decidable (Numbered w ev)
  | .append _ _ | .fail _ _ | .crash _ _ => inferInstanceAs (Decidable (∀ log ∈ w.wal, _))
  | .open _ | .close _ => .isTrue trivial

/-- The record is not written behind a part of another one. -/
def WritesBehindWhole (crc32 : List UInt8 → UInt32) (w : World) : Event → Prop
  | .append e _ | .fail e _ | .crash e _ =>
      ∀ log ∈ w.wal, log.active.file = true → ¬ log.Exceeds crc32 e →
        Whole crc32 w.dir log.active.path
  | _ => True

instance (w : World) : (ev : Event) → Decidable (WritesBehindWhole crc32 w ev)
  | .append _ _ | .fail _ _ | .crash _ _ => inferInstanceAs (Decidable (∀ log ∈ w.wal, _))
  | .open _ | .close _ => .isTrue trivial

theorem entries_concat (dir : Dir) (wal : Option WAL) (history : List Attempt) (a : Attempt) :
    World.entries ⟨dir, wal, history ++ [a]⟩ =
      World.entries ⟨dir, wal, history⟩ ++ landed a.entry a.written := by
  simp [World.entries]

theorem Durable.init : Durable crc32 .init := by
  refine ⟨by simp [World.init], fun _ => ⟨[], .nil ⟨rfl, by simp⟩, rfl⟩, ?_⟩
  intro log hwal
  cases hwal

/-- The files hold what they should, whether the log is open or not. -/
theorem Durable.holds (h : Durable crc32 w) :
    ∃ parts, Holds crc32 w.dir parts ∧ parts.flatMap (·.records) = w.entries := by
  cases hwal : w.wal with
  | none => exact h.closed hwal
  | some log =>
      obtain ⟨before, p, hopened, hrecs⟩ := h.opened log hwal
      exact ⟨_, hopened.holds, hrecs⟩

/-- A call of `Append`, cut at any point and at its end. -/
theorem Durable.play {log : WAL} {e : Entry} {answers : List Answer} {d : Disk}
    {rest : Act (WAL × Option String)} (h : Durable crc32 w) (hwal : w.wal = some log)
    (hfits : e.Fits) (hnum : log.active.id.toNat + 1 < 10 ^ 16)
    (hwhole : log.active.file = true → ¬ log.Exceeds crc32 e → Whole crc32 w.dir log.active.path)
    (hplay : w.play crc32 log e answers = some (d, rest)) :
    Survives crc32 w.entries e d ∧ ∀ log' err, rest.result? = some (log', err) →
      Outcome crc32 w.entries e log' err d ∧
        (err = none → log'.lastIdx = advance log.lastIdx e) := by
  obtain ⟨before, p, hopened, hrecs⟩ := h.opened log hwal
  have happend := ensures_append hopened hrecs hfits hnum fun hfile hroom =>
    hopened.torn_eq_nil (hwhole hfile hroom)
  exact ⟨happend.cut hplay, fun log' err hend => happend.ended hplay hend⟩

theorem Durable.concat {dir : Dir} {wal : Option WAL} {a : Attempt} (h : Durable crc32 w)
    (hacked : a.acked = true → a.written = encodedSize a.entry.data.length)
    (hclosed : wal = none → Survives crc32 w.entries a.entry ⟨dir, a.written⟩)
    (hopened : ∀ log, wal = some log → ∃ err, Outcome crc32 w.entries a.entry log err
      ⟨dir, a.written⟩) :
    Durable crc32 ⟨dir, wal, w.history ++ [a]⟩ := by
  have hentries : World.entries ⟨dir, wal, w.history ++ [a]⟩ =
      w.entries ++ landed a.entry a.written := entries_concat dir wal w.history a
  refine ⟨?_, ?_, ?_⟩
  · intro x hx
    rcases List.mem_append.mp hx with hold | hnew
    · exact h.acked x hold
    · exact List.mem_singleton.mp hnew ▸ hacked
  · intro hnone
    rw [hentries]
    exact hclosed hnone
  · intro log hlog
    obtain ⟨err, before, p, hout, hrecs, -⟩ := hopened log hlog
    exact ⟨before, p, hout, hrecs.trans hentries.symm⟩

theorem Durable.step (h : Durable crc32 w) (hfits : ev.Fits) (hnum : Numbered w ev)
    (hwhole : WritesBehindWhole crc32 w ev) (hs : Wal.step crc32 w ev = some w') :
    Durable crc32 w' := by
  cases stepped hs with
  | @opens maxSegSz dir log hwal hopen =>
      obtain ⟨parts, hholds, hrecs⟩ := h.closed hwal
      obtain ⟨dir', log', before, p, hok, hopened, hsame, -⟩ := openLog_of_holds hholds maxSegSz
      obtain ⟨rfl, rfl⟩ := Prod.mk.inj (Except.ok.inj (hopen.symm.trans hok))
      refine ⟨h.acked, by simp, ?_⟩
      intro l hl
      obtain rfl := Option.some.inj hl
      exact ⟨before, p, hopened, hsame.trans hrecs⟩
  | @append e answers log log' d rest hwal hplay hend =>
      obtain ⟨-, hret⟩ := h.play hwal hfits (hnum log hwal) (hwhole log hwal) hplay
      obtain ⟨hout, -⟩ := hret log' none hend
      refine h.concat (fun _ => ?_) (by simp) ?_
      · obtain ⟨before, p, -, -, hok⟩ := hout
        exact (hok rfl).1
      · intro l hl
        obtain rfl := Option.some.inj hl
        exact ⟨none, hout⟩
  | @fail e answers log log' d err rest hwal hplay hend =>
      obtain ⟨-, hret⟩ := h.play hwal hfits (hnum log hwal) (hwhole log hwal) hplay
      refine h.concat (by simp) (by simp) ?_
      intro l hl
      obtain rfl := Option.some.inj hl
      exact ⟨some err, (hret log' (some err) hend).1⟩
  | @crash e answers log d rest hwal hplay =>
      obtain ⟨hcut, -⟩ := h.play hwal hfits (hnum log hwal) (hwhole log hwal) hplay
      exact h.concat (by simp) (fun _ => hcut) (by simp)
  | @close answers log hwal =>
      refine ⟨h.acked, fun _ => h.holds, ?_⟩
      intro l hl
      cases hl

/-- The conditions under which the log is durable. -/
def Sound (crc32 : List UInt8 → UInt32) (w : World) (ev : Event) : Prop :=
  ev.Fits ∧ Numbered w ev ∧ WritesBehindWhole crc32 w ev

instance (w : World) (ev : Event) : Decidable (Sound crc32 w ev) :=
  inferInstanceAs (Decidable (_ ∧ _))

theorem durable_of_path (h : Path (step crc32) (Sound crc32) .init w) : Durable crc32 w :=
  h.invariant .init fun _ _ _ hD hok hs => hD.step hok.1 hok.2.1 hok.2.2 hs

/-- The entries whose `Append` returned `nil`. -/
def World.acknowledged (w : World) : List Entry := (w.history.filter (·.acked)).map (·.entry)

/-- `ReadAll` returns every acknowledged entry, in this process and after the next `Open`. -/
def ReturnsAcknowledged (crc32 : List UInt8 → UInt32) (w : World) : Prop :=
  (∀ log, w.wal = some log → ∃ es, log.readAll crc32 w.dir = .ok es ∧ w.acknowledged.Sublist es) ∧
  ∀ maxSegSz, ∃ dir log es, openLog crc32 maxSegSz w.dir = .ok (dir, log) ∧
    log.readAll crc32 dir = .ok es ∧ w.acknowledged.Sublist es

theorem acknowledged_sublist {history : List Attempt}
    (h : ∀ a ∈ history, a.acked = true → a.written = encodedSize a.entry.data.length) :
    ((history.filter (·.acked)).map (·.entry)).Sublist
      (history.flatMap fun a => landed a.entry a.written) := by
  induction history with
  | nil => exact .slnil
  | cons a history ih =>
      have hrest := ih fun b hb => h b (List.mem_cons_of_mem a hb)
      rw [List.flatMap_cons]
      by_cases hacked : a.acked = true
      · rw [List.filter_cons_of_pos hacked, List.map_cons, landed,
          if_pos (h a List.mem_cons_self hacked)]
        exact hrest.cons_cons a.entry
      · rw [List.filter_cons_of_neg hacked]
        exact hrest.trans (List.sublist_append_right _ _)

theorem acknowledged_returned (h : Path (step crc32) (Sound crc32) .init w) :
    ReturnsAcknowledged crc32 w := by
  have hD := durable_of_path h
  have hsub : w.acknowledged.Sublist w.entries := acknowledged_sublist hD.acked
  refine ⟨?_, ?_⟩
  · intro log hwal
    obtain ⟨before, p, hopened, hrecs⟩ := hD.opened log hwal
    exact ⟨w.entries, hrecs ▸ hopened.readAll, hsub⟩
  · intro maxSegSz
    obtain ⟨parts, hholds, hrecs⟩ := hD.holds
    obtain ⟨dir, log, before, p, hok, hopened, hsame, -⟩ := openLog_of_holds hholds maxSegSz
    exact ⟨dir, log, w.entries, hok, (hsame.trans hrecs) ▸ hopened.readAll, hsub⟩

end Checksum

/-- A write fails after five bytes, and the next record goes to a new segment. -/
theorem acknowledged_returned_after_rotation :
    let events : List Event := [.open 45, .append ⟨1, [7]⟩ [⟨21, none⟩, {}],
      .fail ⟨2, [8]⟩ [⟨5, some "no space left on device"⟩],
      .append ⟨3, [9]⟩ [{}, {}, {}, ⟨21, none⟩, {}]]
    let w := final (guarded (step checksumIEEE) (Sound checksumIEEE)) .init events
    w.acknowledged = [⟨1, [7]⟩, ⟨3, [9]⟩] ∧ ReturnsAcknowledged checksumIEEE w :=
  ⟨by decide +kernel, acknowledged_returned (.final (by decide +kernel))⟩

/-- Behind the five bytes of the failed write the next record is not found: the length field that
is read there is too large, whatever the checksum. -/
theorem acknowledged_not_returned :
    ∃ w, exec (step checksumIEEE) .init [.open 1000,
        .fail ⟨1, [7]⟩ [⟨5, some "no space left on device"⟩],
        .append ⟨2, [8]⟩ [⟨21, none⟩, {}]] = some w ∧
      w.acknowledged = [⟨2, [8]⟩] ∧ ¬ ReturnsAcknowledged checksumIEEE w := by
  generalize checksumIEEE = crc32
  obtain ⟨dir, log, hexec, hpaths, hget⟩ : ∃ dir log, exec (step crc32) .init [.open 1000,
      .fail ⟨1, [7]⟩ [⟨5, some "no space left on device"⟩], .append ⟨2, [8]⟩ [⟨21, none⟩, {}]] =
        some ⟨dir, some log, [⟨⟨1, [7]⟩, 5, false⟩, ⟨⟨2, [8]⟩, 21, true⟩]⟩ ∧
      log.segments.map (·.path) = [segmentPath 1] ∧
      get dir (segmentPath 1) =
        some ((encode crc32 ⟨1, [7]⟩).take 5 ++ encode crc32 ⟨2, [8]⟩) :=
    ⟨_, _, rfl, rfl, rfl⟩
  refine ⟨_, hexec, rfl, ?_⟩
  rintro ⟨hread, -⟩
  obtain ⟨es, hes, -⟩ := hread log rfl
  -- The length field is five bytes of the first record's and three of the second one's.
  have hlen : ([9, 0, 0, 0, 0, 9, 0, 0] : List UInt8).length = lenFieldSize := rfl
  have hcrc : ([0, 0, 0, 0] : List UInt8).length = crcFieldSize := rfl
  have hdecode : decode crc32 ((encode crc32 ⟨1, [7]⟩).take 5 ++ encode crc32 ⟨2, [8]⟩) =
      .error (.tooLarge (9 + 9 * 2 ^ 40)) := decode_frame hlen hcrc _
  obtain ⟨seg, hsegs, hpath⟩ := List.map_eq_singleton_iff.mp hpaths
  rw [WAL.readAll, hsegs, readFrom, hpath, replayFile, hget] at hes
  simp only [replayFrom_of_decode hdecode rfl] at hes
  cases hes

end VaultFS.Wal
