import VaultFS.Wal.Recovery

/-!
# Damaged files

Replay stops at the first record that cannot be read, but in one file only: the records of later
segments are still returned (`damaged_prefix_iff`). A tail is dropped, whatever it is, unless it
reads as a header with a length that no record has (`openLog_damaged_tail_iff`).
-/

namespace VaultFS.Wal

open Framing LittleEndian Interaction KeyValue Transition

section Checksum

variable {crc32 : List UInt8 → UInt32}

theorem Stores.unique {dir : Dir} {parts parts' : List Part} (h : Stores crc32 dir parts)
    (h' : Stores crc32 dir parts') : parts = parts' := by
  have hpairs := h.pairs.symm.trans h'.pairs
  have hread := h.readable
  have hread' := h'.readable
  clear h h'
  induction parts generalizing parts' with
  | nil => exact (List.map_eq_nil_iff.mp hpairs.symm).symm
  | cons p parts ih =>
      cases parts' with
      | nil => cases hpairs
      | cons q parts' =>
          obtain ⟨hhead, htail⟩ := List.cons_eq_cons.mp hpairs
          obtain ⟨hpath, hbytes⟩ := Prod.mk.inj hhead
          obtain ⟨err, hsplits, -⟩ := hread p List.mem_cons_self
          obtain ⟨err', hsplits', -⟩ := hread' q List.mem_cons_self
          rw [← hbytes] at hsplits'
          obtain ⟨hrecords, htorn, -⟩ := hsplits.unique hsplits'
          have hpq : p = q := by
            cases p
            cases q
            simp only [Part.mk.injEq]
            exact ⟨segmentPath_injective hpath, hrecords, htorn⟩
          rw [hpq, ih htail (fun x hx => hread x (List.mem_cons_of_mem p hx))
            fun x hx => hread' x (List.mem_cons_of_mem q hx)]

/-- After the damage of one record the log opens. `ReadAll` ends before that record exactly when no
later segment holds a record. -/
theorem damaged_prefix_iff {w : World} {before after : List Part} {p : Part} {pre post : List Entry}
    {e : Entry} {bad : List UInt8}
    (h : Path (step crc32) (fun w ev => ev.Successful ∧ Numbered w ev) .init w)
    (hholds : Holds crc32 w.dir (before ++ p :: after)) (hrecords : p.records = pre ++ e :: post)
    (hbad : decode crc32 (bad ++ ((codec crc32).encodeAll post ++ p.torn)) =
      .error .checksumMismatch) (maxSegSz : ℤ) :
    let n := (before.flatMap (·.records)).length + pre.length
    let damaged := (codec crc32).encodeAll pre ++ (bad ++ ((codec crc32).encodeAll post ++ p.torn))
    w.entries[n]? = some e ∧
    ∃ dir log es, openLog crc32 maxSegSz (put w.dir p.path damaged) = .ok (dir, log) ∧
      log.readAll crc32 dir = .ok es ∧
      ((∃ m ≤ n, es = w.entries.take m) ↔ after.flatMap (·.records) = []) ∧
      (after.flatMap (·.records) = [] → es = w.entries.take n) := by
  intro n damaged
  obtain ⟨parts, hparts, hentries⟩ := (tidy_of_path h).1.holds
  obtain rfl := hparts.toStores.unique hholds.toStores
  have hsplit : w.entries = (before.flatMap (·.records) ++ pre) ++
      e :: (post ++ after.flatMap (·.records)) := by
    rw [← hentries]
    simp [hrecords]
  have hn : n = (before.flatMap (·.records) ++ pre).length := by simp [n]
  have htake : w.entries.take n = before.flatMap (·.records) ++ pre := by
    rw [hsplit, hn, List.take_left]
  have hfits : ∀ x ∈ pre, x.Fits := fun x hx =>
    (hholds.readable p (by simp)).fits x (by simp [hrecords, hx])
  -- The damaged file still reads as a part, which ends before the damaged record.
  have hpart : (⟨p.id, pre, bad ++ ((codec crc32).encodeAll post ++ p.torn)⟩ : Part).Readable
      crc32 :=
    Part.readable_of_decode hfits hbad rfl
  have hstores : Stores crc32 (put w.dir p.path damaged) (before ++ _ :: after) :=
    hholds.toStores.update (q := ⟨p.id, pre, _⟩) rfl hpart
  obtain ⟨dir, log, hopen, hread⟩ := hstores.readAll_openLog (by simp) maxSegSz
  have hes : (before ++ (⟨p.id, pre, bad ++ ((codec crc32).encodeAll post ++ p.torn)⟩ : Part) ::
      after).flatMap (·.records) = w.entries.take n ++ after.flatMap (·.records) := by
    simp [htake]
  rw [hes] at hread
  refine ⟨?_, dir, log, _, hopen, hread, ⟨?_, ?_⟩, ?_⟩
  · rw [hsplit, hn, List.getElem?_append_right le_rfl, Nat.sub_self]
    rfl
  · rintro ⟨m, hm, heq⟩
    have hlen := congrArg List.length heq
    have hle : n ≤ w.entries.length := by
      rw [hsplit, hn]
      simp only [List.length_append]
      omega
    rw [List.length_append, List.length_take_of_le hle, List.length_take] at hlen
    exact List.eq_nil_of_length_eq_zero (by omega)
  · intro hnil
    exact ⟨n, le_rfl, by rw [hnil, List.append_nil]⟩
  · intro hnil
    rw [hnil, List.append_nil]

end Checksum

/-- The second of two records is damaged, and the process had died right after a rotation. -/
theorem damaged_prefix_before_empty_segment :
    let events : List Event := [.open 45, .append ⟨4, [7]⟩ [⟨21, none⟩, {}],
      .append ⟨5, [8]⟩ [⟨21, none⟩, {}], .crash ⟨6, [9]⟩ [{}, {}, {}]]
    let w :=
      final (guarded (step checksumIEEE) fun w ev => ev.Successful ∧ Numbered w ev) .init events
    let bad := (encode checksumIEEE ⟨5, [8]⟩).dropLast ++ [9]
    w.entries = [⟨4, [7]⟩, ⟨5, [8]⟩] ∧
    ∃ dir log, openLog checksumIEEE 45
        (put w.dir (segmentPath 1) (encode checksumIEEE ⟨4, [7]⟩ ++ bad)) = .ok (dir, log) ∧
      log.readAll checksumIEEE dir = .ok [⟨4, [7]⟩] := by
  intro events w bad
  have hentries : w.entries = [⟨4, [7]⟩, ⟨5, [8]⟩] := by decide +kernel
  have hholds : Holds checksumIEEE w.dir
      ([] ++ ⟨1, [⟨4, [7]⟩, ⟨5, [8]⟩], []⟩ :: [⟨2, [], []⟩]) := by
    refine ⟨⟨by decide +kernel, ?_⟩, by decide, by decide⟩
    intro p hp
    rcases List.mem_pair.mp hp with rfl | rfl
    · exact Part.readable_of_fits (by decide) rfl
    · exact Part.readable_of_fits (by decide) rfl
  have hbad : decode checksumIEEE (bad ++ ((codec checksumIEEE).encodeAll [] ++ [])) =
      .error .checksumMismatch := by decide +kernel
  have hrecords : ([⟨4, [7]⟩, ⟨5, [8]⟩] : List Entry) = [⟨4, [7]⟩] ++ ⟨5, [8]⟩ :: [] := rfl
  obtain ⟨-, dir, log, es, hopen, hread, -, hes⟩ :=
    damaged_prefix_iff (.final (by decide +kernel)) hholds hrecords hbad 45
  rw [hes rfl, hentries] at hread
  exact ⟨hentries, dir, log, hopen, hread⟩

/-- The first record is damaged in its checksum, and the second one in the next segment is returned
alone, whatever the checksum. -/
theorem exists_damaged_record (crc32 : List UInt8 → UInt32) :
    ∃ w bad dir log, exec (step crc32) .init [.open 25, .append ⟨1, [7]⟩ [⟨21, none⟩, {}],
        .append ⟨2, [8]⟩ [{}, {}, {}, ⟨21, none⟩, {}], .close [{}, {}]] = some w ∧
      w.entries = [⟨1, [7]⟩, ⟨2, [8]⟩] ∧
      get w.dir (segmentPath 1) = some (encode crc32 ⟨1, [7]⟩) ∧
      bad.length = (encode crc32 ⟨1, [7]⟩).length ∧ decode crc32 bad = .error .checksumMismatch ∧
      openLog crc32 25 (put w.dir (segmentPath 1) bad) = .ok (dir, log) ∧
      log.readAll crc32 dir = .ok [⟨2, [8]⟩] ∧ ¬ [⟨2, [8]⟩] <+: w.entries := by
  obtain ⟨dir, hexec, hpairs⟩ : ∃ dir : Dir, exec (step crc32) .init [.open 25,
      .append ⟨1, [7]⟩ [⟨21, none⟩, {}], .append ⟨2, [8]⟩ [{}, {}, {}, ⟨21, none⟩, {}],
      .close [{}, {}]] = some ⟨dir, none, [⟨⟨1, [7]⟩, 21, true⟩, ⟨⟨2, [8]⟩, 21, true⟩]⟩ ∧
      dir.pairs =
        [(segmentPath 1, encode crc32 ⟨1, [7]⟩), (segmentPath 2, encode crc32 ⟨2, [8]⟩)] :=
    ⟨_, rfl, rfl⟩
  have hstores : Stores crc32 dir ([] ++ ⟨1, [⟨1, [7]⟩], []⟩ :: [⟨2, [⟨2, [8]⟩], []⟩]) := by
    refine ⟨by simp [hpairs, Part.bytes, Part.path, codec], ?_⟩
    intro p hp
    rcases List.mem_pair.mp hp with rfl | rfl
    · exact Part.readable_of_fits (by decide) rfl
    · exact Part.readable_of_fits (by decide) rfl
  let a : Entry := ⟨1, [7]⟩
  let bad := bytes lenFieldSize 9 ++ bytes crcFieldSize (crc32 a.payload + 1).toNat ++ a.payload
  have hbad : decode crc32 bad = .error .checksumMismatch := by
    have hne : (crc32 a.payload).toNat ≠ (crc32 a.payload + 1).toNat := by
      intro heq
      have := UInt32.toNat_inj.mp heq
      simp at this
    have hcrc : value (bytes crcFieldSize (crc32 a.payload + 1).toNat) =
        (crc32 a.payload + 1).toNat := value_bytes_of_lt (crc32 a.payload + 1).toNat_lt
    rw [decode_frame (by simp) (by simp), hcrc]
    exact if_pos hne
  have hdamaged := hstores.update (q := ⟨1, [], bad⟩) rfl
    (Part.readable_of_decode (by simp) hbad rfl)
  obtain ⟨dir', log, hopen, hread⟩ := hdamaged.readAll_openLog (by simp) 25
  refine ⟨_, bad, dir', log, hexec, rfl, ?_, rfl, hbad, hopen, hread, ?_⟩
  · exact SortedList.get_of_mem_pairs (by simp [hpairs])
  · change ¬ [⟨2, [8]⟩] <+: [(⟨1, [7]⟩ : Entry), ⟨2, [8]⟩]
    decide

theorem damaged_record_skipped :
    ∃ w bad dir log, exec (step checksumIEEE) .init [.open 25, .append ⟨1, [7]⟩ [⟨21, none⟩, {}],
        .append ⟨2, [8]⟩ [{}, {}, {}, ⟨21, none⟩, {}], .close [{}, {}]] = some w ∧
      w.entries = [⟨1, [7]⟩, ⟨2, [8]⟩] ∧
      get w.dir (segmentPath 1) = some (encode checksumIEEE ⟨1, [7]⟩) ∧
      bad.length = (encode checksumIEEE ⟨1, [7]⟩).length ∧
      decode checksumIEEE bad = .error .checksumMismatch ∧
      openLog checksumIEEE 25 (put w.dir (segmentPath 1) bad) = .ok (dir, log) ∧
      log.readAll checksumIEEE dir = .ok [⟨2, [8]⟩] ∧ ¬ [⟨2, [8]⟩] <+: w.entries :=
  exists_damaged_record checksumIEEE

section Tail

variable {crc32 : List UInt8 → UInt32}

/-- At a record boundary the tail has a header with a length that no record has. -/
def Unreadable (crc32 : List UInt8 → UInt32) (tail : List UInt8) : Prop :=
  ∃ (es : List Entry) (rest : List UInt8), (∀ e ∈ es, e.Fits) ∧
    tail = (codec crc32).encodeAll es ++ rest ∧ headerSize ≤ rest.length ∧
    (value (rest.take lenFieldSize) < idxFieldSize ∨
      maxPayloadSize < value (rest.take lenFieldSize))

/-- The errors of `Decode` that are not the end of the log. -/
theorem decode_fatal_iff {rest : List UInt8} :
    (∃ err, decode crc32 rest = .error err ∧ err.endsLog = false) ↔ headerSize ≤ rest.length ∧
      (value (rest.take lenFieldSize) < idxFieldSize ∨
        maxPayloadSize < value (rest.take lenFieldSize)) := by
  by_cases hlong : headerSize ≤ rest.length
  · obtain ⟨len, crc, r, rfl, hlen, hcrc⟩ := exists_frame hlong
    have hfield : (len ++ crc ++ r).take lenFieldSize = len := by
      rw [List.append_assoc, List.take_left' hlen]
    rw [decode_frame hlen hcrc, hfield, decodePayload]
    split
    · rename_i hlarge
      exact ⟨fun _ => ⟨hlong, Or.inr hlarge⟩, fun _ => ⟨_, rfl, rfl⟩⟩
    · rename_i hmax
      split
      · rename_i hsmall
        exact ⟨fun _ => ⟨hlong, Or.inl hsmall⟩, fun _ => ⟨_, rfl, rfl⟩⟩
      · rename_i hmin
        refine ⟨?_, fun h => absurd h.2 (not_or.mpr ⟨hmin, hmax⟩)⟩
        rintro ⟨err, herr, hfatal⟩
        split at herr
        · cases herr
          cases hfatal
        · dsimp only at herr
          split at herr
          · cases herr
            cases hfatal
          · cases herr
  · refine ⟨?_, fun h => absurd h.1 hlong⟩
    rintro ⟨err, herr, hfatal⟩
    by_cases hnil : rest = []
    · rw [decode, if_pos hnil] at herr
      cases herr
      cases hfatal
    · rw [decode_short hnil (not_le.mp hlong)] at herr
      cases herr
      cases hfatal

/-- The tail is unreadable when its replay ends with one of these errors. -/
theorem unreadable_iff_of_splits {tail rest : List UInt8} {es : List Entry}
    {err : DecodeError} (h : (codec crc32).Splits tail es rest err) :
    Unreadable crc32 tail ↔ err.endsLog = false := by
  constructor
  · rintro ⟨es', rest', hfits, heq, hheader⟩
    obtain ⟨err', herr, hfatal⟩ := decode_fatal_iff.mpr hheader
    obtain ⟨-, -, rfl⟩ := h.unique ⟨heq, hfits, herr⟩
    exact hfatal
  · intro hfatal
    exact ⟨es, rest, h.fits, h.eq, decode_fatal_iff.mp ⟨err, h.stop, hfatal⟩⟩

/-- A last segment that cannot be replayed makes `Open` fail. -/
theorem openLog_eq_error {dir : Dir} {before : List Part} {id : UInt64} {content : List UInt8}
    {err : String} (hbefore : ∀ p ∈ before, p.Readable crc32)
    (hpairs : dir.pairs =
      before.map (fun p => (p.path, p.bytes crc32)) ++ [(segmentPath id, content)])
    (hreplay : replayFrom crc32 content [] 0 = .error err) (maxSegSz : ℤ) :
    ∃ err', openLog crc32 maxSegSz dir = .error err' := by
  have hglob : glob dir = before.map (·.path) ++ [segmentPath id] := by
    rw [glob_of_forall, hpairs]
    · simp
    · intro x hx
      rw [hpairs] at hx
      rcases List.mem_append.mp hx with hold | hlast
      · obtain ⟨p, -, rfl⟩ := List.mem_map.mp hold
        exact ⟨p.id, rfl⟩
      · exact ⟨id, by rw [List.mem_singleton.mp hlast]⟩
  have hpresent : ∀ p ∈ before, Present crc32 dir p := by
    intro p hp
    refine ⟨hbefore p hp, SortedList.get_of_mem_pairs ?_⟩
    rw [hpairs]
    exact List.mem_append_left _ (List.mem_map_of_mem hp)
  have hget : get dir (segmentPath id) = some content :=
    SortedList.get_of_mem_pairs (by rw [hpairs]; simp)
  rw [openLog, hglob, recoverFrom_append hpresent (by simp), recoverFrom]
  simp [segmentIDFromPath_segmentPath, replayFile, hget, hreplay, Except.mapError, bind,
    Except.bind]

/-- Whatever follows the entries in the last segment, `Open` recovers them and cuts the file at a
record boundary behind them, exactly when the tail is not unreadable and the entries are not too
large. -/
theorem openLog_damaged_tail_iff {dir : Dir} {before : List Part} {id : UInt64} {es : List Entry}
    {tail : List UInt8} (hbefore : ∀ p ∈ before, p.Readable crc32)
    (hpairs : dir.pairs = before.map (fun p => (p.path, p.bytes crc32)) ++
      [(segmentPath id, (codec crc32).encodeAll es ++ tail)]) (maxSegSz : ℤ) :
    (∃ dir' log es', openLog crc32 maxSegSz dir = .ok (dir', log) ∧
      log.readAll crc32 dir' = .ok (before.flatMap (·.records) ++ (es ++ es')) ∧
      get dir' (segmentPath id) = some ((codec crc32).encodeAll (es ++ es')) ∧
      (codec crc32).encodeAll (es ++ es') <+: (codec crc32).encodeAll es ++ tail) ↔
    (∀ e ∈ es, e.Fits) ∧ ¬ Unreadable crc32 tail := by
  obtain ⟨all, rest, err, hsplits⟩ :=
    (codec crc32).exists_splits ((codec crc32).encodeAll es ++ tail)
  obtain ⟨es', rest', err', htail⟩ := (codec crc32).exists_splits tail
  have hsame : (∀ e ∈ es, e.Fits) → all = es ++ es' ∧ rest = rest' ∧ err = err' :=
    fun hfits => hsplits.unique (htail.append hfits)
  rw [unreadable_iff_of_splits htail]
  cases hend : err.endsLog with
  | false =>
      have hreplay := replayFrom_of_splits hsplits [] 0
      rw [hend] at hreplay
      obtain ⟨msg, hmsg⟩ := openLog_eq_error hbefore hpairs hreplay maxSegSz
      constructor
      · rintro ⟨dir', log, -, hopen, -⟩
        rw [hmsg] at hopen
        cases hopen
      · rintro ⟨hfits, hreadable⟩
        obtain ⟨-, -, rfl⟩ := hsame hfits
        exact absurd hend hreadable
  | true =>
      have hpart : (⟨id, all, rest⟩ : Part).bytes crc32 = (codec crc32).encodeAll es ++ tail :=
        hsplits.eq.symm
      have hstores : Stores crc32 dir (before ++ [⟨id, all, rest⟩]) := by
        refine ⟨by simp [hpairs, hpart, Part.path], ?_⟩
        intro p hp
        rcases List.mem_append.mp hp with hold | hlast
        · exact hbefore p hold
        · rw [List.mem_singleton.mp hlast]
          exact ⟨err, hpart.symm ▸ hsplits, hend⟩
      have hopen := hstores.openLog_concat maxSegSz
      obtain ⟨dir', log, hopen', hread⟩ := hstores.readAll_openLog (by simp) maxSegSz
      obtain ⟨rfl, rfl⟩ := Prod.mk.inj (Except.ok.inj (hopen.symm.trans hopen'))
      rw [List.flatMap_append, List.flatMap_singleton] at hread
      constructor
      · rintro ⟨dir', log, more, hopen'', hread', -⟩
        obtain ⟨rfl, rfl⟩ := Prod.mk.inj (Except.ok.inj (hopen.symm.trans hopen''))
        have hall : all = es ++ more :=
          List.append_cancel_left (Except.ok.inj (hread.symm.trans hread'))
        have hfits : ∀ e ∈ es, e.Fits := fun e he => hsplits.fits e (by simp [hall, he])
        obtain ⟨-, -, rfl⟩ := hsame hfits
        exact ⟨hfits, by simp [hend]⟩
      · rintro ⟨hfits, -⟩
        obtain ⟨rfl, -, -⟩ := hsame hfits
        refine ⟨_, _, es', hopen, hread, ?_, ⟨rest, hpart⟩⟩
        rw [show (⟨id, es ++ es', rest⟩ : Part).path = segmentPath id from rfl, get_put_self,
          Part.bytes_whole]

end Tail

/-- Behind a record of the last segment, 13 bytes of the next one. -/
theorem openLog_partial_tail :
    let tail := (encode checksumIEEE ⟨6, [9]⟩).take 13
    let dir : Dir := put (put Store.empty (segmentPath 1) (encode checksumIEEE ⟨4, [7]⟩))
      (segmentPath 2) (encode checksumIEEE ⟨5, [8]⟩ ++ tail)
    ∃ dir' log es', openLog checksumIEEE 25 dir = .ok (dir', log) ∧
      log.readAll checksumIEEE dir' = .ok ([⟨4, [7]⟩] ++ ([⟨5, [8]⟩] ++ es')) ∧
      get dir' (segmentPath 2) = some ((codec checksumIEEE).encodeAll ([⟨5, [8]⟩] ++ es')) ∧
      (codec checksumIEEE).encodeAll ([⟨5, [8]⟩] ++ es') <+:
        (codec checksumIEEE).encodeAll [⟨5, [8]⟩] ++ tail := by
  intro tail dir
  have hbefore : ∀ p ∈ [(⟨1, [⟨4, [7]⟩], []⟩ : Part)], p.Readable checksumIEEE := by
    intro p hp
    rw [List.mem_singleton.mp hp]
    exact Part.readable_of_fits (by decide) rfl
  have hpairs : dir.pairs =
      [(⟨1, [⟨4, [7]⟩], []⟩ : Part)].map (fun p => (p.path, p.bytes checksumIEEE)) ++
      [(segmentPath 2, (codec checksumIEEE).encodeAll [⟨5, [8]⟩] ++ tail)] := by decide +kernel
  have hsplits : (codec checksumIEEE).Splits tail [] tail .payload := .nil (by decide +kernel)
  refine (openLog_damaged_tail_iff hbefore hpairs 25).mpr ⟨by decide, ?_⟩
  rw [unreadable_iff_of_splits hsplits]
  decide

/-- Twelve zero bytes behind a record read as a header whose length is too small, and `Open`
fails. -/
theorem openLog_zero_tail :
    ¬ ∃ dir log, openLog checksumIEEE 1000 (put (Store.empty : Dir) (segmentPath 1)
      (encode checksumIEEE ⟨1, [7]⟩ ++ List.replicate 12 0)) = .ok (dir, log) := by
  generalize checksumIEEE = crc32
  rintro ⟨dir, log, hopen⟩
  have hpairs : (put (Store.empty : Dir) (segmentPath 1) (encode crc32 ⟨1, [7]⟩ ++
      List.replicate 12 0)).pairs = ([] : List Part).map (fun p => (p.path, p.bytes crc32)) ++
        [(segmentPath 1, encode crc32 ⟨1, [7]⟩ ++ List.replicate 12 0)] := rfl
  have hfits : ∀ e ∈ [(⟨1, [7]⟩ : Entry)], e.Fits := by decide
  have hdecode : decode crc32 (List.replicate 12 0) = .error (.tooSmall 0) := rfl
  have hsplits : (codec crc32).Splits (encode crc32 ⟨1, [7]⟩ ++ List.replicate 12 0) [⟨1, [7]⟩]
      (List.replicate 12 0) (.tooSmall 0) :=
    ⟨by simp [codec], hfits, hdecode⟩
  obtain ⟨err, herr⟩ :=
    openLog_eq_error (by simp) hpairs (replayFrom_of_splits hsplits [] 0) 1000
  rw [herr] at hopen
  cases hopen

end VaultFS.Wal
